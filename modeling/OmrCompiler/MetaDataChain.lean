import Mathlib.Data.List.Nodup
import OmrCompiler.MetaData

/-! The chains of the method store: what the loops over a chain find, and what
inserting and removing leave of it. -/
namespace OmrCompiler.MetaData

-- The slots from slot on hold the list, the last entry tagged.
def Holds (words : Nat → Word) : Nat → List Nat → Prop
  | _,[] => False
  | slot,[metaData] => words slot = .tagged metaData
  | slot,metaData::next::rest => words slot = .entry metaData ∧ Holds words (slot + 1) (next::rest)

section
variable {words words' : Nat → Word} {slot slot' fuel x count spot pc : Nat} {m : Nat} {list rest init : List Nat} {extent : Nat → Extent}

theorem Holds.shift (holds : Holds words slot list) (same : ∀ j < list.length, words' (slot' + j) = words (slot + j)) : Holds words' slot' list := by
  induction list generalizing slot slot' with
  | nil => exact holds
  | cons m rest ih =>
      have first := same 0 (by simp)
      simp only [Nat.add_zero] at first
      cases rest with
      | nil =>
          rw [Holds] at *
          rw [first]
          exact holds
      | cons next rest =>
          rw [Holds] at *
          refine ⟨by rw [first]; exact holds.1,ih holds.2 fun j bound => ?_⟩
          have later := same (j + 1) (by simpa using bound)
          rwa [show slot' + (j + 1) = slot' + 1 + j by omega,show slot + (j + 1) = slot + 1 + j by omega] at later

theorem Holds.congr (holds : Holds words slot list) (same : ∀ x, slot ≤ x → x < slot + list.length → words' x = words x) : Holds words' slot list :=
  holds.shift fun j bound => same (slot + j) (by omega) (by omega)

theorem Holds.nonempty (holds : Holds words slot list) : 0 < list.length := by
  cases list with
  | nil => exact holds.elim
  | cons m rest => simp

theorem Holds.notNull (holds : Holds words slot list) (low : slot ≤ x) (high : x < slot + list.length) : words x ≠ .null := by
  induction list generalizing slot with
  | nil => exact holds.elim
  | cons m rest ih =>
      cases rest with
      | nil =>
          have only : x = slot := by
            simp only [List.length_singleton] at high
            omega
          rw [Holds] at holds
          simp [only,holds]
      | cons next rest =>
          rw [Holds] at holds
          by_cases first : x = slot
          · simp [first,holds.1]
          · refine ih holds.2 (by omega) ?_
            simp only [List.length_cons] at high ⊢
            omega

theorem newElementAt (holds : Holds words slot list) (enough : list.length ≤ fuel) : newElement words fuel slot = some (slot + list.length) := by
  induction list generalizing slot fuel with
  | nil => exact holds.elim
  | cons m rest ih =>
      cases fuel with
      | zero => simp at enough
      | succ fuel =>
          cases rest with
          | nil =>
              rw [Holds] at holds
              simp [newElement,holds,lowBitSet]
          | cons next rest =>
              rw [Holds] at holds
              rw [newElement,holds.1,if_neg (by simp [lowBitSet]),ih holds.2 (by simpa using enough)]
              simp only [List.length_cons]
              congr 1
              omega

theorem findInChainAt (holds : Holds words slot list) (enough : list.length ≤ fuel) :
    findInChain extent words pc fuel slot = some (list.find? fun m => (extent m).has pc) := by
  induction list generalizing slot fuel with
  | nil => exact holds.elim
  | cons m rest ih =>
      cases fuel with
      | zero => simp at enough
      | succ fuel =>
          cases rest with
          | nil =>
              rw [Holds] at holds
              cases hit : (extent m).has pc <;> simp [findInChain,holds,hit]
          | cons next rest =>
              rw [Holds] at holds
              rw [findInChain,holds.1]
              simp only
              rw [ih holds.2 (by simpa using enough)]
              cases hit : (extent m).has pc <;> simp [hit]

-- A free slot after the chain: the tagged entry moves there, and the new one takes its slot.
theorem Holds.extend (holds : Holds words slot list) {stop : Nat} (ends : stop = slot + list.length) :
    ∃ list', list'.Perm (m::list) ∧
      Holds (fun x => if x = stop then words (stop - 1) else if x = stop - 1 then .entry m else words x) slot list' := by
  induction list generalizing slot with
  | nil => exact holds.elim
  | cons first rest ih =>
      cases rest with
      | nil =>
          refine ⟨[m,first],List.Perm.refl _,?_⟩
          rw [Holds] at holds
          simp only [List.length_singleton] at ends
          subst ends
          simp [Holds,holds]
      | cons next rest =>
          rw [Holds] at holds
          simp only [List.length_cons] at ends
          obtain ⟨list',perm,later⟩ := ih holds.2 (by simp only [List.length_cons]; omega)
          refine ⟨first::list',(perm.cons first).trans (List.Perm.swap m first (next::rest)),?_⟩
          have tail : list' ≠ [] := by
            intro empty
            rw [empty] at perm
            simp at perm
          obtain ⟨second,others,rfl⟩ := List.exists_cons_of_ne_nil tail
          rw [Holds]
          refine ⟨?_,later⟩
          rw [if_neg (by omega),if_neg (by omega)]
          exact holds.1

-- The last entry has gone, and the one before it is tagged.
theorem Holds.dropLast (holds : Holds words slot (init ++ [m])) (more : init ≠ []) {index : Nat} (ends : index = slot + init.length) :
    Holds (fun x => if x = index then .null else if x = index - 1 then setLowBit (words x) else words x) slot init := by
  induction init generalizing slot with
  | nil => exact absurd rfl more
  | cons first rest ih =>
      simp only [List.length_cons] at ends
      cases rest with
      | nil =>
          simp only [List.length_nil] at ends
          simp only [List.cons_append,List.nil_append,Holds] at holds ⊢
          rw [if_neg (by omega),if_pos (by omega),holds.1]
          rfl
      | cons next rest =>
          simp only [List.cons_append] at holds
          rw [Holds] at holds ⊢
          refine ⟨?_,ih holds.2 (by simp) (by simp only [List.length_cons] at ends ⊢; omega)⟩
          simp only [List.length_cons] at ends
          rw [if_neg (by omega),if_neg (by omega)]
          exact holds.1

-- An entry before the last has gone, and those after it have moved down.
theorem Holds.dropMiddle {front back : List Nat} (holds : Holds words slot (front ++ m::back)) (more : back ≠ []) {index : Nat}
    (ends : index = slot + front.length + back.length) :
    Holds (fun x => if x = index then .null else if slot + front.length ≤ x ∧ x < index then words (x + 1) else words x) slot (front ++ back) := by
  induction front generalizing slot with
  | nil =>
      obtain ⟨next,rest,rfl⟩ := List.exists_cons_of_ne_nil more
      simp only [List.nil_append] at holds ⊢
      rw [Holds] at holds
      refine holds.2.shift fun j bound => ?_
      simp only [List.length_nil,List.length_cons] at ends bound ⊢
      rw [if_neg (by omega),if_pos (by omega),show slot + j + 1 = slot + 1 + j by omega]
  | cons first front ih =>
      simp only [List.length_cons] at ends ⊢
      have tail : front ++ back ≠ [] := by simp [more]
      obtain ⟨second,others,split⟩ := List.exists_cons_of_ne_nil tail
      have tail' : front ++ m::back ≠ [] := by simp
      obtain ⟨second',others',split'⟩ := List.exists_cons_of_ne_nil tail'
      rw [List.cons_append,split',Holds] at holds
      rw [← split'] at holds
      rw [List.cons_append,split,Holds,← split]
      refine ⟨?_,(ih holds.2 (by omega)).congr fun x low high => ?_⟩
      · rw [if_neg (by omega),if_neg (by omega)]
        exact holds.1
      · rw [show slot + 1 + front.length = slot + (front.length + 1) by omega]

theorem findToRemoveAt {last : Nat} (holds : Holds words slot (init ++ [last])) (enough : init.length < fuel) (absent : m ∉ init) :
    findToRemove m words fuel slot count spot = some (slot + init.length,count + init.length,spot) ∧ words (slot + init.length) = .tagged last := by
  induction init generalizing slot fuel count spot with
  | nil =>
      cases fuel with
      | zero => simp at enough
      | succ fuel =>
          simp only [List.nil_append,Holds] at holds
          simp [findToRemove,holds,lowBitSet]
  | cons first rest ih =>
      cases fuel with
      | zero => simp at enough
      | succ fuel =>
          have tail : rest ++ [last] ≠ [] := by simp
          obtain ⟨second,others,split⟩ := List.exists_cons_of_ne_nil tail
          rw [List.cons_append,split,Holds] at holds
          rw [← split] at holds
          have other : first ≠ m := fun same => absent (by simp [same])
          obtain ⟨found,tagged⟩ := @ih (slot + 1) fuel (count + 1) spot holds.2 (by simpa using enough) fun on => absent (by simp [on])
          rw [findToRemove,holds.1,if_neg (by simp [lowBitSet]),if_neg (by simp [other]),found]
          simp only [List.length_cons]
          refine ⟨by simp only [Option.some.injEq,Prod.mk.injEq,and_true]; omega,?_⟩
          rw [← tagged]
          congr 1
          omega

theorem findToRemoveMiddle {front back : List Nat} {last : Nat} (holds : Holds words slot (front ++ m::(back ++ [last])))
    (enough : front.length + back.length + 1 < fuel) (absent : m ∉ back) :
    findToRemove m words fuel slot count spot =
        some (slot + front.length + back.length + 1,count + front.length + back.length + 1,count + front.length + 1) ∧
      words (slot + front.length + back.length + 1) = .tagged last := by
  induction front generalizing slot fuel count spot with
  | nil =>
      cases fuel with
      | zero => simp at enough
      | succ fuel =>
          have tail : back ++ [last] ≠ [] := by simp
          obtain ⟨second,others,split⟩ := List.exists_cons_of_ne_nil tail
          simp only [List.nil_append] at holds
          rw [split,Holds,← split] at holds
          obtain ⟨found,tagged⟩ := @findToRemoveAt words (slot + 1) fuel (count + 1) (count + 1) m back last holds.2
            (by simp only [List.length_nil] at enough; omega) absent
          rw [findToRemove,holds.1,if_neg (by simp [lowBitSet]),if_pos rfl,found]
          simp only [List.length_nil]
          refine ⟨by simp only [Option.some.injEq,Prod.mk.injEq,and_true]; omega,?_⟩
          rw [← tagged]
          congr 1
          omega
  | cons first rest ih =>
      cases fuel with
      | zero => simp at enough
      | succ fuel =>
          have tail : rest ++ m::(back ++ [last]) ≠ [] := by simp
          obtain ⟨second,others,split⟩ := List.exists_cons_of_ne_nil tail
          rw [List.cons_append,split,Holds] at holds
          rw [← split] at holds
          simp only [List.length_cons] at enough
          obtain ⟨found,tagged⟩ := @ih (slot + 1) fuel (count + 1) (if words slot = .entry m then count + 1 else spot) holds.2 (by omega)
          rw [findToRemove,if_neg (by simp [holds.1,lowBitSet]),found]
          simp only [List.length_cons]
          refine ⟨by simp only [Option.some.injEq,Prod.mk.injEq]; omega,?_⟩
          rw [← tagged]
          congr 1
          omega

theorem tidiedAt {block : Nat} (holds : Holds words slot list) :
    (∃ n, list = [n] ∧ tidied block slot words = .changed (.tagged n) fun x => if x = slot then .null else words x) ∨
    2 ≤ list.length ∧ tidied block slot words = .changed (.chain block slot) words := by
  cases list with
  | nil => exact holds.elim
  | cons first rest =>
      cases rest with
      | nil =>
          rw [Holds] at holds
          exact .inl ⟨first,rfl,by simp [tidied,holds,lowBitSet]⟩
      | cons next rest =>
          rw [Holds] at holds
          exact .inr ⟨by simp,by simp [tidied,holds.1,lowBitSet]⟩

/- Removing an entry of a chain: the slots outside the chain stay, and the others
are left in it. -/
theorem removeAt {block : Nat} (holds : Holds words slot list) (several : 2 ≤ list.length) (fits : slot + list.length ≤ storeWords)
    (unique : list.Nodup) (on : m ∈ list) :
    ∃ words' list', removeMetaDataArrayFromHash m block slot words = some (tidied block slot words') ∧ list.Perm (m::list') ∧
      (∀ x, x < slot ∨ slot + list.length ≤ x → words' x = words x) ∧ Holds words' slot list' := by
  have ne : list ≠ [] := by
    intro empty
    simp [empty] at several
  obtain ⟨init,last,rfl⟩ : ∃ init last, list = init ++ [last] := ⟨list.dropLast,list.getLast ne,(List.dropLast_append_getLast ne).symm⟩
  simp only [List.length_append,List.length_singleton] at several fits
  rw [List.nodup_append] at unique
  rcases List.mem_append.mp on with middle | only
  · obtain ⟨front,back,rfl⟩ := List.append_of_mem middle
    have absent : m ∉ back := (List.nodup_cons.mp (List.nodup_append.mp unique.1).2.1).1
    have differ : last ≠ m := fun same => unique.2.2 m middle last (by simp) same.symm
    simp only [List.append_assoc,List.cons_append] at holds
    simp only [List.length_append,List.length_cons] at several fits
    obtain ⟨found,tagged⟩ := @findToRemoveMiddle words slot (storeWords - slot) 0 0 m front back last holds (by omega) absent
    have left := holds.dropMiddle (by simp) (show slot + front.length + back.length + 1 = slot + front.length + (back ++ [last]).length by
      simp only [List.length_append,List.length_singleton]
      omega)
    refine ⟨_,front ++ (back ++ [last]),?_,?_,fun x off => ?_,left⟩
    · unfold removeMetaDataArrayFromHash
      rw [found]
      simp only [Option.bind_eq_bind,Option.bind_some,tagged]
      rw [if_neg (by simp [differ]),if_pos (by omega)]
      simp only [show slot + (0 + front.length + 1) - 1 = slot + front.length by omega]
    · simp only [List.append_assoc,List.cons_append]
      exact List.perm_middle
    · simp only [List.length_append,List.length_cons] at off
      rw [if_neg (by omega),if_neg (by omega)]
  · have same : last = m := (List.mem_singleton.mp only).symm
    subst same
    have absent : last ∉ init := fun among => unique.2.2 last among last (by simp) rfl
    have more : init ≠ [] := by
      intro empty
      simp [empty] at several
    obtain ⟨found,tagged⟩ := @findToRemoveAt words slot (storeWords - slot) 0 0 last init last holds (by omega) absent
    have left := holds.dropLast more rfl
    refine ⟨_,init,?_,List.perm_append_singleton last init,fun x off => ?_,left⟩
    · unfold removeMetaDataArrayFromHash
      rw [found]
      simp only [Option.bind_eq_bind,Option.bind_some,tagged,if_true]
    · simp only [List.length_append,List.length_singleton] at off
      rw [if_neg (by omega),if_neg (by omega)]

end

end OmrCompiler.MetaData
