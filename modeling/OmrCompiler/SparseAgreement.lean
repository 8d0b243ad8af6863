import Mathlib
import OmrCompiler.SparseWalk
import OmrCompiler.SparseEnumeration

/-! Whether a sparse vector shares a bit with another representation, and what the
operations with one come to. -/
namespace OmrCompiler.SparseBits

def lookupMeets (vector : Foreign) (v : List Segment) : Nat → Cursor → Option Bool
  | 0,_ => none
  | fuel + 1,tc => do
      let x ← tc.value
      if vector.valueAt x then some true
      else do
        let (_,tc) ← tc.setToNextOne v
        if tc.valid v then lookupMeets vector v fuel tc else some false

-- Each cursor moves to where the other one is or behind, in turn.
def walkMeets (v : List Segment) : Nat → Cursor → List Nat → Option Bool
  | 0,_,_ => none
  | fuel + 1,tc,ic => do
      let x ← tc.value
      let ic := setToNextOneAfter (previous x) ic
      match ic.head? with
      | none => some false
      | some y =>
          if x = y then some true
          else do
            let (_,tc) ← tc.setToNextOneAfter v (previous y)
            if tc.valid v then do
              let x ← tc.value
              if x = y then some true else walkMeets v fuel tc ic
            else some false

def intersectsForeign (v : List Segment) (vector : Foreign) : Option Bool :=
  if v = [] then some false
  else do
    let tc ← (⟨0,0,0,0,[]⟩ : Cursor).setToFirstOne v
    if vector.hasFastRandomLookup then lookupMeets vector v (populationCount v + 1) tc
    else
      match vector.elements.head? with
      | none => some false
      | some y => do
          let x ← tc.value
          if x < y then do
            let (_,tc) ← tc.setToNextOneAfter v (previous y)
            if tc.valid v then do
              let x ← tc.value
              if x = y then some true else walkMeets v (populationCount v + 1) tc vector.elements
            else some false
          else walkMeets v (populationCount v + 1) tc vector.elements

section
variable {v : List Segment} {tc : Cursor} {a b : List Nat} {x y n limit fuel : Nat}

theorem lookupMeetsAny (vector : Foreign) (well : WellFormed limit v) (ahead : Ahead v tc (x::a)) (enough : a.length < fuel) :
    lookupMeets vector v fuel tc = some ((x::a).any vector.valueAt) := by
  induction fuel generalizing tc x a with
  | zero => omega
  | succ fuel ih =>
      obtain ⟨before,stands⟩ := id ahead
      obtain ⟨tc',ran,next⟩ := nextAhead well ahead
      rw [lookupMeets,stands.value]
      simp only [Option.bind_eq_bind,Option.bind_some,ran,next.valid]
      by_cases here : vector.valueAt x = true
      · rw [if_pos here,List.any_cons,here]
        rfl
      · rw [if_neg here,List.any_cons]
        cases a with
        | nil => simp [here]
        | cons z a =>
            simp only [List.length_cons] at enough
            rw [if_pos (by simp),ih next (by omega)]
            simp [here]

theorem commonHere (x : Nat) (a b : List Nat) : common (x::a) (x::b) ≠ [] := by
  rw [common,List.filter_cons_of_pos (by simp)]
  exact List.cons_ne_nil _ _

-- One move of the sparse cursor, and what follows from there.
theorem moveMeets (well : WellFormed limit v) (ahead : Ahead v tc (x::a)) (less : x < y) (small : y < word) (asc : Ascending (y::b)) {rest : Cursor → Option Bool}
    (onward : ∀ tc' x' a', Ahead v tc' (x'::a') → a'.length < a.length → y < x' → rest tc' = some (decide (common (x'::a') (y::b) ≠ []))) :
    (tc.setToNextOneAfter v (previous y)).bind (fun r => if r.2.valid v then r.2.value.bind fun x => if x = y then some true else rest r.2 else some false) =
      some (decide (common (x::a) (y::b) ≠ [])) := by
  obtain ⟨tc',ran,next⟩ := afterAhead well ahead (Nat.le_of_lt less) (previousNext small)
  have shorter := @dropWhileShorter a x y less
  rw [ran,Option.bind_some,commonDropLeft (Ascending.headLeast asc)]
  cases left : (x::a).dropWhile (· < y) with
  | nil =>
      rw [left] at next
      rw [next.valid]
      simp [common]
  | cons x' a' =>
      rw [left] at next shorter
      obtain ⟨before,stands⟩ := id next
      rw [next.valid,stands.value]
      simp only [List.isEmpty_cons,Bool.not_false,if_true,Option.bind_some]
      have atLeast : y ≤ x' := by
        have head := List.head_dropWhile_not (fun z => decide (z < y)) (by rw [left]; simp : (x::a).dropWhile (· < y) ≠ [])
        simpa [left] using head
      simp only [List.length_cons] at shorter
      split
      · rename_i same
        subst same
        simp [commonHere]
      · exact onward tc' x' a' next (by omega) (by omega)

theorem walkMeetsCommon (well : WellFormed limit v) (ahead : Ahead v tc (x::a)) (asc : Ascending b) (small : ∀ z ∈ b, z < word) (enough : a.length < fuel) :
    walkMeets v fuel tc b = some (decide (common (x::a) b ≠ [])) := by
  induction fuel generalizing tc x a b with
  | zero => omega
  | succ fuel ih =>
      obtain ⟨before,stands⟩ := id ahead
      have smallX := ahead.small well List.mem_cons_self
      have least := Ascending.headLeast (ahead.ascending well)
      have moved : setToNextOneAfter (previous x) b = b.dropWhile (· < x) := by rw [setToNextOneAfter,previousNext smallX]
      rw [walkMeets,stands.value]
      simp only [Option.bind_eq_bind,Option.bind_some,moved]
      rw [commonDropRight least]
      have sub := List.dropWhile_sublist (· < x) (l := b)
      cases left : b.dropWhile (· < x) with
      | nil => simp [commonNone]
      | cons y b' =>
          rw [left] at sub
          have asc' : Ascending (y::b') := asc.sublist sub
          have atLeast : x ≤ y := by
            have head := List.head_dropWhile_not (fun z => decide (z < x)) (by rw [left]; simp : b.dropWhile (· < x) ≠ [])
            simpa [left] using head
          simp only [List.head?_cons]
          split
          · rename_i same
            subst same
            simp [commonHere]
          · exact moveMeets well ahead (by omega) (small y (sub.subset List.mem_cons_self)) asc' fun tc' x' a' next short _ =>
              ih next asc' (fun z on => small z (sub.subset on)) (by omega)

theorem elementsLength (v : List Segment) : (elements v).length = populationCount v := by
  rw [elements,List.length_flatMap,populationCount]
  congr 1
  exact List.map_congr_left fun s _ => by rw [Segment.bits,List.length_map]

theorem intersectsForeignExact (well : WellFormed limit v) (vector : Foreign) :
    ∃ hit, intersectsForeign v vector = some hit ∧ (hit = true ↔ ∃ x, Member v x ∧ x ∈ vector.elements) := by
  unfold intersectsForeign
  split
  · rename_i empty
    subst empty
    exact ⟨_,rfl,by simp⟩
  · rename_i some'
    obtain ⟨tc,ran,ahead⟩ := firstAhead well ⟨0,0,0,0,[]⟩
    have members : ∀ x, x ∈ elements v ↔ Member v x := fun x => memElements well
    have length := elementsLength v
    rw [ran]
    simp only [Option.bind_eq_bind,Option.bind_some]
    obtain ⟨z,on⟩ := (someMember well).mp some'
    obtain ⟨x,a,shape⟩ := List.exists_cons_of_ne_nil (List.ne_nil_of_mem ((members z).mpr on))
    rw [shape] at ahead length
    have asc := ahead.ascending well
    obtain ⟨before,stands⟩ := id ahead
    have shared : common (x::a) vector.elements ≠ [] ↔ ∃ x, Member v x ∧ x ∈ vector.elements := by
      have among : ∀ z, z ∈ common (x::a) vector.elements ↔ Member v z ∧ z ∈ vector.elements := fun z => by
        rw [common,List.mem_filter,← shape,members,decide_eq_true_eq]
      exact ⟨fun some' => (List.exists_mem_of_ne_nil _ some').imp fun z on => (among z).mp on,fun some' => some'.elim fun z on => List.ne_nil_of_mem ((among z).mpr on)⟩
    simp only [List.length_cons] at length
    split
    · refine ⟨_,lookupMeetsAny vector well ahead (by omega),?_⟩
      rw [List.any_eq_true]
      refine exists_congr fun z => ?_
      rw [← shape,members,Foreign.valueAt,decide_eq_true_eq]
    · have walk := fun tc' x' a' (next : Ahead v tc' (x'::a')) (short : a'.length ≤ a.length) =>
        @walkMeetsCommon v tc' a' vector.elements x' limit (populationCount v + 1) well next vector.ascending vector.small (by omega)
      refine ⟨decide (common (x::a) vector.elements ≠ []),?_,by rw [decide_eq_true_eq]; exact shared⟩
      cases others : vector.elements with
      | nil => simp [common]
      | cons y b =>
          have asc' : Ascending (y::b) := others ▸ vector.ascending
          rw [others] at walk
          simp only [List.head?_cons,stands.value,Option.bind_some]
          split
          · rename_i less
            exact moveMeets well ahead less (vector.small y (others ▸ List.mem_cons_self)) asc' fun tc' x' a' next short _ => walk tc' x' a' next (by omega)
          · exact walk tc x a ahead (Nat.le_refl _)

/- What the operations come to. -/

theorem andcForeignWalk (well : WellFormed limit v) (vector : Foreign) :
    ∃ changed o, andcForeign v vector = some (changed,o) ∧ WellFormed limit o ∧
      ((∀ x, Member o x ↔ Member v x ∧ x ∉ vector.elements) ↔ vector.hasFastRandomLookup = true ∨ Steady vector.elements v) ∧
      (changed = true ↔ v ≠ [] ∧ vector.elements = []) ∧
      ((∀ x, Member o x ↔ Member v x) ↔ if vector.hasFastRandomLookup then ∀ x, Member v x → x ∉ vector.elements else Idle vector.elements v) := by
  have noWalk : ∀ {w : List Segment}, (w = [] ∨ vector.elements = []) → ∀ t jc later, ¬ Walks vector.elements w t jc later := by
    rintro w (rfl | empty) t jc later walks
    · exact walksEmpty t jc later walks
    · rw [empty] at walks
      exact noWalks w t jc later walks
  unfold andcForeign
  split
  · rename_i empty
    refine ⟨_,_,rfl,well,?_,by simp [empty],?_⟩
    · exact ⟨fun _ => .inr fun t jc later walks => absurd walks (noWalk (.inl empty) t jc later),fun _ x => by simp [empty]⟩
    · split
      · simp [empty]
      · exact ⟨fun _ t jc later walks => absurd walks (noWalk (.inl empty) t jc later),fun _ _ => Iff.rfl⟩
  · rename_i some'
    split
    · rename_i zero
      have empty : vector.elements = [] := by simpa [Foreign.isZero] using zero
      refine ⟨_,_,rfl,well,?_,by simp [some',empty],?_⟩
      · exact ⟨fun _ => .inr fun t jc later walks => absurd walks (noWalk (.inr empty) t jc later),fun _ x => by simp [empty]⟩
      · split
        · simp [empty]
        · exact ⟨fun _ t jc later walks => absurd walks (noWalk (.inr empty) t jc later),fun _ _ => Iff.rfl⟩
    · rename_i more
      have others : vector.elements ≠ [] := by simpa [Foreign.isZero] using more
      by_cases fast : vector.hasFastRandomLookup = true
      · obtain ⟨o,ran,wellO,-,members⟩ := lookupEach vector fast well vector.elements
        rw [ran]
        refine ⟨_,o,rfl,wellO,iff_of_true members (.inl fast),by simp [others],?_⟩
        rw [if_pos fast]
        constructor
        · exact fun same x on on' => ((members x).mp ((same x).mpr on)).2 on'
        · exact fun apart x => (members x).trans (and_iff_left_of_imp (apart x))
      · obtain ⟨o,ran,walked⟩ := walkEach vector (by simpa using fast) well vector.ascending
        rw [ran]
        refine ⟨_,o,rfl,walked.well,?_,by simp [others],?_⟩
        · rw [or_iff_right fast,← walked.steady]
          constructor
          · exact fun members x on => (members x).trans (and_iff_right on)
          · exact fun members x => ⟨fun on => ⟨walked.within x on,(members x (walked.within x on)).mp on⟩,fun both => (members x both.1).mpr both.2⟩
        · rw [if_neg fast,← walked.idle]
          exact ⟨fun same x => (same x).mpr,fun stays x => ⟨walked.within x,stays x⟩⟩

-- The operation ran and left the bits of P.
def Becomes (ran : Option (List Segment)) (P : Nat → Prop) : Prop := ∃ o, ran = some o ∧ WellFormed halfWord o ∧ ∀ x, Member o x ↔ P x

structure ForeignAgree (a : List Segment) (vector : Foreign) : Prop where
  assigned : Becomes (assignForeign a vector) (· ∈ vector.elements)
  joined : Becomes (orForeign a vector) fun x => Member a x ∨ x ∈ vector.elements
  common : Becomes ((andForeign a vector).map (·.2)) fun x => Member a x ∧ x ∈ vector.elements
  without : Becomes ((andcForeign a vector).map (·.2)) fun x => Member a x ∧ x ∉ vector.elements
  meets : ∃ hit, intersectsForeign a vector = some hit ∧ (hit = true ↔ ∃ x, Member a x ∧ x ∈ vector.elements)

theorem foreignOperations {a : List Segment} (well : WellFormed halfWord a) (vector : Foreign) :
    ForeignAgree a vector ↔ (vector.hasFastRandomLookup = true ∨ Steady vector.elements a) ∧ ¬ Fills a vector := by
  obtain ⟨changed,o,ran,wellO,exact',-,-⟩ := andcForeignWalk well vector
  constructor
  · intro agree
    constructor
    · obtain ⟨o',ran',-,members⟩ := agree.without
      rw [ran] at ran'
      cases ran'
      exact exact'.mp members
    · obtain ⟨o',ran',-⟩ := agree.joined
      rcases orForeignMembers well vector with ⟨none',-⟩ | ⟨-,-,room,-⟩
      · rw [none'] at ran'
        cases ran'
      · exact room
  · rintro ⟨steady,room⟩
    refine ⟨assignForeignMembers a vector,?_,?_,⟨o,by rw [ran]; rfl,wellO,exact'.mpr steady⟩,intersectsForeignExact well vector⟩
    · rcases orForeignMembers well vector with ⟨-,fills⟩ | ⟨o',ran',-,wellO',members⟩
      · exact absurd fills room
      · exact ⟨o',ran',wellO',members⟩
    · obtain ⟨c,o',ran',wellO',members,-⟩ := andForeignMembers well vector
      exact ⟨o',by rw [ran']; rfl,wellO',members⟩

theorem foreignOperationsSample : ForeignAgree [⟨0,4,4,[1,3]⟩] ⟨[2,3],true,by simp,by decide⟩ := by
  refine (foreignOperations (fourWellFormed (by decide) (by unfold Ascending; decide) (by decide) (by decide)) _).mpr ⟨.inl rfl,?_⟩
  rintro ⟨h,-,full⟩
  rcases full 0 (by decide) with inV | inVector
  · simp [Member,Segment.Has,halfWord] at inV
  · simp only [halfWord,List.mem_cons,List.not_mem_nil,or_false] at inVector
    omega

-- The walk takes the 5 of the second segment of the other vector for that of the first.
theorem walkLosesBit : ¬ ForeignAgree [⟨0,4,4,[1,5]⟩] ⟨[1,65541],false,by simp,by decide⟩ := by
  intro agree
  obtain ⟨o,ran,-,members⟩ := agree.without
  have result : (andcForeign [⟨0,4,4,[1,5]⟩] ⟨[1,65541],false,by simp,by decide⟩).map (·.2) = some [] := by decide
  rw [result] at ran
  cases ran
  exact absurd ((members 5).mpr ⟨by simp [Member,Segment.Has,halfWord],by simp⟩) (by simp [Member])

end

end OmrCompiler.SparseBits
