import OmrCompiler.SparseInPlace

/-! The union with another vector in place. -/
namespace OmrCompiler.SparseBits

-- The union with one segment.
def joinSegment (t : Segment) (v : List Segment) : Option (Bool × List Segment) :=
  match findSegment t.index v with
  | some s => do
      let (hit,s) ← orSegment s t
      some (hit,putSegment t.index s v)
  | none => some (true,addSegmentBits t.index t.indices v)

/- With new values from t, a segment that has bits of P already gets all 65536 values. -/
def Completes (P : Nat → Prop) (t : Segment) : Prop :=
  (∃ k, k < halfWord ∧ P (t.index + k)) ∧ (∃ y ∈ t.indices, ¬ P (t.index + y)) ∧ ∀ k, k < halfWord → P (t.index + k) ∨ k ∈ t.indices

-- That happens when the segments are added one by one.
def Overflows : (Nat → Prop) → List Segment → Prop
  | _,[] => False
  | P,t::rest => Completes P t ∨ Overflows (fun x => P x ∨ t.Has x) rest

section
variable {v inputVector rest : List Segment} {s t : Segment} {changed : Bool} {limit x h : Nat} {P Q : Nat → Prop}

theorem Overflows.congr {ts : List Segment} (same : ∀ x, P x ↔ Q x) : Overflows P ts ↔ Overflows Q ts := by
  have equal : P = Q := funext fun x => propext (same x)
  rw [equal]

theorem orEachStep (v : List Segment) (changed : Bool) (t : Segment) (rest : List Segment) :
    orEach v changed (t::rest) = (joinSegment t v).bind fun r => orEach r.2 (r.1 || changed) rest := by
  rw [orEach,joinSegment]
  cases findSegment t.index v with
  | none => simp
  | some s =>
      simp only [Option.bind_eq_bind,Option.bind_assoc,Option.bind_some]

-- The bits of the vector in a segment's place.
theorem Parted.bits {l r : List Segment} {m : Option Segment} {k : Nat} (parts : Parted v (t.index / halfWord) l m r) (small : k < halfWord) :
    Member v (t.index + k) ↔ ∃ s ∈ m, k ∈ s.indices := by
  obtain ⟨high,low⟩ := bitHalves t small
  rw [parts.member (high.trans (indexHigh t).symm),low]

theorem Parted.placed {l r : List Segment} {m m' : Option Segment} (parts : Parted v (t.index / halfWord) l m r) (well : WellFormed limit v)
    (here : ∀ s ∈ m', s.highBits = t.highBits ∧ Formed limit s) :
    WellFormed limit (l ++ (m'.toList ++ r)) ∧
      ∀ x, Member (l ++ (m'.toList ++ r)) x ↔ if x / halfWord = t.highBits then ∃ s ∈ m', x % halfWord ∈ s.indices else Member v x := by
  rw [indexHigh] at parts
  refine ⟨parts.wellFormed well here,fun x => ?_⟩
  split
  · rename_i same
    exact (parts.replace fun s on => (here s on).1).member same
  · rename_i differ
    exact parts.elsewhere (fun s on => (here s on).1) differ

theorem Carries.placed {l r : List Segment} {m : Option Segment} {s' : Segment} (parts : Parted v (t.index / halfWord) l m r) (well : WellFormed limit v)
    (carries : Carries limit s' t.highBits P) (some' : ∃ y, P y) :
    WellFormed limit (l ++ s'::r) ∧ ∀ x, Member (l ++ s'::r) x ↔ if x / halfWord = t.highBits then P (x % halfWord) else Member v x := by
  obtain ⟨y,holds⟩ := some'
  have here : ∀ s ∈ some s', s.highBits = t.highBits ∧ Formed limit s := by
    intro s on
    cases on
    exact ⟨carries.high,carries.formed (List.ne_nil_of_mem ((carries.members y).mpr holds))⟩
  have put := parts.placed well here
  simpa [carries.members] using put

theorem joinSegmentMembers (well : WellFormed limit v) (formed : Formed limit t) (large : kSegmentMask ≤ limit) :
    (joinSegment t v = none ∧ Completes (Member v) t) ∨ ∃ hit o, joinSegment t v = some (hit,o) ∧ ¬ Completes (Member v) t ∧ WellFormed limit o ∧
      (∀ x, Member o x ↔ Member v x ∨ t.Has x) ∧ (hit = true ↔ ∃ x, t.Has x ∧ ¬ Member v x) := by
  obtain ⟨l,m,r,parts⟩ := parted well.ascending (t.index / halfWord)
  have bits : ∀ k, k < halfWord → (Member v (t.index + k) ↔ ∃ s ∈ m, k ∈ s.indices) := fun k small => parts.bits small
  have there : ∀ x, x / halfWord = t.highBits → (Member v x ↔ ∃ s ∈ m, x % halfWord ∈ s.indices) := fun x same => parts.member (same.trans (indexHigh t).symm)
  rw [joinSegment,parts.find]
  cases m with
  | none =>
      have made : addSegmentBits t.index t.indices v = l ++ Segment.mk t.highBits (t.indices.length % halfWord) t.indices.length t.indices::r := by
        rw [parts.addBits]
        simp only [added,allocate,indexHigh]
      have carries : Carries limit (Segment.mk t.highBits (t.indices.length % halfWord) t.indices.length t.indices) t.highBits (· ∈ t.indices) :=
        ⟨rfl,fun _ => formed.copied,fun y => Iff.rfl⟩
      obtain ⟨y,on⟩ := List.exists_mem_of_ne_nil _ formed.nonempty
      obtain ⟨wellO,members⟩ := carries.placed parts well ⟨y,on⟩
      rw [← made] at wellO members
      refine .inr ⟨_,_,rfl,?_,wellO,fun x => (members x).trans ?_,⟨fun _ => ⟨t.index + y,(hasBit (formed.small y on)).mpr on,?_⟩,fun _ => rfl⟩⟩
      · rintro ⟨⟨k,small,old⟩,-⟩
        simpa using (bits k small).mp old
      · split
        · rename_i same
          rw [there x same]
          simp [Segment.Has,same]
        · rename_i differ
          simp [Segment.Has,Ne.symm differ]
      · simp [bits y (formed.small y on)]
  | some s =>
      have same : s.highBits = t.highBits := (parts.here s rfl).trans (indexHigh t)
      have formedS := well.formed s (parts.shape ▸ List.mem_append_right _ (by simp))
      obtain ⟨y0,on0⟩ := List.exists_mem_of_ne_nil _ formedS.nonempty
      have bits' : ∀ k, k < halfWord → (Member v (t.index + k) ↔ k ∈ s.indices) := fun k small => (bits k small).trans (by simp)
      have new : (∃ y ∈ t.indices, ¬ Member v (t.index + y)) ↔ ∃ y, y ∈ t.indices ∧ y ∉ s.indices :=
        exists_congr fun y => and_congr_right fun on => not_congr (bits' y (formed.small y on))
      have full : (∀ k, k < halfWord → Member v (t.index + k) ∨ k ∈ t.indices) ↔ Full s.indices (· ∈ t.indices) :=
        forall_congr' fun k => imp_congr_right fun small => or_congr_left (bits' k small)
      have old : ∃ k, k < halfWord ∧ Member v (t.index + k) := ⟨y0,formedS.small y0 on0,(bits' y0 (formedS.small y0 on0)).mpr on0⟩
      simp only [Option.bind_eq_bind]
      rcases orSegmentUnion formedS formed same large with ⟨none',all,some'⟩ | ⟨c,s',ran,joined⟩
      · rw [none']
        exact .inl ⟨rfl,old,new.mpr some',full.mpr all⟩
      · rw [ran,Option.bind_some,parts.put]
        have carries : Carries limit s' t.highBits (fun y => y ∈ s.indices ∨ y ∈ t.indices) := same ▸ joined.carries
        obtain ⟨wellO,members⟩ := carries.placed parts well ⟨y0,.inl on0⟩
        refine .inr ⟨_,_,rfl,fun completes => ?_,wellO,fun x => (members x).trans ?_,joined.flag.trans ?_⟩
        · exact joined.room (joined.flag.mpr (new.mp completes.2.1)) (full.mp completes.2.2)
        · split
          · rename_i same'
            rw [there x same']
            simp [Segment.Has,same']
          · rename_i differ
            simp [Segment.Has,Ne.symm differ]
        · rw [← new]
          exact existsBit formed (fun x => ¬ Member v x) fun x has => by rw [has.whole]

theorem orEachMembers {ts : List Segment} (well : WellFormed limit v) (formed : ∀ t ∈ ts, Formed limit t) (large : kSegmentMask ≤ limit) :
    (orEach v changed ts = none ∧ Overflows (Member v) ts) ∨ ∃ c o, orEach v changed ts = some (c,o) ∧ ¬ Overflows (Member v) ts ∧ WellFormed limit o ∧
      (∀ x, Member o x ↔ Member v x ∨ Member ts x) ∧ (c = true ↔ changed = true ∨ ∃ x, Member ts x ∧ ¬ Member v x) := by
  induction ts generalizing v changed with
  | nil => exact .inr ⟨changed,v,rfl,id,well,by simp,by simp⟩
  | cons t ts ih =>
      have formed' : ∀ t ∈ ts, Formed limit t := fun u on => formed u (List.mem_cons_of_mem _ on)
      rw [orEachStep,Overflows]
      rcases joinSegmentMembers well (formed t List.mem_cons_self) large with ⟨none',completes⟩ | ⟨hit,o,ran,room,wellO,members,flag⟩
      · rw [none']
        exact .inl ⟨rfl,.inl completes⟩
      · rw [ran,Option.bind_some,← Overflows.congr members]
        rcases @ih o (hit || changed) wellO formed' with ⟨none',overflows⟩ | ⟨c,o',ran',room',wellO',members',flag'⟩
        · exact .inl ⟨none',.inr overflows⟩
        · refine .inr ⟨c,o',ran',fun either => either.elim room room',wellO',fun x => ?_,flag'.trans ?_⟩
          · rw [members',members,memberCons,or_assoc]
          · simp only [Bool.or_eq_true,flag,members,memberCons]
            constructor
            · rintro ((⟨x,has,missing⟩ | old) | ⟨x,there,missing⟩)
              · exact .inr ⟨x,.inl has,missing⟩
              · exact .inl old
              · exact .inr ⟨x,.inr there,fun on => missing (.inl on)⟩
            · rintro (old | ⟨x,has | there,missing⟩)
              · exact .inl (.inr old)
              · exact .inl (.inl ⟨x,has,missing⟩)
              · by_cases has : t.Has x
                · exact .inl (.inl ⟨x,has,missing⟩)
                · exact .inr ⟨x,there,fun either => either.elim missing has⟩

/- When the union has no room. -/

-- All 65536 values of the high bits.
def Whole (P : Nat → Prop) (h : Nat) : Prop := ∀ k, k < halfWord → P (h * halfWord + k)

-- Segments that lack a value themselves.
theorem overflowsShort {ts : List Segment} (formed : ∀ t ∈ ts, Formed limit t) (short : ∀ t ∈ ts, t.indices.length < halfWord) :
    Overflows P ts ↔ ∃ h, ¬ Whole P h ∧ Whole (fun x => P x ∨ Member ts x) h := by
  induction ts generalizing P with
  | nil => simp [Overflows]
  | cons t ts ih =>
      have formedT := formed t List.mem_cons_self
      rw [Overflows,ih (fun u on => formed u (List.mem_cons_of_mem _ on)) fun u on => short u (List.mem_cons_of_mem _ on)]
      simp only [memberCons,or_assoc]
      -- A segment gets whole by t only if it had bits.
      have wholeNow : ∀ h, ¬ Whole P h → Whole (fun x => P x ∨ t.Has x) h → Completes P t := by
        intro h lacks whole
        simp only [Whole,not_forall] at lacks
        obtain ⟨k,less,missing⟩ := lacks
        have has := (whole k less).resolve_left missing
        have high := has.1
        have positive : 0 < halfWord := by decide
        rw [Nat.mul_comm,Nat.mul_add_div positive,Nat.div_eq_of_lt less,Nat.add_zero] at high
        subst high
        refine ⟨?_,⟨k,(hasBit less).mp has,missing⟩,fun k less => (whole k less).imp_right (hasBit less).mp⟩
        obtain ⟨k',less',lacks'⟩ : ∃ k, k < halfWord ∧ k ∉ t.indices := by
          by_contra none'
          have full : Full t.indices (fun _ => False) := fun k less => .inl (by by_contra off; exact none' ⟨k,less,off⟩)
          have long := full.long fun k either => either.resolve_right id
          have shorter := short t List.mem_cons_self
          omega
        exact ⟨k',less',(whole k' less').resolve_right fun has => lacks' ((hasBit less').mp has)⟩
      constructor
      · rintro (⟨-,⟨y,on,missing⟩,all⟩ | ⟨h,lacks,whole⟩)
        · refine ⟨t.highBits,fun whole => missing (whole y (formedT.small y on)),fun k less => ?_⟩
          exact (all k less).imp_right fun on => .inl ((hasBit less).mpr on)
        · exact ⟨h,fun whole => lacks fun k less => .inl (whole k less),whole⟩
      · rintro ⟨h,lacks,whole⟩
        by_cases now : Whole (fun x => P x ∨ t.Has x) h
        · exact .inl (wholeNow h lacks now)
        · exact .inr ⟨h,now,whole⟩

/- The union of two vectors. -/

end

end OmrCompiler.SparseBits
