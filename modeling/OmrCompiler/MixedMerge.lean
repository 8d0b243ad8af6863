import OmrCompiler.MixedIntersect

/-! What an Int32 constraint merged with an Int64 constraint comes to, and when
merge and intersect keep what they promise. -/
namespace OmrCompiler.MixedConstraint
open MachineInt Constraint IntervalList

theorem intRangeMade {low high : Int} (bottom : -2147483648 ≤ low) (less : low ≤ high) (top : high ≤ 2147483647)
    (part : ¬ (low = -2147483648 ∧ high = 2147483647)) :
    ∃ c, intRange low high = some c ∧ c.type = .Int32 ∧ c.getLow = low ∧ c.getHigh = high := by
  have number := typeLimits
  unfold intRange
  rw [wrapInt bottom (by omega),wrapInt (by omega) top]
  cases made : rangeOf .Int32 low high with
  | none =>
      have whole := rangeOfFull made
      omega
  | some c => exact ⟨c,rfl,rangeOfBounds made⟩

theorem intRangeWhole : intRange (-2147483648) 2147483647 = none := by decide

theorem pairFormed {x y : IntegralConstraint} :
    WellFormed (VPMergedConstraints.create2 x y) ↔ x.getLow ≤ x.getHigh ∧ y.getLow ≤ y.getHigh ∧ x.getHigh < y.getLow := by
  simp [WellFormed,VPMergedConstraints.create2,and_assoc]

theorem pairHolds (x y : IntegralConstraint) (v : Int) :
    (VPMergedConstraints.create2 x y).Contains v ↔ x.Contains v ∨ y.Contains v := by
  simp [VPMergedConstraints.create2,VPConstraint.Contains]

theorem singleMerge {a b : IntegralConstraint} (left : a.Valid .Int32) (right : b.Valid .Int64) :
    MergeRight (.integral a) (.integral b) (.constraint (intMerge1 a b)) ↔
      ¬ (a.getHigh = maxSigned 32 ∧ minSigned 32 < b.getLow ∧ b.getHigh ≤ maxSigned 32 ∧ a.getLow ≤ b.getHigh) := by
  have number := limits
  have number' := typeLimits
  obtain ⟨_,bottom,less,top⟩ := left
  obtain ⟨_,_,less',_⟩ := right
  simp only [MergeRight]
  unfold intMerge1
  split
  · rename_i outside
    simp only [outsideInt,decide_eq_true_eq] at outside
    exact iff_of_true nofun (by omega)
  · rename_i inside
    simp only [outsideInt,decide_eq_true_eq] at inside
    dsimp only
    have joined : ∀ c, (intRange (if b.getLow < a.getLow then b.getLow else a.getLow)
        (if b.getHigh ≤ a.getHigh then a.getHigh else b.getHigh)).map VPConstraint.integral = some c →
        WellFormed c ∧ ∀ v, (VPConstraint.integral a).Contains v ∨ (VPConstraint.integral b).Contains v → c.Contains v := by
      intro c made
      obtain ⟨d,range,rfl⟩ := Option.map_eq_some_iff.mp made
      have kept := rangeOfBounds range
      rw [wrapInt (by split <;> omega) (by split <;> omega),wrapInt (by split <;> omega) (by split <;> omega)] at kept
      simp only [WellFormed,VPConstraint.Contains,IntegralConstraint.Contains,kept.2.1,kept.2.2]
      refine ⟨by split <;> split <;> omega,fun v => ?_⟩
      split <;> split <;> omega
    by_cases last : a.getHigh = 2147483647
    · -- The overlap test reads the least int.
      have wraps : wrap 32 (a.getHigh + 1) = -2147483648 := by rw [last]; decide
      rw [wraps]
      split
      · refine iff_of_true ?_ (by omega)
        split
        · nofun
        · exact joined
      · obtain ⟨c,made,_,low,high⟩ := @intRangeMade b.getLow b.getHigh (by omega) less' (by omega) (by omega)
        rw [made]
        split
        · constructor
          · intro right
            have shape := pairFormed.mp (right _ rfl).1
            omega
          · intro apart d same
            cases same
            refine ⟨pairFormed.mpr (by omega),fun v values => (pairHolds c a v).mpr ?_⟩
            simp only [VPConstraint.Contains,IntegralConstraint.Contains] at values ⊢
            omega
        · constructor
          · intro right
            have shape := pairFormed.mp (right _ rfl).1
            omega
          · intro apart
            omega
    · refine iff_of_true ?_ (by omega)
      rw [wrapInt (by omega) (by omega)]
      split
      · split
        · nofun
        · exact joined
      · rw [if_neg (by omega)]
        obtain ⟨c,made,_,low,high⟩ := @intRangeMade b.getLow b.getHigh (by omega) less' (by omega) (by omega)
        rw [made]
        intro d same
        cases same
        refine ⟨pairFormed.mpr (by omega),fun v values => (pairHolds a c v).mpr ?_⟩
        simp only [VPConstraint.Contains,IntegralConstraint.Contains] at values ⊢
        omega

-- A list of longs takes in an int as the long of the same bounds.
theorem longMergeRight {a : IntegralConstraint} {list : List IntegralConstraint} (left : a.Valid .Int32)
    (right : VPConstraint.Canonical .Int64 list) : MergeRight (.integral a) (.merged list) (longMerge list [a]) := by
  have number := limits
  have number' := typeLimits
  obtain ⟨_,low,less,high⟩ := left
  obtain ⟨w,made,type,atLow,atHigh⟩ := @longRangeMade a.getLow a.getHigh ⟨by omega,by omega⟩
  have wide : (VPConstraint.integral w).Valid .Int64 := ⟨type,by omega,by omega,by omega⟩
  have others : [a].filterMap widen = (VPConstraint.integral w).entries := by
    simp [widen,made,VPConstraint.entries]
  have whole : (VPConstraint.merged list).Valid .Int64 := right
  have union := ConstraintMerge.listMergeUnion whole wide
  intro c result
  rw [others] at result
  refine ⟨validFormed (union.valid c result),fun v values => ?_⟩
  have covered := union.covers v (by
    rcases values with inA | inB
    · exact .inr ⟨by have := inA.1; omega,by have := inA.2; omega⟩
    · exact .inl inB)
  change Allows .Int64 (ConstraintMerge.listMerge .Int64 list (VPConstraint.integral w).entries) v at covered
  rw [result] at covered
  exact covered

/- The list loop as a fold. An entry is marked when it is a long. -/
abbrev Entry := Bool × IntegralConstraint

abbrev low (e : Entry) : Int := e.2.getLow

abbrev high (e : Entry) : Int := e.2.getHigh

-- An int comes before a long of the same lower bound.
def before (a b : Entry) : Bool := low a < low b ∨ (low a = low b ∧ (a.1 = false ∨ b.1 = true))

def ordered (list others : List IntegralConstraint) : List Entry := List.merge (list.map (false,·)) (others.map (true,·)) before

def take (result : Entries) (e : Entry) : Except Stop Entries := if e.1 then takeLong result e.2 else takeInt result e.2

theorem loopFold (list others : List IntegralConstraint) (result : Entries) :
    intMergeLoop list others result = (ordered list others).foldlM take result := by
  unfold ordered
  fun_induction intMergeLoop list others result with
  | case1 result => simp [pure,Except.pure]
  | case2 cur next result ih => simpa [List.foldlM_cons,take] using congrArg _ (funext ih)
  | case3 otherCur otherNext result ih => simpa [List.foldlM_cons,take] using congrArg _ (funext ih)
  | case4 cur next otherCur otherNext result first ih =>
      rw [List.map_cons,List.map_cons,List.cons_merge_cons_pos _ _ _ (by simp [before,low]; omega),List.foldlM_cons]
      exact congrArg _ (funext ih)
  | case5 cur next otherCur otherNext result first ih =>
      rw [List.map_cons,List.map_cons,List.cons_merge_cons_neg _ _ _ (by simp [before,low]; omega),List.foldlM_cons]
      exact congrArg _ (funext ih)

theorem orderedMember {list others : List IntegralConstraint} {e : Entry} :
    e ∈ ordered list others ↔ (e.1 = false ∧ e.2 ∈ list) ∨ (e.1 = true ∧ e.2 ∈ others) := by
  obtain ⟨mark,c⟩ := e
  simp only [ordered,List.mem_merge,List.mem_map,Prod.mk.injEq]
  cases mark <;> simp

theorem orderedPairs {list others : List IntegralConstraint} (left : Ascending (·.getLow) list) (right : Ascending (·.getLow) others) :
    (ordered list others).Pairwise (fun a b => before a b = true) := by
  have same : ∀ (mark : Bool) {xs : List IntegralConstraint}, Ascending (·.getLow) xs →
      (xs.map (mark,·)).Pairwise (fun a b => before a b = true) := by
    intro mark xs ascending
    refine List.pairwise_map.mpr (ascending.imp fun {x y} le => ?_)
    have step : x.getLow ≤ y.getLow := le
    simp only [before,low,decide_eq_true_eq]
    cases mark <;> simp <;> omega
  refine List.pairwise_merge ?_ ?_ _ _ (same false left) (same true right)
  · intro a b c
    simp only [before,decide_eq_true_eq]
    rintro (ab | ⟨ab,mark⟩) (bc | ⟨bc,mark'⟩)
    · left; omega
    · left; omega
    · left; omega
    · right
      refine ⟨by omega,?_⟩
      rcases mark with int | long
      · exact .inl int
      · rcases mark' with int' | long'
        · rw [long] at int'
          contradiction
        · exact .inr long'
  · intro a b
    simp only [before,Bool.or_eq_true,decide_eq_true_eq]
    rcases Int.lt_trichotomy (low a) (low b) with less | same | more
    · exact .inl (.inl less)
    · cases mark : a.1 with
      | false => exact .inl (.inr ⟨same,.inl rfl⟩)
      | true => exact .inr (.inr ⟨same.symm,.inr rfl⟩)
    · exact .inr (.inl more)

-- An entry of the result: an int range that is not the whole type.
def Fine (e : Entry) : Prop := e.2.Valid .Int32 ∧ ¬ (low e = -2147483648 ∧ high e = 2147483647)

-- What merge1 makes of a long that touches the last result.
def longJoin (last x : IntegralConstraint) : Option IntegralConstraint :=
  if last.getLow = minSigned 32 ∧ x.getHigh = maxSigned 32 then none
  else intRange (if x.getLow < last.getLow then x.getLow else last.getLow) (if x.getHigh ≤ last.getHigh then last.getHigh else x.getHigh)

def joinEntry (last x : Entry) : Option Entry :=
  (if x.1 then longJoin last.2 x.2 else ConstraintMerge.mergeEntry .Int32 last.2 x.2).map (false,·)

theorem longJoined {a b : IntegralConstraint} (fineA : a.Valid .Int32) (fineB : b.Valid .Int32) (order : a.getLow ≤ b.getLow) :
    (longJoin a b = none ∧ a.getLow = -2147483648 ∧ max a.getHigh b.getHigh = 2147483647) ∨
    (∃ c, longJoin a b = some c ∧ c.Valid .Int32 ∧ c.getLow = a.getLow ∧ c.getHigh = max a.getHigh b.getHigh ∧
      ¬ (c.getLow = -2147483648 ∧ c.getHigh = 2147483647)) := by
  have number := limits
  have number' := typeLimits
  obtain ⟨_,bottom,less,top⟩ := fineA
  obtain ⟨_,bottom',less',top'⟩ := fineB
  have lowSame : (if b.getLow < a.getLow then b.getLow else a.getLow) = a.getLow := by split <;> omega
  have highSame : (if b.getHigh ≤ a.getHigh then a.getHigh else b.getHigh) = max a.getHigh b.getHigh := by split <;> omega
  unfold longJoin
  rw [lowSame,highSame]
  by_cases whole : a.getLow = -2147483648 ∧ max a.getHigh b.getHigh = 2147483647
  · refine .inl ⟨?_,whole⟩
    split
    · rfl
    · rw [whole.1,whole.2]
      exact intRangeWhole
  · rw [if_neg (by omega)]
    obtain ⟨c,made,type,low,high⟩ := @intRangeMade a.getLow (max a.getHigh b.getHigh) (by omega) (by omega) (by omega) whole
    exact .inr ⟨c,made,⟨type,by omega,by omega,by omega⟩,low,high,by omega⟩

theorem intJoined {a b : IntegralConstraint} (fineA : Fine (false,a)) (fineB : b.Valid .Int32) (order : a.getLow ≤ b.getLow)
    (touch : b.getLow ≤ a.getHigh + 1) :
    (ConstraintMerge.mergeEntry .Int32 a b = none ∧ a.getLow = -2147483648 ∧ max a.getHigh b.getHigh = 2147483647) ∨
    (∃ c, ConstraintMerge.mergeEntry .Int32 a b = some c ∧ c.Valid .Int32 ∧ c.getLow = a.getLow ∧ c.getHigh = max a.getHigh b.getHigh ∧
      ¬ (c.getLow = -2147483648 ∧ c.getHigh = 2147483647)) := by
  have number := typeLimits
  obtain ⟨validA,part⟩ := fineA
  change a.Valid .Int32 at validA
  change ¬ (a.getLow = -2147483648 ∧ a.getHigh = 2147483647) at part
  have joining := ConstraintMerge.mergeEntryJoining .Int32
  cases made : ConstraintMerge.mergeEntry .Int32 a b with
  | none =>
      have whole := joining.none validA fineB order touch made
      exact .inl ⟨rfl,by omega,by omega⟩
  | some c =>
      obtain ⟨validC,lowC,highC⟩ := joining.some validA fineB order touch made
      refine .inr ⟨c,rfl,validC,lowC,highC,fun whole => ?_⟩
      have ⟨_,bottom,less,top⟩ := validA
      have ⟨_,bottom',less',top'⟩ := fineB
      -- The merge of a part up to the whole type would have been NULL.
      have more : a.getHigh < b.getHigh := by omega
      unfold ConstraintMerge.mergeEntry at made
      rw [if_neg (fun same => by rw [same] at more; omega),ConstraintMerge.integralMerge1,if_neg (by omega),ConstraintMerge.mergeOrdered,
        if_neg (by omega),if_pos touch,if_pos (by omega)] at made
      cases made

theorem joiningEntries : Joining low high (-2147483648) 2147483647 Fine joinEntry := by
  have number := typeLimits
  have cases' : ∀ {a b : Entry}, Fine a → Fine b → low a ≤ low b → low b ≤ high a + 1 →
      (joinEntry a b = none ∧ low a = -2147483648 ∧ max (high a) (high b) = 2147483647) ∨
      (∃ c : IntegralConstraint, joinEntry a b = some (false,c) ∧ c.Valid .Int32 ∧ c.getLow = low a ∧ c.getHigh = max (high a) (high b) ∧
        ¬ (c.getLow = -2147483648 ∧ c.getHigh = 2147483647)) := by
    rintro ⟨markA,a⟩ ⟨markB,b⟩ fineA fineB order touch
    unfold joinEntry
    cases markB with
    | true =>
        rcases longJoined fineA.1 fineB.1 order with ⟨made,whole⟩ | ⟨c,made,rest⟩
        · exact .inl ⟨by simp [made],whole⟩
        · exact .inr ⟨c,by simp [made],rest⟩
    | false =>
        rcases intJoined fineA fineB.1 order touch with ⟨made,whole⟩ | ⟨c,made,rest⟩
        · exact .inl ⟨by simp [made],whole⟩
        · exact .inr ⟨c,by simp [made],rest⟩
  refine ⟨fun {a} fine => ?_,fun {a b j} fineA fineB order touch made => ?_,fun {a b} fineA fineB order touch made => ?_⟩
  · have ⟨_,bottom,less,top⟩ := fine.1
    simp only [low,high]
    omega
  · rcases cases' fineA fineB order touch with ⟨none',_⟩ | ⟨c,some',valid,lowC,highC,part⟩
    · rw [made] at none'
      contradiction
    · rw [made] at some'
      cases some'
      exact ⟨⟨valid,part⟩,lowC,highC⟩
  · rcases cases' fineA fineB order touch with ⟨_,whole⟩ | ⟨c,some',_⟩
    · exact whole
    · rw [made] at some'
      contradiction

def embed (acc : List Entry) : Entries := acc.map fun e => some (.integral e.2)

-- A fold step in terms of the result so far, NULL where the join gives up.
def stepped (made : Option (List Entry)) : Except Stop Entries :=
  match made with
  | none => .error .null
  | some acc => .ok (embed acc)

theorem takeIntStep {acc xs : List Entry} {cur : IntegralConstraint} (growing : Growing low high Fine acc ((false,cur) :: xs))
    (fine : Fine (false,cur)) : takeInt (embed acc) cur = stepped (push low high 2147483647 joinEntry acc (false,cur)) := by
  have number := limits
  match acc, growing with
  | [], _ => rfl
  | last :: rest, growing =>
      have fineLast := growing.inside last List.mem_cons_self
      have order : last.2.getLow ≤ cur.getLow := growing.below last List.mem_cons_self (false,cur) List.mem_cons_self
      have ⟨_,bottom,less,top⟩ := fine.1
      have number' := typeLimits
      simp only [embed,List.map_cons,takeInt,push,low,high]
      rw [number.2.1]
      split
      · rename_i near
        change cur.getLow ≤ cur.getHigh at less
        change cur.getHigh ≤ DataType.Int32.getMaxSigned at top
        have touch : cur.getLow ≤ last.2.getHigh + 1 := by omega
        have merges : ConstraintMerge.merge (.integral last.2) (.integral cur) =
            (ConstraintMerge.mergeEntry .Int32 last.2 cur).map .integral := by
          have typeLast : last.2.type = .Int32 := fineLast.1.1
          have typeCur : cur.type = .Int32 := fine.1.1
          unfold ConstraintMerge.merge ConstraintMerge.mergeEntry
          by_cases same : last.2 = cur
          · rw [if_pos (by rw [same]),if_pos same]
            rfl
          · rw [if_neg (by simpa using same),if_neg same,if_neg (by simp [VPConstraint.priority,typeLast,typeCur])]
            have run : ConstraintMerge.merge1 (.integral last.2) (.integral cur) = ConstraintMerge.integralMerge1 .Int32 last.2 cur := by
              simp only [ConstraintMerge.merge1,typeLast]
              rfl
            rw [run]
            rcases ConstraintMerge.integralMerge1Touching fineLast.1 order touch with ⟨c,made,type,_⟩ | ⟨made,_⟩
            · simp [made,VPConstraint.asIntegral,type]
            · simp [made]
        rw [merges]
        unfold joinEntry
        cases made : ConstraintMerge.mergeEntry .Int32 last.2 cur with
        | none => simp [stepped,join]
        | some c => simp [stepped,join,embed]
      · rfl

-- A long inside the int range and not the whole of it, as the int it becomes.
theorem narrowed {c : IntegralConstraint} (valid : c.Valid .Int64) (inside : outsideInt c = false)
    (part : ¬ (c.getLow = -2147483648 ∧ c.getHigh = 2147483647)) :
    ∃ d, intRange c.getLow c.getHigh = some d ∧ Fine (true,d) ∧ d.getLow = c.getLow ∧ d.getHigh = c.getHigh := by
  have number := limits
  have number' := typeLimits
  obtain ⟨_,_,less,_⟩ := valid
  simp only [outsideInt,decide_eq_false_iff_not] at inside
  obtain ⟨d,made,type,atLow,atHigh⟩ := @intRangeMade c.getLow c.getHigh (by omega) less (by omega) part
  refine ⟨d,made,⟨⟨type,?_,?_,?_⟩,?_⟩,atLow,atHigh⟩
  · show DataType.Int32.getMinSigned ≤ d.getLow
    omega
  · show d.getLow ≤ d.getHigh
    omega
  · show d.getHigh ≤ DataType.Int32.getMaxSigned
    omega
  · show ¬ (d.getLow = -2147483648 ∧ d.getHigh = 2147483647)
    omega

theorem takeLongStep {acc xs : List Entry} {c d : IntegralConstraint} (growing : Growing low high Fine acc ((true,c) :: xs))
    (inside : outsideInt c = false) (made : intRange c.getLow c.getHigh = some d) (atLow : d.getLow = c.getLow)
    (atHigh : d.getHigh = c.getHigh) (clear : ∀ last ∈ acc.head?, high last ≠ 2147483647) :
    takeLong (embed acc) c = stepped (push low high 2147483647 joinEntry acc (true,d)) := by
  have number := limits
  cases acc with
  | nil => simp [embed,takeLong,inside,made,push,stepped]
  | cons last rest =>
      obtain ⟨_,bottom,less,top⟩ := (growing.inside last List.mem_cons_self).1
      have number' := typeLimits
      have room : last.2.getHigh ≠ 2147483647 := clear last rfl
      have order : last.2.getLow ≤ c.getLow := growing.below last List.mem_cons_self (true,c) List.mem_cons_self
      simp only [embed,List.map_cons,takeLong,push,low,high,atLow]
      rw [number.2.1]
      split
      · rename_i near
        have touch : c.getLow ≤ last.2.getHigh + 1 := by omega
        have merges : intMerge1 last.2 c = (longJoin last.2 d).map .integral := by
          unfold intMerge1 longJoin
          rw [inside,wrapInt (by omega) (by omega),atLow,atHigh]
          simp only [Bool.false_eq_true,if_false]
          rw [if_pos touch]
          split <;> rfl
        rw [merges]
        unfold joinEntry
        cases joined : longJoin last.2 d with
        | none => simp [stepped,join]
        | some e => simp [stepped,join,embed]
      · simp [inside,made,stepped,embed]

-- The loop has gone through some entries and holds their union.
structure Reached (done acc later : List Entry) : Prop where
  ran : done.foldlM take [] = .ok (embed acc)
  growing : Growing low high Fine acc later
  covers : ∀ v, Covers low high acc v ↔ Covers low high done v

def Whole (c : IntegralConstraint) : Prop := c.getLow = -2147483648 ∧ c.getHigh = 2147483647

-- The loop ends with NULL at an entry.
def EndsNull (done : List Entry) (x : Entry) : Prop :=
  (x.1 = true ∧ (outsideInt x.2 = true ∨ Whole x.2)) ∨
    ∀ v, -2147483648 ≤ v → v ≤ 2147483647 → Covers low high done v ∨ (low x ≤ v ∧ v ≤ high x)

-- The loop makes an entry it cannot read again.
def Spoils (acc : List Entry) (x : Entry) : Prop :=
  x.1 = true ∧ outsideInt x.2 = false ∧ ((acc = [] ∧ Whole x.2) ∨ ∃ last rest, acc = last :: rest ∧ high last = 2147483647)

def Proper (e : Entry) : Prop := (e.1 = false → Fine e) ∧ (e.1 = true → e.2.Valid .Int64)

theorem Reached.push {done acc later : List Entry} {x y : Entry} (h : Reached done acc (x :: later))
    (ascending : Ascending low (x :: later)) (fine : Fine y) (sameLow : low y = low x) (sameHigh : high y = high x)
    (step : take (embed acc) x = stepped (push low high 2147483647 joinEntry acc y)) :
    (∃ acc', Reached (done ++ [x]) acc' later) ∨
      (take (embed acc) x = .error .null ∧ ∀ v, -2147483648 ≤ v → v ≤ 2147483647 → Covers low high done v ∨ (low x ≤ v ∧ v ≤ high x)) := by
  have growing : Growing low high Fine acc (y :: later) :=
    ⟨h.growing.gaps,h.growing.inside,fun a on e one => by
      rcases List.mem_cons.mp one with rfl | later'
      · rw [sameLow]
        exact h.growing.below a on x List.mem_cons_self
      · exact h.growing.below a on e (List.mem_cons_of_mem _ later')⟩
  have ascends : Ascending low (y :: later) := by
    obtain ⟨first,rest⟩ := List.pairwise_cons.mp ascending
    exact List.pairwise_cons.mpr ⟨fun e on => sameLow.symm ▸ first e on,rest⟩
  cases made : IntervalList.push low high 2147483647 joinEntry acc y with
  | none =>
      rw [made] at step
      refine .inr ⟨step,fun v bottom top => ?_⟩
      have given := pushGivesUp joiningEntries growing fine made bottom top
      rw [h.covers v,sameLow,sameHigh] at given
      exact given
  | some out =>
      rw [made] at step
      refine .inl ⟨out,?_,pushGrowing joiningEntries growing ascends fine made,fun v => ?_⟩
      · rw [List.foldlM_append,h.ran]
        simp only [List.foldlM_cons,List.foldlM_nil]
        show (take (embed acc) x >>= pure) = _
        rw [step]
        rfl
      · rw [pushCovers joiningEntries growing fine made v,h.covers v,coversAppend,coversCons,sameLow,sameHigh]
        simp

theorem Reached.step {done acc later : List Entry} {x : Entry} (h : Reached done acc (x :: later)) (ascending : Ascending low (x :: later))
    (proper : Proper x) :
    (∃ acc', Reached (done ++ [x]) acc' later) ∨ (take (embed acc) x = .error .null ∧ EndsNull done x) ∨ Spoils acc x := by
  have number := limits
  obtain ⟨mark,c⟩ := x
  cases mark with
  | false =>
      have fine := proper.1 rfl
      rcases h.push ascending fine rfl rfl (takeIntStep h.growing fine) with more | ⟨ends,whole⟩
      · exact .inl more
      · exact .inr (.inl ⟨ends,.inr whole⟩)
  | true =>
      have valid : c.Valid .Int64 := proper.2 rfl
      by_cases spoils : Spoils acc (true,c)
      · exact .inr (.inr spoils)
      · cases outside : outsideInt c with
        | true =>
            refine .inr (.inl ⟨?_,.inl ⟨rfl,.inl outside⟩⟩)
            match acc with
            | [] => simp [take,embed,takeLong,outside]
            | last :: rest =>
                have none' : intMerge1 last.2 c = none := by rw [intMerge1,if_pos outside]
                simp [take,embed,takeLong,outside,none',join]
        | false =>
            have clear : ∀ last ∈ acc.head?, high last ≠ 2147483647 := by
              intro last on full
              cases acc with
              | nil => cases on
              | cons first rest =>
                  cases on
                  exact spoils ⟨rfl,outside,.inr ⟨_,_,rfl,full⟩⟩
            by_cases whole : Whole c
            · refine .inr (.inl ⟨?_,.inl ⟨rfl,.inr whole⟩⟩)
              match acc, h, spoils, clear with
              | [], _, spoils, _ => exact absurd ⟨rfl,outside,.inl ⟨rfl,whole⟩⟩ spoils
              | last :: rest, h, _, clear =>
                  have ⟨_,bottom,less,top⟩ := (h.growing.inside last List.mem_cons_self).1
                  have number' := typeLimits
                  have order : last.2.getLow ≤ c.getLow := h.growing.below last List.mem_cons_self (true,c) List.mem_cons_self
                  have room : last.2.getHigh ≠ 2147483647 := clear last rfl
                  have ⟨atLow,atHigh⟩ := whole
                  have none' : intMerge1 last.2 c = none := by
                    rw [intMerge1,outside]
                    simp only [Bool.false_eq_true,if_false]
                    rw [wrapInt (by omega) (by omega),if_pos (by omega),if_pos (by omega)]
                  have touch : c.getLow ≤ last.2.getHigh + 1 := by omega
                  simp [take,embed,takeLong,none',join,touch]
            · obtain ⟨d,made,fine,atLow,atHigh⟩ := narrowed valid outside whole
              rcases @Reached.push done acc later (true,c) (true,d) h ascending fine atLow atHigh
                (takeLongStep h.growing outside made atLow atHigh clear) with more | ⟨ends,all⟩
              · exact .inl more
              · exact .inr (.inl ⟨ends,.inr all⟩)

-- The loop runs through, or there is a first entry that ends it or that it spoils.
theorem Reached.run {done acc xs later : List Entry} (h : Reached done acc (xs ++ later)) (ascending : Ascending low (xs ++ later))
    (proper : ∀ e ∈ xs, Proper e) :
    (∃ acc', Reached (done ++ xs) acc' later) ∨
    ∃ first x rest acc', xs = first ++ x :: rest ∧ Reached (done ++ first) acc' (x :: rest ++ later) ∧
      ((take (embed acc') x = .error .null ∧ EndsNull (done ++ first) x) ∨ Spoils acc' x) := by
  induction xs generalizing done acc with
  | nil => exact .inl ⟨acc,by simpa using h⟩
  | cons x rest ih =>
      rcases h.step ascending (proper x List.mem_cons_self) with ⟨acc',next⟩ | stops
      · have ascends := (List.pairwise_cons.mp ascending).2
        rcases ih next ascends (fun e on => proper e (List.mem_cons_of_mem _ on)) with ⟨last,through⟩ | ⟨first,y,tail,last,same,reached,stop⟩
        · exact .inl ⟨last,by simpa using through⟩
        · refine .inr ⟨x :: first,y,tail,last,by rw [same]; rfl,by simpa using reached,?_⟩
          simpa using stop
      · exact .inr ⟨[],x,rest,acc,rfl,by simpa using h,by simpa using stops⟩

theorem separatedApart {xs : List IntegralConstraint} (h : Separated (·.getLow) (·.getHigh) xs) {a b : IntegralConstraint}
    (onA : a ∈ xs) (onB : b ∈ xs) : a = b ∨ a.getHigh + 1 < b.getLow ∨ b.getHigh + 1 < a.getLow := by
  induction xs with
  | nil => cases onA
  | cons x rest ih =>
      obtain ⟨_,gap,tail⟩ := separatedCons.mp h
      rcases List.mem_cons.mp onA with rfl | restA <;> rcases List.mem_cons.mp onB with rfl | restB
      · exact .inl rfl
      · exact .inr (.inl (gap b restB))
      · exact .inr (.inr (gap a restA))
      · exact ih tail restA restB

theorem separatedNodup {xs : List IntegralConstraint} (h : Separated (·.getLow) (·.getHigh) xs) : xs.Nodup := by
  induction xs with
  | nil => exact List.nodup_nil
  | cons x rest ih =>
      obtain ⟨proper,gap,tail⟩ := separatedCons.mp h
      refine List.nodup_cons.mpr ⟨fun on => ?_,ih tail⟩
      have := gap x on
      omega

theorem orderedCovers (list : List IntegralConstraint) (b : VPConstraint) (v : Int) : Covers low high (ordered list b.entries) v ↔ (VPConstraint.merged list).Contains v ∨ b.Contains v := by
  rw [containsEntries b v]
  constructor
  · rintro ⟨e,on,inside⟩
    rcases orderedMember.mp on with ⟨_,onList⟩ | ⟨_,onB⟩
    · exact .inl ⟨e.2,onList,inside⟩
    · exact .inr ⟨e.2,onB,inside⟩
  · rintro (⟨c,on,inside⟩ | ⟨c,on,inside⟩)
    · exact ⟨(false,c),orderedMember.mpr (.inl ⟨rfl,on⟩),inside⟩
    · exact ⟨(true,c),orderedMember.mpr (.inr ⟨rfl,on⟩),inside⟩

section
variable {list : List IntegralConstraint} {b : VPConstraint} (left : VPConstraint.Canonical .Int32 list) (right : b.Valid .Int64)
include left right

theorem orderedSorted : (ordered list b.entries).Pairwise (fun a b => before a b = true) := by
  have leftValid : (VPConstraint.merged list).Valid .Int32 := left
  exact orderedPairs (separatedAscending (entriesSeparated leftValid)) (separatedAscending (entriesSeparated right))

theorem orderedAscending : Ascending low (ordered list b.entries) := by
  refine (orderedSorted left right).imp fun step => ?_
  simp only [before,decide_eq_true_eq] at step
  omega

theorem orderedNodup : (ordered list b.entries).Nodup := by
  have leftValid : (VPConstraint.merged list).Valid .Int32 := left
  refine (@List.merge_perm_append _ before _ _).nodup_iff.mpr (List.nodup_append.mpr ⟨?_,?_,?_⟩)
  · exact List.pairwise_map.mpr ((separatedNodup (entriesSeparated leftValid)).imp fun ne same => ne (Prod.mk.inj same).2)
  · exact List.pairwise_map.mpr ((separatedNodup (entriesSeparated right)).imp fun ne same => ne (Prod.mk.inj same).2)
  · intro x onX y onY same
    obtain ⟨_,_,rfl⟩ := List.mem_map.mp onX
    obtain ⟨_,_,rfl⟩ := List.mem_map.mp onY
    cases same

theorem orderedProper : ∀ e ∈ ordered list b.entries, Proper e := by
  rintro ⟨mark,c⟩ on
  have number := typeLimits
  rcases orderedMember.mp on with ⟨int,onList⟩ | ⟨long,onB⟩
  · refine ⟨fun _ => ⟨left.2.1 c onList,fun whole => ?_⟩,fun long => by rw [int] at long; cases long⟩
    obtain ⟨v,⟨bottom,top⟩,missing⟩ := ConstraintIntersect.canonicalGap left
    simp only [DataType.getMinSigned,DataType.getMaxSigned] at number
    simp only [low,high] at whole
    exact missing ⟨c,onList,show c.getLow ≤ v by omega,show v ≤ c.getHigh by omega⟩
  · exact ⟨fun int => (by rw [long] at int; cases int),fun _ => entriesValid right c onB⟩

-- Every entry holds its lower bound.
theorem orderedInhabited {e : Entry} (on : e ∈ ordered list b.entries) : low e ≤ high e := by
  have proper := orderedProper left right e on
  cases mark : e.1 with
  | false => exact (proper.1 mark).1.2.2.1
  | true => exact (proper.2 mark).2.2.1

end

theorem reachedStart (xs : List Entry) : Reached [] [] xs := ⟨rfl,growingStart xs,fun _ => Iff.rfl⟩

theorem finishEmbed {xs : List Entry} (some' : xs ≠ []) : finish (embed xs) = .constraint (some (collapse (xs.map Prod.snd))) := by
  have flats : (embed xs).mapM flat = some (xs.map Prod.snd) := by
    clear some'
    induction xs with
    | nil => rfl
    | cons x rest ih =>
        simp only [embed,List.map_cons,List.mapM_cons,flat] at ih ⊢
        simp [ih]
  match xs with
  | [] => exact absurd rfl some'
  | [x] => rfl
  | x :: y :: rest =>
      unfold finish
      simp only [embed,List.map_cons] at flats ⊢
      rw [flats]
      rfl

theorem reachedRight {xs acc : List Entry} {a b : VPConstraint} (h : Reached xs acc []) (union : ∀ v, Covers low high xs v ↔ a.Contains v ∨ b.Contains v)
    (inhabited : ∃ v, a.Contains v) : MergeRight a b (finish (embed acc).reverse) := by
  have flipped : (embed acc).reverse = embed acc.reverse := by simp [embed]
  have separated := growingSeparated joiningEntries h.growing
  have nonempty : acc.reverse ≠ [] := by
    intro empty
    obtain ⟨v,inside⟩ := inhabited
    have covered := (h.covers v).mpr ((union v).mpr (.inl inside))
    rw [List.reverse_eq_nil_iff.mp empty] at covered
    exact coversNil v covered
  rw [flipped,finishEmbed nonempty]
  intro c same
  cases same
  have shape : Separated (·.getLow) (·.getHigh) (acc.reverse.map Prod.snd) := by
    refine ⟨fun c on => ?_,List.pairwise_map.mpr separated.2⟩
    obtain ⟨e,onE,rfl⟩ := List.mem_map.mp on
    exact separated.1 e onE
  have valid : ∀ c ∈ acc.reverse.map Prod.snd, c.Valid .Int32 := by
    intro c on
    obtain ⟨e,onE,rfl⟩ := List.mem_map.mp on
    exact (h.growing.inside e (List.mem_reverse.mp onE)).1
  refine ⟨validFormed (collapseValid (by simpa using nonempty) valid shape),fun v values => ?_⟩
  rw [containsEntries,collapseEntries]
  obtain ⟨e,on,inside⟩ := (h.covers v).mpr ((union v).mpr values)
  exact ⟨e.2,List.mem_map.mpr ⟨e,List.mem_reverse.mpr on,rfl⟩,inside⟩

/- When a merge goes wrong. Two ranges: the int reaches the greatest int and the
long lies in the int range, above its least value, and overlaps it. A list of
ints, with nothing of the long constraint below the int range: the long has the
whole int range as an entry and the list lacks the least int, or an entry of the
long lies inside an entry of the list that reaches the greatest int, and some int
is in neither. -/
def MergeMisses (a b : VPConstraint) : Prop :=
  match a with
  | .integral c =>
      match b with
      | .integral d => c.getHigh = maxSigned 32 ∧ minSigned 32 < d.getLow ∧ d.getHigh ≤ maxSigned 32 ∧ c.getLow ≤ d.getHigh
      | .merged _ => False
  | .merged list =>
      (∀ e ∈ b.entries, minSigned 32 ≤ e.getLow) ∧
        ((¬ a.Contains (minSigned 32) ∧ ∃ e ∈ b.entries, e.getLow = minSigned 32 ∧ e.getHigh = maxSigned 32) ∨
          ((∃ last ∈ list, last.getHigh = maxSigned 32 ∧ ∃ e ∈ b.entries, last.getLow ≤ e.getLow ∧ e.getHigh ≤ maxSigned 32) ∧
            ∃ v, InRange 32 v ∧ ¬ a.Contains v ∧ ¬ b.Contains v))

theorem splitCases {list : List IntegralConstraint} {b : VPConstraint} {first rest : List Entry} {x y : Entry}
    (split : ordered list b.entries = first ++ x :: rest) (on : y ∈ ordered list b.entries) : y ∈ first ∨ y = x ∨ y ∈ rest := by
  rw [split] at on
  rcases List.mem_append.mp on with early | late
  · exact .inl early
  · exact .inr (List.mem_cons.mp late)

section
variable {list : List IntegralConstraint} {b : VPConstraint} (left : VPConstraint.Canonical .Int32 list) (right : b.Valid .Int64)
  {first rest acc : List Entry} {x : Entry} (split : ordered list b.entries = first ++ x :: rest)
include left right split

theorem splitBefore {y : Entry} (on : y ∈ first) : before y x = true := by
  have pairs := orderedSorted left right
  rw [split,List.pairwise_append] at pairs
  exact pairs.2.2 y on x List.mem_cons_self

theorem splitAfter {y : Entry} (on : y ∈ rest) : before x y = true := by
  have pairs := orderedSorted left right
  rw [split,List.pairwise_append] at pairs
  exact (List.pairwise_cons.mp pairs.2.1).1 y on

theorem splitNe {y : Entry} (on : y ∈ first) : y ≠ x := by
  have nodup := orderedNodup left right
  rw [split,List.nodup_append] at nodup
  exact nodup.2.2 y on x List.mem_cons_self

-- Two longs, the first of them earlier, stand apart.
theorem longsApart {y : Entry} (on : y ∈ first) (longY : y.1 = true) (longX : x.1 = true) : high y + 1 < low x := by
  have memberX : x ∈ ordered list b.entries := by rw [split]; simp
  have memberY : y ∈ ordered list b.entries := by rw [split]; simp [on]
  have onX : x.2 ∈ b.entries := by
    rcases orderedMember.mp memberX with ⟨int,_⟩ | ⟨_,here⟩
    · rw [longX] at int
      cases int
    · exact here
  have onY : y.2 ∈ b.entries := by
    rcases orderedMember.mp memberY with ⟨int,_⟩ | ⟨_,here⟩
    · rw [longY] at int
      cases int
    · exact here
  have inhabited := orderedInhabited left right memberX
  have step := splitBefore left right split on
  simp only [before,decide_eq_true_eq] at step
  rcases separatedApart (entriesSeparated right) onY onX with same | apart | apart
  · exact absurd (Prod.ext (longY.trans longX.symm) same) (splitNe left right split on)
  · exact apart
  · simp only [low,high] at *
    omega

theorem spoilsMisses (reached : Reached first acc (x :: rest)) (spoils : Spoils acc x) : MergeMisses (.merged list) b := by
  have number := limits
  have number' := typeLimits
  obtain ⟨long,inside,how⟩ := spoils
  simp only [outsideInt,decide_eq_false_iff_not] at inside
  have memberX : x ∈ ordered list b.entries := by rw [split]; simp
  have onB : x.2 ∈ b.entries := by
    rcases orderedMember.mp memberX with ⟨int,_⟩ | ⟨_,here⟩
    · rw [long] at int
      cases int
    · exact here
  have inhabited := orderedInhabited left right memberX
  have ints : ∀ a ∈ acc, -2147483648 ≤ low a ∧ high a ≤ 2147483647 := fun a on => by
    have bounds := joiningEntries.bounds (reached.growing.inside a on)
    exact ⟨bounds.2.1,bounds.2.2⟩
  have firstInts : ∀ v, Covers low high first v → -2147483648 ≤ v := by
    intro v covered
    obtain ⟨a,onA,upon,_⟩ := (reached.covers v).mpr covered
    have := ints a onA
    omega
  refine ⟨fun e on => ?_,?_⟩
  · rcases splitCases split (orderedMember.mpr (.inr ⟨rfl,on⟩) : (true,e) ∈ _) with early | same | late
    · have proper : e.getLow ≤ e.getHigh := (entriesValid right e on).2.2.1
      have := firstInts e.getLow ⟨(true,e),early,Int.le_refl _,proper⟩
      omega
    · rw [← same] at inside
      dsimp only at inside
      omega
    · have step := splitAfter left right split late
      simp only [before,low,decide_eq_true_eq] at step
      omega
  · rcases how with ⟨rfl,whole⟩ | ⟨last,others,rfl,full⟩
    · refine .inl ⟨?_,x.2,onB,by rw [number.1]; exact whole.1,by rw [number.2.1]; exact whole.2⟩
      rintro ⟨c,onC,under,upon⟩
      have valid := left.2.1 c onC
      rcases splitCases split (orderedMember.mpr (.inl ⟨rfl,onC⟩) : (false,c) ∈ _) with early | same | late
      · obtain ⟨a,onA,_⟩ := (reached.covers c.getLow).mpr ⟨(false,c),early,Int.le_refl _,valid.2.2.1⟩
        cases onA
      · rw [← same] at long
        cases long
      · have step := splitAfter left right split late
        have atLow := whole.1
        simp only [before,low,decide_eq_true_eq,long,Bool.true_eq_false,Bool.false_eq_true,or_self,and_false,or_false] at step
        omega
    · have fineLast := reached.growing.inside last List.mem_cons_self
      refine .inr ⟨?_,?_⟩
      · obtain ⟨y,onY,under,upon⟩ := (reached.covers 2147483647).mp ⟨last,List.mem_cons_self,by
          have := fineLast.1.2.2.1
          simp only [low,high] at *
          omega,by omega⟩
        have step := splitBefore left right split onY
        simp only [before,decide_eq_true_eq] at step
        cases mark : y.1 with
        | true =>
            have apart := longsApart left right split onY mark long
            simp only [low,high] at *
            omega
        | false =>
            have member : y ∈ ordered list b.entries := by rw [split]; simp [onY]
            have onList : y.2 ∈ list := by
              rcases orderedMember.mp member with ⟨_,here⟩ | ⟨long',_⟩
              · exact here
              · rw [mark] at long'
                cases long'
            have top := (left.2.1 y.2 onList).2.2.2
            simp only [low,high] at *
            exact ⟨y.2,onList,by omega,x.2,onB,by omega,by omega⟩
      · -- The int just below the last entry is in no other.
        have part := fineLast.2
        have order := reached.growing.below last List.mem_cons_self x List.mem_cons_self
        have bounds := ints last List.mem_cons_self
        have gaps := (List.pairwise_cons.mp reached.growing.gaps).1
        have missing : ¬ Covers low high (ordered list b.entries) (low last - 1) := by
          rintro ⟨e,onE,upon,under⟩
          have after : low last ≤ low e → False := fun less => by omega
          rcases splitCases split onE with early | rfl | late
          · obtain ⟨a,onA,upon',under'⟩ := (reached.covers (low last - 1)).mpr ⟨e,early,upon,under⟩
            rcases List.mem_cons.mp onA with rfl | others'
            · omega
            · have := gaps a others'
              omega
          · exact after order
          · have step := splitAfter left right split late
            simp only [before,decide_eq_true_eq] at step
            exact after (by omega)
        rw [orderedCovers,not_or] at missing
        exact ⟨low last - 1,⟨by simp only [low,high] at *; omega,by simp only [low,high] at *; omega⟩,missing⟩

end

def outcome : Except Stop Entries → Merged
  | .ok result => finish result.reverse
  | .error .null => .constraint none
  | .error .crash => .crash

theorem intMergeOutcome (list others : List IntegralConstraint) : intMerge list others = outcome ((ordered list others).foldlM take []) := by
  rw [intMerge,loopFold]
  rfl

-- An entry that is NULL or a list is not read again.
theorem takeUnread {e : Option VPConstraint} {rest : Entries} (unread : flat e = none) (y : Entry) : take (e :: rest) y = .error .crash := by
  match e, unread with
  | none, _ =>
      unfold take
      split <;> rfl
  | some (.merged list), _ =>
      unfold take
      split <;> rfl

/- Once an entry is a list whose two parts overlap, whatever follows leaves a
result that is not right. -/
theorem spoiltWrong {a b : VPConstraint} {x y : IntegralConstraint} (overlap : y.getLow ≤ x.getHigh) (done : Entries) (later : List Entry) :
    ¬ MergeRight a b (outcome (later.foldlM take (some (VPMergedConstraints.create2 x y) :: done))) := by
  have bad : ¬ WellFormed (VPMergedConstraints.create2 x y) := fun formed => by
    have := pairFormed.mp formed
    omega
  cases later with
  | cons e rest =>
      rw [List.foldlM_cons,takeUnread rfl]
      exact id
  | nil =>
      change ¬ MergeRight a b (finish (some (VPMergedConstraints.create2 x y) :: done).reverse)
      rw [List.reverse_cons]
      cases flipped : done.reverse with
      | nil =>
          intro right
          exact bad (right _ rfl).1
      | cons first rest =>
          have unflat : ((first :: rest) ++ [some (VPMergedConstraints.create2 x y)]).mapM flat = none := by
            rw [List.mapM_append]
            cases (first :: rest).mapM flat <;> rfl
          have nested : finish ((first :: rest) ++ [some (VPMergedConstraints.create2 x y)]) =
              .nested ((first :: rest) ++ [some (VPMergedConstraints.create2 x y)]) := by
            cases rest <;> simp only [List.cons_append,List.nil_append,finish] at unflat ⊢ <;> rw [unflat]
          rw [nested]
          rintro ⟨formed,_⟩
          obtain ⟨c,same,good⟩ := formed (some (VPMergedConstraints.create2 x y)) (by simp)
          cases same
          exact bad good

theorem wholeWrong {list : List IntegralConstraint} {b : VPConstraint} (left : VPConstraint.Canonical .Int32 list) (right : b.Valid .Int64)
    (above : ∀ e ∈ b.entries, minSigned 32 ≤ e.getLow) (least : ¬ (VPConstraint.merged list).Contains (minSigned 32))
    {e : IntegralConstraint} (on : e ∈ b.entries) (atLow : e.getLow = minSigned 32) (atHigh : e.getHigh = maxSigned 32) :
    intMerge list b.entries = .crash := by
  have number := limits
  have number' := typeLimits
  obtain ⟨first,rest,split⟩ := List.append_of_mem (orderedMember.mpr (.inr ⟨rfl,on⟩) : (true,e) ∈ ordered list b.entries)
  -- Nothing comes before the whole range.
  have none' : first = [] := by
    refine List.eq_nil_iff_forall_not_mem.mpr fun y onY => ?_
    have step := splitBefore left right split onY
    have member : y ∈ ordered list b.entries := by rw [split]; simp [onY]
    have inhabited := orderedInhabited left right member
    simp only [before,decide_eq_true_eq] at step
    cases mark : y.1 with
    | true =>
        have apart := longsApart left right split onY mark rfl
        rcases orderedMember.mp member with ⟨int,_⟩ | ⟨_,onB⟩
        · rw [mark] at int
          cases int
        · have := above y.2 onB
          simp only [low,high] at *
          omega
    | false =>
        rcases orderedMember.mp member with ⟨_,onList⟩ | ⟨long,_⟩
        · have ⟨_,bottom,_,_⟩ := left.2.1 y.2 onList
          simp only [low,high] at *
          exact least ⟨y.2,onList,by omega,by omega⟩
        · rw [mark] at long
          cases long
  subst none'
  obtain ⟨c,onList⟩ : ∃ c, c ∈ list := by
    cases list with
    | nil => exact absurd left.1 (by decide)
    | cons c _ => exact ⟨c,List.mem_cons_self⟩
  cases rest with
  | nil =>
      have member : (false,c) ∈ ordered list b.entries := orderedMember.mpr (.inl ⟨rfl,onList⟩)
      rw [split] at member
      simp at member
  | cons y later =>
      have inside : outsideInt e = false := by
        simp only [outsideInt,decide_eq_false_iff_not]
        omega
      have start : take [] (true,e) = .ok [none] := by
        simp only [take,if_true,takeLong,inside,Bool.false_eq_true,if_false,atLow,atHigh]
        rfl
      rw [intMergeOutcome,split]
      simp only [List.nil_append,List.foldlM_cons]
      rw [start]
      change outcome (take [none] y >>= _) = _
      rw [takeUnread rfl]
      rfl

section
variable {list : List IntegralConstraint} {b : VPConstraint} (left : VPConstraint.Canonical .Int32 list) (right : b.Valid .Int64)
include left right

/- Up to the first long that lies inside an entry reaching the greatest int, the
loop runs as it should, unless everything is covered by then. -/
theorem runsUpTo {first rest : List Entry} {x : Entry} (split : ordered list b.entries = first ++ x :: rest) (long : x.1 = true)
    (above : ∀ e ∈ b.entries, minSigned 32 ≤ e.getLow) {last : IntegralConstraint} (onLast : last ∈ list)
    (under : high x ≤ maxSigned 32) (earlier : ∀ y ∈ first, y.1 = true → low y < last.getLow)
    {v : Int} (int : InRange 32 v) (missing : ¬ Covers low high (ordered list b.entries) v) :
    ∃ acc, Reached first acc (x :: rest) := by
  have number := limits
  have number' := typeLimits
  have leftValid : (VPConstraint.merged list).Valid .Int32 := left
  have memberX : x ∈ ordered list b.entries := by rw [split]; simp
  have inhabitedX := orderedInhabited left right memberX
  have whole : Ascending low (first ++ x :: rest) := split ▸ orderedAscending left right
  have proper : ∀ e ∈ first, Proper e := fun e on => orderedProper left right e (by rw [split]; simp [on])
  rcases (reachedStart (first ++ x :: rest)).run whole proper with ⟨acc,through⟩ | ⟨f1,y,r1,acc,same,reached,stop⟩
  · exact ⟨acc,by simpa using through⟩
  · exfalso
    have onY : y ∈ first := by rw [same]; simp
    have memberY : y ∈ ordered list b.entries := by rw [split]; simp [onY]
    have inhabitedY := orderedInhabited left right memberY
    have split' : ordered list b.entries = f1 ++ y :: (r1 ++ x :: rest) := by rw [split,same]; simp
    simp only [List.nil_append] at reached stop
    have longY : y.1 = true → -2147483648 ≤ low y ∧ high y < 2147483647 := by
      intro mark
      have apart := longsApart left right split onY mark long
      rcases orderedMember.mp memberY with ⟨int',_⟩ | ⟨_,onB⟩
      · rw [mark] at int'
        cases int'
      · have := above y.2 onB
        simp only [low,high] at *
        omega
    rcases stop with ⟨_,⟨mark,how⟩ | all⟩ | ⟨mark,inside,how⟩
    · have bounds := longY mark
      simp only [outsideInt,decide_eq_true_eq,Whole,low,high] at *
      omega
    · unfold InRange at int
      rcases all v (by omega) (by omega) with ⟨e,onE,inside⟩ | inside
      · exact missing ⟨e,by rw [split']; simp [onE],inside⟩
      · exact missing ⟨y,memberY,inside⟩
    · have bounds := longY mark
      rcases how with ⟨_,_,atHigh⟩ | ⟨head,tail,rfl,full⟩
      · simp only [low,high] at *
        omega
      · -- The entry that reaches the greatest int would be a second one of the list.
        have fineHead := joiningEntries.bounds (reached.growing.inside head List.mem_cons_self)
        obtain ⟨z,onZ,overZ,underZ⟩ := (reached.covers 2147483647).mp ⟨head,List.mem_cons_self,by omega,by omega⟩
        have step := splitBefore left right split' onZ
        simp only [before,decide_eq_true_eq] at step
        have early := earlier y onY mark
        cases markZ : z.1 with
        | true =>
            have apart := longsApart left right split' onZ markZ mark
            omega
        | false =>
            have memberZ : z ∈ ordered list b.entries := by rw [split']; simp [onZ]
            rcases orderedMember.mp memberZ with ⟨_,onList⟩ | ⟨long',_⟩
            · have ⟨_,_,lessL,topL⟩ := left.2.1 last onLast
              simp only [low,high] at *
              rcases separatedApart (entriesSeparated leftValid) onList onLast with same' | apart | apart
              · rw [same'] at step
                omega
              · omega
              · omega
            · rw [markZ] at long'
              cases long'

theorem insideWrong (above : ∀ e ∈ b.entries, minSigned 32 ≤ e.getLow) {last : IntegralConstraint} (onLast : last ∈ list)
    (full : last.getHigh = maxSigned 32) {e : IntegralConstraint} (on : e ∈ b.entries) (less : last.getLow ≤ e.getLow)
    (under : e.getHigh ≤ maxSigned 32) {v : Int} (int : InRange 32 v) (notA : ¬ (VPConstraint.merged list).Contains v)
    (notB : ¬ b.Contains v) : ¬ MergeRight (.merged list) b (intMerge list b.entries) := by
  have number := limits
  have number' := typeLimits
  have memberE : (true,e) ∈ ordered list b.entries := orderedMember.mpr (.inr ⟨rfl,on⟩)
  have memberLast : (false,last) ∈ ordered list b.entries := orderedMember.mpr (.inl ⟨rfl,onLast⟩)
  -- The first long at or above the entry that reaches the greatest int.
  obtain ⟨x,found⟩ : ∃ x, (ordered list b.entries).find? (fun y => y.1 && decide (last.getLow ≤ low y)) = some x := by
    cases search : (ordered list b.entries).find? (fun y => y.1 && decide (last.getLow ≤ low y)) with
    | some x => exact ⟨x,rfl⟩
    | none =>
        have never := List.find?_eq_none.mp search (true,e) memberE
        simp [less,low] at never
  obtain ⟨picked,first,rest,split,earlier⟩ := List.find?_eq_some_iff_append.mp found
  simp only [Bool.and_eq_true,decide_eq_true_eq] at picked
  obtain ⟨long,lessX⟩ := picked
  have memberX : x ∈ ordered list b.entries := by rw [split]; simp
  have inhabitedX := orderedInhabited left right memberX
  have before' : ∀ y ∈ first, y.1 = true → low y < last.getLow := by
    intro y onY mark
    have := earlier y onY
    simp [mark] at this
    exact this
  have underX : high x ≤ maxSigned 32 := by
    rcases splitCases split memberE with early | rfl | late
    · have := before' _ early rfl
      simp only [low] at this
      omega
    · exact under
    · have step := splitAfter left right split late
      simp only [before,decide_eq_true_eq] at step
      rcases orderedMember.mp memberX with ⟨int',_⟩ | ⟨_,onX⟩
      · rw [long] at int'
        cases int'
      · have properE := (entriesValid right e on).2.2.1
        simp only [low,high] at *
        rcases separatedApart (entriesSeparated right) onX on with same | apart | apart
        · rw [same]
          exact under
        · omega
        · omega
  have missing : ¬ Covers low high (ordered list b.entries) v := by
    rw [orderedCovers]
    exact fun either => either.elim notA notB
  obtain ⟨acc,reached⟩ := runsUpTo left right split long above onLast underX before' int missing
  -- The entry that reaches the greatest int has been taken in by then.
  have lastEarly : (false,last) ∈ first := by
    rcases splitCases split memberLast with early | same | late
    · exact early
    · rw [← same] at long
      cases long
    · have step := splitAfter left right split late
      simp only [before,low,decide_eq_true_eq,long,Bool.true_eq_false,Bool.false_eq_true,or_self,and_false,or_false] at step lessX
      omega
  have fineLast : Fine (false,last) := (orderedProper left right _ memberLast).1 rfl
  have lessLast : last.getLow ≤ last.getHigh := fineLast.1.2.2.1
  obtain ⟨a,onA,_,atTop⟩ := (reached.covers 2147483647).mpr ⟨(false,last),lastEarly,by simp only [low]; omega,by simp only [high]; omega⟩
  match acc, reached, onA with
  | h :: t, reached, onA =>
      have fineH := reached.growing.inside h List.mem_cons_self
      have boundsH := joiningEntries.bounds fineH
      have order : h.2.getLow ≤ x.2.getLow := reached.growing.below h List.mem_cons_self x List.mem_cons_self
      have top : h.2.getHigh = 2147483647 := by
        rcases List.mem_cons.mp onA with rfl | others
        · simp only [high] at *
          omega
        · have gap := (List.pairwise_cons.mp reached.growing.gaps).1 a others
          omega
      have bottomLast : -2147483648 < last.getLow := by
        have part := fineLast.2
        have low' := fineLast.1.2.1
        simp only [low,high] at *
        omega
      have inside : outsideInt x.2 = false := by
        simp only [outsideInt,decide_eq_false_iff_not,low,high] at *
        omega
      simp only [low,high] at *
      obtain ⟨d,made,_,atLow,_⟩ := @intRangeMade x.2.getLow x.2.getHigh (by omega) inhabitedX (by omega) (by omega)
      have wraps : wrap 32 (h.2.getHigh + 1) = -2147483648 := by rw [top]; decide
      have spoilt : intMerge1 h.2 x.2 = some (VPMergedConstraints.create2 h.2 d) := by
        rw [intMerge1,inside,wraps]
        simp only [Bool.false_eq_true,if_false]
        rw [if_neg (by omega),if_neg (by omega),made]
        rfl
      have turn : take (embed (h :: t)) x = .ok (some (VPMergedConstraints.create2 h.2 d) :: embed t) := by
        simp only [take,long,if_true,embed,List.map_cons,takeLong]
        rw [if_pos (by omega),spoilt]
        rfl
      rw [intMergeOutcome,split,List.foldlM_append,reached.ran]
      change ¬ MergeRight _ _ (outcome (take (embed (h :: t)) x >>= fun result => rest.foldlM take result))
      rw [turn]
      exact spoiltWrong (by omega) _ _

theorem listMergeRight : MergeRight (.merged list) b (intMerge list b.entries) ↔ ¬ MergeMisses (.merged list) b := by
  constructor
  · rintro right' ⟨above,⟨least,e,on,atLow,atHigh⟩ | ⟨⟨last,onLast,full,e,on,less,under⟩,v,int,notA,notB⟩⟩
    · rw [wholeWrong left right above least on atLow atHigh] at right'
      exact right'
    · exact insideWrong left right above onLast full on less under int notA notB right'
  · intro fine
    have leftValid : (VPConstraint.merged list).Valid .Int32 := left
    rw [intMergeOutcome]
    have start := reachedStart (ordered list b.entries ++ [])
    rcases start.run (by simpa using orderedAscending left right) (orderedProper left right) with
      ⟨acc,through⟩ | ⟨first,x,rest,acc,split,reached,stop⟩
    · simp only [List.nil_append] at through
      rw [through.ran]
      exact reachedRight through (orderedCovers list b) (validInhabited leftValid)
    · simp only [List.nil_append,List.append_nil] at reached stop
      rcases stop with ⟨ends,_⟩ | spoils
      · rw [split,List.foldlM_append,reached.ran]
        change MergeRight _ _ (outcome (take (embed acc) x >>= _))
        rw [ends]
        exact nofun
      · exact absurd (spoilsMisses left right split reached spoils) fine

end

theorem mixedMerge {a b : VPConstraint} (left : a.Valid .Int32) (right : b.Valid .Int64) : MergeRight a b (merge a b) ↔ ¬ MergeMisses a b := by
  cases a with
  | integral c =>
      have typeC : c.type = .Int32 := left.1
      cases b with
      | integral d =>
          have typeD : d.type = .Int64 := right.1
          have run : merge (.integral c) (.integral d) = .constraint (intMerge1 c d) := by
            simp [merge,merge1,VPConstraint.priority,typeC,typeD]
          rw [run]
          exact singleMerge left right
      | merged list =>
          have run : merge (.integral c) (.merged list) = longMerge list [c] := by
            simp [merge,merge1,VPConstraint.priority,typeC,listTypeValid right,VPConstraint.entries]
          rw [run]
          exact iff_of_true (longMergeRight left right) id
  | merged list =>
      have run : merge (.merged list) b = intMerge list b.entries := by
        have never : ¬ (b.priority > (VPConstraint.merged list).priority) := by
          cases b <;> simp [VPConstraint.priority]
          split <;> omega
        rw [merge,if_neg never,merge1,listTypeValid left]
      rw [run]
      exact listMergeRight left right

/- Mixed widths: intersect is exact unless two single ranges have no common
value, and merge is a well formed union unless the inputs are of the kinds named
above. -/
theorem mixedWidthsKept {a b : VPConstraint} (left : a.Valid .Int32) (right : b.Valid .Int64) :
    (IntersectRight a b (intersect a b) ↔
      ¬ ((∃ c d, a = .integral c ∧ b = .integral d) ∧ ¬ ∃ v, a.Contains v ∧ b.Contains v)) ∧
    (MergeRight a b (merge a b) ↔ ¬ MergeMisses a b) :=
  ⟨mixedIntersect left right,mixedMerge left right⟩

theorem mixedWidthsKeptSample :
    IntersectRight (.merged [.range .Int32 0 5 .no false,.const .Int32 9]) (.integral (.range .Int64 3 4294967296 .no false))
      (intersect (.merged [.range .Int32 0 5 .no false,.const .Int32 9]) (.integral (.range .Int64 3 4294967296 .no false))) :=
  (mixedWidthsKept (by decide) (by decide)).1.mpr fun ⟨⟨_,_,single,_⟩,_⟩ => by cases single

-- 0 to 5 and 7 to 9 have no common value, but their intersection is the range 7 to 5.
theorem disjointNotNull : ¬ IntersectRight (.integral (.range .Int32 0 5 .no false)) (.integral (.range .Int64 7 9 .no false))
    (intersect (.integral (.range .Int32 0 5 .no false)) (.integral (.range .Int64 7 9 .no false))) := by
  rintro ⟨null,_⟩
  have empty : ¬ ∃ v, (VPConstraint.integral (.range .Int32 0 5 .no false)).Contains v ∧
      (VPConstraint.integral (.range .Int64 7 9 .no false)).Contains v := by
    rintro ⟨v,⟨_,under⟩,⟨upon,_⟩⟩
    simp only [IntegralConstraint.getLow,IntegralConstraint.getHigh] at under upon
    omega
  have made := null.mpr empty
  revert made
  decide

end OmrCompiler.MixedConstraint
