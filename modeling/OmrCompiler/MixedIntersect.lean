import OmrCompiler.MixedConstraint

/-! What an Int32 constraint intersected with an Int64 constraint comes to. Only
two single ranges without a common value are answered wrongly. -/
namespace OmrCompiler.MixedConstraint
open MachineInt Constraint IntervalList ConstraintIntersect

theorem limits : minSigned 32 = -2147483648 ∧ maxSigned 32 = 2147483647 ∧ minSigned 64 = -9223372036854775808 ∧
    maxSigned 64 = 9223372036854775807 := by decide

theorem typeLimits : DataType.Int32.getMinSigned = -2147483648 ∧ DataType.Int32.getMaxSigned = 2147483647 ∧
    DataType.Int64.getMinSigned = -9223372036854775808 ∧ DataType.Int64.getMaxSigned = 9223372036854775807 := by decide

theorem wrapInt {x : Int} (low : -2147483648 ≤ x) (high : x ≤ 2147483647) : wrap 32 x = x := by
  have number := limits
  exact wrapSelf (by decide) ⟨by omega,by omega⟩

-- A range of two ints read as longs is never the whole type.
theorem longRangeMade {low high : Int} (inLow : InRange 32 low) :
    ∃ c, longRange low high = some c ∧ c.type = .Int64 ∧ c.getLow = low ∧ c.getHigh = high := by
  have number := limits
  have number' := typeLimits
  unfold InRange at inLow
  cases made : longRange low high with
  | none =>
      have whole := rangeOfFull made
      omega
  | some c => exact ⟨c,rfl,rangeOfBounds made⟩

theorem singleIntersect {a b : IntegralConstraint} (left : a.Valid .Int32) (right : b.Valid .Int64) :
    IntersectRight (.integral a) (.integral b) (intIntersect1 a b) ↔ ∃ v, a.Contains v ∧ b.Contains v := by
  obtain ⟨_,bottom,ordered,top⟩ := left
  obtain ⟨_,_,ordered',_⟩ := right
  have number := limits
  have number' := typeLimits
  obtain ⟨c,made,_,low,high⟩ := @longRangeMade (wrap 32 (if b.getLow < a.getLow then a.getLow else b.getLow))
    (wrap 32 (if b.getHigh ≤ a.getHigh then b.getHigh else a.getHigh)) (wrapRange (by decide) _)
  have result : intIntersect1 a b = some (.integral c) := by
    unfold intIntersect1
    simp only [made,Option.map_some]
  rw [result]
  constructor
  · rintro ⟨null,_⟩
    by_contra none'
    exact nomatch null.mpr none'
  · rintro ⟨v,⟨upon,under⟩,⟨upon',under'⟩⟩
    rw [wrapInt (by split <;> omega) (by split <;> omega)] at low high
    refine ⟨⟨nofun,fun missing => absurd ⟨v,⟨upon,under⟩,⟨upon',under'⟩⟩ missing⟩,fun d same => ?_⟩
    cases same
    simp only [WellFormed,VPConstraint.Contains,IntegralConstraint.Contains,low,high]
    refine ⟨by split <;> split <;> omega,fun u => ?_⟩
    split <;> split <;> omega

-- An entry that ends with the piece is dropped, any other is kept as it is.
def keep (last low high : Int) (rest : List (Int × Int)) : List (Int × Int) := if last + 1 > high then rest else (low,high) :: rest

theorem keepSeparated {last low high : Int} {rest : List (Int × Int)} (h : PairSeparated ((low,high) :: rest)) :
    PairSeparated (keep last low high rest) := by
  unfold keep
  split
  · exact (separatedCons.mp h).2.2
  · exact h

theorem keepSub {last low high : Int} {rest : List (Int × Int)} {x : Int × Int} (on : x ∈ keep last low high rest) :
    x ∈ (low,high) :: rest := by
  unfold keep at on
  split at on
  · exact List.mem_cons_of_mem _ on
  · exact on

theorem keepCovers {last low high v : Int} {rest : List (Int × Int)} (covered : PairCovers (keep last low high rest) v) :
    PairCovers ((low,high) :: rest) v := by
  obtain ⟨x,on,inside⟩ := covered
  exact ⟨x,keepSub on,inside⟩

theorem keepAbove {last low high v : Int} {rest : List (Int × Int)} (covered : PairCovers ((low,high) :: rest) v) (above : last < v) :
    PairCovers (keep last low high rest) v := by
  unfold keep
  split
  · rcases (pairCoversCons ..).mp covered with inside | later
    · omega
    · exact later
  · exact covered

-- One of the two has ended, and what comes next in it stands clear.
theorem keptGap {cl ch ol oh v : Int} {cs os : List (Int × Int)} (left : PairSeparated ((cl,ch) :: cs))
    (right : PairSeparated ((ol,oh) :: os)) (inLeft : PairCovers (keep (min ch oh) cl ch cs) v)
    (inRight : PairCovers (keep (min ch oh) ol oh os) v) : min ch oh + 1 < v := by
  rcases Int.le_total ch oh with le | le
  · have spent : keep (min ch oh) cl ch cs = cs := if_pos (by omega)
    rw [spent] at inLeft
    have := separatedLower left inLeft
    dsimp only at this
    omega
  · have spent : keep (min ch oh) ol oh os = os := if_pos (by omega)
    rw [spent] at inRight
    have := separatedLower right inRight
    dsimp only at this
    omega

theorem intSweepSound (fuel : Nat) (xs ys : List (Int × Int)) (enough : xs.length + ys.length ≤ fuel) (left : PairSeparated xs)
    (right : PairSeparated ys) (ints : ∀ x ∈ xs, -2147483648 ≤ x.1 ∧ x.2 ≤ 2147483647) :
    PairSeparated (intSweep fuel xs ys) ∧ ∀ v, PairCovers (intSweep fuel xs ys) v ↔ PairCovers xs v ∧ PairCovers ys v := by
  have number := limits
  fun_induction intSweep fuel xs ys with
  | case1 fuel cl ch cs ol oh os skip ih =>
      obtain ⟨shape,covers⟩ := ih (by simp only [List.length_cons] at enough ⊢; omega) (separatedCons.mp left).2.2 right
        (fun x on => ints x (List.mem_cons_of_mem _ on))
      refine ⟨shape,fun v => ?_⟩
      rw [covers v,pairCoversCons cl ch]
      refine ⟨fun h => ⟨.inr h.1,h.2⟩,fun h => ⟨h.1.resolve_left fun first => ?_,h.2⟩⟩
      have := coveredFrom right h.2
      omega
  | case2 fuel cl ch cs ol oh os kept skip ih =>
      obtain ⟨shape,covers⟩ := ih (by simp only [List.length_cons] at enough ⊢; omega) left (separatedCons.mp right).2.2 ints
      refine ⟨shape,fun v => ?_⟩
      rw [covers v,pairCoversCons ol oh]
      refine ⟨fun h => ⟨h.1,.inr h.2⟩,fun h => ⟨h.1,h.2.resolve_left fun first => ?_⟩⟩
      have := coveredFrom left h.1
      omega
  | case3 fuel cl ch cs ol oh os kept overlap resultLow resultHigh ih =>
      have properLeft : cl ≤ ch := (separatedCons.mp left).1
      have properRight : ol ≤ oh := (separatedCons.mp right).1
      have int := ints (cl,ch) List.mem_cons_self
      dsimp only at int
      -- Both casts are of a bound inside the current int.
      have low : resultLow = max cl ol := by
        show (if cl > ol then cl else wrap 32 ol) = _
        split
        · omega
        · rw [wrapInt (by omega) (by omega)]
          omega
      have high : resultHigh = min ch oh := by
        show (if ch < oh then ch else wrap 32 oh) = _
        split
        · omega
        · rw [wrapInt (by omega) (by omega)]
          omega
      change (keep resultHigh cl ch cs).length + (keep resultHigh ol oh os).length ≤ fuel → PairSeparated (keep resultHigh cl ch cs) →
        PairSeparated (keep resultHigh ol oh os) → (∀ x ∈ keep resultHigh cl ch cs, _) → _ at ih
      change PairSeparated ((resultLow,resultHigh) :: if resultHigh = maxSigned 32 then []
          else intSweep fuel (keep resultHigh cl ch cs) (keep resultHigh ol oh os)) ∧
        ∀ v, PairCovers ((resultLow,resultHigh) :: if resultHigh = maxSigned 32 then []
          else intSweep fuel (keep resultHigh cl ch cs) (keep resultHigh ol oh os)) v ↔ _
      rw [low,high] at *
      have rest : PairSeparated (if min ch oh = maxSigned 32 then []
            else intSweep fuel (keep (min ch oh) cl ch cs) (keep (min ch oh) ol oh os)) ∧
          ∀ v, PairCovers (if min ch oh = maxSigned 32 then []
            else intSweep fuel (keep (min ch oh) cl ch cs) (keep (min ch oh) ol oh os)) v ↔
            PairCovers (keep (min ch oh) cl ch cs) v ∧ PairCovers (keep (min ch oh) ol oh os) v := by
        split
        · refine ⟨separatedNil,fun v => iff_of_false (by simp) fun h => ?_⟩
          have := keptGap left right h.1 h.2
          obtain ⟨x,on,_,under⟩ := h.1
          have := ints x (keepSub on)
          omega
        · refine ih ?_ (keepSeparated left) (keepSeparated right) fun x on => ints x (keepSub on)
          unfold keep
          simp only [List.length_cons] at enough
          split <;> split <;> (try simp only [List.length_cons]) <;> omega
      obtain ⟨shape,covers⟩ := rest
      refine ⟨separatedCons.mpr ⟨by dsimp only; omega,fun p hp => ?_,shape⟩,fun v => ?_⟩
      · have inside := (covers p.1).mp ⟨p,hp,Int.le_refl _,shape.1 p hp⟩
        exact keptGap left right inside.1 inside.2
      · rw [pairCoversCons,covers v]
        constructor
        · rintro (h | h)
          · exact ⟨(pairCoversCons ..).mpr (.inl (by omega)),(pairCoversCons ..).mpr (.inl (by omega))⟩
          · exact ⟨keepCovers h.1,keepCovers h.2⟩
        · intro h
          have := coveredFrom left h.1
          have := coveredFrom right h.2
          by_cases above : min ch oh < v
          · exact .inr ⟨keepAbove h.1 above,keepAbove h.2 above⟩
          · exact .inl (by omega)
  | case4 fuel xs ys stop =>
      refine ⟨separatedNil,fun v => iff_of_false (by simp) fun h => ?_⟩
      match fuel, xs, ys with
      | _, [], _ => exact coversNil v h.1
      | _, _ :: _, [] => exact coversNil v h.2
      | 0, _ :: _, _ :: _ => simp at enough
      | fuel + 1, (cl,ch) :: cs, (ol,oh) :: os => exact stop fuel cl ch cs ol oh os rfl rfl rfl

theorem longSweepNone (fuel : Nat) (xs : List (Int × Int)) : longSweep fuel xs [] = [] := by
  cases fuel <;> cases xs <;> rfl

/- With one int to intersect with, the reduced bound that wraps around is not
read again: the longs have gone past the greatest int by then. -/
theorem longSweepSpent (fuel : Nat) {xs : List (Int × Int)} {ol oh : Int} (past : ∀ x ∈ xs, oh < x.1 ∧ x.1 ≤ x.2) (low : ol ≤ oh) :
    longSweep fuel xs [(ol,oh)] = [] := by
  match fuel, xs with
  | 0, xs => rfl
  | fuel + 1, [] => rfl
  | fuel + 1, (cl,ch) :: cs =>
      have first := past (cl,ch) List.mem_cons_self
      dsimp only at first
      rw [longSweep,if_neg (by omega),if_pos first.1]
      exact longSweepNone fuel _

theorem longSweepPlain (fuel : Nat) (xs : List (Int × Int)) {ol oh : Int} (enough : xs.length + 1 ≤ fuel) (separated : PairSeparated xs)
    (low : -2147483648 ≤ ol) (less : ol ≤ oh) (high : oh ≤ 2147483647) :
    longSweep fuel xs [(ol,oh)] = sweep (maxSigned 64) xs [(ol,oh)] := by
  have number := limits
  induction fuel generalizing xs ol with
  | zero => simp at enough
  | succ fuel ih =>
      match xs with
      | [] => rw [longSweep,sweep] <;> simp
      | (cl,ch) :: cs =>
          obtain ⟨proper,gap,tail⟩ := separatedCons.mp separated
          simp only [List.length_cons] at enough
          rw [longSweep,sweep]
          split
          · exact ih cs (by omega) tail low less
          · split
            · rw [longSweepNone,sweep]
              simp
            · have lowSame : (if cl > ol then cl else ol) = max cl ol := by split <;> omega
              have highSame : (if ch < oh then ch else oh) = min ch oh := by split <;> omega
              dsimp only
              rw [lowSame,highSame]
              congr 1
              have inside : ¬ min ch oh = maxSigned 64 := by omega
              rw [if_neg inside,if_neg inside]
              change longSweep fuel (reduce (min ch oh) ch cs) _ = _
              by_cases last : min ch oh = 2147483647
              · have wraps : wrap 32 (min ch oh + 1) = -2147483648 := by rw [last]; decide
                have spent : reduce (min ch oh) oh [] = [] := if_pos (by omega)
                have past : ∀ x ∈ reduce (min ch oh) ch cs, oh < x.1 ∧ x.1 ≤ x.2 := by
                  intro x on
                  unfold reduce at on
                  have later : x ∈ cs → oh < x.1 ∧ x.1 ≤ x.2 := fun on => by
                    have := gap x on
                    have := tail.1 x on
                    dsimp only at *
                    omega
                  split at on
                  · exact later on
                  · rcases List.mem_cons.mp on with same | on
                    · cases same
                      dsimp only
                      omega
                    · exact later on
                rw [wraps,spent,if_neg (show ¬ (-2147483648 > oh) by omega),longSweepSpent fuel past (by omega)]
                rw [sweep]
                simp
              · rw [wrapInt (by omega) (by omega)]
                by_cases ends : min ch oh + 1 > oh
                · have spent : reduce (min ch oh) oh [] = [] := if_pos ends
                  rw [if_pos ends,spent,longSweepNone,sweep]
                  simp
                · have spent : reduce (min ch oh) ch cs = cs := if_pos (by omega)
                  have left : reduce (min ch oh) oh [] = [(min ch oh + 1,oh)] := if_neg ends
                  rw [if_neg ends,spent,left]
                  exact ih cs (by omega) tail (by omega) (by omega)

theorem validFormed {t : DataType} {c : VPConstraint} (valid : c.Valid t) : WellFormed c := by
  cases c with
  | integral c => exact valid.2.2.1
  | merged list => exact ⟨fun e on => (valid.2.1 e on).2.2.1,valid.2.2.imp fun gap => by omega⟩

theorem intersectionRight {t : DataType} {a b : VPConstraint} {result : Option VPConstraint}
    (h : Intersection t (fun v => a.Contains v ∧ b.Contains v) result) : IntersectRight a b result := by
  refine ⟨⟨fun missing ⟨v,common⟩ => h.empty missing v common,fun disjoint => ?_⟩,
    fun c made => ⟨validFormed (h.valid c made),h.exact c made⟩⟩
  cases result with
  | none => rfl
  | some c =>
      obtain ⟨v,inside⟩ := validInhabited (h.valid c rfl)
      exact absurd ⟨v,(h.exact c rfl v).mp inside⟩ disjoint

theorem listIntersectRight {list : List IntegralConstraint} {b : VPConstraint} (left : VPConstraint.Canonical .Int32 list)
    (right : b.Valid .Int64) : IntersectRight (.merged list) b (intIntersect list b.entries) := by
  have number := typeLimits
  have leftValid : (VPConstraint.merged list).Valid .Int32 := left
  obtain ⟨separated,covers⟩ := intSweepSound (turns list b.entries) (list.map bounds) (b.entries.map bounds)
    (by simp only [turns,List.length_map]; omega) ((boundsSeparated _).mpr (entriesSeparated leftValid))
    ((boundsSeparated _).mpr (entriesSeparated right)) (by
      intro x on
      obtain ⟨c,onList,rfl⟩ := List.mem_map.mp on
      have ⟨_,low,_,high⟩ := left.2.1 c onList
      exact ⟨by simp only [bounds]; omega,by simp only [bounds]; omega⟩)
  refine intersectionRight (piecesExact left separated fun v => ?_)
  rw [covers v,boundsCovers,boundsCovers,containsEntries b]

theorem longIntersectRight {a : IntegralConstraint} {list : List IntegralConstraint} (left : a.Valid .Int32)
    (right : VPConstraint.Canonical .Int64 list) : IntersectRight (.integral a) (.merged list) (longIntersect list [a]) := by
  have number := typeLimits
  have number' := limits
  obtain ⟨_,low,less,high⟩ := left
  have rightValid : (VPConstraint.merged list).Valid .Int64 := right
  have separated := (boundsSeparated _).mpr (entriesSeparated rightValid)
  -- The int as a long of the same bounds.
  have wide : (VPConstraint.integral (.range .Int64 a.getLow a.getHigh .no false)).Valid .Int64 :=
    ⟨rfl,show DataType.Int64.getMinSigned ≤ a.getLow by omega,less,show a.getHigh ≤ DataType.Int64.getMaxSigned by omega⟩
  have plain : longIntersect list [a] = listIntersect .Int64 list [.range .Int64 a.getLow a.getHigh .no false] := by
    unfold longIntersect pieces listIntersect
    have same := @longSweepPlain (turns list [a]) (list.map bounds) a.getLow a.getHigh
      (by simp only [turns,List.length_map,List.length_singleton]; omega) separated (by omega) less (by omega)
    simp only [List.map_cons,List.map_nil,bounds] at same ⊢
    rw [same]
    rfl
  rw [plain]
  refine intersectionRight (intersectionCongr (fun v => ?_) (listIntersectExact right wide))
  exact And.comm

theorem mixedIntersect {a b : VPConstraint} (left : a.Valid .Int32) (right : b.Valid .Int64) :
    IntersectRight a b (intersect a b) ↔
      ¬ ((∃ c d, a = .integral c ∧ b = .integral d) ∧ ¬ ∃ v, a.Contains v ∧ b.Contains v) := by
  cases a with
  | integral c =>
      have typeC : c.type = .Int32 := left.1
      cases b with
      | integral d =>
          have typeD : d.type = .Int64 := right.1
          have run : intersect (.integral c) (.integral d) = intIntersect1 c d := by
            simp [intersect,intersect1,VPConstraint.priority,typeC,typeD]
          rw [run,singleIntersect left right]
          constructor
          · rintro common ⟨_,missing⟩
            exact missing common
          · intro fine
            by_contra missing
            exact fine ⟨⟨c,d,rfl,rfl⟩,missing⟩
      | merged list =>
          have run : intersect (.integral c) (.merged list) = longIntersect list [c] := by
            simp [intersect,intersect1,VPConstraint.priority,typeC,listTypeValid right,VPConstraint.entries]
          rw [run]
          refine iff_of_true (longIntersectRight left right) ?_
          rintro ⟨⟨_,_,_,single⟩,_⟩
          cases single
  | merged list =>
      have run : intersect (.merged list) b = intIntersect list b.entries := by
        have never : ¬ (b.priority > (VPConstraint.merged list).priority) := by
          cases b <;> simp [VPConstraint.priority]
          split <;> omega
        rw [intersect,if_neg never,intersect1,listTypeValid left]
      rw [run]
      refine iff_of_true (listIntersectRight left right) ?_
      rintro ⟨⟨_,_,single,_⟩,_⟩
      cases single

end OmrCompiler.MixedConstraint
