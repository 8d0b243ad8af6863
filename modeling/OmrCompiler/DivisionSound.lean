import OmrCompiler.DivisionRange

/-! When the range that constrainIdiv and constrainLdiv give a quotient holds the
machine's quotient. -/
namespace OmrCompiler.DivisionRange
open MachineInt Constraint CornerBounds

theorem takenLow (quotients : List Int) (low high m : Int) :
    m ≤ (quotients.foldl takeIn (low,high)).1 ↔ m ≤ low ∧ ∀ q ∈ quotients, m ≤ q := by
  induction quotients generalizing low high with
  | nil => simp
  | cons q rest ih =>
      rw [List.foldl_cons,takeIn,ih]
      simp only [List.forall_mem_cons,Int.le_min,and_assoc]

theorem takenHigh (quotients : List Int) (low high m : Int) :
    (quotients.foldl takeIn (low,high)).2 ≤ m ↔ high ≤ m ∧ ∀ q ∈ quotients, q ≤ m := by
  induction quotients generalizing low high with
  | nil => simp
  | cons q rest ih =>
      rw [List.foldl_cons,takeIn,ih]
      simp only [List.forall_mem_cons,Int.max_le,and_assoc]

-- Where the divisor's range is split, both parts keep clear of zero.
theorem computedCovers {a1 a2 b1 b2 a b m : Int} (upon : a1 ≤ a) (under : a ≤ a2) (upon' : b1 ≤ b) (under' : b ≤ b2)
    (nonzero : b ≠ 0) (low : b1 ≠ 0) (high : b2 ≠ 0) :
    ((∀ q ∈ computed a1 a2 b1 b2, m ≤ q) → m ≤ a.tdiv b) ∧ ((∀ q ∈ computed a1 a2 b1 b2, q ≤ m) → a.tdiv b ≤ m) := by
  have left := steadyDivLeft nonzero a1 a2
  unfold computed
  split
  · rename_i spans
    simp only [List.forall_mem_cons,List.not_mem_nil,false_imp_iff,forall_const,and_true]
    rcases Int.lt_or_gt_of_ne nonzero with negative | positive
    · have below := fun x => @steadyDivRight x b1 (-1) (.inr (by omega))
      exact ⟨fun h => leastAtCorners left (below a1) (below a2) upon under upon' (by omega) h.1 h.2.1 h.2.2.2.2.1 h.2.2.2.2.2.1,
        fun h => greatestAtCorners left (below a1) (below a2) upon under upon' (by omega) h.1 h.2.1 h.2.2.2.2.1 h.2.2.2.2.2.1⟩
    · have above := fun x => @steadyDivRight x 1 b2 (.inl (by omega))
      have one := fun x : Int => Int.tdiv_one x
      exact ⟨fun h => leastAtCorners left (above a1) (above a2) upon under (by omega) under' ((one a1).symm ▸ h.2.2.1) h.2.2.2.1
          ((one a2).symm ▸ h.2.2.2.2.2.2.1) h.2.2.2.2.2.2.2,
        fun h => greatestAtCorners left (above a1) (above a2) upon under (by omega) under' ((one a1).symm ▸ h.2.2.1) h.2.2.2.1
          ((one a2).symm ▸ h.2.2.2.2.2.2.1) h.2.2.2.2.2.2.2⟩
  · rename_i whole
    have right := fun x => @steadyDivRight x b1 b2 (by omega)
    simp only [List.forall_mem_cons,List.not_mem_nil,false_imp_iff,forall_const,and_true]
    exact ⟨fun h => leastAtCorners left (right a1) (right a2) upon under upon' under' h.1 h.2.1 h.2.2.1 h.2.2.2,
      fun h => greatestAtCorners left (right a1) (right a2) upon under upon' under' h.1 h.2.1 h.2.2.1 h.2.2.2⟩

-- The divisor's range without a zero at its ends.
def trimmed (b1 b2 : Int) : Int × Int := (if b1 = 0 then 1 else b1,if b2 = 0 then -1 else b2)

def Safe (a1 a2 b1 b2 : Int) : Prop :=
  ∀ a b, a = a1 ∨ a = a2 → b = b1 ∨ b = b2 ∨ (b = -1 ∧ b1 < 0 ∧ 0 < b2) → ¬ (a = minSigned 64 ∧ b = -1)

-- What a successful call has checked and computed.
theorem rangeFound {a1 a2 b1 b2 rangeMin rangeMax : Int} {divchk : Bool} {result : Int × Int}
    (ran : constrainIntegerDivisionRange a1 a2 b1 b2 rangeMin rangeMax divchk = some result) :
    ¬ (b1 = 0 ∧ b2 = 0) ∧ (b1 ≤ 0 → 0 ≤ b2 → divchk = true) ∧ Safe a1 a2 (trimmed b1 b2).1 (trimmed b1 b2).2 ∧
      clamp rangeMin rangeMax ((computed a1 a2 (trimmed b1 b2).1 (trimmed b1 b2).2).foldl takeIn (rangeMax,rangeMin)) = some result := by
  unfold constrainIntegerDivisionRange at ran
  split at ran <;> try contradiction
  split at ran <;> try contradiction
  rename_i nonzero zero
  change (if isUnsafeDivide a1 (trimmed b1 b2).1 || isUnsafeDivide a1 (trimmed b1 b2).2 ||
        isUnsafeDivide a2 (trimmed b1 b2).1 || isUnsafeDivide a2 (trimmed b1 b2).2 then none
      else if ((trimmed b1 b2).1 < 0 ∧ (trimmed b1 b2).2 > 0) ∧ (isUnsafeDivide a1 (-1) || isUnsafeDivide a2 (-1)) then none
      else clamp rangeMin rangeMax ((computed a1 a2 (trimmed b1 b2).1 (trimmed b1 b2).2).foldl takeIn (rangeMax,rangeMin))) =
    some result at ran
  generalize (trimmed b1 b2).1 = c1, (trimmed b1 b2).2 = c2 at ran ⊢
  split at ran <;> try contradiction
  split at ran <;> try contradiction
  rename_i corners split
  refine ⟨nonzero,fun low high => ?_,?_,ran⟩
  · cases divchk with
    | true => rfl
    | false => exact absurd ⟨rfl,low,high⟩ zero
  · intro a b atA atB
    simp only [isUnsafeDivide,Bool.or_eq_true,decide_eq_true_eq,not_or] at corners split
    rcases atA with rfl | rfl <;> rcases atB with rfl | rfl | ⟨rfl,negative,positive⟩
    · exact corners.1.1.1
    · exact corners.1.1.2
    · exact fun bad => split ⟨⟨negative,positive⟩,.inl ⟨bad.1,trivial⟩⟩
    · exact corners.1.2
    · exact corners.2
    · exact fun bad => split ⟨⟨negative,positive⟩,.inr ⟨bad.1,trivial⟩⟩

theorem clamped {rangeMin rangeMax : Int} {result : Int × Int} {lo hi : Int} (ordered : rangeMin ≤ rangeMax)
    (low : result.1 ≤ rangeMax) (high : rangeMin ≤ result.2) (ran : clamp rangeMin rangeMax result = some (lo,hi)) :
    rangeMin ≤ lo ∧ lo ≤ hi ∧ hi ≤ rangeMax ∧ (lo = rangeMin ∨ lo = result.1) ∧ result.1 ≤ lo ∧ hi ≤ result.2 ∧
      (hi = rangeMax ∨ hi = result.2) := by
  unfold clamp at ran
  dsimp only at ran
  split at ran <;> split at ran <;> split at ran <;> cases ran <;> omega

theorem trimmedNonzero (b1 b2 : Int) :
    (trimmed b1 b2).1 ≠ 0 ∧ (trimmed b1 b2).2 ≠ 0 ∧ ∀ b, b ≠ 0 → b1 ≤ b → b ≤ b2 → (trimmed b1 b2).1 ≤ b ∧ b ≤ (trimmed b1 b2).2 := by
  unfold trimmed
  refine ⟨?_,?_,fun b away upon under => ⟨?_,?_⟩⟩
  · dsimp only; split <;> omega
  · dsimp only; split <;> omega
  · dsimp only; split <;> omega
  · dsimp only; split <;> omega

section
variable {a1 a2 b1 b2 rangeMin rangeMax lo hi : Int} {divchk : Bool}

theorem rangeCovers {a b : Int} (ordered : rangeMin ≤ rangeMax)
    (ran : constrainIntegerDivisionRange a1 a2 b1 b2 rangeMin rangeMax divchk = some (lo,hi)) (upon : a1 ≤ a) (under : a ≤ a2)
    (upon' : b1 ≤ b) (under' : b ≤ b2) (nonzero : b ≠ 0) (low : rangeMin ≤ a.tdiv b) (high : a.tdiv b ≤ rangeMax) :
    lo ≤ a.tdiv b ∧ a.tdiv b ≤ hi := by
  obtain ⟨_,_,_,found⟩ := rangeFound ran
  obtain ⟨first,last,inside⟩ := trimmedNonzero b1 b2
  obtain ⟨from',upTo⟩ := inside b nonzero upon' under'
  have covers := fun m => @computedCovers a1 a2 _ _ a b m upon under from' upTo nonzero first last
  have lows := (takenLow (computed a1 a2 (trimmed b1 b2).1 (trimmed b1 b2).2) rangeMax rangeMin _).mp (Int.le_refl _)
  have highs := (takenHigh (computed a1 a2 (trimmed b1 b2).1 (trimmed b1 b2).2) rangeMax rangeMin _).mp (Int.le_refl _)
  have least := (covers _).1 lows.2
  have greatest := (covers _).2 highs.2
  have ends := clamped ordered lows.1 highs.1 found
  omega

theorem rangeEnds (ordered : rangeMin ≤ rangeMax)
    (ran : constrainIntegerDivisionRange a1 a2 b1 b2 rangeMin rangeMax divchk = some (lo,hi)) :
    rangeMin ≤ lo ∧ lo ≤ hi ∧ hi ≤ rangeMax := by
  obtain ⟨_,_,_,found⟩ := rangeFound ran
  have lows := (takenLow (computed a1 a2 (trimmed b1 b2).1 (trimmed b1 b2).2) rangeMax rangeMin _).mp (Int.le_refl _)
  have highs := (takenHigh (computed a1 a2 (trimmed b1 b2).1 (trimmed b1 b2).2) rangeMax rangeMin _).mp (Int.le_refl _)
  have ends := clamped ordered lows.1 highs.1 found
  exact ⟨ends.1,ends.2.1,ends.2.2.1⟩

theorem rangeSafe {a b : Int} (ran : constrainIntegerDivisionRange a1 a2 b1 b2 rangeMin rangeMax divchk = some (lo,hi))
    (least : minSigned 64 ≤ a1) (upon : a1 ≤ a) (upon' : b1 ≤ b) (under' : b ≤ b2) : ¬ (a = minSigned 64 ∧ b = -1) := by
  rintro ⟨atMin,rfl⟩
  obtain ⟨_,_,safe,_⟩ := rangeFound ran
  have first : a1 = minSigned 64 := by omega
  refine safe a1 (-1) (.inl rfl) ?_ ⟨first,rfl⟩
  unfold trimmed
  dsimp only
  split <;> split <;> omega

/- Where there is a divisor that may be divided by, and no dividend of the
corners is the least 64-bit number, there is a range. -/
theorem rangeSucceeds (a1 a2 : Int) (ordered : rangeMin ≤ rangeMax) (nonzero : ¬ (b1 = 0 ∧ b2 = 0))
    (zero : b1 ≤ 0 → 0 ≤ b2 → divchk = true) (safe : a1 ≠ minSigned 64) (safe' : a2 ≠ minSigned 64) :
    ∃ lo hi, constrainIntegerDivisionRange a1 a2 b1 b2 rangeMin rangeMax divchk = some (lo,hi) ∧
      ((∀ q ∈ computed a1 a2 (trimmed b1 b2).1 (trimmed b1 b2).2, rangeMin < q) → rangeMin < rangeMax → rangeMin < lo) := by
  have unsafe1 : ∀ b, isUnsafeDivide a1 b = false := fun b => by simp [isUnsafeDivide,safe]
  have unsafe2 : ∀ b, isUnsafeDivide a2 b = false := fun b => by simp [isUnsafeDivide,safe']
  have refused : ¬ (divchk = false ∧ b1 ≤ 0 ∧ b2 ≥ 0) := by
    rintro ⟨off,low,high⟩
    rw [zero low high] at off
    contradiction
  have lows := takenLow (computed a1 a2 (trimmed b1 b2).1 (trimmed b1 b2).2) rangeMax rangeMin
  have highs := takenHigh (computed a1 a2 (trimmed b1 b2).1 (trimmed b1 b2).2) rangeMax rangeMin
  have ran : constrainIntegerDivisionRange a1 a2 b1 b2 rangeMin rangeMax divchk =
      clamp rangeMin rangeMax ((computed a1 a2 (trimmed b1 b2).1 (trimmed b1 b2).2).foldl takeIn (rangeMax,rangeMin)) := by
    unfold constrainIntegerDivisionRange
    rw [if_neg nonzero,if_neg refused]
    simp only [unsafe1,unsafe2,Bool.or_self,Bool.false_eq_true,and_false,if_false]
    rfl
  have corner : a1.tdiv (trimmed b1 b2).1 ∈ computed a1 a2 (trimmed b1 b2).1 (trimmed b1 b2).2 := by
    unfold computed
    split <;> exact List.mem_cons_self
  have below := ((lows _).mp (Int.le_refl _)).2 _ corner
  have above := ((highs _).mp (Int.le_refl _)).2 _ corner
  have under := ((lows _).mp (Int.le_refl _)).1
  have upon := ((highs _).mp (Int.le_refl _)).1
  have strict := (lows (rangeMin + 1)).mpr
  rw [ran]
  generalize (computed a1 a2 (trimmed b1 b2).1 (trimmed b1 b2).2).foldl takeIn (rangeMax,rangeMin) = result at below above under upon strict
  refine ⟨if result.1 < rangeMin then rangeMin else result.1,if result.2 > rangeMax then rangeMax else result.2,?_,fun past room => ?_⟩
  · unfold clamp
    dsimp only
    rw [if_neg (by split <;> split <;> omega)]
  · have next := strict ⟨by omega,fun q on => by have := past q on; omega⟩
    split <;> omega

end

theorem tdivInside {w : Nat} {a b : Int} (inside : InRange w a) (nonzero : b ≠ 0) (safe : ¬ (a = minSigned w ∧ b = -1)) :
    InRange w (a.tdiv b) := by
  have sizes : (a.tdiv b).natAbs = a.natAbs / b.natAbs := Int.natAbs_tdiv a b
  have pos := halfPos w
  simp only [InRange,minSigned,maxSigned] at inside safe ⊢
  by_cases unit : b = -1
  · rw [unit,Int.tdiv_neg,Int.tdiv_one]
    omega
  · by_cases one : b = 1
    · rw [one,Int.tdiv_one]
      exact inside
    · have least : 2 ≤ b.natAbs := by omega
      have smaller := Nat.div_le_div_left (a := a.natAbs) least (by decide)
      omega

-- What an attached range says, the factory's NULL being no range.
theorem rangeAttached {lo hi : Int} {c : IntegralConstraint} (low : minSigned 32 ≤ lo) (less : lo ≤ hi) (high : hi ≤ maxSigned 32)
    (made : VPIntRange.create (wrap 32 lo) (wrap 32 hi) .no = some c) : c.type = .Int32 ∧ c.getLow = lo ∧ c.getHigh = hi := by
  rw [wrapSelf (by decide) ⟨low,by omega⟩,wrapSelf (by decide) ⟨by omega,high⟩] at made
  have kept := createRangeMade .Int32 lo hi .no
  unfold VPIntRange.create at made
  rw [made] at kept
  exact kept

theorem signedHolds {divchk : Bool} {lhs rhs c : IntegralConstraint} (left : lhs.Valid .Int32)
    (ran : rangeIdiv false divchk lhs rhs = some c) {a b : Int} (inA : lhs.Contains a) (inB : rhs.Contains b) (nonzero : b ≠ 0)
    (fine : ¬ ((rhs.Contains 0 → divchk = true) ∧ lhs.Contains (minSigned 32) ∧ rhs.Contains (-1) ∧ ¬ rhs.Contains 1)) :
    c.Contains (wrap 32 (a.tdiv b)) := by
  simp only [rangeIdiv,Bool.false_eq_true,if_false,Option.bind_eq_some_iff] at ran
  obtain ⟨⟨lo,hi⟩,range,made⟩ := ran
  have limits : minSigned 32 ≤ maxSigned 32 := by decide
  obtain ⟨low,less,high⟩ := rangeEnds limits range
  obtain ⟨_,atLow,atHigh⟩ := rangeAttached low less high made
  unfold IntegralConstraint.Contains at fine inA inB ⊢
  rw [atLow,atHigh]
  have inside : InRange 32 a := integralInRange left inA
  by_cases wraps : a = minSigned 32 ∧ b = -1
  · obtain ⟨rfl,rfl⟩ := wraps
    have folds : wrap 32 ((minSigned 32).tdiv (-1)) = minSigned 32 := by decide
    rw [folds]
    obtain ⟨_,zero,_,found⟩ := rangeFound range
    -- A positive divisor splits the range, and the dividend is then a corner.
    have positive : rhs.getLow ≤ 1 ∧ 1 ≤ rhs.getHigh := by
      by_contra none'
      exact fine ⟨fun both => zero both.1 both.2,inA,inB,none'⟩
    have first : lhs.getLow = minSigned 32 := by
      have := left.2.1
      have same : DataType.Int32.getMinSigned = minSigned 32 := rfl
      omega
    have corner : minSigned 32 ∈ computed lhs.getLow lhs.getHigh (trimmed rhs.getLow rhs.getHigh).1 (trimmed rhs.getLow rhs.getHigh).2 := by
      unfold computed trimmed
      dsimp only
      rw [if_neg (show ¬ rhs.getLow = 0 by omega),if_neg (show ¬ rhs.getHigh = 0 by omega),if_pos (by omega),first]
      simp
    have lows := (takenLow (computed lhs.getLow lhs.getHigh (trimmed rhs.getLow rhs.getHigh).1 (trimmed rhs.getLow rhs.getHigh).2)
      (maxSigned 32) (minSigned 32) _).mp (Int.le_refl _)
    have highs := (takenHigh (computed lhs.getLow lhs.getHigh (trimmed rhs.getLow rhs.getHigh).1 (trimmed rhs.getLow rhs.getHigh).2)
      (maxSigned 32) (minSigned 32) _).mp (Int.le_refl _)
    have under := lows.2 _ corner
    have ends := clamped limits lows.1 highs.1 found
    omega
  · have fits := tdivInside inside nonzero wraps
    rw [wrapSelf (by decide) fits]
    exact rangeCovers limits range inA.1 inA.2 inB.1 inB.2 nonzero fits.1 fits.2

theorem signedMisses {divchk : Bool} {lhs rhs : IntegralConstraint} (left : lhs.Valid .Int32)
    (zero : rhs.Contains 0 → divchk = true) (least : lhs.Contains (minSigned 32)) (unit : rhs.Contains (-1)) (none' : ¬ rhs.Contains 1) :
    ∃ c, rangeIdiv false divchk lhs rhs = some c ∧ ¬ c.Contains (wrap 32 ((minSigned 32).tdiv (-1))) := by
  have folds : wrap 32 ((minSigned 32).tdiv (-1)) = minSigned 32 := by decide
  have limits : minSigned 32 < maxSigned 32 := by decide
  have wide : minSigned 64 < minSigned 32 := by decide
  have low : minSigned 32 ≤ lhs.getLow := left.2.1
  have high : lhs.getHigh ≤ maxSigned 32 := left.2.2.2
  have number : minSigned 32 = -2147483648 ∧ maxSigned 32 = 2147483647 := by decide
  unfold IntegralConstraint.Contains at zero least unit none'
  obtain ⟨lo,hi,range,past⟩ := @rangeSucceeds rhs.getLow rhs.getHigh (minSigned 32) (maxSigned 32) divchk lhs.getLow lhs.getHigh
    (by omega) (by omega) (fun below above => zero ⟨below,above⟩) (by omega) (by omega)
  -- Every corner is a quotient by a negative number, and none of them wraps.
  have first : lhs.getLow = minSigned 32 := by omega
  have corners : ∀ q ∈ computed lhs.getLow lhs.getHigh (trimmed rhs.getLow rhs.getHigh).1 (trimmed rhs.getLow rhs.getHigh).2,
      minSigned 32 < q := by
    have ends : (trimmed rhs.getLow rhs.getHigh).1 = rhs.getLow ∧ (trimmed rhs.getLow rhs.getHigh).2 = -1 := by
      unfold trimmed
      dsimp only
      rw [if_neg (by omega)]
      split <;> omega
    have unitQuotient : ∀ a : Int, a.tdiv (-1) = -a := fun a => by rw [Int.tdiv_neg,Int.tdiv_one]
    have bounded : ∀ a, InRange 32 a → minSigned 32 < a.tdiv rhs.getLow := by
      intro a inside
      have back := Int.natAbs_tdiv_le_natAbs a rhs.getLow
      unfold InRange at inside
      rcases Int.lt_or_le a 0 with negative | nonneg
      · have := Int.tdiv_nonneg_of_nonpos_of_nonpos (show a ≤ 0 by omega) (show rhs.getLow ≤ 0 by omega)
        omega
      · omega
    rw [ends.1,ends.2,computed,if_neg (by omega)]
    have one := bounded lhs.getLow ⟨by omega,by omega⟩
    have two := bounded lhs.getHigh ⟨by omega,high⟩
    simp only [List.forall_mem_cons,List.not_mem_nil,false_imp_iff,forall_const,and_true,unitQuotient]
    omega
  have above := past corners limits
  obtain ⟨bottom,less,top⟩ := rangeEnds (by omega) range
  have made : VPIntRange.create (wrap 32 lo) (wrap 32 hi) .no ≠ none := by
    intro missing
    have kept := createRangeMade .Int32 (wrap 32 lo) (wrap 32 hi) .no
    unfold VPIntRange.create at missing
    rw [missing,wrapSelf (by decide) ⟨bottom,by omega⟩] at kept
    have := kept.1
    have same : DataType.Int32.getMinSigned = minSigned 32 := rfl
    omega
  obtain ⟨c,made⟩ := Option.ne_none_iff_exists'.mp made
  obtain ⟨_,atLow,_⟩ := rangeAttached bottom less top made
  refine ⟨c,?_,?_⟩
  · simp only [rangeIdiv,Bool.false_eq_true,if_false,range,Option.bind_some,made]
  · rw [folds]
    intro inside
    have := inside.1
    omega

theorem unsignedReading {a : Int} (inside : InRange 32 a) :
    (0 ≤ a ∧ toUnsigned 32 a = a) ∨ (a < 0 ∧ toUnsigned 32 a = a + 4294967296) := by
  have number : minSigned 32 = -2147483648 ∧ maxSigned 32 = 2147483647 ∧ modulus 32 = 4294967296 := by decide
  unfold InRange at inside
  rw [toUnsigned,number.2.2]
  omega

-- A range of both signs is read as every unsigned number.
theorem unsignedEnds {c : IntegralConstraint} (valid : c.Valid .Int32) :
    (0 ≤ c.getLow ∧ getUnsignedLowInt c = c.getLow ∧ getUnsignedHighInt c = c.getHigh) ∨
    (c.getHigh < 0 ∧ getUnsignedLowInt c = c.getLow + 4294967296 ∧ getUnsignedHighInt c = c.getHigh + 4294967296) ∨
    (c.getLow < 0 ∧ 0 ≤ c.getHigh ∧ getUnsignedLowInt c = 0 ∧ getUnsignedHighInt c = 4294967295) := by
  obtain ⟨_,low,less,high⟩ := valid
  have inLow : InRange 32 c.getLow := ⟨low,Int.le_trans less high⟩
  have inHigh : InRange 32 c.getHigh := ⟨Int.le_trans low less,high⟩
  have number : modulus 32 = 4294967296 := by decide
  unfold getUnsignedLowInt getUnsignedHighInt
  rw [xorNegativeSigns (by decide) inLow inHigh]
  rcases unsignedReading inLow with ⟨nonneg,readLow⟩ | ⟨negative,readLow⟩ <;>
    rcases unsignedReading inHigh with ⟨nonneg',readHigh⟩ | ⟨negative',readHigh⟩
  · simp [Int.not_lt.mpr nonneg,Int.not_lt.mpr nonneg',readLow,readHigh,nonneg]
  · omega
  · simp [Int.not_lt.mpr nonneg',negative,nonneg',number]
  · simp [negative,negative',readLow,readHigh]

theorem unsignedCovers {c : IntegralConstraint} (valid : c.Valid .Int32) {a : Int} (inside : c.Contains a) :
    getUnsignedLowInt c ≤ toUnsigned 32 a ∧ toUnsigned 32 a ≤ getUnsignedHighInt c ∧ 0 ≤ getUnsignedLowInt c ∧
      getUnsignedHighInt c ≤ 4294967295 := by
  have number : DataType.Int32.getMinSigned = -2147483648 ∧ DataType.Int32.getMaxSigned = 2147483647 := by decide
  have ⟨_,low,less,high⟩ := valid
  have reads := unsignedReading (integralInRange valid inside)
  unfold IntegralConstraint.Contains at inside
  rcases unsignedEnds valid with ends | ends | ends <;> omega

theorem unsignedZero {c : IntegralConstraint} (valid : c.Valid .Int32) : getUnsignedLowInt c ≤ 0 ↔ c.Contains 0 := by
  have number : DataType.Int32.getMinSigned = -2147483648 ∧ DataType.Int32.getMaxSigned = 2147483647 := by decide
  have ⟨_,low,less,high⟩ := valid
  unfold IntegralConstraint.Contains
  rcases unsignedEnds valid with ends | ends | ends <;> omega

theorem unsignedHolds {divchk : Bool} {lhs rhs c : IntegralConstraint} (left : lhs.Valid .Int32) (right : rhs.Valid .Int32)
    (ran : rangeIdiv true divchk lhs rhs = some c) {a b : Int} (inA : lhs.Contains a) (inB : rhs.Contains b) (nonzero : b ≠ 0)
    (fine : ¬ ((rhs.Contains 0 → divchk = true) ∧ (∃ x, x < 0 ∧ lhs.Contains x) ∧ rhs.Contains 1)) :
    c.Contains (wrap 32 (toUnsigned 32 a / toUnsigned 32 b)) := by
  simp only [rangeIdiv,if_true,Option.bind_eq_some_iff] at ran
  obtain ⟨⟨lo,hi⟩,range,made⟩ := ran
  have number : minSigned 32 = -2147483648 ∧ maxSigned 32 = 2147483647 := by decide
  obtain ⟨low,less,high⟩ := rangeEnds (show (0 : Int) ≤ maxSigned 32 by decide) range
  obtain ⟨_,atLow,atHigh⟩ := rangeAttached (by omega) less high made
  have dividend := unsignedCovers left inA
  have divisor := unsignedCovers right inB
  have readA := unsignedReading (integralInRange left inA)
  have readB := unsignedReading (integralInRange right inB)
  have inB' := integralInRange right inB
  have inA' := integralInRange left inA
  unfold InRange at inA' inB'
  have bits : DataType.Int32.bits = 32 := rfl
  rw [bits] at inA' inB'
  obtain ⟨_,zero,_,_⟩ := rangeFound range
  have positive : 0 < toUnsigned 32 b := by omega
  have nonneg := Int.ediv_nonneg (show 0 ≤ toUnsigned 32 a by omega) (Int.le_of_lt positive)
  have truncates := Int.tdiv_eq_ediv_of_nonneg (b := toUnsigned 32 b) (show 0 ≤ toUnsigned 32 a by omega)
  have allowed : rhs.Contains 0 → divchk = true := by
    intro both
    have := (unsignedZero right).mpr both
    exact zero this (by omega)
  -- Only a negative dividend over one has a quotient past the signed maximum.
  have fits : toUnsigned 32 a / toUnsigned 32 b ≤ maxSigned 32 := by
    rcases Int.lt_or_le a 0 with negative | notNegative
    · have apart : b ≠ 1 := fun one => fine ⟨allowed,⟨a,negative,inA⟩,one ▸ inB⟩
      have halved := tdivShrinks (show 0 ≤ toUnsigned 32 a by omega) (by decide) (show 2 ≤ toUnsigned 32 b by omega)
      rw [truncates,Int.tdiv_eq_ediv_of_nonneg (show 0 ≤ toUnsigned 32 a by omega)] at halved
      omega
    · have := Int.ediv_le_self (toUnsigned 32 b) (show 0 ≤ toUnsigned 32 a by omega)
      omega
  rw [wrapSelf (by decide) ⟨by omega,fits⟩]
  have covered := rangeCovers (by decide) range dividend.1 dividend.2.1 divisor.1 divisor.2.1 (by omega) (truncates ▸ nonneg) (truncates ▸ fits)
  unfold IntegralConstraint.Contains
  rw [atLow,atHigh,← truncates]
  exact covered

theorem unsignedMisses {divchk : Bool} {lhs rhs : IntegralConstraint} (left : lhs.Valid .Int32) (right : rhs.Valid .Int32)
    (zero : rhs.Contains 0 → divchk = true) {x : Int} (negative : x < 0) (inside : lhs.Contains x) (one : rhs.Contains 1) :
    ∃ c, rangeIdiv true divchk lhs rhs = some c ∧ ¬ c.Contains (wrap 32 (toUnsigned 32 x / toUnsigned 32 1)) := by
  have number : minSigned 32 = -2147483648 ∧ maxSigned 32 = 2147483647 ∧ minSigned 64 = -9223372036854775808 := by decide
  have dividend := unsignedCovers left inside
  have divisor := unsignedCovers right one
  have unit : toUnsigned 32 1 = 1 := by decide
  have inX : InRange 32 x := integralInRange left inside
  have folds : wrap 32 (toUnsigned 32 x / toUnsigned 32 1) = x := by
    rw [unit,Int.ediv_one]
    rcases unsignedReading inX with ⟨nonneg,_⟩ | ⟨_,reads⟩
    · omega
    · have turn : modulus 32 = 4294967296 := by decide
      exact wrapUnique (k := -1) (by decide) inX (by omega)
  obtain ⟨lo,hi,range,_⟩ := @rangeSucceeds (getUnsignedLowInt rhs) (getUnsignedHighInt rhs) 0 (maxSigned 32) divchk
    (getUnsignedLowInt lhs) (getUnsignedHighInt lhs) (by decide) (by omega) (fun below _ => zero ((unsignedZero right).mp below))
    (by omega) (by omega)
  obtain ⟨bottom,less,top⟩ := rangeEnds (by decide) range
  have made : VPIntRange.create (wrap 32 lo) (wrap 32 hi) .no ≠ none := by
    intro missing
    have kept := createRangeMade .Int32 (wrap 32 lo) (wrap 32 hi) .no
    unfold VPIntRange.create at missing
    rw [missing,wrapSelf (by decide) ⟨by omega,by omega⟩] at kept
    have := kept.1
    have same : DataType.Int32.getMinSigned = minSigned 32 := rfl
    omega
  obtain ⟨c,made⟩ := Option.ne_none_iff_exists'.mp made
  obtain ⟨_,atLow,_⟩ := rangeAttached (by omega) less top made
  refine ⟨c,?_,?_⟩
  · simp only [rangeIdiv,if_true,range,Option.bind_some,made]
  · rw [folds]
    intro within
    have := within.1
    omega

-- Every constraint a handler leaves on the node or on the idiv it made.
def Effect.attached (effect : Effect) : List IntegralConstraint := effect.node.toList ++ effect.newIdiv.toList

theorem settled (constraint : Option IntegralConstraint) (low high : Int) :
    (settle constraint low high).attached = constraint.toList := by
  unfold settle
  split
  · rfl
  · split <;> rfl

theorem foldIdivExact {isUnsigned : Bool} {a b : Int} (inA : InRange 32 a) (nonzero : b ≠ 0) :
    foldIdiv isUnsigned a b = some (.const .Int32 (quotient .Int32 isUnsigned a b)) := by
  unfold foldIdiv quotient
  cases isUnsigned with
  | true => simp [nonzero,VPIntConst.create,createConst,DataType.bits]
  | false =>
      by_cases wraps : a = minSigned 32 ∧ b = -1
      · obtain ⟨rfl,rfl⟩ := wraps
        decide
      · have fits := tdivInside inA nonzero wraps
        have bits : DataType.Int32.bits = 32 := rfl
        rw [if_neg (by tauto),if_pos nonzero,bits]
        simp only [Bool.false_eq_true,if_false,wrapSelf (show 0 < 32 by decide) fits]
        rfl

theorem foldLdivExact {a b : Int} (inA : InRange 64 a) (nonzero : b ≠ 0) :
    foldLdiv a b = some (.const .Int64 (quotient .Int64 false a b)) := by
  unfold foldLdiv quotient
  by_cases wraps : a = minSigned 64 ∧ b = -1
  · obtain ⟨rfl,rfl⟩ := wraps
    decide
  · have fits := tdivInside inA nonzero wraps
    have bits : DataType.Int64.bits = 64 := rfl
    rw [if_neg wraps,if_pos nonzero,bits]
    simp only [Bool.false_eq_true,if_false,wrapSelf (show 0 < 64 by decide) fits]
    rfl

theorem rangeLdivHolds {divchk : Bool} {lhs rhs c : IntegralConstraint} (left : lhs.Valid .Int64)
    (on : c ∈ (rangeLdiv divchk lhs rhs).attached) {a b : Int} (inA : lhs.Contains a) (inB : rhs.Contains b) (nonzero : b ≠ 0) :
    c.Contains (quotient .Int64 false a b) := by
  unfold rangeLdiv at on
  simp only [settled,Option.mem_toList,Option.bind_eq_some_iff] at on
  obtain ⟨⟨lo,hi⟩,range,made⟩ := on
  have kept := createLongRangeMade lo hi false .no
  rw [made] at kept
  have inside : InRange 64 a := integralInRange left inA
  have fits := tdivInside inside nonzero (rangeSafe range left.2.1 inA.1 inB.1 inB.2)
  have covered := rangeCovers (by decide) range inA.1 inA.2 inB.1 inB.2 nonzero fits.1 fits.2
  have exact' : quotient .Int64 false a b = a.tdiv b := wrapSelf (by decide) fits
  unfold IntegralConstraint.Contains
  rw [exact',kept.2.1,kept.2.2]
  exact covered

theorem reduceLdivHolds {divchk : Bool} {lhs rhs c : IntegralConstraint} (ints : reducesToIdiv lhs rhs = true)
    (on : c ∈ (reduceLdiv divchk lhs rhs).attached) {a b : Int} (inA : lhs.Contains a) (inB : rhs.Contains b) (nonzero : b ≠ 0) :
    c.Contains (quotient .Int64 false a b) := by
  have number : minSigned 32 = -2147483648 ∧ maxSigned 32 = 2147483647 ∧ minSigned 64 = -9223372036854775808 ∧
    maxSigned 64 = 9223372036854775807 := by decide
  simp only [reducesToIdiv,decide_eq_true_eq] at ints
  have ⟨overA,underA⟩ := inA
  have ⟨overB,underB⟩ := inB
  have fits : InRange 32 (a.tdiv b) := tdivInside ⟨by omega,by omega⟩ nonzero (by omega)
  have exact' : quotient .Int64 false a b = a.tdiv b := by
    have ⟨low,high⟩ := fits
    have inside : InRange 64 (a.tdiv b) := ⟨by omega,by omega⟩
    exact wrapSelf (by decide) inside
  rw [exact']
  unfold reduceLdiv at on
  dsimp only at on
  split at on
  · rename_i d lo hi found
    simp only [Option.bind_eq_some_iff,Option.map_eq_some_iff] at found
    obtain ⟨⟨lo',hi'⟩,range,d',made,same⟩ := found
    cases same
    obtain ⟨low,less,high⟩ := rangeEnds (by decide) range
    have covered := rangeCovers (by decide) range overA underA overB underB nonzero fits.1 fits.2
    obtain ⟨_,atLow,atHigh⟩ := rangeAttached low less high made
    have short : d.Contains (a.tdiv b) := by
      unfold IntegralConstraint.Contains
      rw [atLow,atHigh]
      exact covered
    split at on
    · simp only [Effect.attached,Option.toList_none,Option.toList_some,List.nil_append,List.mem_singleton] at on
      exact on ▸ short
    · simp only [Effect.attached,List.mem_append,Option.mem_toList,Option.some.injEq] at on
      rcases on with long | idiv
      · have kept := createLongRangeMade lo' hi' false .no
        rw [long] at kept
        unfold IntegralConstraint.Contains
        rw [kept.2.1,kept.2.2]
        exact covered
      · exact idiv ▸ short
  · simp only [Effect.attached,Option.toList_none,List.append_nil,Option.mem_toList] at on
    have kept := createLongRangeMade (minSigned 32) (maxSigned 32) false .no
    rw [on] at kept
    unfold IntegralConstraint.Contains
    rw [kept.2.1,kept.2.2]
    exact fits

inductive Division where
  | idiv
  | iudiv
  | ldiv
  deriving DecidableEq, Repr

def Division.type : Division → DataType
  | idiv => .Int32
  | iudiv => .Int32
  | ldiv => .Int64

def Division.isUnsigned : Division → Bool
  | iudiv => true
  | _ => false

def Division.constrain (divchk reduces : Bool) (lhs rhs : VPConstraint) : Division → Effect
  | idiv => constrainIdiv false divchk (some lhs) (some rhs)
  | iudiv => constrainIdiv true divchk (some lhs) (some rhs)
  | ldiv => constrainLdiv divchk reduces (some lhs) (some rhs)

def Division.Sound (divchk reduces : Bool) (lhs rhs : VPConstraint) (op : Division) : Prop :=
  ∀ a b, lhs.Contains a → rhs.Contains b → b ≠ 0 → ∀ c ∈ (op.constrain divchk reduces lhs rhs).attached,
    c.Contains (quotient op.type op.isUnsigned a b)

/- Operands of one range each, not both constant, under a DIVCHK if zero is a
divisor: an idiv with the least int among its dividends, -1 among its divisors
and no positive divisor, or an iudiv with a negative dividend and the divisor 1. -/
def Division.Misses (divchk : Bool) (lhs rhs : VPConstraint) (op : Division) : Prop :=
  (∃ l r, lhs = .integral l ∧ rhs = .integral r) ∧ ¬ (lhs.isConst = true ∧ rhs.isConst = true) ∧
    (rhs.Contains 0 → divchk = true) ∧
    match op with
    | idiv => lhs.Contains (minSigned 32) ∧ rhs.Contains (-1) ∧ ¬ rhs.Contains 1
    | iudiv => (∃ a, a < 0 ∧ lhs.Contains a) ∧ rhs.Contains 1
    | ldiv => False

-- The operands are two constants, two single ranges, or there is a list among them.
theorem operandKinds {t : DataType} {lhs rhs : VPConstraint} (left : lhs.Valid t) (right : rhs.Valid t) :
    (∃ a b, lhs = .integral (.const t a) ∧ rhs = .integral (.const t b)) ∨
    (∃ l r, lhs = .integral l ∧ rhs = .integral r ∧ l.Valid t ∧ r.Valid t ∧ (lhs.asConst t = none ∨ rhs.asConst t = none) ∧
      ¬ (lhs.isConst = true ∧ rhs.isConst = true)) ∨
    ((lhs.asConst t = none ∨ rhs.asConst t = none) ∧ (lhs.asIntegral t = none ∨ rhs.asIntegral t = none) ∧
      ¬ ∃ l r, lhs = .integral l ∧ rhs = .integral r) := by
  cases lhs with
  | merged list => exact .inr (.inr ⟨.inl rfl,.inl rfl,by simp⟩)
  | integral l =>
      cases rhs with
      | merged list => exact .inr (.inr ⟨.inr rfl,.inr rfl,by simp⟩)
      | integral r =>
          obtain ⟨type,_⟩ := id left
          obtain ⟨type',_⟩ := id right
          cases l with
          | range t1 low high overflow power => exact .inr (.inl ⟨_,_,rfl,rfl,left,right,.inl rfl,by simp [VPConstraint.isConst,IntegralConstraint.isConst]⟩)
          | const t1 a =>
              cases r with
              | range t2 low high overflow power => exact .inr (.inl ⟨_,_,rfl,rfl,left,right,.inr rfl,by simp [VPConstraint.isConst,IntegralConstraint.isConst]⟩)
              | const t2 b =>
                  simp only [IntegralConstraint.type] at type type'
                  exact .inl ⟨a,b,by rw [type],by rw [type']⟩

theorem onlyConst {t : DataType} {value v : Int} (inside : (VPConstraint.integral (.const t value)).Contains v) : v = value := by
  obtain ⟨low,high⟩ := inside
  exact Int.le_antisymm high low

theorem integralOf {t : DataType} {c : IntegralConstraint} (valid : c.Valid t) : (VPConstraint.integral c).asIntegral t = some c := by
  simp only [VPConstraint.asIntegral,valid.1,if_true]

theorem idivAttached {isUnsigned divchk : Bool} {lhs rhs : VPConstraint} (c : IntegralConstraint) :
    c ∈ (constrainIdiv isUnsigned divchk (some lhs) (some rhs)).attached ↔ idivConstraint isUnsigned divchk lhs rhs = some c := by
  rw [constrainIdiv,settled,Option.mem_toList]

theorem idivOfRanges {isUnsigned divchk : Bool} {l r : IntegralConstraint} (left : l.Valid .Int32) (right : r.Valid .Int32)
    (varied : (VPConstraint.integral l).asConst .Int32 = none ∨ (VPConstraint.integral r).asConst .Int32 = none) :
    idivConstraint isUnsigned divchk (.integral l) (.integral r) = rangeIdiv isUnsigned divchk l r := by
  unfold idivConstraint
  split
  · rename_i isA isB
    simp [isA,isB] at varied
  · simp only [VPConstraint.asIntConstraint,integralOf left,integralOf right]

theorem idivOfLists {isUnsigned divchk : Bool} {lhs rhs : VPConstraint} (varied : lhs.asConst .Int32 = none ∨ rhs.asConst .Int32 = none)
    (list : lhs.asIntegral .Int32 = none ∨ rhs.asIntegral .Int32 = none) : idivConstraint isUnsigned divchk lhs rhs = none := by
  unfold idivConstraint
  split
  · rename_i isA isB
    simp [isA,isB] at varied
  · split
    · rename_i isA isB
      simp only [VPConstraint.asIntConstraint] at isA isB
      simp [isA,isB] at list
    · rfl

theorem idivSound {isUnsigned divchk : Bool} {lhs rhs : VPConstraint} (left : lhs.Valid .Int32) (right : rhs.Valid .Int32)
    (Bad : VPConstraint → VPConstraint → Prop)
    (holds : ∀ {l r c a b}, l.Valid .Int32 → r.Valid .Int32 → rangeIdiv isUnsigned divchk l r = some c → l.Contains a → r.Contains b →
      b ≠ 0 → ¬ ((r.Contains 0 → divchk = true) ∧ Bad (.integral l) (.integral r)) → c.Contains (quotient .Int32 isUnsigned a b))
    (misses : ∀ {l r}, l.Valid .Int32 → r.Valid .Int32 → (r.Contains 0 → divchk = true) → Bad (.integral l) (.integral r) →
      ∃ c a b, l.Contains a ∧ r.Contains b ∧ b ≠ 0 ∧ rangeIdiv isUnsigned divchk l r = some c ∧
        ¬ c.Contains (quotient .Int32 isUnsigned a b)) :
    (∀ a b, lhs.Contains a → rhs.Contains b → b ≠ 0 → ∀ c ∈ (constrainIdiv isUnsigned divchk (some lhs) (some rhs)).attached,
      c.Contains (quotient .Int32 isUnsigned a b)) ↔
    ¬ ((∃ l r, lhs = .integral l ∧ rhs = .integral r) ∧ ¬ (lhs.isConst = true ∧ rhs.isConst = true) ∧
      (rhs.Contains 0 → divchk = true) ∧ Bad lhs rhs) := by
  simp only [idivAttached]
  rcases operandKinds left right with ⟨x,y,rfl,rfl⟩ | ⟨l,r,rfl,rfl,left,right,varied,notBoth⟩ | ⟨varied,list,notSingle⟩
  · constructor
    · rintro _ ⟨_,varied,_⟩
      exact varied ⟨rfl,rfl⟩
    · intro _ a b inA inB nonzero c made
      have first := onlyConst inA
      have second := onlyConst inB
      subst first second
      have folds : idivConstraint isUnsigned divchk (.integral (.const .Int32 a)) (.integral (.const .Int32 b)) = foldIdiv isUnsigned a b := by
        simp only [idivConstraint,VPConstraint.asConst,if_true]
      rw [folds,foldIdivExact (integralInRange left inA) nonzero,Option.some.injEq] at made
      subst made
      exact ⟨Int.le_refl _,Int.le_refl _⟩
  · rw [idivOfRanges left right varied]
    constructor
    · rintro sound ⟨_,_,zero,bad⟩
      obtain ⟨c,a,b,inA,inB,nonzero,made,outside⟩ := misses left right zero bad
      exact outside (sound a b inA inB nonzero c made)
    · intro fine a b inA inB nonzero c made
      exact holds left right made inA inB nonzero fun bad => fine ⟨⟨l,r,rfl,rfl⟩,notBoth,bad⟩
  · rw [idivOfLists varied list]
    constructor
    · rintro _ ⟨single,_⟩
      exact notSingle single
    · intro _ a b _ _ _ c made
      cases made

theorem ldivSound {divchk reduces : Bool} {lhs rhs : VPConstraint} (left : lhs.Valid .Int64) (right : rhs.Valid .Int64) {a b : Int}
    (inA : lhs.Contains a) (inB : rhs.Contains b) (nonzero : b ≠ 0) {c : IntegralConstraint}
    (on : c ∈ (constrainLdiv divchk reduces (some lhs) (some rhs)).attached) : c.Contains (quotient .Int64 false a b) := by
  rcases operandKinds left right with ⟨x,y,rfl,rfl⟩ | ⟨l,r,rfl,rfl,left,right,varied,_⟩ | ⟨varied,list,_⟩
  · have first := onlyConst inA
    have second := onlyConst inB
    subst first second
    simp only [constrainLdiv,VPConstraint.asConst,if_true,foldLdivExact (integralInRange left inA) nonzero] at on
    simp only [Effect.attached,Option.toList_some,Option.toList_none,List.append_nil,List.mem_singleton] at on
    subst on
    exact ⟨Int.le_refl _,Int.le_refl _⟩
  · unfold constrainLdiv at on
    dsimp only at on
    split at on
    · rename_i isA isB
      simp [isA,isB] at varied
    · simp only [VPConstraint.asLongConstraint,integralOf left,integralOf right] at on
      split at on
      · rename_i taken
        exact reduceLdivHolds (Bool.and_eq_true _ _ ▸ taken).2 on inA inB nonzero
      · exact rangeLdivHolds left on inA inB nonzero
  · unfold constrainLdiv at on
    dsimp only at on
    split at on
    · rename_i isA isB
      simp [isA,isB] at varied
    · split at on
      · rename_i isA isB
        simp only [VPConstraint.asLongConstraint] at isA isB
        simp [isA,isB] at list
      · simp [unchanged,Effect.attached] at on

theorem quotientRangesSound (op : Division) (divchk reduces : Bool) {lhs rhs : VPConstraint} (left : lhs.Valid op.type)
    (right : rhs.Valid op.type) : op.Sound divchk reduces lhs rhs ↔ ¬ op.Misses divchk lhs rhs := by
  cases op with
  | idiv =>
      refine idivSound left right (fun lhs rhs => lhs.Contains (minSigned 32) ∧ rhs.Contains (-1) ∧ ¬ rhs.Contains 1) ?_ ?_
      · intro l r c a b left _ ran inA inB nonzero fine
        exact signedHolds left ran inA inB nonzero fine
      · rintro l r left _ zero ⟨least,unit,none'⟩
        obtain ⟨c,ran,outside⟩ := signedMisses left zero least unit none'
        exact ⟨c,_,_,least,unit,by decide,ran,outside⟩
  | iudiv =>
      refine idivSound left right (fun lhs rhs => (∃ a, a < 0 ∧ lhs.Contains a) ∧ rhs.Contains 1) ?_ ?_
      · intro l r c a b left right ran inA inB nonzero fine
        exact unsignedHolds left right ran inA inB nonzero fine
      · rintro l r left right zero ⟨⟨a,negative,inside⟩,one⟩
        obtain ⟨c,ran,outside⟩ := unsignedMisses left right zero negative inside one
        exact ⟨c,_,_,inside,one,by decide,ran,outside⟩
  | ldiv =>
      constructor
      · rintro _ ⟨_,_,_,never⟩
        exact never
      · intro _ a b inA inB nonzero c on
        exact ldivSound left right inA inB nonzero on

/- A dividend of -10 to 10 by 3 and one of -2147483648 to 0 by -1: the second is
left with a range that the machine's quotient is outside of. -/
theorem quotientRangesSoundSample :
    Division.idiv.Sound true true (.integral (.range .Int32 (-10) 10 .no false)) (.integral (.const .Int32 3)) :=
  (quotientRangesSound .idiv true true (by decide) (by decide)).mpr fun ⟨_,_,_,least,_⟩ => absurd least (by decide)

theorem minOverMinusOneOutside :
    ¬ Division.idiv.Sound false false (.integral (.range .Int32 (-2147483648) 0 .no false)) (.integral (.const .Int32 (-1))) := by
  intro sound
  have held := sound (-2147483648) (-1) (by decide) (by decide) (by decide) (.range .Int32 0 2147483647 .no false) (by decide)
  revert held
  decide

end OmrCompiler.DivisionRange
