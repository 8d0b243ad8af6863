import OmrCompiler.BitwiseRange

/-! The constraints of bitwise operations hold of their values, and when a mask or a signed
shift is dropped for good reason. -/
namespace OmrCompiler.BitwiseSound
open MachineInt Constraint ILTree ShiftRange MaskArithmetic BitwiseRange

section Readings
variable {w : Nat} {x y : Int} {t : DataType}

theorem signClearNonneg (hw : 0 < w) (inside : InRange w x) : signClear w x = true ↔ 0 ≤ x := by
  have half := halfPos w
  have mod := modulusHalf hw
  have least : InRange w (minSigned w) := ⟨Int.le_refl _,by simp only [minSigned,maxSigned]; omega⟩
  simp only [signClear,decide_eq_true_eq]
  constructor
  · intro same
    by_contra negative
    have ofLeast := wordNegative hw least (by simp only [minSigned]; omega)
    have ofValue := wordNegative hw inside (by omega)
    have cast : ((2 ^ (w - 1) : Nat) : Int) = MachineInt.half w := by simp [MachineInt.half]
    have top : ∀ n : Nat, (n : Int) < modulus w → MachineInt.half w ≤ n → n / 2 ^ (w - 1) = 1 := by
      intro n below above
      exact Nat.div_eq_of_lt_le (by omega) (by omega)
    have kept : (word w x &&& word w (minSigned w)) / 2 ^ (w - 1) = 1 := by
      simp only [InRange,minSigned] at inside ofLeast
      rw [Nat.and_div_two_pow,top _ (by omega) (by omega),top _ (by simp only [minSigned]; omega) (by simp only [minSigned]; omega)]
      rfl
    have zero : InRange w 0 := ⟨by simp only [minSigned]; omega,by simp only [maxSigned]; omega⟩
    have ofZero := wordNonneg hw zero (Int.le_refl 0)
    rw [← andWord,same,show word w 0 = 0 by omega,Nat.zero_div] at kept
    contradiction
  · intro nonneg
    rw [andComm]
    exact andMultiple hw (Nat.sub_le w 1) ⟨-1,by simp only [minSigned,MachineInt.half]; omega⟩ inside nonneg
      (by have := inside.2; simp only [maxSigned,MachineInt.half] at this; omega)

theorem asConstOnly {c : VPConstraint} (isConst : c.asConst t = some x) : c = .integral (.const t x) := by
  unfold VPConstraint.asConst at isConst
  split at isConst
  · split at isConst
    · rename_i same
      cases isConst
      rw [same]
    · contradiction
  · contradiction

theorem constAllows {c : Option VPConstraint} (isConst : c.bind (·.asConst t) = some x) : Allows t c y ↔ y = x := by
  obtain ⟨c,rfl,isConst⟩ := Option.bind_eq_some_iff.mp isConst
  obtain rfl := asConstOnly isConst
  exact ⟨fun inside => Int.le_antisymm inside.2 inside.1,fun same => same ▸ ⟨Int.le_refl _,Int.le_refl _⟩⟩

theorem asRangeOnly {c : VPConstraint} {low high : Int} (isRange : asRange t c = some (low,high)) :
    ∃ overflow isPowerOfTwo, c = .integral (.range t low high overflow isPowerOfTwo) := by
  unfold asRange at isRange
  split at isRange
  · rename_i overflow isPowerOfTwo
    split at isRange
    · rename_i same
      cases isRange
      exact ⟨overflow,isPowerOfTwo,by rw [same]⟩
    · contradiction
  · contradiction

theorem rangeAllows {c : Option VPConstraint} {low high : Int} (isRange : c.bind (asRange t) = some (low,high)) :
    Allows t c x ↔ low ≤ x ∧ x ≤ high := by
  obtain ⟨c,rfl,isRange⟩ := Option.bind_eq_some_iff.mp isRange
  obtain ⟨overflow,isPowerOfTwo,rfl⟩ := asRangeOnly isRange
  exact Iff.rfl

-- A range made of two bounds allows what lies between them.
theorem madeAllows {low high : Int} (lower : low ≤ x) (upper : x ≤ high) : Allows t ((rangeOf t low high).map .integral) x := by
  cases made : rangeOf t low high with
  | none =>
      obtain ⟨rfl,rfl⟩ := rangeOfFull made
      exact ⟨lower,upper⟩
  | some c =>
      obtain ⟨_,rfl,rfl⟩ := rangeOfBounds made
      exact ⟨lower,upper⟩

theorem constHolds : Allows t ((some (createConst t x)).map .integral) x := ⟨Int.le_refl _,Int.le_refl _⟩

end Readings

section Masks
variable {t : DataType} {lhs rhs : Option VPConstraint} {x y : Int}

-- A mask below which all bits are set.
theorem lowMask {w : Nat} {mask : Int} (hw : 0 < w) (inside : InRange w mask) (partly : mask ≠ -1)
    (power : PowerOfTwo.isNonNegativePowerOf2 w (wrap w (mask + 1)) = true) : ∃ k : Nat, mask = 2 ^ k - 1 := by
  have half := halfPos w
  have mod := modulusHalf hw
  rcases eq_or_ne mask (maxSigned w) with rfl | less
  · exact ⟨w - 1,rfl⟩
  · have next : InRange w (mask + 1) := by
      simp only [InRange,minSigned,maxSigned] at inside less ⊢
      omega
    rw [wrapSelf hw next] at power
    obtain ⟨positive,k,same⟩ := (PowerOfTwo.isNonNegativePowerOf2Iff hw next (by omega)).mp power
    have cast : ((2 ^ k : Nat) : Int) = 2 ^ k := by simp
    exact ⟨k,by omega⟩

theorem maskRangeHolds {mask : Int} (valid : ∀ c, lhs = some c → c.Valid t) (inside : InRange t.bits mask) (allowed : Allows t lhs x) :
    Allows t ((maskRange t lhs mask).1.map .integral) (BinaryOp.and.eval t.bits x mask) ∧
      ((maskRange t lhs mask).2 = true → BinaryOp.and.eval t.bits x mask = x) := by
  unfold maskRange
  split
  · rename_i low
    obtain ⟨k,rfl⟩ := lowMask t.bitsPos inside low.1 low.2
    have nonneg : (0 : Int) ≤ 2 ^ k - 1 := by
      have : (0 : Int) < 2 ^ k := Int.pow_pos (by decide)
      omega
    have below := andBelow t.bitsPos inside nonneg x
    cases lhs with
    | none => exact ⟨madeAllows below.1 below.2,nofun⟩
    | some c =>
        dsimp only
        split
        · rename_i fits
          obtain ⟨least,most⟩ := (validBounds (valid c rfl)).2.2 x allowed
          have kept := andMask t.bitsPos inside (by omega : 0 ≤ x) (by omega)
          rw [kept]
          exact ⟨madeAllows (by split <;> omega) (by split <;> omega),fun _ => rfl⟩
        · exact ⟨madeAllows below.1 below.2,nofun⟩
  · split
    · rename_i clear
      have nonneg := (signClearNonneg t.bitsPos inside).mp clear
      have below := andBelow t.bitsPos inside nonneg x
      exact ⟨madeAllows below.1 below.2,nofun⟩
    · exact ⟨madeAllows (andRange t.bitsPos).1 (andNegative t.bitsPos x mask),nofun⟩

theorem maskConstraintHolds {mask : Int} {test : Option IntegralConstraint} (valid : ∀ c, lhs = some c → c.Valid t)
    (inside : InRange t.bits mask) (allowed : Allows t lhs x)
    (tested : ∀ c, test = some c → Allows t (some (.integral c)) (BinaryOp.and.eval t.bits x mask)) :
    Allows t ((maskConstraint t test lhs mask).1.map .integral) (BinaryOp.and.eval t.bits x mask) ∧
      ((maskConstraint t test lhs mask).2 = true → BinaryOp.and.eval t.bits x mask = x) := by
  unfold maskConstraint
  split
  · rename_i none
    subst none
    have zero : BinaryOp.and.eval t.bits x 0 = 0 := by
      have := andBelow t.bitsPos inside (Int.le_refl 0) x
      omega
    rw [zero]
    exact ⟨constHolds,nofun⟩
  · split
    · rename_i v _ isConst
      rw [(constAllows isConst).mp allowed]
      exact ⟨constHolds,nofun⟩
    · rename_i folded _
      exact ⟨tested folded rfl,nofun⟩
    · exact maskRangeHolds valid inside allowed

theorem positiveRangeHolds (validLhs : ∀ c, lhs = some c → c.Valid t) (allowed : Allows t lhs x) (y : Int) :
    Allows t ((positiveRange t lhs).map .integral) (BinaryOp.and.eval t.bits x y) := by
  unfold positiveRange
  split
  · rename_i c
    split
    · rename_i positive
      obtain ⟨least,most⟩ := (validBounds (validLhs c rfl)).2.2 x allowed
      have below := andBelow t.bitsPos (containsInRange (validLhs c rfl) allowed) (by omega) y
      rw [andComm]
      exact madeAllows below.1 (by omega)
    · exact andRange t.bitsPos
  · exact andRange t.bitsPos

theorem childrenRangeHolds {test : Int → Option IntegralConstraint} (validLhs : ∀ c, lhs = some c → c.Valid t)
    (validRhs : ∀ c, rhs = some c → c.Valid t) (allowedX : Allows t lhs x) (allowedY : Allows t rhs y)
    (tested : ∀ mask c, test mask = some c → Allows t (some (.integral c)) (BinaryOp.and.eval t.bits x mask)) :
    Allows t ((childrenRange t test lhs rhs).1.map .integral) (BinaryOp.and.eval t.bits x y) ∧
      ((childrenRange t test lhs rhs).2 = true → BinaryOp.and.eval t.bits x y = x) := by
  unfold childrenRange
  split
  · rename_i mask isConst
    have inside := ((boundsHold validRhs).2.2.2.2.2 y allowedY).1
    obtain rfl := (constAllows isConst).mp allowedY
    exact maskConstraintHolds validLhs inside allowedX (tested y)
  · exact ⟨positiveRangeHolds validLhs allowedX y,nofun⟩

theorem sharedRangeHolds (validLhs : ∀ c, lhs = some c → c.Valid .Int32) (validRhs : ∀ c, rhs = some c → c.Valid .Int32)
    (allowedX : Allows .Int32 lhs x) (allowedY : Allows .Int32 rhs y) :
    Allows .Int32 ((sharedRange lhs rhs).map .integral) (BinaryOp.and.eval 32 x y) := by
  have bounded : ∀ {c : Option VPConstraint} {v : Int}, (∀ k, c = some k → k.Valid .Int32) → Allows .Int32 c v →
      InRange 32 v ∧ ((c.bind (asRange .Int32)).getD (minSigned 32,maxSigned 32)).1 ≤ v ∧
        v ≤ ((c.bind (asRange .Int32)).getD (minSigned 32,maxSigned 32)).2 := by
    intro c v valid allowed
    have inside : InRange 32 v := ((boundsHold valid).2.2.2.2.2 v allowed).1
    cases isRange : c.bind (asRange .Int32) with
    | none => exact ⟨inside,inside⟩
    | some bounds => exact ⟨inside,(rangeAllows isRange).mp allowed⟩
  obtain ⟨insideX,lowX,highX⟩ := bounded validLhs allowedX
  obtain ⟨insideY,lowY,highY⟩ := bounded validRhs allowedY
  have left : 0 ≤ x → 0 ≤ BinaryOp.and.eval 32 x y ∧ BinaryOp.and.eval 32 x y ≤ x := by
    intro nonneg
    rw [andComm]
    exact andBelow (by decide) insideX nonneg y
  have right : 0 ≤ y → 0 ≤ BinaryOp.and.eval 32 x y ∧ BinaryOp.and.eval 32 x y ≤ y := fun nonneg => andBelow (by decide) insideY nonneg x
  have inside : InRange 32 (BinaryOp.and.eval 32 x y) := andRange (by decide)
  unfold sharedRange
  dsimp only
  split
  · split
    · exact madeAllows (by split <;> omega) (by omega)
    · split
      · exact madeAllows (by split <;> omega) (by omega)
      · exact madeAllows (by repeat' split <;> omega) (by split <;> omega)
  · exact inside

end Masks

section Children
variable {Class : Type} {front : ClassFlags Class} {child : FirstChild} {lhs rhs : Option VPConstraint} {x y : Int}

def ValidBelow (child : FirstChild) : Prop :=
  match child with
  | .imul second => ∀ c, second = some c → c.Valid .Int32
  | .ishl second => ∀ c, second = some c → c.Valid .Int32
  | .ishr second _ => ∀ c, second = some c → c.Valid .Int32
  | .classFlags _ => True
  | .other => True

-- The values that the first child can have by what is below it.
def Computes (front : ClassFlags Class) (child : FirstChild) (x : Int) : Prop :=
  match child with
  | .imul second => ∃ a b, InRange 32 a ∧ Allows .Int32 second b ∧ x = BinaryOp.mul.eval 32 a b
  | .ishl second => ∃ a b, InRange 32 a ∧ Allows .Int32 second b ∧ x = BinaryOp.shl.eval 32 a b
  | .ishr second _ => ∃ a b, InRange 32 a ∧ Allows .Int32 second b ∧ x = BinaryOp.shr.eval 32 a b
  | .classFlags answer => ∃ k, x = front.flags k ∧ (answer = .yes → front.isArray k = true) ∧ (answer = .no → front.isArray k = false)
  | .other => True

theorem arrayTestHolds (documented : front.Documented) (computed : Computes front child x) {mask : Int} {c : IntegralConstraint}
    (made : arrayTest front.flagValueForArrayCheck child mask = some c) :
    Allows .Int32 (some (.integral c)) (BinaryOp.and.eval 32 x mask) := by
  unfold arrayTest at made
  split at made
  · rename_i flag
    split at made
    · cases made
      obtain ⟨k,rfl,yes,_⟩ := computed
      rw [flag,documented.tested,yes rfl]
      exact constHolds
    · cases made
      obtain ⟨k,rfl,_,no⟩ := computed
      rw [flag,documented.tested,no rfl]
      exact constHolds
    · contradiction
  · contradiction

-- The loop stops on every mask but zero, at a count of trailing zeroes.
theorem countTrailingStops {fuel : Nat} {mask : Int} (nonzero : mask ≠ 0) (enough : mask.natAbs ≤ fuel) (shift : Nat) :
    ∃ count, countTrailing fuel mask shift = some count := by
  induction fuel generalizing mask shift with
  | zero => omega
  | succ fuel ih =>
    simp only [countTrailing]
    split
    · exact ih (by omega) (by omega) (shift + 1)
    · exact ⟨shift,rfl⟩

theorem countTrailingZero (fuel shift : Nat) : countTrailing fuel 0 shift = none := by
  induction fuel generalizing shift with
  | zero => rfl
  | succ fuel ih => exact ih (shift + 1)

theorem countTrailingDivides {fuel : Nat} {mask : Int} {shift count : Nat} (counted : countTrailing fuel mask shift = some count) :
    shift ≤ count ∧ 2 ^ (count - shift) ∣ mask := by
  induction fuel generalizing mask shift with
  | zero => contradiction
  | succ fuel ih =>
    simp only [countTrailing] at counted
    split at counted
    · rename_i even
      obtain ⟨more,divides⟩ := ih counted
      have twice : mask = mask / 2 * 2 := by omega
      refine ⟨by omega,?_⟩
      rw [show count - shift = count - (shift + 1) + 1 by omega,pow_succ,twice]
      exact Int.mul_dvd_mul divides (Int.dvd_refl 2)
    · rw [← Option.some.inj counted,Nat.sub_self]
      exact ⟨Nat.le_refl shift,Int.one_dvd mask⟩

theorem nonNegativeHighBounds {high : Int} (valid : ∀ c, rhs = some c → c.Valid .Int32) (found : rhs.bind nonNegativeHigh = some high)
    (allowed : Allows .Int32 rhs y) : 0 ≤ y ∧ y ≤ high := by
  obtain ⟨c,rfl,made⟩ := Option.bind_eq_some_iff.mp found
  have inside := validBounds (valid c rfl)
  unfold nonNegativeHigh at made
  split at made
  · rename_i low top _ isRange
    split at made
    · rename_i clear
      cases made
      simp only [Bool.and_eq_true] at clear
      have between := (rangeAllows (c := some c) isRange).mp allowed
      obtain ⟨overflow,isPowerOfTwo,rfl⟩ := asRangeOnly isRange
      have least := (signClearNonneg (w := 32) (by decide) (containsInRange (valid _ rfl) inside.1)).mp clear.2
      exact ⟨Int.le_trans least between.1,between.2⟩
    · contradiction
  · rename_i iandMask _ isConst
    split at made
    · rename_i clear
      cases made
      obtain rfl := (constAllows (c := some c) isConst).mp allowed
      exact ⟨(signClearNonneg (w := 32) (by decide) (containsInRange (valid _ rfl) allowed)).mp clear,Int.le_refl _⟩
    · contradiction
  · contradiction

theorem belowBit {high shift : Int} (below : high < bitOf shift) : high < 2 ^ shiftBy 32 shift := by
  have all : ∀ s < 32, wrap 32 (2 ^ s) ≤ 2 ^ s := by decide
  have small : shiftBy 32 shift < 32 := by
    simp only [shiftBy]
    omega
  exact Int.lt_of_lt_of_le below (all _ small)

-- A factor of the product that is a power of two stays a factor of the wrapped product.
theorem multipleWraps {w s : Nat} {v : Int} (short : s ≤ w) (divides : 2 ^ s ∣ v) : 2 ^ s ∣ wrap w v := by
  obtain ⟨k,turns⟩ := wrapShift w v
  rw [turns]
  exact Int.dvd_add divides (Int.dvd_trans (show (2 : Int) ^ s ∣ modulus w from pow_dvd_pow 2 short) (Int.dvd_mul_left k (modulus w)))

theorem belowTrailingZero {fuel : Nat} (validBelow : ValidBelow child) (validRhs : ∀ c, rhs = some c → c.Valid .Int32)
    (computed : Computes front child x) (allowed : Allows .Int32 rhs y) (below : belowTrailing fuel child rhs = some true) :
    BinaryOp.and.eval 32 x y = 0 := by
  have insideY : InRange 32 y := ((boundsHold validRhs).2.2.2.2.2 y allowed).1
  unfold belowTrailing at below
  split at below
  · rename_i second high found
    obtain ⟨nonneg,most⟩ := nonNegativeHighBounds validRhs found allowed
    obtain ⟨a,b,_,allowedB,rfl⟩ := computed
    split at below
    · rename_i mask isConst
      obtain ⟨shift,counted,less⟩ := Option.map_eq_some_iff.mp below
      have insideB : InRange 32 b := ((boundsHold validBelow).2.2.2.2.2 b allowedB).1
      obtain rfl := (constAllows isConst).mp allowedB
      have divides := (countTrailingDivides counted).2
      have nonzero : b ≠ 0 := by
        rintro rfl
        rw [countTrailingZero] at counted
        cases counted
      rw [Nat.sub_zero] at divides
      have short : shift ≤ 31 := by
        have power := Nat.le_of_dvd (Int.natAbs_pos.mpr nonzero) (Int.natAbs_dvd_natAbs.mpr divides)
        rw [Int.natAbs_pow] at power
        have half : MachineInt.half 32 = 2147483648 := rfl
        have bounded : b.natAbs ≤ 2147483648 := by
          simp only [InRange,minSigned,maxSigned] at insideB
          omega
        exact (Nat.pow_le_pow_iff_right (by decide : 1 < 2)).mp (Nat.le_trans power bounded)
      have below := belowBit (of_decide_eq_true less)
      have same : shiftBy 32 shift = shift := by
        simp only [shiftBy]
        omega
      rw [same] at below
      exact andMultiple (by decide) (by omega) (multipleWraps (by omega) (Int.dvd_trans divides (Int.dvd_mul_left a b))) insideY nonneg (by omega)
    · contradiction
  · rename_i second high found
    obtain ⟨nonneg,most⟩ := nonNegativeHighBounds validRhs found allowed
    obtain ⟨a,b,_,allowedB,rfl⟩ := computed
    split at below
    · rename_i mask isConst
      obtain rfl := (constAllows isConst).mp allowedB
      have below := belowBit (of_decide_eq_true (Option.some.inj below))
      have short : shiftBy 32 b ≤ 32 := by
        simp only [shiftBy]
        omega
      exact andMultiple (by decide) short (multipleWraps short (Int.dvd_mul_left a _)) insideY nonneg (by omega)
    · contradiction
  · contradiction

end Children

section Settled
variable {Class : Type} {front : ClassFlags Class} {env : Env} {child : FirstChild} {lhs rhs : Option VPConstraint} {x y : Int}

def finalConstraint (flagValueForArrayCheck : Int) (child : FirstChild) (lhs rhs : Option VPConstraint) (zero : Bool) : Option IntegralConstraint :=
  let constraint := if zero then some (createConst .Int32 0) else (childrenRange .Int32 (arrayTest flagValueForArrayCheck child) lhs rhs).1
  if constraint.isNone && (lhs.isSome || rhs.isSome) then sharedRange lhs rhs else constraint

theorem iandRun (flagValueForArrayCheck : Int) {fuel : Nat} {zero : Bool} (plain : removesByteMask env lhs rhs = false)
    (stopped : belowTrailing fuel child rhs = some zero) :
    constrainIand flagValueForArrayCheck env fuel child lhs rhs =
      some (if (childrenRange .Int32 (arrayTest flagValueForArrayCheck child) lhs rhs).2 && env.removesRedundant then .removed
        else settle (finalConstraint flagValueForArrayCheck child lhs rhs zero) (makesUnsigned env child rhs)) := by
  simp only [constrainIand,plain,stopped,finalConstraint,Bool.false_eq_true,if_false,bind,Option.bind]
  split <;> rfl

theorem finalConstraintHolds (documented : front.Documented) {fuel : Nat} {zero : Bool} (validBelow : ValidBelow child)
    (validLhs : ∀ c, lhs = some c → c.Valid .Int32) (validRhs : ∀ c, rhs = some c → c.Valid .Int32)
    (stopped : belowTrailing fuel child rhs = some zero) (computed : Computes front child x) (allowedX : Allows .Int32 lhs x)
    (allowedY : Allows .Int32 rhs y) :
    Allows .Int32 ((finalConstraint front.flagValueForArrayCheck child lhs rhs zero).map .integral) (BinaryOp.and.eval 32 x y) := by
  cases zero with
  | true =>
      rw [belowTrailingZero validBelow validRhs computed allowedY stopped]
      exact constHolds
  | false =>
      have attached := (childrenRangeHolds validLhs validRhs allowedX allowedY fun mask c made => arrayTestHolds documented computed made).1
      simp only [finalConstraint,Bool.false_eq_true,if_false]
      split
      · exact sharedRangeHolds validLhs validRhs allowedX allowedY
      · exact attached

theorem byteMaskKept (removes : removesByteMask env lhs rhs = true) (allowedX : Allows .Int32 lhs x) (allowedY : Allows .Int32 rhs y) :
    BinaryOp.and.eval 32 x y = x := by
  unfold removesByteMask at removes
  split at removes
  · rename_i mask low high isConst isRange
    obtain ⟨rfl,least,most,_⟩ := of_decide_eq_true removes
    obtain rfl := (constAllows isConst).mp allowedY
    have between := (rangeAllows isRange).mp allowedX
    exact andMask (k := 8) (by decide) (by decide) (by omega) (by omega)
  · contradiction

theorem rangeConst {t t' : DataType} {low high v : Int} (made : rangeOf t low high = some (.const t' v)) : low = high := by
  obtain ⟨_,lower,upper⟩ := rangeOfBounds made
  exact lower.symm.trans upper

theorem bothFolded {flagValueForArrayCheck u v : Int} (left : lhs.bind (·.asConst .Int32) = some u) (right : rhs.bind (·.asConst .Int32) = some v) (zero : Bool) :
    ∃ r, finalConstraint flagValueForArrayCheck child lhs rhs zero = some (createConst .Int32 r) := by
  unfold finalConstraint childrenRange maskConstraint
  simp only [left,right]
  cases zero <;> by_cases none : v = 0 <;> simp [none]

theorem maskRangeVaries {mask : Int} (nonzero : mask ≠ 0) (low : ∀ c, lhs = some c → c.headLow .Int32 < 0) :
    (maskRange .Int32 lhs mask).2 = false ∧ ∀ t v, (maskRange .Int32 lhs mask).1 ≠ some (.const t v) := by
  unfold maskRange
  split
  · split
    · rename_i c
      have negative := low c rfl
      rw [if_neg (by omega)]
      exact ⟨rfl,fun t v made => nonzero (@rangeConst .Int32 _ _ _ _ made).symm⟩
    · exact ⟨rfl,fun t v made => nonzero (@rangeConst .Int32 _ _ _ _ made).symm⟩
  · split
    · exact ⟨rfl,fun t v made => nonzero (@rangeConst .Int32 _ _ _ _ made).symm⟩
    · refine ⟨rfl,fun t v made => ?_⟩
      have nonneg := andBelow (w := 32) (by decide) (by decide : InRange 32 (maxSigned 32)) (by decide) mask
      have same : minSigned 32 = BinaryOp.and.eval 32 mask (maxSigned 32) := @rangeConst .Int32 _ _ _ _ made
      rw [← same] at nonneg
      exact absurd nonneg.1 (by decide)

theorem sharedRangeVaries (low : ∀ bounds, lhs.bind (asRange .Int32) = some bounds → bounds.1 < 0) (allowedY : Allows .Int32 rhs y) (nonzero : y ≠ 0) :
    ∀ t v, sharedRange lhs rhs ≠ some (.const t v) := by
  intro t v made
  have below : ((lhs.bind (asRange .Int32)).getD (minSigned 32,maxSigned 32)).1 < 0 := by
    cases isRange : lhs.bind (asRange .Int32) with
    | none => exact (by decide : minSigned 32 < 0)
    | some bounds => exact low bounds isRange
  have least : minSigned 32 < 0 := by decide
  unfold sharedRange at made
  dsimp only at made
  split at made
  · rename_i nonneg
    have rhsNonneg : ((rhs.bind (asRange .Int32)).getD (minSigned 32,maxSigned 32)).1 ≥ 0 := by omega
    simp only [if_neg (Int.not_lt.mpr rhsNonneg)] at made
    have same := rangeConst made
    cases isRange : rhs.bind (asRange .Int32) with
    | none =>
        rw [isRange,Option.getD_none] at rhsNonneg
        omega
    | some bounds =>
        rw [isRange,Option.getD_some] at rhsNonneg same
        have between := (rangeAllows isRange).mp allowedY
        split at same <;> omega
  · contradiction

-- What a negative first child and another second child than zero lead to.
theorem negativeAttached {flagValueForArrayCheck : Int} {second : Option VPConstraint} {referenceCount : Nat}
    (validLhs : ∀ c, lhs = some c → c.Valid .Int32) (allowedX : Allows .Int32 lhs x) (negative : x < 0) (allowedY : Allows .Int32 rhs y) (nonzero : y ≠ 0)
    (varied : ¬ (lhs.bind (·.asConst .Int32) ≠ none ∧ rhs.bind (·.asConst .Int32) ≠ none)) :
    (childrenRange .Int32 (arrayTest flagValueForArrayCheck (.ishr second referenceCount)) lhs rhs).2 = false ∧
      ∀ t v, finalConstraint flagValueForArrayCheck (.ishr second referenceCount) lhs rhs false ≠ some (.const t v) := by
  have low : ∀ c, lhs = some c → c.headLow .Int32 < 0 := by
    rintro c rfl
    have := (validBounds (validLhs c rfl)).2.2 x allowedX
    omega
  have lowRange : ∀ bounds, lhs.bind (asRange .Int32) = some bounds → bounds.1 < 0 := by
    intro bounds isRange
    have := (rangeAllows isRange).mp allowedX
    omega
  have varies : (childrenRange .Int32 (arrayTest flagValueForArrayCheck (.ishr second referenceCount)) lhs rhs).2 = false ∧
      ∀ t v, (childrenRange .Int32 (arrayTest flagValueForArrayCheck (.ishr second referenceCount)) lhs rhs).1 ≠ some (.const t v) := by
    unfold childrenRange
    split
    · rename_i mask isConst
      obtain rfl := (constAllows isConst).mp allowedY
      have plain : lhs.bind (·.asConst .Int32) = none := by
        by_contra some'
        exact varied ⟨some',by rw [isConst]; nofun⟩
      have test : arrayTest flagValueForArrayCheck (.ishr second referenceCount) y = none := by
        unfold arrayTest
        split <;> rfl
      unfold maskConstraint
      rw [if_neg nonzero,plain,test]
      exact maskRangeVaries nonzero low
    · refine ⟨rfl,fun t v made => ?_⟩
      unfold positiveRange at made
      split at made
      · rename_i c
        have := low c rfl
        rw [if_neg (by omega)] at made
        contradiction
      · contradiction
  refine ⟨varies.1,?_⟩
  simp only [finalConstraint,Bool.false_eq_true,if_false]
  split
  · exact sharedRangeVaries lowRange allowedY nonzero
  · exact varies.2

end Settled

section Shifts
variable {env : Env} {child : FirstChild} {lhs rhs : Option VPConstraint} {x y : Int}

/- A negative shift count is below the bool that stands for the masked sign bits, and the
mask keeps one of the bits that are shifted in. -/
def KeepsSign (env : Env) (child : FirstChild) (lhs rhs : Option VPConstraint) : Prop :=
  env.lastTimeThrough = true ∧ env.makesUnsigned = true ∧
    ¬ (lhs.bind (·.asConst .Int32) ≠ none ∧ rhs.bind (·.asConst .Int32) ≠ none) ∧
    ∃ second referenceCount amount, child = .ishr second referenceCount ∧ referenceCount < 2 ∧ second.bind (·.asConst .Int32) = some amount ∧
      amount < 0 ∧ 0 < shiftBy 32 amount ∧ (∃ x, Allows .Int32 lhs x ∧ -2 ^ (31 - shiftBy 32 amount) ≤ x ∧ x < 0) ∧
      ∃ y, Allows .Int32 rhs y ∧ 2 ^ (32 - shiftBy 32 amount) ≤ word 32 y

-- The count of a shift that is made unsigned is zero or a negative constant.
theorem unsignedCount {second : Option VPConstraint} {referenceCount : Nat} (made : makesUnsigned env (.ishr second referenceCount) rhs = true)
    {b : Int} (allowed : Allows .Int32 second b) :
    referenceCount < 2 ∧ env.lastTimeThrough = true ∧ env.makesUnsigned = true ∧
      (b = 0 ∨ b < 0 ∧ second.bind (·.asConst .Int32) = some b) := by
  obtain ⟨few,below,last,makes⟩ := of_decide_eq_true made
  refine ⟨few,last,makes,?_⟩
  have less : bitsShifted second < 1 := by split at below <;> omega
  unfold bitsShifted at less
  split at less
  · rename_i amount _ isConst
    obtain rfl := (constAllows isConst).mp allowed
    rcases Int.lt_or_le b 0 with negative | nonneg
    · exact .inr ⟨negative,isConst⟩
    · exact .inl (by omega)
  · rename_i low high _ isRange
    have between := (rangeAllows isRange).mp allowed
    split at less
    · exact .inl (by omega)
    · omega
  · omega

theorem shiftByBelow (amount : Int) : shiftBy 32 amount < 32 := by
  simp only [shiftBy]
  omega

theorem unsignedHolds {second : Option VPConstraint} {referenceCount : Nat} {a b : Int} (validRhs : ∀ c, rhs = some c → c.Valid .Int32)
    (fine : ¬ KeepsSign env (.ishr second referenceCount) lhs rhs)
    (varied : ¬ (lhs.bind (·.asConst .Int32) ≠ none ∧ rhs.bind (·.asConst .Int32) ≠ none))
    (made : makesUnsigned env (.ishr second referenceCount) rhs = true) (insideA : InRange 32 a) (allowedB : Allows .Int32 second b)
    (allowedX : Allows .Int32 lhs (BinaryOp.shr.eval 32 a b)) (allowedY : Allows .Int32 rhs y) :
    BinaryOp.and.eval 32 (BinaryOp.ushr.eval 32 a b) y = BinaryOp.and.eval 32 (BinaryOp.shr.eval 32 a b) y := by
  obtain ⟨few,last,makes,count⟩ := unsignedCount made allowedB
  have short := shiftByBelow b
  have insideY : InRange 32 y := ((boundsHold validRhs).2.2.2.2.2 y allowedY).1
  change BinaryOp.and.eval 32 (unsignedShift 32 a (shiftBy 32 b)) y = BinaryOp.and.eval 32 (a / 2 ^ shiftBy 32 b) y
  rcases Nat.eq_zero_or_pos (shiftBy 32 b) with none | some'
  · rw [none,unsignedZero (by decide) insideA,Int.pow_zero,Int.ediv_one]
  · rcases Int.lt_or_le a 0 with negative | nonneg
    · obtain rfl | ⟨below,isConst⟩ := count
      · exact absurd some' (by decide)
      · have pos : (0 : Int) < 2 ^ shiftBy 32 b := Int.pow_pos (by decide)
        have least : -2 ^ (31 - shiftBy 32 b) ≤ a / 2 ^ shiftBy 32 b := by
          refine (Int.le_ediv_iff_mul_le pos).mpr ?_
          have whole : (2 : Int) ^ (31 - shiftBy 32 b) * 2 ^ shiftBy 32 b = 2 ^ 31 := by rw [← pow_add]; congr 1; omega
          rw [Int.neg_mul,whole]
          exact insideA.1
        have unreached : word 32 y < 2 ^ (32 - shiftBy 32 b) := by
          by_contra reached
          exact fine ⟨last,makes,varied,second,referenceCount,b,rfl,few,isConst,below,some',
            ⟨_,allowedX,least,Int.ediv_neg_of_neg_of_pos negative pos⟩,y,allowedY,by omega⟩
        have nonneg : 0 ≤ y := by
          by_contra minus
          have ofMask := wordNegative (by decide) insideY (by omega)
          have most : 2 ^ (32 - shiftBy 32 b) ≤ 2 ^ 31 := Nat.pow_le_pow_right (by decide) (by omega)
          have halved : modulus 32 = 2 * MachineInt.half 32 := modulusHalf (by decide)
          have half : MachineInt.half 32 = 2147483648 := rfl
          simp only [InRange,minSigned] at insideY
          omega
        have small : (word 32 y : Int) < 2 ^ (32 - shiftBy 32 b) := by exact_mod_cast unreached
        rw [wordNonneg (by decide) insideY nonneg] at small
        exact shiftedAgree (by decide) some' (by omega) a insideY nonneg small
    · rw [shiftedNonneg (by decide) insideA nonneg]

-- The sign bits that the mask keeps are lost by the unsigned shift.
theorem keepsSignDiffers {second : Option VPConstraint} {amount : Int} (isConst : second.bind (·.asConst .Int32) = some amount)
    (some' : 0 < shiftBy 32 amount) (least : -2 ^ (31 - shiftBy 32 amount) ≤ x) (negative : x < 0) (reached : 2 ^ (32 - shiftBy 32 amount) ≤ word 32 y) :
    ∃ a, InRange 32 a ∧ Allows .Int32 second amount ∧ BinaryOp.shr.eval 32 a amount = x ∧
      BinaryOp.and.eval 32 (BinaryOp.ushr.eval 32 a amount) y ≠ BinaryOp.and.eval 32 (BinaryOp.shr.eval 32 a amount) y := by
  have short := shiftByBelow amount
  have pos : (0 : Int) < 2 ^ shiftBy 32 amount := Int.pow_pos (by decide)
  have below : x * 2 ^ shiftBy 32 amount < 0 := Int.mul_neg_of_neg_of_pos negative pos
  have inside : InRange 32 (x * 2 ^ shiftBy 32 amount) := by
    have whole : (2 : Int) ^ (31 - shiftBy 32 amount) * 2 ^ shiftBy 32 amount = 2 ^ 31 := by rw [← pow_add]; congr 1; omega
    have grown := Int.mul_le_mul_of_nonneg_right least (Int.le_of_lt pos)
    rw [Int.neg_mul,whole] at grown
    exact ⟨grown,Int.le_trans (Int.le_of_lt below) (by decide)⟩
  have back : x * 2 ^ shiftBy 32 amount / 2 ^ shiftBy 32 amount = x := Int.mul_ediv_cancel x (by omega)
  exact ⟨_,inside,(constAllows isConst).mpr rfl,back,shiftedDiffer (by decide) some' (by omega) inside below reached⟩

end Shifts

section LastBit
variable {x r : Int}

-- A result that differs from a value in the last bit only.
theorem lastBit {bit : Nat} (result : InRange 32 r) (inside : InRange 32 x) (upper : word 32 r / 2 ^ 1 = word 32 x / 2 ^ 1)
    (last : word 32 r % 2 ^ 1 = bit) : r = x - x % 2 + bit := by
  have half : MachineInt.half 32 = 2147483648 := rfl
  have mod : modulus 32 = 4294967296 := rfl
  have ofResult := wordSigned (by decide) result _ rfl
  have ofValue := wordSigned (by decide) inside _ rfl
  omega

theorem bitsRange (b : BitVec 32) : InRange 32 b.toInt := by
  have half : MachineInt.half 32 = 2147483648 := rfl
  have low := BitVec.le_toInt b
  have high := BitVec.toInt_lt (x := b)
  simp only [InRange,minSigned,maxSigned]
  omega

theorem lastBitCases (n : Nat) : n % 2 ^ 1 = 0 ∨ n % 2 ^ 1 = 1 := Nat.mod_two_eq_zero_or_one n

theorem parity (inside : InRange 32 x) : ((word 32 x % 2 ^ 1 : Nat) : Int) = x % 2 := by
  have half : MachineInt.half 32 = 2147483648 := rfl
  have mod : modulus 32 = 4294967296 := rfl
  have ofValue := wordSigned (by decide) inside _ rfl
  omega

theorem xorOne (inside : InRange 32 x) : xorEval 32 x 1 = x - x % 2 + (1 - x % 2) := by
  have words : word 32 (xorEval 32 x 1) = word 32 x ^^^ 1 := by
    simp only [word,xorEval,BitVec.ofInt_toInt,BitVec.toNat_xor]
    rfl
  have upper : word 32 (xorEval 32 x 1) / 2 ^ 1 = word 32 x / 2 ^ 1 := by rw [words,Nat.xor_div_two_pow]; exact Nat.xor_zero _
  have last : word 32 (xorEval 32 x 1) % 2 ^ 1 = 1 - word 32 x % 2 ^ 1 := by
    rw [words,Nat.xor_mod_two_pow]
    rcases lastBitCases (word 32 x) with even | odd
    · rw [even]
      rfl
    · rw [odd]
      rfl
  have value : xorEval 32 x 1 = x - x % 2 + ((1 - word 32 x % 2 ^ 1 : Nat) : Int) := lastBit (bitsRange _) inside upper last
  rw [value,Nat.cast_sub (by omega),parity inside]
  rfl

theorem andEven (inside : InRange 32 x) : BinaryOp.and.eval 32 x (-2) = x - x % 2 := by
  have words : word 32 (BinaryOp.and.eval 32 x (-2)) = word 32 x &&& 2 ^ 32 - 2 := andWord 32 x (-2)
  have small : word 32 x / 2 ^ 1 < 2 ^ 31 := Nat.div_lt_of_lt_mul (wordBelow 32 x)
  have upper : word 32 (BinaryOp.and.eval 32 x (-2)) / 2 ^ 1 = word 32 x / 2 ^ 1 := by
    rw [words,Nat.and_div_two_pow]
    exact Nat.and_two_pow_sub_one_of_lt_two_pow small
  have last : word 32 (BinaryOp.and.eval 32 x (-2)) % 2 ^ 1 = 0 := by
    rw [words,Nat.and_mod_two_pow]
    exact Nat.and_zero _
  have value : BinaryOp.and.eval 32 x (-2) = x - x % 2 + (0 : Nat) := lastBit (bitsRange _) inside upper last
  omega

theorem orOne (inside : InRange 32 x) : orEval 32 x 1 = x - x % 2 + 1 := by
  have words : word 32 (orEval 32 x 1) = word 32 x ||| 1 := by
    simp only [word,orEval,BitVec.ofInt_toInt,BitVec.toNat_or]
    rfl
  have upper : word 32 (orEval 32 x 1) / 2 ^ 1 = word 32 x / 2 ^ 1 := by rw [words,Nat.or_div_two_pow]; exact Nat.or_zero _
  have last : word 32 (orEval 32 x 1) % 2 ^ 1 = 1 := by
    rw [words,Nat.or_mod_two_pow]
    rcases lastBitCases (word 32 x) with even | odd
    · rw [even]
      rfl
    · rw [odd]
      rfl
  exact lastBit (bitsRange _) inside upper last

end LastBit

section Results
variable {Class : Type} {front : ClassFlags Class} {env : Env} {child : FirstChild} {lhs rhs : Option VPConstraint}

-- The loop over the factor runs on when the factor is zero.
def Diverges (env : Env) (child : FirstChild) (lhs rhs : Option VPConstraint) : Prop :=
  removesByteMask env lhs rhs = false ∧ (∃ second, child = .imul second ∧ second.bind (·.asConst .Int32) = some 0) ∧
    ((∃ mask, rhs.bind (·.asConst .Int32) = some mask ∧ 0 ≤ mask) ∨ ∃ low high, rhs.bind (asRange .Int32) = some (low,high) ∧ 0 ≤ low)

/- What a handler promises of the node, by the values of its children. A removed node is
replaced by its first child; a shift below it may have become an unsigned one. -/
def Sound (t : DataType) (value : Int → Int → Int) (front : ClassFlags Class) (child : FirstChild) (lhs rhs : Option VPConstraint) (effect : Effect) :
    Prop :=
  match effect with
  | .removed => ∀ x y, Computes front child x → Allows t lhs x → Allows t rhs y → value x y = x
  | .replaced v => ∀ x y, Computes front child x → Allows t lhs x → Allows t rhs y → value x y = v
  | .attached constraint unsignedShift =>
      (∀ x y, Computes front child x → Allows t lhs x → Allows t rhs y → Allows t (constraint.map .integral) (value x y)) ∧
      (unsignedShift = true → ∀ second referenceCount a b y, child = .ishr second referenceCount → InRange 32 a → Allows .Int32 second b →
        Allows t lhs (BinaryOp.shr.eval 32 a b) → Allows t rhs y → value (BinaryOp.ushr.eval 32 a b) y = value (BinaryOp.shr.eval 32 a b) y)

theorem settledSound {t : DataType} {value : Int → Int → Int} {constraint : Option IntegralConstraint} {unsignedShift : Bool}
    (holds : ∀ x y, Computes front child x → Allows t lhs x → Allows t rhs y → Allows t (constraint.map .integral) (value x y))
    (shifted : (∀ t v, constraint ≠ some (.const t v)) → unsignedShift = true → ∀ second referenceCount a b y, child = .ishr second referenceCount →
      InRange 32 a → Allows .Int32 second b → Allows t lhs (BinaryOp.shr.eval 32 a b) → Allows t rhs y →
        value (BinaryOp.ushr.eval 32 a b) y = value (BinaryOp.shr.eval 32 a b) y) :
    Sound t value front child lhs rhs (settle constraint unsignedShift) := by
  unfold settle
  split
  · intro x y computed allowedX allowedY
    have inside := holds x y computed allowedX allowedY
    exact Int.le_antisymm inside.2 inside.1
  · rename_i varied
    exact ⟨holds,shifted varied⟩

theorem highFound (validRhs : ∀ c, rhs = some c → c.Valid .Int32) : (∃ high, rhs.bind nonNegativeHigh = some high) ↔
    (∃ mask, rhs.bind (·.asConst .Int32) = some mask ∧ 0 ≤ mask) ∨ ∃ low high, rhs.bind (asRange .Int32) = some (low,high) ∧ 0 ≤ low := by
  cases rhs with
  | none => simp
  | some c =>
      have valid := validRhs c rfl
      simp only [Option.bind_some]
      unfold nonNegativeHigh
      split
      · rename_i low high isRange
        obtain ⟨overflow,isPowerOfTwo,rfl⟩ := asRangeOnly isRange
        have order : low ≤ high := valid.2.2.1
        have clearLow : signClear 32 low = true ↔ 0 ≤ low := signClearNonneg (by decide) (integralInRange valid ⟨Int.le_refl _,order⟩)
        have clearHigh : signClear 32 high = true ↔ 0 ≤ high := signClearNonneg (by decide) (integralInRange valid ⟨order,Int.le_refl _⟩)
        constructor
        · rintro ⟨v,found⟩
          split at found
          · rename_i clear
            exact .inr ⟨low,high,isRange,clearLow.mp (Bool.and_eq_true_iff.mp clear).2⟩
          · contradiction
        · rintro (⟨mask,isConst,_⟩ | ⟨low',high',same,nonneg⟩)
          · contradiction
          · cases isRange.symm.trans same
            exact ⟨high,if_pos (Bool.and_eq_true_iff.mpr ⟨clearHigh.mpr (Int.le_trans nonneg order),clearLow.mpr nonneg⟩)⟩
      · rename_i mask plain isConst
        obtain rfl := asConstOnly isConst
        have clear : signClear 32 mask = true ↔ 0 ≤ mask := signClearNonneg (by decide) (integralInRange valid ⟨Int.le_refl _,Int.le_refl _⟩)
        constructor
        · rintro ⟨v,found⟩
          split at found
          · rename_i isClear
            exact .inl ⟨mask,isConst,clear.mp isClear⟩
          · contradiction
        · rintro (⟨mask',same,nonneg⟩ | ⟨low,high,isRange,_⟩)
          · cases isConst.symm.trans same
            exact ⟨mask,if_pos (clear.mpr nonneg)⟩
          · contradiction
      · rename_i plain plain'
        rw [plain,plain']
        simp

theorem stopsUnless (plain : removesByteMask env lhs rhs = false) (validRhs : ∀ c, rhs = some c → c.Valid .Int32) :
    (∃ fuel zero, belowTrailing fuel child rhs = some zero) ↔ ¬ Diverges env child lhs rhs := by
  unfold Diverges
  rw [← highFound validRhs]
  constructor
  · rintro ⟨fuel,zero,stopped⟩ ⟨_,⟨second,rfl,isZero⟩,high,found⟩
    simp only [belowTrailing,found,isZero,countTrailingZero] at stopped
    cases stopped
  · intro fine
    cases found : rhs.bind nonNegativeHigh with
    | none => exact ⟨0,false,by cases child <;> simp only [belowTrailing,found]⟩
    | some high =>
        cases child with
        | imul second =>
            cases isConst : second.bind (·.asConst .Int32) with
            | none => exact ⟨0,false,by simp only [belowTrailing,found,isConst]⟩
            | some mask =>
                have nonzero : mask ≠ 0 := by
                  rintro rfl
                  exact fine ⟨plain,⟨second,rfl,isConst⟩,high,found⟩
                obtain ⟨count,counted⟩ := countTrailingStops nonzero (Nat.le_refl _) 0
                exact ⟨mask.natAbs,decide (high < bitOf count),by simp only [belowTrailing,found,isConst,counted,Option.map_some]⟩
        | ishl second =>
            cases isConst : second.bind (·.asConst .Int32) with
            | none => exact ⟨0,false,by simp only [belowTrailing,found,isConst]⟩
            | some mask => exact ⟨0,decide (high < bitOf mask),by simp only [belowTrailing,found,isConst]⟩
        | ishr second referenceCount => exact ⟨0,false,rfl⟩
        | classFlags isArray => exact ⟨0,false,rfl⟩
        | other => exact ⟨0,false,rfl⟩

theorem iandSound (documented : front.Documented) (validBelow : ValidBelow child) (validLhs : ∀ c, lhs = some c → c.Valid .Int32)
    (validRhs : ∀ c, rhs = some c → c.Valid .Int32) (fine : ¬ (Diverges env child lhs rhs ∨ KeepsSign env child lhs rhs)) :
    ∃ fuel effect, constrainIand front.flagValueForArrayCheck env fuel child lhs rhs = some effect ∧
      Sound .Int32 (BinaryOp.and.eval 32) front child lhs rhs effect := by
  cases removes : removesByteMask env lhs rhs with
  | true => exact ⟨0,.removed,by simp [constrainIand,removes],fun x y _ allowedX allowedY => byteMaskKept removes allowedX allowedY⟩
  | false =>
      obtain ⟨fuel,zero,stopped⟩ := (stopsUnless removes validRhs).mpr fun loops => fine (.inl loops)
      refine ⟨fuel,_,iandRun front.flagValueForArrayCheck removes stopped,?_⟩
      split
      · rename_i redundant
        intro x y computed allowedX allowedY
        exact (childrenRangeHolds validLhs validRhs allowedX allowedY fun mask c made => arrayTestHolds documented computed made).2
          (Bool.and_eq_true_iff.mp redundant).1
      · refine settledSound (fun x y computed allowedX allowedY =>
          finalConstraintHolds documented validBelow validLhs validRhs stopped computed allowedX allowedY) ?_
        rintro varied made second referenceCount a b y rfl insideA allowedB allowedX allowedY
        refine unsignedHolds validRhs (fun keeps => fine (.inr keeps)) ?_ made insideA allowedB allowedX allowedY
        intro ⟨left,right⟩
        obtain ⟨u,isLeft⟩ := Option.ne_none_iff_exists'.mp left
        obtain ⟨v,isRight⟩ := Option.ne_none_iff_exists'.mp right
        obtain ⟨r,folded⟩ := bothFolded isLeft isRight zero
        exact varied _ _ folded

theorem iandBroken (validLhs : ∀ c, lhs = some c → c.Valid .Int32) (validRhs : ∀ c, rhs = some c → c.Valid .Int32)
    (bad : Diverges env child lhs rhs ∨ KeepsSign env child lhs rhs) :
    ¬ ∃ fuel effect, constrainIand front.flagValueForArrayCheck env fuel child lhs rhs = some effect ∧
      Sound .Int32 (BinaryOp.and.eval 32) front child lhs rhs effect := by
  rintro ⟨fuel,effect,ran,sound⟩
  rcases bad with loops | keeps
  · have plain := loops.1
    cases stopped : belowTrailing fuel child rhs with
    | some zero => exact (stopsUnless plain validRhs).mp ⟨fuel,zero,stopped⟩ loops
    | none =>
        simp only [constrainIand,plain,stopped] at ran
        cases ran
  · obtain ⟨last,makes,varied,second,referenceCount,amount,rfl,few,isConst,below,some',⟨x,allowedX,least,negative⟩,y,allowedY,reached⟩ := keeps
    have nonzero : y ≠ 0 := by
      rintro rfl
      have := Nat.two_pow_pos (32 - shiftBy 32 amount)
      have zero : word 32 0 = 0 := rfl
      omega
    have plain : removesByteMask env lhs rhs = false := by
      unfold removesByteMask
      split
      · rename_i mask low high _ isRange
        have between := (rangeAllows isRange).mp allowedX
        exact decide_eq_false fun removes => by omega
      · rfl
    obtain ⟨unredundant,attached⟩ := @negativeAttached lhs rhs x y front.flagValueForArrayCheck second referenceCount validLhs allowedX negative allowedY nonzero varied
    have made : makesUnsigned env (.ishr second referenceCount) rhs = true := by
      refine decide_eq_true ⟨few,?_,last,makes⟩
      simp only [bitsShifted,isConst]
      split <;> omega
    have settled := @iandRun env (.ishr second referenceCount) lhs rhs front.flagValueForArrayCheck fuel false plain rfl
    rw [unredundant,Bool.false_and,if_neg (by decide),made] at settled
    rw [settled] at ran
    obtain ⟨a,insideA,allowedB,same,differ⟩ := keepsSignDiffers isConst some' least negative reached
    have shape : settle (finalConstraint front.flagValueForArrayCheck (.ishr second referenceCount) lhs rhs false) true =
        .attached (finalConstraint front.flagValueForArrayCheck (.ishr second referenceCount) lhs rhs false) true := by
      unfold settle
      split
      · rename_i t v isConst'
        exact absurd isConst' (attached t v)
      · rfl
    rw [shape] at ran
    cases ran
    exact differ (sound.2 rfl second referenceCount a amount y rfl insideA allowedB (same ▸ allowedX) allowedY)

theorem landSound (front : ClassFlags Class) (validLhs : ∀ c, lhs = some c → c.Valid .Int64) (validRhs : ∀ c, rhs = some c → c.Valid .Int64) :
    Sound .Int64 (BinaryOp.and.eval 64) front .other lhs rhs (constrainLand lhs rhs) :=
  settledSound (fun _ _ _ allowedX allowedY => (childrenRangeHolds validLhs validRhs allowedX allowedY fun _ _ made => by cases made).1) nofun

theorem ixorSound (front : ClassFlags Class) (validLhs : ∀ c, lhs = some c → c.Valid .Int32) :
    Sound .Int32 (xorEval 32) front .other lhs rhs (constrainIxor lhs rhs) := by
  unfold constrainIxor
  split
  · rename_i c rhsConst isConst
    split
    · rename_i lhsConst isConst'
      intro x y _ allowedX allowedY
      rw [(constAllows isConst).mp allowedY,(constAllows (c := some c) isConst').mp allowedX]
    · split
      · rename_i special
        obtain ⟨rfl,isRange⟩ := special
        refine ⟨fun x y _ allowedX allowedY => ?_,nofun⟩
        obtain ⟨inLow,inHigh,every⟩ := validBounds (validLhs c rfl)
        have between := every x allowedX
        rw [(constAllows isConst).mp allowedY,xorOne (containsInRange (validLhs c rfl) allowedX)]
        refine madeAllows ?_ ?_
        · rw [show c.getLowInt = c.headLow .Int32 from rfl,andEven (containsInRange (validLhs c rfl) inLow)]
          omega
        · rw [show c.getHighInt = c.lastHigh .Int32 from rfl,orOne (containsInRange (validLhs c rfl) inHigh)]
          omega
      · exact ⟨fun x y _ _ _ => bitsRange _,nofun⟩
  · exact ⟨fun x y _ _ _ => bitsRange _,nofun⟩

/- constrainIand ends and is right unless its first child multiplies by zero or shifts by a
negative count; constrainLand and constrainIxor are right. -/
theorem bitwiseHold (front : ClassFlags Class) (documented : front.Documented) :
    (∀ env child lhs rhs, ValidBelow child → (∀ c, lhs = some c → c.Valid .Int32) → (∀ c, rhs = some c → c.Valid .Int32) →
      ((∃ fuel effect, constrainIand front.flagValueForArrayCheck env fuel child lhs rhs = some effect ∧
        Sound .Int32 (BinaryOp.and.eval 32) front child lhs rhs effect) ↔ ¬ (Diverges env child lhs rhs ∨ KeepsSign env child lhs rhs))) ∧
    (∀ lhs rhs, (∀ c, lhs = some c → c.Valid .Int64) → (∀ c, rhs = some c → c.Valid .Int64) →
      Sound .Int64 (BinaryOp.and.eval 64) front .other lhs rhs (constrainLand lhs rhs)) ∧
    (∀ lhs rhs, (∀ c, lhs = some c → c.Valid .Int32) → (∀ c, rhs = some c → c.Valid .Int32) →
      Sound .Int32 (xorEval 32) front .other lhs rhs (constrainIxor lhs rhs)) := by
  refine ⟨fun env child lhs rhs validBelow validLhs validRhs => ?_,fun lhs rhs validLhs validRhs => landSound front validLhs validRhs,
    fun lhs rhs validLhs _ => ixorSound front validLhs⟩
  constructor
  · intro holds bad
    exact iandBroken validLhs validRhs bad holds
  · intro fine
    exact iandSound documented validBelow validLhs validRhs fine

theorem someValid {t : DataType} {c : VPConstraint} (valid : c.Valid t) : ∀ k, some c = some k → k.Valid t := by
  rintro k same
  cases same
  exact valid

-- Classes by whether they are array classes, with one flag for that.
def arrayFlags : ClassFlags Bool := ⟨fun k => if k then 65543 else 7,id,65536⟩

theorem arrayFlagsDocumented : arrayFlags.Documented := ⟨by decide,by decide⟩

theorem bitwiseHoldSample :
    (∃ fuel effect, constrainIand 65536 ⟨true,true,true,true⟩ fuel (.imul (some (.integral (.const .Int32 8)))) none (some (.integral (.const .Int32 7))) =
      some effect ∧ Sound .Int32 (BinaryOp.and.eval 32) arrayFlags (.imul (some (.integral (.const .Int32 8)))) none (some (.integral (.const .Int32 7))) effect) ∧
    Sound .Int64 (BinaryOp.and.eval 64) arrayFlags .other none (some (.integral (.const .Int64 255)))
      (.attached (some (.range .Int64 0 255 .no false)) false) ∧
    Sound .Int32 (xorEval 32) arrayFlags .other (some (.integral (.range .Int32 0 1 .no false))) (some (.integral (.const .Int32 1)))
      (.attached (some (.range .Int32 0 1 .no false)) false) := by
  refine ⟨((bitwiseHold arrayFlags arrayFlagsDocumented).1 _ (.imul (some (.integral (.const .Int32 8)))) none _ (someValid (by decide)) nofun
      (someValid (by decide))).mpr ?_,
    (bitwiseHold arrayFlags arrayFlagsDocumented).2.1 none (some (.integral (.const .Int64 255))) nofun (someValid (by decide)),
    (bitwiseHold arrayFlags arrayFlagsDocumented).2.2 (some (.integral (.range .Int32 0 1 .no false))) (some (.integral (.const .Int32 1)))
      (someValid (by decide)) (someValid (by decide))⟩
  rintro (⟨_,⟨second,same,isZero⟩,_⟩ | ⟨_,_,_,_,_,_,same,_⟩)
  · cases same
    cases isZero
  · cases same

/- A product by zero keeps the loop running, and -1 >> -1 with the mask 2 loses the bit
that is shifted in. -/
theorem iandLoopsAndLosesSign :
    (∀ fuel, constrainIand 0 ⟨true,true,true,true⟩ fuel (.imul (some (.integral (.const .Int32 0)))) none (some (.integral (.const .Int32 255))) = none) ∧
    constrainIand 0 ⟨true,true,true,true⟩ 0 (.ishr (some (.integral (.const .Int32 (-1)))) 1) none (some (.integral (.const .Int32 2))) =
      some (.attached (some (.range .Int32 0 2 .no false)) true) ∧
    BinaryOp.and.eval 32 (BinaryOp.shr.eval 32 (-1) (-1)) 2 = 2 ∧ BinaryOp.and.eval 32 (BinaryOp.ushr.eval 32 (-1) (-1)) 2 = 0 := by
  refine ⟨fun fuel => ?_,by decide,by decide,by decide⟩
  have loops : belowTrailing fuel (.imul (some (.integral (.const .Int32 0)))) (some (.integral (.const .Int32 255))) = none := by
    have found : (some (VPConstraint.integral (.const .Int32 255))).bind nonNegativeHigh = some 255 := by decide
    have isZero : (some (VPConstraint.integral (.const .Int32 0))).bind (·.asConst .Int32) = some 0 := rfl
    simp only [belowTrailing,found,isZero,countTrailingZero]
    rfl
  simp only [constrainIand,loops]
  rfl

end Results

end OmrCompiler.BitwiseSound
