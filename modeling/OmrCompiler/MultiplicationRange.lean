import OmrCompiler.Constraint
import OmrCompiler.CornerBounds

/-! The range of a product: constrainImul, constrainIumul, constrainLmul and the
64-bit overflow tests of VPHandlers.cpp. The children have been constrained and
the node has no constant constraint of its own. -/
namespace OmrCompiler.MultiplicationRange
open MachineInt Constraint CornerBounds

-- The two selections the handlers make among the four corner products.
def lowest (lowerLower lowerUpper upperLower upperUpper : Int) : Int :=
  let tempLower1 := if lowerLower < lowerUpper then lowerLower else lowerUpper
  let tempLower2 := if upperLower < upperUpper then upperLower else upperUpper
  if tempLower1 < tempLower2 then tempLower1 else tempLower2

def highest (lowerLower lowerUpper upperLower upperUpper : Int) : Int :=
  let tempHigher1 := if lowerLower < lowerUpper then lowerUpper else lowerLower
  let tempHigher2 := if upperLower < upperUpper then upperUpper else upperLower
  if tempHigher1 > tempHigher2 then tempHigher1 else tempHigher2

-- An ordering of the corner products of two pairs of bounds by one choice.
def corner (choice : Int → Int → Int → Int → Int) (product : Int → Int → Int) (lhsLow lhsHigh rhsLow rhsHigh : Int) : Int :=
  choice (product lhsLow rhsLow) (product lhsLow rhsHigh) (product lhsHigh rhsLow) (product lhsHigh rhsHigh)

-- int64_t products, and the uint64_t products of sign extended operands.
def longProduct (x y : Int) : Int := wrap 64 (x * y)

def ulongProduct (x y : Int) : Int := toUnsigned 64 x * toUnsigned 64 y % modulus 64

def imulRange (lhs rhs : VPConstraint) : Option IntegralConstraint :=
  let low := corner lowest longProduct lhs.getLowInt lhs.getHighInt rhs.getLowInt rhs.getHighInt
  let high := corner highest longProduct lhs.getLowInt lhs.getHighInt rhs.getLowInt rhs.getHighInt
  if low < minSigned 32 ∨ high > maxSigned 32 then none
  else VPIntRange.create (wrap 32 low) (wrap 32 high) .no

def iumulRange (lhs rhs : VPConstraint) : Option IntegralConstraint :=
  let low := corner lowest ulongProduct lhs.getLowInt lhs.getHighInt rhs.getLowInt rhs.getHighInt
  let high := corner highest ulongProduct lhs.getLowInt lhs.getHighInt rhs.getLowInt rhs.getHighInt
  if low < 0 ∨ high > modulus 32 - 1 then none
  else VPIntRange.create (wrap 32 low) (wrap 32 high) .no

-- a is the lower number.
def orderedMultiplyOverflow (a b maxValue : Int) : Bool :=
  if a > modulus 32 - 1 then true
  else if b ≤ modulus 32 - 1 then false
  else
    let highWord := b / modulus 32
    let lowWord := b % modulus 32
    let lowWordOverflow := a * lowWord % modulus 64 / modulus 32
    if a * highWord % modulus 64 > maxValue then true
    else if (a * highWord % modulus 64 + lowWordOverflow) % modulus 64 > maxValue then true
    else false

def can64BitUnsignedMultiplyOverflow (a b maxValue : Int) : Bool :=
  if a > b then orderedMultiplyOverflow b a maxValue else orderedMultiplyOverflow a b maxValue

def isInt (x : Int) : Bool := minSigned 32 ≤ x ∧ x ≤ maxSigned 32

-- (uint64_t)(-1 * a).
def negated (a : Int) : Int := toUnsigned 64 (wrap 64 (-1 * a))

def can64BitSignedMultiplyOverflow (a b : Int) : Bool :=
  if a = 0 ∨ b = 0 ∨ a = 1 ∨ b = 1 then false
  else if a = minSigned 64 ∨ b = minSigned 64 then true
  else if isInt a ∧ isInt b then false
  else if ¬ isInt a ∧ ¬ isInt b then true
  else if a > 0 ∧ b > 0 then
    can64BitUnsignedMultiplyOverflow (toUnsigned 64 a) (toUnsigned 64 b) (maxSigned 32)
  else if a < 0 ∧ a ≠ minSigned 64 ∧ b < 0 ∧ b ≠ minSigned 64 then
    can64BitUnsignedMultiplyOverflow (negated a) (negated b) (maxSigned 32)
  else if a < 0 then can64BitUnsignedMultiplyOverflow (negated a) (toUnsigned 64 b) (maxSigned 32)
  else if b < 0 then can64BitUnsignedMultiplyOverflow (toUnsigned 64 a) (negated b) (maxSigned 32)
  else false

-- Its arguments are uint64_t.
def can64BitMultiplyOverflow (a b : Int) (isUnsigned : Bool) : Bool :=
  if isUnsigned then can64BitUnsignedMultiplyOverflow a b (modulus 32 - 1)
  else can64BitSignedMultiplyOverflow (wrap 64 a) (wrap 64 b)

def lmulRange (isUnsigned : Bool) (lhs rhs : VPConstraint) : Option IntegralConstraint :=
  let overflows := fun x y => can64BitMultiplyOverflow (toUnsigned 64 x) (toUnsigned 64 y) isUnsigned
  if overflows lhs.getLowLong rhs.getLowLong || overflows lhs.getLowLong rhs.getHighLong ||
      overflows lhs.getHighLong rhs.getLowLong || overflows lhs.getHighLong rhs.getHighLong then none
  else
    VPLongRange.create (corner lowest longProduct lhs.getLowLong lhs.getHighLong rhs.getLowLong rhs.getHighLong)
      (corner highest longProduct lhs.getLowLong lhs.getHighLong rhs.getLowLong rhs.getHighLong) false .no

/- The handlers. A constraint that is a constant replaces the node, any other is
added to it. -/
def constrainWith (t : DataType) (range : VPConstraint → VPConstraint → Option IntegralConstraint)
    (lhs rhs : Option VPConstraint) : Option IntegralConstraint :=
  match lhs, rhs with
  | some lhs, some rhs =>
      match lhs.asConst t, rhs.asConst t with
      | some x, some y => some (createConst t (wrap t.bits (x * y)))
      | _, _ => range lhs rhs
  | _, _ => none

def constrainImul := constrainWith .Int32 imulRange

def constrainIumul := constrainWith .Int32 iumulRange

-- The handler table has no other node for it than lmul.
def constrainLmul := constrainWith .Int64 (lmulRange false)

theorem lowestBelow {p q r s m : Int} : m ≤ lowest p q r s ↔ m ≤ p ∧ m ≤ q ∧ m ≤ r ∧ m ≤ s := by
  unfold lowest
  dsimp only
  split <;> split <;> split <;> omega

theorem highestAbove {p q r s m : Int} : highest p q r s ≤ m ↔ p ≤ m ∧ q ≤ m ∧ r ≤ m ∧ s ≤ m := by
  unfold highest
  dsimp only
  split <;> split <;> split <;> omega

section
variable {a1 a2 b1 b2 x y : Int} (upon : a1 ≤ x) (under : x ≤ a2) (upon' : b1 ≤ y) (under' : y ≤ b2)
include upon under upon' under'

theorem productAbove {m : Int} (h : m ≤ corner lowest (· * ·) a1 a2 b1 b2) : m ≤ x * y := by
  obtain ⟨h1,h2,h3,h4⟩ := lowestBelow.mp h
  exact leastAtCorners (steadyMulLeft y a1 a2) (steadyMulRight a1 b1 b2) (steadyMulRight a2 b1 b2) upon under upon' under' h1 h2 h3 h4

theorem productBelow {m : Int} (h : corner highest (· * ·) a1 a2 b1 b2 ≤ m) : x * y ≤ m := by
  obtain ⟨h1,h2,h3,h4⟩ := highestAbove.mp h
  exact greatestAtCorners (steadyMulLeft y a1 a2) (steadyMulRight a1 b1 b2) (steadyMulRight a2 b1 b2) upon under upon' under' h1 h2 h3 h4

theorem productCovered : corner lowest (· * ·) a1 a2 b1 b2 ≤ x * y ∧ x * y ≤ corner highest (· * ·) a1 a2 b1 b2 :=
  ⟨productAbove upon under upon' under' (Int.le_refl _),productBelow upon under upon' under' (Int.le_refl _)⟩

end

-- Where the machine's corner products are the exact ones, so are the choices.
theorem cornerExact {choice : Int → Int → Int → Int → Int} {product : Int → Int → Int} {a1 a2 b1 b2 : Int}
    (exact' : ∀ x y, x = a1 ∨ x = a2 → y = b1 ∨ y = b2 → product x y = x * y) :
    corner choice product a1 a2 b1 b2 = corner choice (· * ·) a1 a2 b1 b2 := by
  unfold corner
  rw [exact' a1 b1 (.inl rfl) (.inl rfl),exact' a1 b2 (.inl rfl) (.inr rfl),exact' a2 b1 (.inr rfl) (.inl rfl),
    exact' a2 b2 (.inr rfl) (.inr rfl)]

theorem intProduct {x y : Int} (inX : InRange 32 x) (inY : InRange 32 y) :
    -4611686018427387904 ≤ x * y ∧ x * y ≤ 4611686018427387904 := by
  have number : minSigned 32 = -2147483648 ∧ maxSigned 32 = 2147483647 := by decide
  obtain ⟨low,high⟩ := inX
  obtain ⟨low',high'⟩ := inY
  rw [number.1] at low low'
  rw [number.2] at high high'
  exact ⟨productAbove low high low' high' (by decide),productBelow low high low' high' (by decide)⟩

theorem longProductInt {x y : Int} (inX : InRange 32 x) (inY : InRange 32 y) : longProduct x y = x * y := by
  have number : minSigned 64 = -9223372036854775808 ∧ maxSigned 64 = 9223372036854775807 := by decide
  have bounds := intProduct inX inY
  exact wrapSelf (by decide) ⟨by omega,by omega⟩

theorem ulongProductReads (x y : Int) : ulongProduct x y = toUnsigned 64 (x * y) := by
  unfold ulongProduct toUnsigned
  rw [← Int.mul_emod]

-- The product of two unsigned words, one of them split into its own two words.
theorem splitProduct {a b maxValue : Int} (nonneg : 0 ≤ a) (nonneg' : 0 ≤ b) (long : b < modulus 64)
    (fits : orderedMultiplyOverflow a b maxValue = false) : (a ≤ modulus 32 - 1 ∧ b ≤ modulus 32 - 1) ∨ a * b < (maxValue + 1) * modulus 32 := by
  have number : modulus 32 = 4294967296 ∧ modulus 64 = 18446744073709551616 := by decide
  unfold orderedMultiplyOverflow at fits
  rw [number.1,number.2] at fits
  rw [number.2] at long
  rw [number.1]
  dsimp only at fits
  split at fits
  · contradiction
  · rename_i small
    split at fits
    · left
      omega
    · right
      have high := Int.mul_le_mul_of_nonneg_right (show a ≤ 4294967295 by omega) (show 0 ≤ b / 4294967296 by omega)
      have low := Int.mul_le_mul_of_nonneg_right (show a ≤ 4294967295 by omega) (show 0 ≤ b % 4294967296 by omega)
      have high' := Int.mul_nonneg nonneg (show 0 ≤ b / 4294967296 by omega)
      have low' := Int.mul_nonneg nonneg (show 0 ≤ b % 4294967296 by omega)
      have words : a * b = a * (b / 4294967296) * 4294967296 + a * (b % 4294967296) := by
        have whole := Int.mul_ediv_add_emod b 4294967296
        calc a * b = a * (4294967296 * (b / 4294967296) + b % 4294967296) := by rw [whole]
          _ = a * (b / 4294967296) * 4294967296 + a * (b % 4294967296) := by rw [Int.mul_add,Int.mul_left_comm,Int.mul_comm 4294967296]
      generalize a * (b / 4294967296) = upper at high high' words fits
      generalize a * (b % 4294967296) = lower at low low' words fits
      rw [Int.emod_eq_of_lt high' (by omega),Int.emod_eq_of_lt low' (by omega)] at fits
      split at fits
      · contradiction
      · rw [Int.emod_eq_of_lt (by omega) (by omega)] at fits
        split at fits
        · contradiction
        · omega

theorem unsignedProduct {a b maxValue : Int} (nonneg : 0 ≤ a) (nonneg' : 0 ≤ b) (long : a < modulus 64) (long' : b < modulus 64)
    (fits : can64BitUnsignedMultiplyOverflow a b maxValue = false) :
    (a ≤ modulus 32 - 1 ∧ b ≤ modulus 32 - 1) ∨ a * b < (maxValue + 1) * modulus 32 := by
  unfold can64BitUnsignedMultiplyOverflow at fits
  split at fits
  · rw [Int.mul_comm a b]
    exact (splitProduct nonneg' nonneg long fits).imp_left And.symm
  · exact splitProduct nonneg nonneg' long' fits

theorem unsignedFits {a b : Int} (nonneg : 0 ≤ a) (nonneg' : 0 ≤ b) (long : a < modulus 64) (long' : b < modulus 64)
    (fits : can64BitUnsignedMultiplyOverflow a b (modulus 32 - 1) = false) : a * b < modulus 64 := by
  have number : modulus 32 = 4294967296 ∧ modulus 64 = 18446744073709551616 := by decide
  rcases unsignedProduct nonneg nonneg' long long' fits with ⟨small,small'⟩ | below
  · rw [number.1] at small small'
    have := productBelow nonneg small nonneg' small' (show corner highest (· * ·) 0 _ 0 _ ≤ (4294967296 - 1) * (4294967296 - 1) by decide)
    omega
  · rw [number.1] at below
    omega

-- Sizes of which one is an int's.
theorem sizesFit {p q : Int} (nonneg : 0 ≤ p) (nonneg' : 0 ≤ q) (long : p < half 64) (long' : q < half 64)
    (short : p ≤ half 32 ∨ q ≤ half 32) (fits : can64BitUnsignedMultiplyOverflow p q (maxSigned 32) = false) : p * q < half 64 := by
  have number : modulus 32 = 4294967296 ∧ modulus 64 = 18446744073709551616 ∧ half 32 = 2147483648 ∧ half 64 = 9223372036854775808 ∧
    maxSigned 32 = 2147483647 := by decide
  rcases unsignedProduct nonneg nonneg' (by omega) (by omega) fits with ⟨small,small'⟩ | below
  · rw [number.1] at small small'
    rw [number.2.2.1] at short
    rw [number.2.2.2.1]
    rcases short with short | short
    · have := productBelow nonneg short nonneg' small' (show corner highest (· * ·) 0 _ 0 _ ≤ 2147483648 * (4294967296 - 1) by decide)
      omega
    · have := productBelow nonneg small nonneg' short (show corner highest (· * ·) 0 _ 0 _ ≤ 2147483648 * (4294967296 - 1) by decide)
      omega
  · rw [number.1,number.2.2.2.2] at below
    omega

theorem negatedSize {a : Int} (inside : InRange 64 a) (negative : a < 0) (apart : a ≠ minSigned 64) : negated a = -a := by
  have number : minSigned 64 = -9223372036854775808 ∧ maxSigned 64 = 9223372036854775807 ∧ modulus 64 = 18446744073709551616 := by decide
  obtain ⟨low,high⟩ := inside
  have turned : InRange 64 (-1 * a) := ⟨by omega,by omega⟩
  rw [negated,wrapSelf (by decide) turned,toUnsigned,Int.emod_eq_of_lt (by omega) (by omega)]
  omega

theorem positiveSize {a : Int} (inside : InRange 64 a) (nonneg : 0 ≤ a) : toUnsigned 64 a = a := by
  have number : maxSigned 64 = 9223372036854775807 ∧ modulus 64 = 18446744073709551616 := by decide
  obtain ⟨low,high⟩ := inside
  exact Int.emod_eq_of_lt nonneg (by omega)

theorem signedFits {a b : Int} (inA : InRange 64 a) (inB : InRange 64 b) (fits : can64BitSignedMultiplyOverflow a b = false) :
    InRange 64 (a * b) := by
  have number : minSigned 32 = -2147483648 ∧ maxSigned 32 = 2147483647 ∧ minSigned 64 = -9223372036854775808 ∧
    maxSigned 64 = 9223372036854775807 ∧ half 32 = 2147483648 ∧ half 64 = 9223372036854775808 := by decide
  have ⟨lowA,highA⟩ := inA
  have ⟨lowB,highB⟩ := inB
  unfold can64BitSignedMultiplyOverflow at fits
  simp only [isInt,decide_eq_true_eq] at fits
  split at fits
  · rename_i trivial'
    rcases trivial' with rfl | rfl | rfl | rfl
    · rw [Int.zero_mul]; decide
    · rw [Int.mul_zero]; decide
    · rw [Int.one_mul]; exact inB
    · rw [Int.mul_one]; exact inA
  · split at fits
    · contradiction
    · split at fits
      · rename_i ints
        have := intProduct ints.1 ints.2
        exact ⟨by omega,by omega⟩
      · split at fits
        · contradiction
        · -- One operand is an int: the sizes decide, whatever the signs are.
          split at fits
          · rw [positiveSize inA (by omega),positiveSize inB (by omega)] at fits
            have below := sizesFit (by omega) (by omega) (by omega) (by omega) (by omega) fits
            have := Int.mul_nonneg (show 0 ≤ a by omega) (show 0 ≤ b by omega)
            exact ⟨by omega,by omega⟩
          · split at fits
            · rw [negatedSize inA (by omega) (by omega),negatedSize inB (by omega) (by omega)] at fits
              have below := sizesFit (by omega) (by omega) (by omega) (by omega) (by omega) fits
              have := Int.mul_nonneg (show 0 ≤ -a by omega) (show 0 ≤ -b by omega)
              rw [Int.neg_mul_neg] at below this
              exact ⟨by omega,by omega⟩
            · split at fits
              · rw [negatedSize inA (by omega) (by omega),positiveSize inB (by omega)] at fits
                have below := sizesFit (by omega) (by omega) (by omega) (by omega) (by omega) fits
                have := Int.mul_nonneg (show 0 ≤ -a by omega) (show 0 ≤ b by omega)
                rw [Int.neg_mul] at below this
                exact ⟨by omega,by omega⟩
              · split at fits
                · rw [positiveSize inA (by omega),negatedSize inB (by omega) (by omega)] at fits
                  have below := sizesFit (by omega) (by omega) (by omega) (by omega) (by omega) fits
                  have := Int.mul_nonneg (show 0 ≤ a by omega) (show 0 ≤ -b by omega)
                  rw [Int.mul_neg] at below this
                  exact ⟨by omega,by omega⟩
                · omega

-- The bounds a handler reads hold every value, and are values of the type.
theorem boundsRead {t : DataType} {c : VPConstraint} (valid : c.Valid t) :
    InRange t.bits (c.headLow t) ∧ InRange t.bits (c.lastHigh t) ∧ ∀ v, c.Contains v → c.headLow t ≤ v ∧ v ≤ c.lastHigh t := by
  obtain ⟨low,high,within⟩ := validBounds valid
  exact ⟨containsInRange valid low,containsInRange valid high,within⟩

theorem cornersOrdered (p q r s : Int) : lowest p q r s ≤ highest p q r s := by
  have low := lowestBelow.mp (Int.le_refl (lowest p q r s))
  have high := highestAbove.mp (Int.le_refl (highest p q r s))
  omega

-- What the claim asks of an attached constraint.
def Covers (t : DataType) (lhs rhs : VPConstraint) (c : IntegralConstraint) : Prop :=
  c.getLow ≤ c.getHigh ∧ ∀ x y, lhs.Contains x → rhs.Contains y → c.Contains (wrap t.bits (x * y))

-- The exact corner products of the bounds of two constraints.
def least (t : DataType) (lhs rhs : VPConstraint) : Int :=
  corner lowest (· * ·) (lhs.headLow t) (lhs.lastHigh t) (rhs.headLow t) (rhs.lastHigh t)

def greatest (t : DataType) (lhs rhs : VPConstraint) : Int :=
  corner highest (· * ·) (lhs.headLow t) (lhs.lastHigh t) (rhs.headLow t) (rhs.lastHigh t)

section
variable {t : DataType} {lhs rhs : VPConstraint} (left : lhs.Valid t) (right : rhs.Valid t)
include left right

/- A range whose bounds are the corner products, all taken the same number of
turns back into the type, holds every wrapped product. -/
theorem turnedCovers {c : IntegralConstraint} {k : Int} (low : c.getLow = least t lhs rhs + k * modulus t.bits)
    (high : c.getHigh = greatest t lhs rhs + k * modulus t.bits) (inside : InRange t.bits c.getLow) (inside' : InRange t.bits c.getHigh) :
    Covers t lhs rhs c := by
  refine ⟨?_,fun x y inX inY => ?_⟩
  · have ordered : least t lhs rhs ≤ greatest t lhs rhs := cornersOrdered _ _ _ _
    omega
  · have boundsL := (boundsRead left).2.2 x inX
    have boundsR := (boundsRead right).2.2 y inY
    have covered : least t lhs rhs ≤ x * y ∧ x * y ≤ greatest t lhs rhs := productCovered boundsL.1 boundsL.2 boundsR.1 boundsR.2
    have turned : InRange t.bits (x * y + k * modulus t.bits) := by
      unfold InRange at inside inside' ⊢
      omega
    rw [wrapUnique t.bitsPos turned rfl]
    unfold IntegralConstraint.Contains
    omega

theorem exactCorners {product : Int → Int → Int} {choice : Int → Int → Int → Int → Int}
    (exact' : ∀ x y, InRange t.bits x → InRange t.bits y → x = lhs.headLow t ∨ x = lhs.lastHigh t → y = rhs.headLow t ∨ y = rhs.lastHigh t →
      product x y = x * y) :
    corner choice product (lhs.headLow t) (lhs.lastHigh t) (rhs.headLow t) (rhs.lastHigh t) =
      corner choice (· * ·) (lhs.headLow t) (lhs.lastHigh t) (rhs.headLow t) (rhs.lastHigh t) := by
  obtain ⟨lowL,highL,_⟩ := boundsRead left
  obtain ⟨lowR,highR,_⟩ := boundsRead right
  refine cornerExact fun x y atX atY => exact' x y ?_ ?_ atX atY
  · rcases atX with rfl | rfl
    · exact lowL
    · exact highL
  · rcases atY with rfl | rfl
    · exact lowR
    · exact highR

end

theorem imulCovers {lhs rhs : VPConstraint} (left : lhs.Valid .Int32) (right : rhs.Valid .Int32) {c : IntegralConstraint}
    (made : imulRange lhs rhs = some c) : Covers .Int32 lhs rhs c := by
  have reads : imulRange lhs rhs = if least .Int32 lhs rhs < minSigned 32 ∨ greatest .Int32 lhs rhs > maxSigned 32 then none
      else VPIntRange.create (wrap 32 (least .Int32 lhs rhs)) (wrap 32 (greatest .Int32 lhs rhs)) .no := by
    unfold imulRange VPConstraint.getLowInt VPConstraint.getHighInt
    rw [exactCorners left right fun x y inX inY _ _ => longProductInt inX inY,exactCorners left right fun x y inX inY _ _ => longProductInt inX inY]
    rfl
  rw [reads] at made
  split at made
  · contradiction
  · rename_i fits
    rw [not_or,Int.not_lt,Int.not_lt] at fits
    have ordered : least .Int32 lhs rhs ≤ greatest .Int32 lhs rhs := cornersOrdered _ _ _ _
    have inLow : InRange 32 (least .Int32 lhs rhs) := ⟨fits.1,by omega⟩
    have inHigh : InRange 32 (greatest .Int32 lhs rhs) := ⟨by omega,fits.2⟩
    have kept := createRangeMade .Int32 (wrap 32 (least .Int32 lhs rhs)) (wrap 32 (greatest .Int32 lhs rhs)) .no
    unfold VPIntRange.create at made
    rw [made,wrapSelf (by decide) inLow,wrapSelf (by decide) inHigh] at kept
    obtain ⟨_,atLow,atHigh⟩ := kept
    exact turnedCovers left right (k := 0) (by omega) (by omega) (atLow.symm ▸ inLow) (atHigh.symm ▸ inHigh)

theorem lmulCovers {lhs rhs : VPConstraint} (left : lhs.Valid .Int64) (right : rhs.Valid .Int64) {c : IntegralConstraint}
    (made : lmulRange false lhs rhs = some c) : Covers .Int64 lhs rhs c := by
  obtain ⟨lowL,highL,_⟩ := boundsRead left
  obtain ⟨lowR,highR,_⟩ := boundsRead right
  have roundTrip : ∀ x, InRange 64 x → wrap 64 (toUnsigned 64 x) = x := by
    intro x inside
    have turn : modulus 64 = 18446744073709551616 := by decide
    have whole := Int.mul_ediv_add_emod x (modulus 64)
    refine wrapUnique (by decide) (k := x / modulus 64) inside ?_
    rw [toUnsigned,Int.mul_comm]
    omega
  unfold lmulRange VPConstraint.getLowLong VPConstraint.getHighLong at made
  simp only [can64BitMultiplyOverflow,Bool.false_eq_true,if_false,roundTrip _ lowL,roundTrip _ highL,roundTrip _ lowR,roundTrip _ highR] at made
  split at made
  · contradiction
  · rename_i fits
    simp only [Bool.or_eq_true,not_or,Bool.not_eq_true] at fits
    obtain ⟨⟨⟨fit1,fit2⟩,fit3⟩,fit4⟩ := fits
    have in1 := signedFits lowL lowR fit1
    have in2 := signedFits lowL highR fit2
    have in3 := signedFits highL lowR fit3
    have in4 := signedFits highL highR fit4
    have product : ∀ x y, InRange 64 x → InRange 64 y → x = lhs.headLow .Int64 ∨ x = lhs.lastHigh .Int64 →
        y = rhs.headLow .Int64 ∨ y = rhs.lastHigh .Int64 → longProduct x y = x * y := by
      rintro x y _ _ (rfl | rfl) (rfl | rfl)
      · exact wrapSelf (by decide) in1
      · exact wrapSelf (by decide) in2
      · exact wrapSelf (by decide) in3
      · exact wrapSelf (by decide) in4
    rw [exactCorners left right product,exactCorners left right product] at made
    have inLow : InRange 64 (least .Int64 lhs rhs) := by
      unfold InRange at in1 in2 in3 in4
      have above := lowestBelow.mpr ⟨in1.1,in2.1,in3.1,in4.1⟩
      have below := lowestBelow.mp (Int.le_refl (least .Int64 lhs rhs))
      exact ⟨above,Int.le_trans below.1 in1.2⟩
    have inHigh : InRange 64 (greatest .Int64 lhs rhs) := by
      unfold InRange at in1 in2 in3 in4
      have below := highestAbove.mpr ⟨in1.2,in2.2,in3.2,in4.2⟩
      have above := highestAbove.mp (Int.le_refl (greatest .Int64 lhs rhs))
      exact ⟨Int.le_trans in1.1 above.1,below⟩
    have kept := createLongRangeMade (least .Int64 lhs rhs) (greatest .Int64 lhs rhs) false .no
    unfold least greatest at kept
    rw [made] at kept
    exact turnedCovers left right (k := 0) (by rw [Int.zero_mul,Int.add_zero]; exact kept.2.1) (by rw [Int.zero_mul,Int.add_zero]; exact kept.2.2)
      (kept.2.1.symm ▸ inLow) (kept.2.2.symm ▸ inHigh)

-- A sign extended product below 2^32 is the exact product.
theorem smallProduct {x y : Int} (inX : InRange 32 x) (inY : InRange 32 y) :
    ulongProduct x y ≤ modulus 32 - 1 ↔ 0 ≤ x * y ∧ x * y ≤ modulus 32 - 1 := by
  have number : modulus 32 = 4294967296 ∧ modulus 64 = 18446744073709551616 := by decide
  have bounds := intProduct inX inY
  rw [ulongProductReads,toUnsigned,number.2,number.1]
  omega

theorem iumulReads {lhs rhs : VPConstraint} (left : lhs.Valid .Int32) (right : rhs.Valid .Int32) :
    (0 ≤ least .Int32 lhs rhs ∧ greatest .Int32 lhs rhs ≤ modulus 32 - 1 ∧
      iumulRange lhs rhs = VPIntRange.create (wrap 32 (least .Int32 lhs rhs)) (wrap 32 (greatest .Int32 lhs rhs)) .no) ∨
    (¬ (0 ≤ least .Int32 lhs rhs ∧ greatest .Int32 lhs rhs ≤ modulus 32 - 1) ∧ iumulRange lhs rhs = none) := by
  obtain ⟨lowL,highL,_⟩ := boundsRead left
  obtain ⟨lowR,highR,_⟩ := boundsRead right
  have small1 := smallProduct lowL lowR
  have small2 := smallProduct lowL highR
  have small3 := smallProduct highL lowR
  have small4 := smallProduct highL highR
  have high := @highestAbove (ulongProduct (lhs.headLow .Int32) (rhs.headLow .Int32)) (ulongProduct (lhs.headLow .Int32) (rhs.lastHigh .Int32))
    (ulongProduct (lhs.lastHigh .Int32) (rhs.headLow .Int32)) (ulongProduct (lhs.lastHigh .Int32) (rhs.lastHigh .Int32)) (modulus 32 - 1)
  rw [small1,small2,small3,small4] at high
  have low : 0 ≤ corner lowest ulongProduct (lhs.headLow .Int32) (lhs.lastHigh .Int32) (rhs.headLow .Int32) (rhs.lastHigh .Int32) := by
    have nonneg : ∀ x y, 0 ≤ ulongProduct x y := fun x y => Int.emod_nonneg _ (by decide)
    exact lowestBelow.mpr ⟨nonneg _ _,nonneg _ _,nonneg _ _,nonneg _ _⟩
  have exactLow := @lowestBelow (lhs.headLow .Int32 * rhs.headLow .Int32) (lhs.headLow .Int32 * rhs.lastHigh .Int32)
    (lhs.lastHigh .Int32 * rhs.headLow .Int32) (lhs.lastHigh .Int32 * rhs.lastHigh .Int32) 0
  have exactHigh := @highestAbove (lhs.headLow .Int32 * rhs.headLow .Int32) (lhs.headLow .Int32 * rhs.lastHigh .Int32)
    (lhs.lastHigh .Int32 * rhs.headLow .Int32) (lhs.lastHigh .Int32 * rhs.lastHigh .Int32) (modulus 32 - 1)
  by_cases small : 0 ≤ least .Int32 lhs rhs ∧ greatest .Int32 lhs rhs ≤ modulus 32 - 1
  · refine .inl ⟨small.1,small.2,?_⟩
    have ⟨n1,n2,n3,n4⟩ := exactLow.mp small.1
    have ⟨m1,m2,m3,m4⟩ := exactHigh.mp small.2
    have fits := high.mpr ⟨⟨n1,m1⟩,⟨n2,m2⟩,⟨n3,m3⟩,⟨n4,m4⟩⟩
    have product : ∀ x y, InRange 32 x → InRange 32 y → x = lhs.headLow .Int32 ∨ x = lhs.lastHigh .Int32 →
        y = rhs.headLow .Int32 ∨ y = rhs.lastHigh .Int32 → ulongProduct x y = x * y := by
      intro x y inX inY atX atY
      have nonneg : 0 ≤ x * y := by rcases atX with rfl | rfl <;> rcases atY with rfl | rfl <;> assumption
      have number : modulus 64 = 18446744073709551616 := by decide
      rw [ulongProductReads]
      exact Int.emod_eq_of_lt nonneg (by have := intProduct inX inY; omega)
    unfold iumulRange VPConstraint.getLowInt VPConstraint.getHighInt
    dsimp only
    rw [if_neg (by rw [not_or,Int.not_lt,Int.not_lt]; exact ⟨low,fits⟩),exactCorners left right product,exactCorners left right product]
    rfl
  · refine .inr ⟨small,?_⟩
    unfold iumulRange VPConstraint.getLowInt VPConstraint.getHighInt
    dsimp only
    rw [if_pos]
    right
    rw [gt_iff_lt,← Int.not_le]
    intro fits
    obtain ⟨⟨n1,m1⟩,⟨n2,m2⟩,⟨n3,m3⟩,⟨n4,m4⟩⟩ := high.mp fits
    exact small ⟨exactLow.mpr ⟨n1,n2,n3,n4⟩,exactHigh.mpr ⟨m1,m2,m3,m4⟩⟩

theorem iumulCovers {lhs rhs : VPConstraint} (left : lhs.Valid .Int32) (right : rhs.Valid .Int32) :
    (∀ c, iumulRange lhs rhs = some c → Covers .Int32 lhs rhs c) ↔
      ¬ (0 ≤ least .Int32 lhs rhs ∧ least .Int32 lhs rhs < half 32 ∧ half 32 ≤ greatest .Int32 lhs rhs ∧
        greatest .Int32 lhs rhs < modulus 32) := by
  have number : minSigned 32 = -2147483648 ∧ maxSigned 32 = 2147483647 ∧ modulus 32 = 4294967296 ∧ half 32 = 2147483648 := by decide
  have ordered : least .Int32 lhs rhs ≤ greatest .Int32 lhs rhs := cornersOrdered _ _ _ _
  rcases iumulReads left right with ⟨nonneg,fits,reads⟩ | ⟨large,reads⟩
  · rw [reads]
    have kept := createRangeMade .Int32 (wrap 32 (least .Int32 lhs rhs)) (wrap 32 (greatest .Int32 lhs rhs)) .no
    rcases wrapTurn (w := 32) (by decide) (x := least .Int32 lhs rhs) (by omega) (by omega) with ⟨inLow,wraps⟩ | ⟨under,_⟩ | ⟨overLow,wraps⟩
    · rcases wrapTurn (w := 32) (by decide) (x := greatest .Int32 lhs rhs) (by omega) (by omega) with ⟨inHigh,wraps'⟩ | ⟨under,_⟩ | ⟨upon,wraps'⟩
      · have ⟨_,top⟩ := inHigh
        refine ⟨fun _ => by omega,fun _ c made => ?_⟩
        unfold VPIntRange.create at made
        rw [made,wraps,wraps'] at kept
        obtain ⟨_,atLow,atHigh⟩ := kept
        exact turnedCovers left right (k := 0) (by omega) (by omega) (atLow.symm ▸ inLow) (atHigh.symm ▸ inHigh)
      · omega
      · have ⟨_,top⟩ := inLow
        refine ⟨fun sound => ?_,fun fine => by omega⟩
        -- The bounds are on both sides of the sign bit: the range is upside down.
        have made : VPIntRange.create (wrap 32 (least .Int32 lhs rhs)) (wrap 32 (greatest .Int32 lhs rhs)) .no ≠ none := by
          intro missing
          unfold VPIntRange.create at missing
          rw [missing,wraps] at kept
          have := kept.1
          have same : DataType.Int32.getMinSigned = minSigned 32 := rfl
          omega
        obtain ⟨c,made⟩ := Option.ne_none_iff_exists'.mp made
        have upright := (sound c made).1
        unfold VPIntRange.create at made
        rw [made,wraps,wraps'] at kept
        obtain ⟨_,atLow,atHigh⟩ := kept
        omega
    · omega
    · have upon : maxSigned 32 < greatest .Int32 lhs rhs := by omega
      have wraps' := wrapAbove (w := 32) (by decide) (x := greatest .Int32 lhs rhs) ⟨by omega,by omega⟩
      refine ⟨fun _ => by omega,fun _ c made => ?_⟩
      unfold VPIntRange.create at made
      rw [made,wraps,wraps'] at kept
      obtain ⟨_,atLow,atHigh⟩ := kept
      have bits : modulus DataType.Int32.bits = modulus 32 := rfl
      have inLow : InRange 32 c.getLow := ⟨by omega,by omega⟩
      have inHigh : InRange 32 c.getHigh := ⟨by omega,by omega⟩
      exact turnedCovers left right (k := -1) (by omega) (by omega) inLow inHigh
  · rw [reads]
    exact ⟨fun _ => by omega,fun _ c made => by cases made⟩

theorem lowestOne (p q r s : Int) : lowest p q r s = p ∨ lowest p q r s = q ∨ lowest p q r s = r ∨ lowest p q r s = s := by
  unfold lowest
  dsimp only
  split <;> split <;> split <;> tauto

theorem highestOne (p q r s : Int) : highest p q r s = p ∨ highest p q r s = q ∨ highest p q r s = r ∨ highest p q r s = s := by
  unfold highest
  dsimp only
  split <;> split <;> split <;> tauto

section
variable {t : DataType} {lhs rhs : VPConstraint} (left : lhs.Valid t) (right : rhs.Valid t)
include left right

-- A choice among the corners is the product of two values.
theorem cornerTaken {choice : Int → Int → Int → Int → Int}
    (one : ∀ p q r s, choice p q r s = p ∨ choice p q r s = q ∨ choice p q r s = r ∨ choice p q r s = s) :
    ∃ x y, lhs.Contains x ∧ rhs.Contains y ∧
      corner choice (· * ·) (lhs.headLow t) (lhs.lastHigh t) (rhs.headLow t) (rhs.lastHigh t) = x * y := by
  obtain ⟨lowL,highL,_⟩ := validBounds left
  obtain ⟨lowR,highR,_⟩ := validBounds right
  rcases one (lhs.headLow t * rhs.headLow t) (lhs.headLow t * rhs.lastHigh t) (lhs.lastHigh t * rhs.headLow t)
    (lhs.lastHigh t * rhs.lastHigh t) with same | same | same | same
  · exact ⟨_,_,lowL,lowR,same⟩
  · exact ⟨_,_,lowL,highR,same⟩
  · exact ⟨_,_,highL,lowR,same⟩
  · exact ⟨_,_,highL,highR,same⟩

theorem valuesCovered {x y : Int} (inX : lhs.Contains x) (inY : rhs.Contains y) :
    least t lhs rhs ≤ x * y ∧ x * y ≤ greatest t lhs rhs := by
  have boundsL := (boundsRead left).2.2 x inX
  have boundsR := (boundsRead right).2.2 y inY
  exact productCovered boundsL.1 boundsL.2 boundsR.1 boundsR.2

theorem straddles (bottom middle top : Int) :
    (bottom ≤ least t lhs rhs ∧ least t lhs rhs < middle ∧ middle ≤ greatest t lhs rhs ∧ greatest t lhs rhs < top) ↔
      (∀ x y, lhs.Contains x → rhs.Contains y → bottom ≤ x * y ∧ x * y < top) ∧
      (∃ x y, lhs.Contains x ∧ rhs.Contains y ∧ x * y < middle) ∧ ∃ x y, lhs.Contains x ∧ rhs.Contains y ∧ middle ≤ x * y := by
  obtain ⟨x,y,inX,inY,low⟩ := cornerTaken left right lowestOne
  obtain ⟨x',y',inX',inY',high⟩ := cornerTaken left right highestOne
  change least t lhs rhs = x * y at low
  change greatest t lhs rhs = x' * y' at high
  constructor
  · rintro ⟨upon,below,above,under⟩
    refine ⟨fun u v inU inV => ?_,⟨x,y,inX,inY,by omega⟩,⟨x',y',inX',inY',by omega⟩⟩
    have := valuesCovered left right inU inV
    omega
  · rintro ⟨all,⟨u,v,inU,inV,below⟩,⟨u',v',inU',inV',above⟩⟩
    have := all x y inX inY
    have := all x' y' inX' inY'
    have := valuesCovered left right inU inV
    have := valuesCovered left right inU' inV'
    omega

end

inductive Multiplication where
  | imul
  | iumul
  | lmul
  deriving DecidableEq, Repr

def Multiplication.type : Multiplication → DataType
  | imul => .Int32
  | iumul => .Int32
  | lmul => .Int64

def Multiplication.constrain : Multiplication → Option VPConstraint → Option VPConstraint → Option IntegralConstraint
  | imul => constrainImul
  | iumul => constrainIumul
  | lmul => constrainLmul

/- An unsigned multiplication all of whose products are below 2^32, with some
below 2^31 and some not. -/
def Multiplication.Misses (lhs rhs : VPConstraint) (op : Multiplication) : Prop :=
  op = iumul ∧ (∀ x y, lhs.Contains x → rhs.Contains y → 0 ≤ x * y ∧ x * y < modulus 32) ∧
    (∃ x y, lhs.Contains x ∧ rhs.Contains y ∧ x * y < half 32) ∧ ∃ x y, lhs.Contains x ∧ rhs.Contains y ∧ half 32 ≤ x * y

theorem constrainedCovers (t : DataType) (range : VPConstraint → VPConstraint → Option IntegralConstraint) (lhs rhs : VPConstraint) :
    (∃ x y, (∀ v, lhs.Contains v ↔ v = x) ∧ (∀ v, rhs.Contains v ↔ v = y) ∧
      ∀ c, constrainWith t range (some lhs) (some rhs) = some c → Covers t lhs rhs c) ∨
    constrainWith t range (some lhs) (some rhs) = range lhs rhs := by
  have single : ∀ {c : VPConstraint} {x : Int}, c.asConst t = some x → ∀ v, c.Contains v ↔ v = x := by
    intro c x isConst v
    unfold VPConstraint.asConst at isConst
    split at isConst
    · split at isConst
      · cases isConst
        exact ⟨fun inside => Int.le_antisymm inside.2 inside.1,fun same => same ▸ ⟨Int.le_refl _,Int.le_refl _⟩⟩
      · contradiction
    · contradiction
  unfold constrainWith
  dsimp only
  split
  · rename_i x y isX isY
    refine .inl ⟨x,y,single isX,single isY,fun c made => ?_⟩
    cases made
    refine ⟨Int.le_refl _,fun u v inU inV => ?_⟩
    rw [(single isX u).mp inU,(single isY v).mp inV]
    exact ⟨Int.le_refl _,Int.le_refl _⟩
  · exact .inr rfl

theorem productRangesSound (op : Multiplication) (lhs rhs : VPConstraint) (left : lhs.Valid op.type)
    (right : rhs.Valid op.type) :
    ((∀ c, op.constrain (some lhs) (some rhs) = some c → Covers op.type lhs rhs c) ↔ ¬ op.Misses lhs rhs) ∧
    (∀ a b, 0 ≤ a → a < modulus 64 → 0 ≤ b → b < modulus 64 →
      can64BitUnsignedMultiplyOverflow a b (modulus 32 - 1) = false → a * b < modulus 64) ∧
    (∀ a b, InRange 64 a → InRange 64 b → can64BitSignedMultiplyOverflow a b = false → InRange 64 (a * b)) := by
  refine ⟨?_,fun a b nonneg long nonneg' long' fits => unsignedFits nonneg nonneg' long long' fits,
    fun a b inA inB fits => signedFits inA inB fits⟩
  cases op with
  | imul =>
      refine ⟨fun _ bad => (by cases bad.1),fun _ c made => ?_⟩
      rcases constrainedCovers .Int32 imulRange lhs rhs with ⟨_,_,_,_,covers⟩ | ranged
      · exact covers c made
      · exact imulCovers left right (ranged ▸ made)
  | iumul =>
      rcases constrainedCovers .Int32 iumulRange lhs rhs with ⟨x,y,onlyX,onlyY,covers⟩ | ranged
      · refine ⟨fun _ bad => ?_,fun _ => covers⟩
        obtain ⟨_,_,⟨u,v,inU,inV,below⟩,⟨u',v',inU',inV',above⟩⟩ := bad
        rw [(onlyX u).mp inU,(onlyY v).mp inV] at below
        rw [(onlyX u').mp inU',(onlyY v').mp inV'] at above
        omega
      · have same : Multiplication.iumul.constrain (some lhs) (some rhs) = iumulRange lhs rhs := ranged
        rw [same,Multiplication.type,iumulCovers left right,@straddles .Int32 lhs rhs left right]
        exact ⟨fun fine bad => fine bad.2,fun fine bad => fine ⟨rfl,bad⟩⟩
  | lmul =>
      refine ⟨fun _ bad => (by cases bad.1),fun _ c made => ?_⟩
      rcases constrainedCovers .Int64 (lmulRange false) lhs rhs with ⟨_,_,_,_,covers⟩ | ranged
      · exact covers c made
      · exact lmulCovers left right (ranged ▸ made)

theorem productRangesSoundSample :
    Covers .Int32 (.integral (.range .Int32 (-3) 4 .no false)) (.integral (.range .Int32 2 5 .no false)) (.range .Int32 (-15) 20 .no false) ∧
    3 * 8589934592 < modulus 64 ∧ InRange 64 (-3 * 8589934592) :=
  let sound := productRangesSound .imul (.integral (.range .Int32 (-3) 4 .no false))
    (.integral (.range .Int32 2 5 .no false)) (by decide) (by decide)
  ⟨sound.1.mpr (fun bad => by cases bad.1) _ (by decide),
    sound.2.1 3 8589934592 (by decide) (by decide) (by decide) (by decide) (by decide),
    sound.2.2 (-3) 8589934592 (by decide) (by decide) (by decide)⟩

-- 1 to 2 times 1 to 2^30 + 3: the range runs from 1 down to -2147483642.
theorem unsignedRangeUpsideDown : ¬ ∀ c, Multiplication.iumul.constrain (some (.integral (.range .Int32 1 2 .no false)))
    (some (.integral (.range .Int32 1 1073741827 .no false))) = some c →
      Covers .Int32 (.integral (.range .Int32 1 2 .no false)) (.integral (.range .Int32 1 1073741827 .no false)) c := by
  intro covers
  have upright := (covers (.range .Int32 1 (-2147483642) .no false) (by decide)).1
  revert upright
  decide

end OmrCompiler.MultiplicationRange
