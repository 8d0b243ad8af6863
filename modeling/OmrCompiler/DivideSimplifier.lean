import OmrCompiler.DivideBy10
import OmrCompiler.MagicValues

/-! Division by a constant: idivSimplifier and ldivSimplifier of
OMRSimplifierHandlers.cpp, from the point where the children have been simplified.
A tree that is left alone is given back as it was. -/
namespace OmrCompiler.DivideSimplifier
open MachineInt Constraint ILTree PowerOfTwo ShiftArithmetic MagicValues DivideBy10

-- The places at which performTransformation is asked.
inductive Transformation where
  | fold
  | replaceNode
  | negate
  | powerOfTwo
  | magicNumber
  | nonNegativeByNegative
  | nonNegativeByPositive
  | nonPositiveByNegative
  | nonPositiveByPositive
  | narrow
  | byTen
  deriving DecidableEq, Repr

/- The code generator's answers, the flags of the children, the reference count of
the divisor and whether the node stands under a DIVCHK. -/
structure Surroundings where
  performTransformation : Transformation → Bool
  disableILDivPwr2Opt : Bool
  disableILRemPwr2Opt : Bool
  getSupportsLoweringConstIDiv : Bool
  getSupportsLoweringConstLDiv : Bool
  getSupportsLoweringConstLDivPower2 : Bool
  canUseImmedInstruction : Int → Bool
  firstIsNonNegative : Bool
  firstIsNonPositive : Bool
  secondIsNonNegative : Bool
  secondReferenceCount : Nat
  divCheckParent : Bool

def Surroundings.allowed (env : Surroundings) (place : Transformation) (result node : Tree) : Tree :=
  if env.performTransformation place then result else node

def divideOp (isUnsigned : Bool) : BinaryOp := if isUnsigned then .udiv else .div

-- The dividend with a bias on the negative side (newNode1 to newNode3).
def biasedDividend (t : DataType) (first : Tree) (shftAmnt : Int) : Tree :=
  let newNode1 := if shftAmnt - 1 ≠ 0 then Tree.binary .shr t first (iconst (shftAmnt - 1)) else first
  let newNode2 := Tree.binary .ushr t newNode1 (iconst (t.bits - shftAmnt))
  .binary .add t newNode2 first

def powerOfTwoDivide (t : DataType) (first : Tree) (divisor shftAmnt : Int) : Tree :=
  let shifted := Tree.binary .shr t (biasedDividend t first shftAmnt) (iconst shftAmnt)
  if divisor > 0 then shifted else .neg t shifted

/- Folding of an unsigned division: mixed operands are divided as unsigned
numbers, two signed constants as signed ones. -/
def unsignedQuotient (firstIsUnsigned secondIsUnsigned : Bool) (dividend divisor : Int) : Int :=
  if firstIsUnsigned ∨ secondIsUnsigned then toUnsigned 32 dividend / toUnsigned 32 divisor else dividend.tdiv divisor

def idivByConstant (env : Surroundings) (isUnsigned : Bool) (first second : Tree) (secondIsUnsigned : Bool)
    (divisor : Int) : Tree :=
  let node := Tree.binary (divideOp isUnsigned) .Int32 first second
  let shftAmnt := checkPositiveOrNegativePowerOfTwo 32 divisor
  match first with
  | .const _ firstIsUnsigned dividend =>
      if isUnsigned then
        env.allowed .fold (.const .Int32 true (wrap 32 (unsignedQuotient firstIsUnsigned secondIsUnsigned dividend divisor))) node
      else if divisor = -1 ∧ dividend = minSigned 32 then env.allowed .replaceNode first node
      else env.allowed .fold (iconst (dividend.tdiv divisor)) node
  | _ =>
      if divisor = 1 then env.allowed .replaceNode first node
      else if secondIsUnsigned = false ∧ divisor = -1 then env.allowed .negate (.neg .Int32 first) node
      else if env.disableILDivPwr2Opt = false ∧ shftAmnt > 0 ∧ env.secondReferenceCount = 1 ∧
          env.performTransformation .powerOfTwo then powerOfTwoDivide .Int32 first divisor shftAmnt
      else if env.getSupportsLoweringConstIDiv ∧ isPowerOf2 32 divisor = false ∧ env.performTransformation .magicNumber then
        magicTree .Int32 false first divisor
      else node

def idivSimplifier (env : Surroundings) (isUnsigned : Bool) (first second : Tree) : Tree :=
  let node := Tree.binary (divideOp isUnsigned) .Int32 first second
  if isUnsigned ∧ ¬ (env.firstIsNonNegative ∧ env.secondIsNonNegative) then node
  else
    match second with
    | .const _ secondIsUnsigned divisor =>
        if divisor ≠ 0 then idivByConstant env isUnsigned first second secondIsUnsigned divisor else node
    | _ => node

def lneg (a : Tree) : Tree := .neg .Int64 a

-- One when a bit below the divisor is set in the dividend.
def node_const0or1 (first : Tree) (divisor shiftAmount : Int) : Tree :=
  let node_divisor_1 := lconst (divisor - 1)
  let node_and := Tree.binary .and .Int64 first node_divisor_1
  let node_add := ladd node_and node_divisor_1
  let node_shl := Tree.binary .shl .Int64 node_add (iconst (63 - shiftAmount))
  lneg (lshr node_shl 63)

def ldivByPowerOf2 (env : Surroundings) (node first : Tree) (divisor : Int) : Tree :=
  let shiftAmount : Int := countShifts (toUnsigned 64 (if divisor < 0 then -divisor else divisor)).toNat
  let shftAmnt := checkPositiveOrNegativePowerOfTwo 64 divisor
  if env.firstIsNonNegative then
    if divisor < 0 then env.allowed .nonNegativeByNegative (lneg (lshr first shiftAmount)) node
    else env.allowed .nonNegativeByPositive (lshr first shiftAmount) node
  else if env.firstIsNonPositive then
    if divisor < 0 then env.allowed .nonPositiveByNegative (lshr (lneg first) shiftAmount) node
    else
      env.allowed .nonPositiveByPositive
        (if env.canUseImmedInstruction (divisor - 1) then lshr (ladd first (lconst (divisor - 1))) shiftAmount
          else ladd (lshr first shiftAmount) (node_const0or1 first divisor shiftAmount)) node
  else if env.disableILDivPwr2Opt = false ∧ shftAmnt > 0 ∧ env.secondReferenceCount = 1 ∧
      env.performTransformation .powerOfTwo then powerOfTwoDivide .Int64 first divisor shftAmnt
  else node

def ldivByConstant (env : Surroundings) (node first : Tree) (divisor : Int) : Tree :=
  match first with
  | .const _ _ dividend =>
      if divisor = -1 ∧ dividend = minSigned 64 then env.allowed .replaceNode first node
      else env.allowed .fold (lconst (dividend.tdiv divisor)) node
  | _ =>
      if divisor = 1 then env.allowed .replaceNode first node
      else if divisor = -1 then env.allowed .negate (lneg first) node
      else if env.getSupportsLoweringConstLDivPower2 ∧ isPowerOf2 64 divisor then ldivByPowerOf2 env node first divisor
      else if env.getSupportsLoweringConstLDiv ∧ isPowerOf2 64 divisor = false then magicTree .Int64 false first divisor
      else node

def narrowDivide (env : Surroundings) (a b : Tree) : Tree :=
  let divNode := Tree.binary .div .Int32 a b
  if env.divCheckParent then divNode else .i2l divNode

-- What is tried on a node that is still an ldiv.
def ldivRest (env : Surroundings) (first second : Tree) : Tree :=
  let node := Tree.binary .div .Int64 first second
  match first, second with
  | .i2l a, .i2l b => env.allowed .narrow (narrowDivide env a b) node
  | first, .const _ _ divisor =>
      if divisor = 10 ∧ first.isLoadVar then env.allowed .byTen (transformToLongDivBy10Bitwise first) node else node
  | _, _ => node

def ldivSimplifier (env : Surroundings) (isUnsigned : Bool) (first second : Tree) : Tree :=
  let node := Tree.binary (divideOp isUnsigned) .Int64 first second
  if isUnsigned ∧ ¬ (env.firstIsNonNegative ∧ env.secondIsNonNegative) then node
  else
    let lowered :=
      match second with
      | .const _ _ divisor => if divisor ≠ 0 then ldivByConstant env node first divisor else node
      | _ => node
    if lowered = node ∧ isUnsigned = false then ldivRest env first second else lowered

-- The flags say something true of the values they annotate.
structure Truthful (env : Surroundings) (memory : Nat → Int) (first second : Tree) : Prop where
  firstNonNegative : env.firstIsNonNegative = true → 0 ≤ first.eval memory
  firstNonPositive : env.firstIsNonPositive = true → first.eval memory ≤ 0
  secondNonNegative : env.secondIsNonNegative = true → 0 ≤ second.eval memory

section Paths
variable {env : Surroundings} {memory : Nat → Int} {first : Tree}

theorem allowedEval {place : Transformation} {result node : Tree} {v : Int} (changed : result.eval memory = v)
    (kept : node.eval memory = v) : (env.allowed place result node).eval memory = v := by
  unfold Surroundings.allowed
  split
  · exact changed
  · exact kept

theorem divideExact {w : Nat} (hw : 0 < w) {x d : Int} (inside : InRange w x) (large : 2 ≤ d.natAbs) :
    BinaryOp.div.eval w x d = x.tdiv d := wrapSelf hw (tdivRange inside large)

-- Non-negative operands have one quotient.
theorem divideUnsigned {w : Nat} (hw : 0 < w) {x d : Int} (left : InRange w x) (right : InRange w d) (nonneg : 0 ≤ x)
    (positive : 0 ≤ d) : BinaryOp.udiv.eval w x d = BinaryOp.div.eval w x d := by
  simp only [BinaryOp.eval,unsignedNonneg hw left nonneg,unsignedNonneg hw right positive,Int.tdiv_eq_ediv_of_nonneg nonneg]

theorem exponentSmall {w k : Nat} (hw : 0 < w) {d : Int} (inside : InRange w d) (power : d.natAbs = 2 ^ k) : k < w := by
  have bound := (magnitudeBound hw inside).2
  have half : half w = ((2 ^ (w - 1) : Nat) : Int) := by simp [MachineInt.half]
  rw [power,half] at bound
  have : k ≤ w - 1 := (Nat.pow_le_pow_iff_right (a := 2) (by decide)).mp (by exact_mod_cast bound)
  omega

theorem powerSign {d : Int} {k : Nat} (power : d.natAbs = 2 ^ k) : d = if d > 0 then 2 ^ k else -2 ^ k := by
  have cast : ((2 ^ k : Nat) : Int) = 2 ^ k := by simp
  split <;> omega

theorem evalBiased {t : DataType} (typed : first.Typed t) {k : Nat} (low : 1 ≤ k) (small : k < t.bits) :
    (biasedDividend t first k).eval memory = first.eval memory + bias k (first.eval memory) := by
  have inside := evalRange memory typed
  have shifted : (if (k : Int) - 1 ≠ 0 then Tree.binary .shr t first (iconst ((k : Int) - 1)) else first).eval memory =
      first.eval memory / 2 ^ (k - 1) := by
    split
    · have amount : (k : Int) - 1 = ((k - 1 : Nat) : Int) := by omega
      rw [amount]
      exact shrFloor (by omega)
    · rw [show k - 1 = 0 by omega]
      simp
  have copies := biasShifts low small inside
  have amount : (t.bits : Int) - k = ((t.bits - k : Nat) : Int) := by omega
  simp only [biasedDividend,Tree.eval]
  change wrap t.bits (BinaryOp.ushr.eval t.bits _ ((t.bits : Int) - k) + first.eval memory) = _
  rw [amount,shifted,copies,Int.add_comm]
  exact wrapSelf t.bitsPos (biasRange small inside)

theorem evalPowerOfTwo {t : DataType} (typed : first.Typed t) {divisor : Int} {k : Nat} (low : 1 ≤ k) (small : k < t.bits)
    (power : divisor.natAbs = 2 ^ k) :
    (powerOfTwoDivide t first divisor k).eval memory = BinaryOp.div.eval t.bits (first.eval memory) divisor := by
  have inside := evalRange memory typed
  have shifted : (Tree.binary .shr t (biasedDividend t first k) (iconst k)).eval memory = (first.eval memory).tdiv (2 ^ k) := by
    rw [tdivBias,← evalBiased typed low small]
    exact shrFloor small
  have large : 2 ≤ divisor.natAbs := by
    rw [power]
    calc 2 = 2 ^ 1 := rfl
      _ ≤ 2 ^ k := Nat.pow_le_pow_right (by decide) low
  have sign := powerSign power
  unfold powerOfTwoDivide
  simp only
  split
  · rename_i positive
    rw [if_pos positive] at sign
    rw [shifted,divideExact t.bitsPos inside large,← sign]
  · rename_i negative
    rw [if_neg negative] at sign
    rw [Tree.eval,shifted,BinaryOp.eval,sign,Int.tdiv_neg]

theorem divideByOne {w : Nat} (hw : 0 < w) {x : Int} (inside : InRange w x) : BinaryOp.div.eval w x 1 = x := by
  rw [BinaryOp.eval,Int.tdiv_one]
  exact wrapSelf hw inside

theorem divideByMinusOne {w : Nat} (x : Int) : BinaryOp.div.eval w x (-1) = wrap w (-x) := by
  rw [BinaryOp.eval,Int.tdiv_neg,Int.tdiv_one]

theorem negateMin {w : Nat} (hw : 0 < w) : wrap w (-minSigned w) = minSigned w := by
  have mod := modulusHalf hw
  have pos := halfPos w
  refine wrapUnique hw (k := -1) ⟨Int.le_refl _,?_⟩ ?_ <;> simp only [minSigned,maxSigned] <;> omega

-- Only MIN / -1 does not fit the type.
theorem divideFits {w : Nat} {x d : Int} (left : InRange w x) (nonzero : d ≠ 0) (other : ¬ (d = -1 ∧ x = minSigned w)) :
    InRange w (x.tdiv d) := by
  by_cases large : 2 ≤ d.natAbs
  · exact tdivRange left large
  · have one : d = 1 ∨ d = -1 := by omega
    simp only [InRange,minSigned,maxSigned] at *
    rcases one with rfl | rfl
    · simpa using left
    · rw [Int.tdiv_neg,Int.tdiv_one]
      omega

theorem shiftOfPower {w : Nat} (hw : 0 < w) {d : Int} (inside : InRange w d) (nonzero : d ≠ 0)
    (positive : checkPositiveOrNegativePowerOfTwo w d > 0) :
    ∃ k : Nat, 1 ≤ k ∧ k < w ∧ d.natAbs = 2 ^ k ∧ checkPositiveOrNegativePowerOfTwo w d = k := by
  rcases checkPower hw inside nonzero with ⟨k,power,value⟩ | ⟨_,value⟩
  · exact ⟨k,by omega,exponentSmall hw inside power,power,value⟩
  · omega

theorem idivByConstantEval {isUnsigned : Bool} {t : DataType} {secondIsUnsigned : Bool} {divisor : Int}
    (typed : first.Typed .Int32) (inside : InRange 32 divisor) (nonzero : divisor ≠ 0)
    (nonneg : isUnsigned = true → 0 ≤ first.eval memory ∧ 0 ≤ divisor) :
    (idivByConstant env isUnsigned first (.const t secondIsUnsigned divisor) secondIsUnsigned divisor).eval memory =
      (divideOp isUnsigned).eval 32 (first.eval memory) divisor := by
  have left : InRange 32 (first.eval memory) := evalRange memory typed
  have kept : (Tree.binary (divideOp isUnsigned) .Int32 first (.const t secondIsUnsigned divisor)).eval memory =
      (divideOp isUnsigned).eval 32 (first.eval memory) divisor := rfl
  have signed : (divideOp isUnsigned).eval 32 (first.eval memory) divisor =
      BinaryOp.div.eval 32 (first.eval memory) divisor := by
    cases isUnsigned with
    | false => rfl
    | true => exact divideUnsigned (by decide) left inside (nonneg rfl).1 (nonneg rfl).2
  unfold idivByConstant
  simp only
  split
  · rename_i t' firstIsUnsigned dividend
    split
    · -- The signed and the unsigned quotient of the constants are the same number.
      rename_i unsigned
      refine allowedEval ?_ kept
      obtain ⟨dividendNonneg,divisorNonneg⟩ : 0 ≤ dividend ∧ 0 ≤ divisor := nonneg unsigned
      have dividendInside : InRange 32 dividend := left
      have same : unsignedQuotient firstIsUnsigned secondIsUnsigned dividend divisor = dividend.tdiv divisor := by
        unfold unsignedQuotient
        split
        · rw [unsignedNonneg (by decide) dividendInside dividendNonneg,unsignedNonneg (by decide) inside divisorNonneg]
          exact (Int.tdiv_eq_ediv_of_nonneg dividendNonneg).symm
        · rfl
      rw [signed,Tree.eval,same]
      rfl
    · split
      · rename_i least
        obtain ⟨rfl,rfl⟩ := least
        refine allowedEval ?_ kept
        rw [signed,divideByMinusOne]
        exact (negateMin (by decide)).symm
      · rename_i other
        refine allowedEval ?_ kept
        rw [signed]
        exact (wrapSelf (by decide) (divideFits left nonzero other)).symm
  · split
    · rename_i one
      subst one
      exact allowedEval (by rw [signed,divideByOne (by decide) left]) kept
    · split
      · rename_i minusOne
        obtain ⟨_,rfl⟩ := minusOne
        exact allowedEval (by rw [signed,divideByMinusOne]; rfl) kept
      · split
        · rename_i power
          obtain ⟨k,low,small,magnitude,value⟩ := shiftOfPower (by decide) inside nonzero power.2.1
          rw [value,signed]
          exact evalPowerOfTwo typed low small magnitude
        · split
          · rename_i magic
            have large : 2 ≤ divisor.natAbs := by
              by_contra one
              have power : ∃ k, divisor.natAbs = 2 ^ k := ⟨0,by omega⟩
              rw [(isPowerOf2Iff (by decide) inside nonzero).mpr power] at magic
              exact Bool.noConfusion magic.2.1
            rw [signed,divideExact (by decide) left large]
            exact magicLowered (by decide) false memory typed inside nonzero magic.2.1
          · exact kept

theorem idivSimplifierEval (isUnsigned : Bool) {second : Tree} (typedFirst : first.Typed .Int32)
    (typedSecond : second.Typed .Int32) (truthful : Truthful env memory first second) :
    (idivSimplifier env isUnsigned first second).eval memory =
      (divideOp isUnsigned).eval 32 (first.eval memory) (second.eval memory) := by
  unfold idivSimplifier
  simp only
  split
  · rfl
  · rename_i flags
    split
    · rename_i t secondIsUnsigned divisor
      obtain ⟨rfl,inside⟩ := typedSecond
      split
      · rename_i nonzero
        refine idivByConstantEval typedFirst inside nonzero fun unsigned => ?_
        have both : env.firstIsNonNegative = true ∧ env.secondIsNonNegative = true := by
          by_contra other
          exact flags ⟨unsigned,other⟩
        exact ⟨truthful.firstNonNegative both.1,truthful.secondNonNegative both.2⟩
      · rfl
    · rfl

section Long
variable {divisor : Int} {k : Nat}

theorem shiftAmountOf (inside : InRange 64 divisor) (power : divisor.natAbs = 2 ^ k) :
    countShifts (toUnsigned 64 (if divisor < 0 then -divisor else divisor)).toNat = k := by
  have bound := (magnitudeBound (by decide) inside).1
  have magnitude : (if divisor < 0 then -divisor else divisor) = (divisor.natAbs : Int) := by split <;> omega
  have unsigned : toUnsigned 64 (divisor.natAbs : Int) = divisor.natAbs := by
    refine Int.emod_eq_of_lt (by omega) ?_
    rw [modulus]
    exact_mod_cast bound
  rw [magnitude,unsigned,Int.toNat_natCast,power,countShiftsPower]

theorem nonNegativeShift (small : k < 64) (nonneg : 0 ≤ first.eval memory) :
    (lshr first k).eval memory = (first.eval memory).tdiv (2 ^ k) := by
  rw [evalLshr memory first k k rfl small,Int.tdiv_eq_ediv_of_nonneg nonneg]

theorem nonPositiveBias (typed : first.Typed .Int64) (small : k < 64) (nonpos : first.eval memory ≤ 0) :
    (lshr (ladd first (lconst (2 ^ k - 1))) k).eval memory = (first.eval memory).tdiv (2 ^ k) := by
  have inside : InRange 64 (first.eval memory) := evalRange memory typed
  have below := powerBelow small
  have pos : (0 : Int) < 2 ^ k := by positivity
  rw [evalLshr memory _ k k rfl small,evalLadd]
  · rw [tdivBias,bias]
    split
    · rfl
    · have zero : first.eval memory = 0 := by omega
      rw [zero]
      change (0 + (2 ^ k - 1)) / 2 ^ k = (0 + 0) / 2 ^ k
      rw [Int.zero_add,Int.ediv_eq_zero_of_lt (by omega) (by omega)]
      simp
  · change InRange 64 (first.eval memory + (2 ^ k - 1))
    simp only [InRange,minSigned,maxSigned] at *
    omega

/- The carry of the low bits moved to the top, then spread and negated. -/
theorem const0or1 (first : Tree) (memory : Nat → Int) (room : k < 63) :
    (node_const0or1 first (2 ^ k) k).eval memory = if first.eval memory % 2 ^ k = 0 then 0 else 1 := by
  have small : k < 64 := by omega
  have pos : (0 : Int) < 2 ^ k := by positivity
  have below : (2 : Int) ^ k * 2 ≤ half 64 := by
    have := powerBelow (k := k + 1) (w := 64) (by omega)
    rwa [pow_succ] at this
  have remainder := Int.emod_nonneg (first.eval memory) (Int.ne_of_gt pos)
  have bounded := Int.emod_lt_of_pos (first.eval memory) pos
  have mod := modulusHalf (w := 64) (by decide)
  have halfPos := halfPos 64
  have masked : (Tree.binary .and .Int64 first (lconst (2 ^ k - 1))).eval memory = first.eval memory % 2 ^ k := andLow small
  have sum : (ladd (.binary .and .Int64 first (lconst (2 ^ k - 1))) (lconst (2 ^ k - 1))).eval memory =
      first.eval memory % 2 ^ k + (2 ^ k - 1) := by
    rw [evalLadd,masked]
    · rfl
    · rw [masked]
      change InRange 64 (first.eval memory % 2 ^ k + (2 ^ k - 1))
      simp only [InRange,minSigned,maxSigned]
      omega
  have amount : shiftBy 64 (63 - (k : Int)) = 63 - k := by
    rw [shiftBySmall (by omega) (by omega)]
    omega
  have shiftedPos : (0 : Int) < 2 ^ (63 - k) := by positivity
  have top : half 64 = 2 ^ k * 2 ^ (63 - k) := by
    rw [half,← pow_add]
    congr 1
    omega
  have moved : (Tree.binary .shl .Int64 (ladd (.binary .and .Int64 first (lconst (2 ^ k - 1))) (lconst (2 ^ k - 1)))
      (iconst (63 - k))).eval memory = wrap 64 ((first.eval memory % 2 ^ k + (2 ^ k - 1)) * 2 ^ (63 - k)) := by
    rw [Tree.eval,sum]
    change wrap 64 (_ * 2 ^ shiftBy 64 (63 - (k : Int))) = _
    rw [amount]
  unfold node_const0or1
  change wrap 64 (-(lshr _ 63).eval memory) = _
  rw [evalLshr memory _ 63 63 rfl (by decide),moved]
  have scale : (2 : Int) ^ 63 = half 64 := rfl
  generalize hr : first.eval memory % 2 ^ k = r at *
  by_cases zero : r = 0
  · have value : (r + (2 ^ k - 1)) * 2 ^ (63 - k) = half 64 - 2 ^ (63 - k) := by
      rw [zero,top]
      ring
    have self : wrap 64 (half 64 - 2 ^ (63 - k)) = half 64 - 2 ^ (63 - k) := by
      refine wrapSelf (by decide) ⟨?_,?_⟩ <;> simp only [minSigned,maxSigned] <;> nlinarith
    rw [value,self,scale,Int.ediv_eq_zero_of_lt (by nlinarith) (by omega),if_pos zero]
    rfl
  · have lower : half 64 ≤ (r + (2 ^ k - 1)) * 2 ^ (63 - k) := by
      rw [top]
      exact Int.mul_le_mul_of_nonneg_right (by omega) (Int.le_of_lt shiftedPos)
    have upper : (r + (2 ^ k - 1)) * 2 ^ (63 - k) < modulus 64 := by
      rw [mod,top,← Int.mul_assoc]
      exact Int.mul_lt_mul_of_pos_right (by omega) shiftedPos
    have turned : wrap 64 ((r + (2 ^ k - 1)) * 2 ^ (63 - k)) = (r + (2 ^ k - 1)) * 2 ^ (63 - k) - modulus 64 :=
      wrapAbove (by decide) ⟨by simp only [minSigned]; omega,by simp only [maxSigned]; omega⟩
    rw [turned,scale,floorMul (c := -1) halfPos (by omega) (by omega),if_neg zero]
    rfl

theorem nonPositiveCarry (typed : first.Typed .Int64) (low : 1 ≤ k) (room : k < 63) (nonpos : first.eval memory ≤ 0) :
    (ladd (lshr first k) (node_const0or1 first (2 ^ k) k)).eval memory = (first.eval memory).tdiv (2 ^ k) := by
  have inside : InRange 64 (first.eval memory) := evalRange memory typed
  have pos : (0 : Int) < 2 ^ k := by positivity
  have carry := const0or1 first memory room
  have parts := Int.emod_add_mul_ediv (first.eval memory) (2 ^ k)
  have remainder := Int.emod_nonneg (first.eval memory) (Int.ne_of_gt pos)
  have bounded := Int.emod_lt_of_pos (first.eval memory) pos
  -- The floor plus one for a remainder is the quotient rounded towards zero.
  have sum : first.eval memory / 2 ^ k + (if first.eval memory % 2 ^ k = 0 then 0 else 1) = (first.eval memory).tdiv (2 ^ k) := by
    rw [tdivBias,bias]
    generalize hq : first.eval memory / 2 ^ k = q at *
    symm
    split <;> split
    · refine floorMul pos ?_ ?_ <;> nlinarith
    · have one : 1 ≤ first.eval memory % 2 ^ k := by omega
      refine floorMul pos ?_ ?_ <;> nlinarith
    · refine floorMul pos ?_ ?_ <;> nlinarith
    · rename_i same other
      have zero : first.eval memory = 0 := by omega
      rw [zero] at other
      simp at other
  have shifted := evalLshr memory first k k rfl (by omega)
  rw [evalLadd,shifted,carry,sum]
  rw [shifted,carry,sum]
  refine tdivRange inside ?_
  have : (2 : Int) ≤ 2 ^ k := by
    calc (2 : Int) = 2 ^ 1 := rfl
      _ ≤ 2 ^ k := pow_le_pow_right₀ (by decide) low
  omega

/- The exception to the shifts: the negated minimum is still negative. -/
def NegationDefect (env : Surroundings) (memory : Nat → Int) (first : Tree) (divisor : Int) : Prop :=
  first.isLoadConst = false ∧ divisor < -1 ∧ isPowerOf2 64 divisor = true ∧ env.getSupportsLoweringConstLDivPower2 = true ∧
    env.firstIsNonNegative = false ∧ env.firstIsNonPositive = true ∧
    env.performTransformation .nonPositiveByNegative = true ∧ first.eval memory = minSigned 64

theorem nonPositiveNegated (typed : first.Typed .Int64) (low : 1 ≤ k) (small : k < 64) (nonpos : first.eval memory ≤ 0) :
    (lshr (lneg first) k).eval memory = -(first.eval memory).tdiv (2 ^ k) ↔ first.eval memory ≠ minSigned 64 := by
  have inside : InRange 64 (first.eval memory) := evalRange memory typed
  have pos : (0 : Int) < 2 ^ k := by positivity
  have two : (2 : Int) ≤ 2 ^ k := by
    calc (2 : Int) = 2 ^ 1 := rfl
      _ ≤ 2 ^ k := pow_le_pow_right₀ (by decide) low
  have negated : (lshr (lneg first) k).eval memory = wrap 64 (-first.eval memory) / 2 ^ k :=
    evalLshr memory _ k k rfl small
  rw [negated,← Int.neg_tdiv]
  constructor
  · intro same min
    rw [min,negateMin (by decide)] at same
    have left : minSigned 64 / 2 ^ k < 0 := Int.ediv_neg_of_neg_of_pos (by decide) pos
    have right : 0 ≤ (-minSigned 64).tdiv (2 ^ k) := by
      rw [Int.tdiv_eq_ediv_of_nonneg (by decide)]
      exact Int.ediv_nonneg (by decide) (Int.le_of_lt pos)
    omega
  · intro other
    have self : wrap 64 (-first.eval memory) = -first.eval memory := by
      refine wrapSelf (by decide) ?_
      simp only [InRange,minSigned,maxSigned] at *
      omega
    rw [self,Int.tdiv_eq_ediv_of_nonneg (by omega)]

theorem ldivByPowerOf2Eval (node : Tree) (typed : first.Typed .Int64) (inside : InRange 64 divisor)
    (power : divisor.natAbs = 2 ^ k) (low : 1 ≤ k) (nonneg : env.firstIsNonNegative = true → 0 ≤ first.eval memory)
    (nonpos : env.firstIsNonPositive = true → first.eval memory ≤ 0)
    (kept : node.eval memory = BinaryOp.div.eval 64 (first.eval memory) divisor) :
    (ldivByPowerOf2 env node first divisor).eval memory = BinaryOp.div.eval 64 (first.eval memory) divisor ↔
      ¬ (divisor < 0 ∧ env.firstIsNonNegative = false ∧ env.firstIsNonPositive = true ∧
        env.performTransformation .nonPositiveByNegative = true ∧ first.eval memory = minSigned 64) := by
  have left : InRange 64 (first.eval memory) := evalRange memory typed
  have small : k < 64 := exponentSmall (by decide) inside power
  have sign := powerSign power
  have large : 2 ≤ divisor.natAbs := by
    rw [power]
    calc 2 = 2 ^ 1 := rfl
      _ ≤ 2 ^ k := Nat.pow_le_pow_right (by decide) low
  have exact : BinaryOp.div.eval 64 (first.eval memory) divisor = (first.eval memory).tdiv divisor :=
    divideExact (by decide) left large
  have negative : divisor < 0 → (first.eval memory).tdiv divisor = -(first.eval memory).tdiv (2 ^ k) := by
    intro below
    rw [if_neg (by omega)] at sign
    rw [sign,Int.tdiv_neg]
  have positive : ¬ divisor < 0 → divisor = 2 ^ k := by
    intro above
    rw [if_pos (by omega)] at sign
    exact sign
  unfold ldivByPowerOf2
  simp only [shiftAmountOf inside power]
  split
  · rename_i flag
    refine iff_of_true ?_ fun h => by simp [flag] at h
    split
    · rename_i below
      refine allowedEval ?_ kept
      rw [lneg,Tree.eval,nonNegativeShift small (nonneg flag),← negative below,exact]
      exact wrapSelf (by decide) (tdivRange left large)
    · rename_i above
      refine allowedEval ?_ kept
      rw [nonNegativeShift small (nonneg flag),exact,positive above]
  · rename_i unflagged
    split
    · rename_i flag
      split
      · rename_i below
        have negated := nonPositiveNegated typed low small (nonpos flag)
        rw [Surroundings.allowed]
        split
        · rename_i permitted
          rw [exact,negative below,negated]
          simp [below,unflagged,flag,permitted]
        · rename_i denied
          exact iff_of_true kept fun h => denied h.2.2.2.1
      · rename_i above
        have value := positive above
        refine iff_of_true (allowedEval ?_ kept) fun h => above h.1
        rw [exact,value]
        split
        · exact nonPositiveBias typed small (nonpos flag)
        · have room : k < 63 := by
            have bound := inside.2
            have top : (2 : Int) ^ 63 = half 64 := rfl
            simp only [maxSigned] at bound
            by_contra wide
            rw [value,show k = 63 by omega] at bound
            omega
          exact nonPositiveCarry typed low room (nonpos flag)
    · rename_i flag
      refine iff_of_true ?_ fun h => flag h.2.2.1
      split
      · rename_i general
        have nonzero : divisor ≠ 0 := by omega
        obtain ⟨i,lowI,smallI,powerI,valueI⟩ := shiftOfPower (by decide) inside nonzero general.2.1
        rw [valueI]
        exact evalPowerOfTwo typed lowI smallI powerI
      · exact kept

theorem ldivByConstantEval (node : Tree) (typed : first.Typed .Int64) (inside : InRange 64 divisor) (nonzero : divisor ≠ 0)
    (nonneg : env.firstIsNonNegative = true → 0 ≤ first.eval memory)
    (nonpos : env.firstIsNonPositive = true → first.eval memory ≤ 0)
    (kept : node.eval memory = BinaryOp.div.eval 64 (first.eval memory) divisor) :
    (ldivByConstant env node first divisor).eval memory = BinaryOp.div.eval 64 (first.eval memory) divisor ↔
      ¬ NegationDefect env memory first divisor := by
  have left : InRange 64 (first.eval memory) := evalRange memory typed
  unfold ldivByConstant
  split
  · rename_i t isUnsigned dividend
    refine iff_of_true ?_ fun h => Bool.noConfusion h.1
    split
    · rename_i least
      obtain ⟨rfl,rfl⟩ := least
      refine allowedEval ?_ kept
      rw [divideByMinusOne]
      exact (negateMin (by decide)).symm
    · rename_i other
      exact allowedEval (wrapSelf (by decide) (divideFits left nonzero other)).symm kept
  · rename_i plain
    have notConst : first.isLoadConst = false := by
      cases first with
      | const t u v => exact absurd rfl (plain t u v)
      | _ => rfl
    split
    · rename_i one
      subst one
      exact iff_of_true (allowedEval (divideByOne (by decide) left).symm kept) fun h => by have := h.2.1; omega
    · split
      · rename_i minusOne
        subst minusOne
        exact iff_of_true (allowedEval (divideByMinusOne _).symm kept) fun h => by have := h.2.1; omega
      · split
        · rename_i one minusOne supported
          obtain ⟨k,power⟩ := (isPowerOf2Iff (by decide) inside nonzero).mp supported.2
          have low : 1 ≤ k := by
            by_contra zero
            rw [show k = 0 by omega] at power
            omega
          rw [ldivByPowerOf2Eval node typed inside power low nonneg nonpos kept,NegationDefect]
          simp only [notConst,supported.1,supported.2,true_and]
          exact not_congr (and_congr_left fun _ => by omega)
        · rename_i unsupported
          refine iff_of_true ?_ fun h => unsupported ⟨h.2.2.2.1,h.2.2.1⟩
          split
          · rename_i one minusOne magic
            rw [divideExact (by decide) left (by omega)]
            exact magicLowered (by decide) false memory typed inside nonzero magic.2
          · exact kept

end Long

-- The quotient that int division cannot hold.
def NarrowDefect (env : Surroundings) (memory : Nat → Int) (first second : Tree) : Prop :=
  ∃ a b, first = .i2l a ∧ second = .i2l b ∧ env.performTransformation .narrow = true ∧ a.eval memory = minSigned 32 ∧
    b.eval memory = -1

theorem wrapWider {x : Int} (inside : InRange 32 x) : wrap 32 x = wrap 64 x := by
  have bits : half 32 ≤ half 64 := by decide
  have wider : InRange 64 x := by
    simp only [InRange,minSigned,maxSigned] at *
    omega
  rw [wrapSelf (by decide) inside,wrapSelf (by decide) wider]

theorem narrowEval {a b : Tree} (typedA : a.Typed .Int32) (nonzero : b.eval memory ≠ 0) :
    (narrowDivide env a b).eval memory = BinaryOp.div.eval 64 (a.eval memory) (b.eval memory) ↔
      ¬ (a.eval memory = minSigned 32 ∧ b.eval memory = -1) := by
  have inside : InRange 32 (a.eval memory) := evalRange memory typedA
  have value : (narrowDivide env a b).eval memory = wrap 32 ((a.eval memory).tdiv (b.eval memory)) := by
    unfold narrowDivide
    simp only
    split <;> rfl
  rw [value,BinaryOp.eval]
  constructor
  · rintro same ⟨min,minusOne⟩
    rw [min,minusOne] at same
    exact absurd same (by decide)
  · intro other
    exact wrapWider (divideFits inside nonzero fun h => other ⟨h.2,h.1⟩)

theorem ldivRestEval {second : Tree} (typedFirst : first.Typed .Int64) (nonzero : second.eval memory ≠ 0) :
    (ldivRest env first second).eval memory = BinaryOp.div.eval 64 (first.eval memory) (second.eval memory) ↔
      ¬ NarrowDefect env memory first second := by
  unfold ldivRest
  simp only
  split
  · rename_i a b
    rw [Surroundings.allowed]
    split
    · rename_i permitted
      have divisorNonzero : b.eval memory ≠ 0 := nonzero
      change (narrowDivide env a b).eval memory = BinaryOp.div.eval 64 (a.eval memory) (b.eval memory) ↔ _
      rw [narrowEval typedFirst.2 divisorNonzero,NarrowDefect]
      refine not_congr ⟨fun h => ⟨a,b,rfl,rfl,permitted,h⟩,?_⟩
      rintro ⟨_,_,⟨⟩,⟨⟩,_,h⟩
      exact h
    · rename_i denied
      refine iff_of_true rfl ?_
      rintro ⟨_,_,_,_,permitted,_⟩
      exact denied permitted
  · rename_i divisor
    refine iff_of_true ?_ ?_
    · split
      · rename_i ten
        refine allowedEval ?_ rfl
        obtain ⟨rfl,_⟩ := ten
        rw [evalDivideBy10 memory typedFirst]
        exact (divideExact (by decide) (evalRange memory typedFirst) (by decide)).symm
      · rfl
    · rintro ⟨_,_,_,⟨⟩,_⟩
  · rename_i plain
    refine iff_of_true rfl ?_
    rintro ⟨a,b,rfl,rfl,_⟩
    exact plain a b rfl rfl

def DivideDefect (env : Surroundings) (isUnsigned : Bool) (memory : Nat → Int) (first second : Tree) : Prop :=
  isUnsigned = false ∧
    ((∃ t u divisor, second = .const t u divisor ∧ NegationDefect env memory first divisor) ∨
      NarrowDefect env memory first second)

theorem signedFlags {isUnsigned : Bool} (flags : ¬ (isUnsigned = true ∧ ¬ (env.firstIsNonNegative = true ∧ env.secondIsNonNegative = true)))
    (unsigned : isUnsigned = true) : env.firstIsNonNegative = true ∧ env.secondIsNonNegative = true := by
  by_contra other
  exact flags ⟨unsigned,other⟩

theorem ldivSimplifierEval (isUnsigned : Bool) {second : Tree} (typedFirst : first.Typed .Int64)
    (typedSecond : second.Typed .Int64) (truthful : Truthful env memory first second) (nonzero : second.eval memory ≠ 0) :
    (ldivSimplifier env isUnsigned first second).eval memory =
        (divideOp isUnsigned).eval 64 (first.eval memory) (second.eval memory) ↔
      ¬ DivideDefect env isUnsigned memory first second := by
  have left : InRange 64 (first.eval memory) := evalRange memory typedFirst
  have right : InRange 64 (second.eval memory) := evalRange memory typedSecond
  unfold ldivSimplifier
  simp only
  split
  · rename_i flags
    refine iff_of_true rfl fun h => ?_
    rw [flags.1] at h
    exact Bool.noConfusion h.1
  · rename_i flags
    have same : (divideOp isUnsigned).eval 64 (first.eval memory) (second.eval memory) =
        BinaryOp.div.eval 64 (first.eval memory) (second.eval memory) := by
      cases isUnsigned with
      | false => rfl
      | true =>
        have both := signedFlags flags rfl
        exact divideUnsigned (by decide) left right (truthful.firstNonNegative both.1) (truthful.secondNonNegative both.2)
    rw [same]
    have rest : (ldivRest env first second).eval memory = BinaryOp.div.eval 64 (first.eval memory) (second.eval memory) ↔
        ¬ NarrowDefect env memory first second := ldivRestEval typedFirst nonzero
    cases second with
    | const t u divisor =>
      have notNarrow : ¬ NarrowDefect env memory first (.const t u divisor) := by rintro ⟨_,_,_,⟨⟩,_⟩
      have inside : InRange 64 divisor := right
      have divisorNonzero : divisor ≠ 0 := nonzero
      have lowered : (ldivByConstant env (.binary (divideOp isUnsigned) .Int64 first (.const t u divisor)) first divisor).eval memory =
          BinaryOp.div.eval 64 (first.eval memory) divisor ↔ ¬ NegationDefect env memory first divisor :=
        ldivByConstantEval _ typedFirst inside divisorNonzero truthful.firstNonNegative truthful.firstNonPositive same
      have defect : NegationDefect env memory first divisor ↔ DivideDefect env isUnsigned memory first (.const t u divisor) := by
        constructor
        · intro h
          refine ⟨?_,.inl ⟨t,u,divisor,rfl,h⟩⟩
          by_contra unsigned
          have both := signedFlags flags (by simpa using unsigned)
          rw [h.2.2.2.2.1] at both
          exact Bool.noConfusion both.1
        · rintro ⟨_,⟨_,_,_,⟨⟩,h⟩ | h⟩
          · exact h
          · exact absurd h notNarrow
      simp only
      rw [if_pos divisorNonzero,← defect,← lowered]
      split
      · rename_i unchanged
        -- A node that was left alone holds its own value.
        refine iff_of_true (rest.mpr notNarrow) ?_
        rw [unchanged.1]
        exact same
      · exact Iff.rfl
    | _ =>
      simp only [true_and]
      cases isUnsigned with
      | true => exact iff_of_true same fun h => Bool.noConfusion h.1
      | false =>
        rw [if_pos rfl,rest]
        refine not_congr ⟨fun h => ⟨rfl,.inr h⟩,?_⟩
        rintro ⟨_,⟨_,_,_,⟨⟩,_⟩ | h⟩
        exact h

end Paths

-- The rows of the handler table.
inductive DivideOpcode where
  | idiv
  | iudiv
  | ldiv
  | ludiv
  deriving DecidableEq, Repr

def DivideOpcode.dataType : DivideOpcode → DataType
  | .idiv | .iudiv => .Int32
  | .ldiv | .ludiv => .Int64

def DivideOpcode.isUnsigned : DivideOpcode → Bool
  | .idiv | .ldiv => false
  | .iudiv | .ludiv => true

def DivideOpcode.simplifier (opcode : DivideOpcode) (env : Surroundings) (first second : Tree) : Tree :=
  match opcode with
  | .idiv | .iudiv => idivSimplifier env opcode.isUnsigned first second
  | .ldiv | .ludiv => ldivSimplifier env opcode.isUnsigned first second

def DivideOpcode.tree (opcode : DivideOpcode) (first second : Tree) : Tree :=
  .binary (divideOp opcode.isUnsigned) opcode.dataType first second

def DivideOpcode.Defect (opcode : DivideOpcode) (env : Surroundings) (memory : Nat → Int) (first second : Tree) : Prop :=
  opcode = .ldiv ∧
    ((∃ t u divisor, second = .const t u divisor ∧ NegationDefect env memory first divisor) ∨
      NarrowDefect env memory first second)

theorem divisionsReplaced (opcode : DivideOpcode) (env : Surroundings) (memory : Nat → Int) (first second : Tree)
    (typedFirst : first.Typed opcode.dataType) (typedSecond : second.Typed opcode.dataType)
    (truthful : Truthful env memory first second) (nonzero : second.eval memory ≠ 0) :
    (opcode.simplifier env first second).eval memory = (opcode.tree first second).eval memory ↔
      ¬ opcode.Defect env memory first second := by
  cases opcode with
  | idiv => exact iff_of_true (idivSimplifierEval false typedFirst typedSecond truthful) nofun
  | iudiv => exact iff_of_true (idivSimplifierEval true typedFirst typedSecond truthful) nofun
  | ldiv =>
    refine (ldivSimplifierEval false typedFirst typedSecond truthful nonzero).trans (not_congr ?_)
    exact and_congr_left fun _ => iff_of_true rfl rfl
  | ludiv =>
    refine (ldivSimplifierEval true typedFirst typedSecond truthful nonzero).trans (not_congr ?_)
    exact and_congr_left fun _ => iff_of_false nofun nofun

def permissive (flagged : Bool) : Surroundings where
  performTransformation := fun _ => true
  disableILDivPwr2Opt := false
  disableILRemPwr2Opt := false
  getSupportsLoweringConstIDiv := true
  getSupportsLoweringConstLDiv := true
  getSupportsLoweringConstLDivPower2 := true
  canUseImmedInstruction := fun _ => true
  firstIsNonNegative := false
  firstIsNonPositive := flagged
  secondIsNonNegative := false
  secondReferenceCount := 1
  divCheckParent := false

/- A load of -7 divided by -4 with the dividend flagged non-positive. -/
theorem divisionsReplacedSample :
    (DivideOpcode.ldiv.simplifier (permissive true) (.load .Int64 0) (lconst (-4))).eval (fun _ => -7) =
      (DivideOpcode.ldiv.tree (.load .Int64 0) (lconst (-4))).eval (fun _ => -7) := by
  refine (divisionsReplaced .ldiv (permissive true) (fun _ => -7) (.load .Int64 0) (lconst (-4)) rfl ⟨rfl,by decide⟩
    ⟨nofun,fun _ => by decide,nofun⟩ (by decide)).mpr ?_
  rintro ⟨_,⟨_,_,_,_,_,_,_,_,_,_,_,least⟩ | ⟨_,_,impossible,_⟩⟩
  · exact absurd least (by decide)
  · exact Tree.noConfusion impossible

/- MIN / -2 with the dividend flagged non-positive, and MIN / -1 of two widened ints. -/
theorem divisionsUnequal :
    (DivideOpcode.ldiv.simplifier (permissive true) (.load .Int64 0) (lconst (-2))).eval (fun _ => minSigned 64) ≠
        (DivideOpcode.ldiv.tree (.load .Int64 0) (lconst (-2))).eval (fun _ => minSigned 64) ∧
      (DivideOpcode.ldiv.simplifier (permissive false) (.i2l (.load .Int32 0)) (.i2l (iconst (-1)))).eval
          (fun _ => minSigned 32) ≠
        (DivideOpcode.ldiv.tree (.i2l (.load .Int32 0)) (.i2l (iconst (-1)))).eval (fun _ => minSigned 32) := by
  constructor <;> decide +kernel

end OmrCompiler.DivideSimplifier
