import OmrCompiler.DivideSimplifier

/-! Remainder by a constant: iremSimplifier and lremSimplifier of
OMRSimplifierHandlers.cpp, from the point where the children have been simplified.
There is no lurem opcode; the handler table has irem, iurem and lrem. -/
namespace OmrCompiler.RemainderSimplifier
open MachineInt Constraint ILTree PowerOfTwo ShiftArithmetic MagicValues DivideBy10 DivideSimplifier

def remainderOp (isUnsigned : Bool) : BinaryOp := if isUnsigned then .urem else .rem

def skipRemLowering (_divisor : Int) : Bool := false

def skipRemLoweringForPositivePowersOfTen : Bool := false

-- The dividend less the multiple of the power on its own side (newNode1 to newNode4).
def powerOfTwoRemainder (t : DataType) (first : Tree) (divisor shftAmnt : Int) : Tree :=
  let newNode3 := biasedDividend t first shftAmnt
  let newNode4 := Tree.binary .and t newNode3 (constOf t (if divisor > 0 then -divisor else divisor))
  .binary .sub t first newNode4

def foldedRemainder (isUnsigned : Bool) (dividend divisor : Int) : Int :=
  if isUnsigned then wrap 32 (toUnsigned 32 dividend % toUnsigned 32 divisor) else dividend.tmod divisor

def iremByConstant (env : Surroundings) (isUnsigned : Bool) (first second : Tree) (divisor : Int) : Tree :=
  let node := Tree.binary (remainderOp isUnsigned) .Int32 first second
  let shftAmnt := checkPositiveOrNegativePowerOfTwo 32 divisor
  if divisor = 1 ∨ (isUnsigned = false ∧ divisor = -1) then env.allowed .fold (iconst 0) node
  else
    match first with
    | .const _ _ dividend => env.allowed .fold (iconst (foldedRemainder isUnsigned dividend divisor)) node
    | _ =>
        if env.disableILRemPwr2Opt = false ∧ (isUnsigned = false ∨ isNonNegativePowerOf2 32 divisor = true) ∧ shftAmnt > 0 ∧
            env.secondReferenceCount = 1 ∧ env.performTransformation .powerOfTwo then
          if isUnsigned then .binary .and .Int32 first (iconst (wrap 32 (toUnsigned 32 divisor - 1)))
          else powerOfTwoRemainder .Int32 first divisor shftAmnt
        else if isUnsigned = false ∧ env.getSupportsLoweringConstIDiv ∧ isPowerOf2 32 divisor = false ∧
            skipRemLowering divisor = false ∧ env.performTransformation .magicNumber then
          .binary .sub .Int32 first
            (.binary .mul .Int32 second (getQuotientUsingMagicNumberMultiply .Int32 first divisor))
        else node

def iremSimplifier (env : Surroundings) (isUnsigned : Bool) (first second : Tree) : Tree :=
  match second with
  | .const _ _ divisor =>
      if divisor ≠ 0 then iremByConstant env isUnsigned first second divisor
      else .binary (remainderOp isUnsigned) .Int32 first second
  | _ => .binary (remainderOp isUnsigned) .Int32 first second

-- What is tried on a node that is still an lrem.
def lremRest (env : Surroundings) (first second : Tree) : Tree :=
  let node := Tree.binary .rem .Int64 first second
  match first, second with
  | .i2l a, .i2l b =>
      let remNode := Tree.binary .rem .Int32 a b
      env.allowed .narrow (if env.divCheckParent then remNode else .i2l remNode) node
  | first, .const t isUnsigned divisor =>
      if divisor = 10 ∧ skipRemLoweringForPositivePowersOfTen = false ∧ first.isLoadVar then
        env.allowed .byTen
          (.binary .sub .Int64 first
            (.binary .mul .Int64 (transformToLongDivBy10Bitwise first) (.const t isUnsigned divisor))) node
      else node
  | _, _ => node

def lremByConstant (env : Surroundings) (first second : Tree) (divisor : Int) : Tree :=
  let node := Tree.binary .rem .Int64 first second
  let shftAmnt := checkPositiveOrNegativePowerOfTwo 64 divisor
  if divisor = 1 ∨ divisor = -1 then env.allowed .fold (lconst 0) node
  else
    match first with
    | .const _ _ dividend =>
        if divisor = -1 ∧ dividend = minSigned 64 then env.allowed .fold (lconst 0) node
        else env.allowed .fold (lconst (dividend.tmod divisor)) node
    | _ =>
        if env.disableILRemPwr2Opt = false ∧ shftAmnt > 0 ∧ env.secondReferenceCount = 1 ∧
            env.performTransformation .powerOfTwo then powerOfTwoRemainder .Int64 first divisor shftAmnt
        else lremRest env first second

def lremSimplifier (env : Surroundings) (first second : Tree) : Tree :=
  match second with
  | .const _ _ divisor =>
      if divisor ≠ 0 then lremByConstant env first second divisor else lremRest env first second
  | _ => lremRest env first second

section Paths
variable {env : Surroundings} {memory : Nat → Int} {first : Tree}

theorem wrapSubWrap (w : Nat) (a b : Int) : wrap w (a - wrap w b) = wrap w (a - b) := Int.sub_bmod_bmod

theorem remainderByUnit {x d : Int} (unit : d.natAbs = 1) : x.tmod d = 0 := by
  have one : d = 1 ∨ d = -1 := by omega
  rcases one with rfl | rfl
  · exact Int.tmod_one x
  · rw [Int.tmod_neg,Int.tmod_one]

-- Subtracting the wrapped product of a divisor and its quotient is exact.
theorem subtractQuotient {w : Nat} (hw : 0 < w) {x d : Int} (inside : InRange w x) :
    BinaryOp.sub.eval w x (BinaryOp.mul.eval w d (x.tdiv d)) = x.tmod d := by
  have parts := Int.tmod_add_mul_tdiv x d
  have difference : x - d * x.tdiv d = x.tmod d := by omega
  rw [BinaryOp.eval,BinaryOp.eval,wrapSubWrap,difference]
  exact wrapSelf hw (remRange inside)

theorem evalPowerOfTwoRemainder {t : DataType} (typed : first.Typed t) {divisor : Int} {k : Nat} (low : 1 ≤ k)
    (small : k < t.bits) (power : divisor.natAbs = 2 ^ k) :
    (powerOfTwoRemainder t first divisor k).eval memory = (first.eval memory).tmod divisor := by
  have inside := evalRange memory typed
  have sign := powerSign power
  have mask : (if divisor > 0 then -divisor else divisor) = -2 ^ k := by
    split at sign
    · rename_i positive
      rw [if_pos positive,sign]
    · rename_i negative
      rw [if_neg negative,sign]
  have same : (first.eval memory).tmod divisor = (first.eval memory).tmod (2 ^ k) := by
    split at sign
    · rw [sign]
    · rw [sign,Int.tmod_neg]
  unfold powerOfTwoRemainder
  simp only [mask,Tree.eval,evalBiased typed low small,same]
  change wrap t.bits (first.eval memory - BinaryOp.and.eval t.bits (first.eval memory + bias k (first.eval memory)) (-2 ^ k)) = _
  rw [andHigh small (biasRange small inside),← tmodBias]
  exact wrapSelf t.bitsPos (remRange inside)

theorem unsignedPowerRemainder {w k : Nat} {x : Int} (small : k < w) (room : (2 : Int) ^ k < half w) :
    BinaryOp.and.eval w x (wrap w (toUnsigned w (2 ^ k) - 1)) = BinaryOp.urem.eval w x (2 ^ k) := by
  have hw : 0 < w := by omega
  have mod := modulusHalf hw
  have pos : (0 : Int) < 2 ^ k := by positivity
  have unsigned : toUnsigned w (2 ^ k) = 2 ^ k := Int.emod_eq_of_lt (by omega) (by omega)
  have mask : wrap w (2 ^ k - 1) = 2 ^ k - 1 := by
    refine wrapSelf hw ?_
    simp only [InRange,minSigned,maxSigned]
    omega
  have divides : (2 : Int) ^ k ∣ modulus w := by
    rw [modulus]
    exact pow_dvd_pow 2 (by omega)
  have nonneg := Int.emod_nonneg x (Int.ne_of_gt pos)
  have below := Int.emod_lt_of_pos x pos
  rw [unsigned,mask,andLow small,BinaryOp.eval,unsigned,toUnsigned,Int.emod_emod_of_dvd _ divides]
  refine (wrapSelf hw ?_).symm
  simp only [InRange,minSigned,maxSigned]
  omega

theorem iremByConstantEval (isUnsigned : Bool) {t : DataType} {secondIsUnsigned : Bool} {divisor : Int}
    (typed : first.Typed .Int32) (inside : InRange 32 divisor) (nonzero : divisor ≠ 0) :
    (iremByConstant env isUnsigned first (.const t secondIsUnsigned divisor) divisor).eval memory =
      (remainderOp isUnsigned).eval 32 (first.eval memory) divisor := by
  have left : InRange 32 (first.eval memory) := evalRange memory typed
  have kept : (Tree.binary (remainderOp isUnsigned) .Int32 first (.const t secondIsUnsigned divisor)).eval memory =
      (remainderOp isUnsigned).eval 32 (first.eval memory) divisor := rfl
  unfold iremByConstant
  simp only
  split
  · rename_i unit
    refine allowedEval ?_ kept
    cases isUnsigned with
    | false => exact (remainderByUnit (by omega)).symm
    | true =>
      have one : divisor = 1 := by simpa using unit
      rw [one]
      change 0 = wrap 32 (toUnsigned 32 (first.eval memory) % 1)
      rw [Int.emod_one]
      rfl
  · split
    · refine allowedEval ?_ kept
      cases isUnsigned <;> rfl
    · split
      · rename_i permitted
        obtain ⟨k,low,small,power,value⟩ := shiftOfPower (by decide) inside nonzero permitted.2.2.1
        rw [value]
        cases isUnsigned with
        | false => exact evalPowerOfTwoRemainder typed low small power
        | true =>
          have positive := (isNonNegativePowerOf2Iff (by decide) inside nonzero).mp (by simpa using permitted.2.1)
          have sign := powerSign power
          rw [if_pos positive.1] at sign
          have room : (2 : Int) ^ k < half 32 := by
            rw [← sign]
            have := inside.2
            simp only [maxSigned] at this
            omega
          rw [sign]
          exact unsignedPowerRemainder small room
      · split
        · rename_i magic
          obtain ⟨rfl,_,odd,_⟩ := magic
          have quotient : (getQuotientUsingMagicNumberMultiply .Int32 first divisor).eval memory =
              (first.eval memory).tdiv divisor := magicLowered (by decide) true memory typed inside nonzero odd
          simp only [Tree.eval,quotient]
          exact subtractQuotient (by decide) left
        · exact kept

theorem iremSimplifierEval (isUnsigned : Bool) {second : Tree} (typedFirst : first.Typed .Int32)
    (typedSecond : second.Typed .Int32) :
    (iremSimplifier env isUnsigned first second).eval memory =
      (remainderOp isUnsigned).eval 32 (first.eval memory) (second.eval memory) := by
  unfold iremSimplifier
  split
  · split
    · rename_i nonzero
      exact iremByConstantEval isUnsigned typedFirst typedSecond.2 nonzero
    · rfl
  · rfl

theorem lremRestEval {second : Tree} (typedFirst : first.Typed .Int64) :
    (lremRest env first second).eval memory = (first.eval memory).tmod (second.eval memory) := by
  have left : InRange 64 (first.eval memory) := evalRange memory typedFirst
  unfold lremRest
  simp only
  split
  · refine allowedEval ?_ rfl
    split <;> rfl
  · rename_i t isUnsigned divisor
    split
    · rename_i ten
      obtain ⟨rfl,_⟩ := ten
      refine allowedEval ?_ rfl
      simp only [Tree.eval,evalDivideBy10 memory typedFirst]
      have swapped : BinaryOp.mul.eval 64 ((first.eval memory).tdiv 10) 10 = BinaryOp.mul.eval 64 10 ((first.eval memory).tdiv 10) := by
        rw [BinaryOp.eval,BinaryOp.eval,Int.mul_comm]
      change BinaryOp.sub.eval 64 (first.eval memory) (BinaryOp.mul.eval 64 ((first.eval memory).tdiv 10) 10) = _
      rw [swapped]
      exact subtractQuotient (by decide) left
    · rfl
  · rfl

theorem lremByConstantEval {t : DataType} {secondIsUnsigned : Bool} {divisor : Int} (typed : first.Typed .Int64)
    (inside : InRange 64 divisor) (nonzero : divisor ≠ 0) :
    (lremByConstant env first (.const t secondIsUnsigned divisor) divisor).eval memory = (first.eval memory).tmod divisor := by
  have kept : (Tree.binary .rem .Int64 first (.const t secondIsUnsigned divisor)).eval memory =
      (first.eval memory).tmod divisor := rfl
  unfold lremByConstant
  simp only
  split
  · rename_i unit
    exact allowedEval (remainderByUnit (by omega)).symm kept
  · split
    · split
      · rename_i unit _ _ _ _ least
        exact absurd (.inr least.1) unit
      · exact allowedEval rfl kept
    · split
      · rename_i permitted
        obtain ⟨k,low,small,power,value⟩ := shiftOfPower (by decide) inside nonzero permitted.2.1
        rw [value]
        exact evalPowerOfTwoRemainder typed low small power
      · exact lremRestEval typed

theorem lremSimplifierEval {second : Tree} (typedFirst : first.Typed .Int64) (typedSecond : second.Typed .Int64) :
    (lremSimplifier env first second).eval memory = (first.eval memory).tmod (second.eval memory) := by
  unfold lremSimplifier
  split
  · split
    · rename_i nonzero
      exact lremByConstantEval typedFirst typedSecond.2 nonzero
    · exact lremRestEval typedFirst
  · exact lremRestEval typedFirst

end Paths

inductive RemainderOpcode where
  | irem
  | iurem
  | lrem
  deriving DecidableEq, Repr

def RemainderOpcode.dataType : RemainderOpcode → DataType
  | .irem | .iurem => .Int32
  | .lrem => .Int64

def RemainderOpcode.simplifier (env : Surroundings) (first second : Tree) : RemainderOpcode → Tree
  | .irem => iremSimplifier env false first second
  | .iurem => iremSimplifier env true first second
  | .lrem => lremSimplifier env first second

def RemainderOpcode.remainder (x d : Int) : RemainderOpcode → Int
  | .irem | .lrem => x.tmod d
  | .iurem => wrap 32 (toUnsigned 32 x % toUnsigned 32 d)

theorem remaindersReplaced (opcode : RemainderOpcode) (env : Surroundings) (memory : Nat → Int) (first second : Tree)
    (typedFirst : first.Typed opcode.dataType) (typedSecond : second.Typed opcode.dataType) :
    (opcode.simplifier env first second).eval memory = opcode.remainder (first.eval memory) (second.eval memory) := by
  cases opcode with
  | irem => exact iremSimplifierEval false typedFirst typedSecond
  | iurem => exact iremSimplifierEval true typedFirst typedSecond
  | lrem => exact lremSimplifierEval typedFirst typedSecond

/- A load of -7 by -4, through the biased mask. -/
theorem remaindersReplacedSample :
    (RemainderOpcode.irem.simplifier (permissive false) (.load .Int32 0) (iconst (-4))).eval (fun _ => -7) = -3 :=
  remaindersReplaced .irem (permissive false) (fun _ => -7) (.load .Int32 0) (iconst (-4)) rfl ⟨rfl,by decide⟩

end OmrCompiler.RemainderSimplifier
