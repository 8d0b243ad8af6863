import OmrCompiler.BitCounts
import OmrCompiler.ShiftRange

/-! The range of a remainder by a constant and the removal of remainders that change
nothing: constrainIrem, constrainLrem and removeRedundantREM of VPHandlers.cpp, with the
decimal precision of Bit.hpp. The handler table gives constrainIrem the nodes irem and
iurem and constrainLrem the node lrem. -/
namespace OmrCompiler.RemainderRange
open MachineInt Constraint ILTree BitCounts ShiftRange

def getMaxSignedPrecision : Nat := 19

def computePositivePowerOfTen : Nat → Nat
  | 0 => 1
  | exponent + 1 => computePositivePowerOfTen exponent * 10 % 2 ^ 64

def isPositivePowerOfTen (val : Int) : Bool :=
  let exponent := trailingZeroes (BitVec.ofInt 64 val)
  exponent ≤ getMaxSignedPrecision && (BitVec.ofInt 64 val).toNat = computePositivePowerOfTen exponent

def maxAbsoluteValueTable : List Int :=
  [9,99,999,9999,99999,999999,9999999,99999999,999999999,9999999999,99999999999,999999999999,9999999999999,99999999999999,
    999999999999999,9999999999999999,99999999999999999,999999999999999999]

def precisionIn (value : Int) : List Int → Nat → Nat
  | [],_ => getMaxSignedPrecision
  | entry::rest,i => if value ≤ entry then i + 1 else precisionIn value rest (i + 1)

def getPrecisionFromValue (value : Int) : Nat :=
  if value = minSigned 64 then getMaxSignedPrecision
  else precisionIn (if value < 0 then -value else value) maxAbsoluteValueTable 0

def getPrecision : IntegralConstraint → Nat
  | .const _ value => getPrecisionFromValue value
  | .range _ low high _ _ => max (getPrecisionFromValue low) (getPrecisionFromValue high)

-- The count of binary trailing zeroes of a power of ten is its exponent.
def removeRedundantREM (isUnsigned : Bool) (firstChildConstraint : IntegralConstraint) (constValue : Int) : Bool :=
  isPositivePowerOfTen constValue && !isUnsigned && getPrecision firstChildConstraint ≤ trailingZeroes (BitVec.ofInt 64 constValue)

-- What is left to the optimizer's state: whether a constant is folded into the node,
-- a long operation becomes an int operation, and a node may be removed.
structure Env where
  folds : Bool
  reduces : Bool
  removes : Bool

structure Effect where
  attached : Option IntegralConstraint
  removed : Bool

def unchanged : Effect := ⟨none,false⟩

def foldRem (t : DataType) (isUnsigned : Bool) (lhsConst rhsConst : Int) : Option IntegralConstraint :=
  if lhsConst = t.getMinSigned ∧ rhsConst = -1 ∧ isUnsigned = false then some (createConst t 0)
  else if rhsConst ≠ 0 then
    if isUnsigned then some (createConst t (wrap t.bits (toUnsigned t.bits lhsConst % toUnsigned t.bits rhsConst)))
    else some (createConst t (lhsConst.tmod rhsConst))
  else none

def rangeRem (t : DataType) (isUnsigned : Bool) (lhsLow lhsHigh rhsConst : Int) : Option IntegralConstraint :=
  let rhsConst := if isUnsigned = false ∧ rhsConst < 0 then wrap t.bits (-rhsConst) else rhsConst
  let rhsConst := wrap t.bits (rhsConst - 1)
  if lhsLow > 0 then rangeOf t 0 rhsConst
  else if isUnsigned = false ∧ lhsHigh < 0 then rangeOf t (wrap t.bits (-rhsConst)) 0
  else if isUnsigned = false then rangeOf t (wrap t.bits (-rhsConst)) rhsConst
  else none

def constrainRem (t : DataType) (isUnsigned reduces : Bool) (env : Env) (lhs rhs : Option VPConstraint) : Effect :=
  match lhs,rhs.bind (·.asConst t) with
  | some (.integral c),some rhsConst =>
      if c.type = t then
        match c with
        | .const _ lhsConst =>
            let constraint := foldRem t isUnsigned lhsConst rhsConst
            ⟨constraint,constraint.isSome && !env.folds && env.removes && removeRedundantREM isUnsigned c rhsConst⟩
        | .range _ lhsLow lhsHigh _ _ =>
            let constraint := rangeRem t isUnsigned lhsLow lhsHigh rhsConst
            ⟨constraint,constraint.isSome && !(reduces && env.reduces) && env.removes && removeRedundantREM isUnsigned c rhsConst⟩
      else unchanged
  | _,_ => unchanged

def constrainIrem (isUnsigned : Bool) := constrainRem .Int32 isUnsigned false

def constrainLrem := constrainRem .Int64 false true

inductive Rem where
  | irem
  | iurem
  | lrem
  deriving DecidableEq, Repr

namespace Rem

def isUnsigned (rem : Rem) : Bool := rem = iurem

def type : Rem → DataType
  | irem => .Int32
  | iurem => .Int32
  | lrem => .Int64

def op (rem : Rem) : BinaryOp := if rem.isUnsigned then .urem else .rem

def handler : Rem → Env → Option VPConstraint → Option VPConstraint → Effect
  | irem => constrainIrem false
  | iurem => constrainIrem true
  | lrem => constrainLrem

end Rem

section Precision
variable {value : Int} {k : Nat}

theorem precisionInBound {table : List Int} {i : Nat} (powers : ∀ (n : Nat) (entry : Int), table[n]? = some entry → entry + 1 = 10 ^ (i + n + 1))
    (precision : precisionIn value table i ≤ k) (small : k < getMaxSignedPrecision) : value < 10 ^ k := by
  induction table generalizing i with
  | nil => exact absurd precision (by unfold precisionIn; omega)
  | cons entry rest ih =>
      unfold precisionIn at precision
      split at precision
      · rename_i below
        have power := powers 0 entry rfl
        have up : (10 : Int) ^ (i + 0 + 1) ≤ 10 ^ k := pow_le_pow_right₀ (by decide) (by omega)
        omega
      · refine ih (fun n entry' found => ?_) precision
        rw [powers (n + 1) entry' found]
        congr 1
        omega

theorem tablePowers : ∀ (n : Nat) (entry : Int), maxAbsoluteValueTable[n]? = some entry → entry + 1 = 10 ^ (0 + n + 1) := by
  intro n entry found
  have less : n < maxAbsoluteValueTable.length := (List.getElem?_eq_some_iff.mp found).1
  have all : ∀ n < 18, maxAbsoluteValueTable[n]?.map (· + 1) = some ((10 : Int) ^ (0 + n + 1)) := by decide
  have here := all n less
  rw [found] at here
  exact Option.some.inj here

theorem precisionBound (precision : getPrecisionFromValue value ≤ k) (small : k < getMaxSignedPrecision) : -10 ^ k < value ∧ value < 10 ^ k := by
  unfold getPrecisionFromValue at precision
  split at precision
  · omega
  · have bound := precisionInBound tablePowers precision small
    split at bound <;> omega

theorem precisionMost (table : List Int) (value : Int) {i : Nat} (few : i + table.length < getMaxSignedPrecision) :
    precisionIn value table i ≤ getMaxSignedPrecision := by
  induction table generalizing i with
  | nil => exact Nat.le_refl _
  | cons entry rest ih =>
      unfold precisionIn
      simp only [List.length_cons] at few
      split
      · omega
      · exact ih (by omega)

theorem getPrecisionMost (c : IntegralConstraint) : getPrecision c ≤ getMaxSignedPrecision := by
  have value : ∀ v, getPrecisionFromValue v ≤ getMaxSignedPrecision := fun v => by
    unfold getPrecisionFromValue
    split
    · exact Nat.le_refl _
    · exact precisionMost maxAbsoluteValueTable _ (by decide)
  cases c with
  | const t v => exact value v
  | range t low high overflow isPowerOfTwo => exact Nat.max_le.mpr ⟨value low,value high⟩

theorem getPrecisionBound {c : IntegralConstraint} (precision : getPrecision c ≤ k) (small : k < getMaxSignedPrecision) (inside : c.Contains value) :
    -10 ^ k < value ∧ value < 10 ^ k := by
  cases c with
  | const t v =>
      have bound := precisionBound precision small
      have low : v ≤ value := inside.1
      have high : value ≤ v := inside.2
      omega
  | range t low high overflow isPowerOfTwo =>
      have bounds := Nat.max_le.mp precision
      have first := precisionBound bounds.1 small
      have last := precisionBound bounds.2 small
      have above : low ≤ value := inside.1
      have below : value ≤ high := inside.2
      omega

theorem computedPower : ∀ exponent ≤ getMaxSignedPrecision, computePositivePowerOfTen exponent = 10 ^ exponent := by decide

-- The largest power reads as a negative number.
def hugePower : Int := 10 ^ 19 - 2 ^ 64

theorem powerOfTenIs {d : Int} (inside : InRange 64 d) (power : isPositivePowerOfTen d = true) :
    d = hugePower ∨ (trailingZeroes (BitVec.ofInt 64 d) < getMaxSignedPrecision ∧ d = 10 ^ trailingZeroes (BitVec.ofInt 64 d)) := by
  unfold isPositivePowerOfTen at power
  simp only [Bool.and_eq_true,decide_eq_true_eq] at power
  obtain ⟨most,same⟩ := power
  rw [computedPower _ most] at same
  have value : d = wrap 64 (10 ^ trailingZeroes (BitVec.ofInt 64 d)) := by
    have back : (BitVec.ofInt 64 d).toInt = d := by
      rw [BitVec.toInt_ofInt]
      exact wrapSelf (by decide) inside
    calc d = (BitVec.ofInt 64 d).toInt := back.symm
      _ = wrap 64 ((BitVec.ofInt 64 d).toNat : Int) := BitVec.toInt_eq_toNat_bmod _
      _ = wrap 64 (10 ^ trailingZeroes (BitVec.ofInt 64 d)) := by rw [same,Nat.cast_pow]; rfl
  rcases Nat.eq_or_lt_of_le most with top | less
  · left
    rw [top] at value
    rw [value]
    decide
  · right
    refine ⟨less,value.trans (wrapSelf (by decide) ?_)⟩
    have up : (10 : Int) ^ trailingZeroes (BitVec.ofInt 64 d) ≤ 10 ^ 18 :=
      pow_le_pow_right₀ (by decide) (by unfold getMaxSignedPrecision at less; omega)
    have pos : (0 : Int) < 10 ^ trailingZeroes (BitVec.ofInt 64 d) := Int.pow_pos (by decide)
    have most : (10 : Int) ^ 18 ≤ maxSigned 64 := by decide
    have least : minSigned 64 ≤ 0 := by decide
    exact ⟨by omega,by omega⟩

end Precision

section Sound
variable {t : DataType} {w : Nat} {x d : Int}

theorem tmodBounds (nonzero : d ≠ 0) : -(|d| - 1) ≤ x.tmod d ∧ x.tmod d ≤ |d| - 1 ∧ (0 ≤ x → 0 ≤ x.tmod d) ∧ (x ≤ 0 → x.tmod d ≤ 0) := by
  have size : (x.tmod d).natAbs < d.natAbs := by
    rw [Int.natAbs_tmod]
    exact Nat.mod_lt _ (by omega)
  have fall : x ≤ 0 → x.tmod d ≤ 0 := fun negative => by
    have back := Int.tmod_nonneg d (show 0 ≤ -x by omega)
    rw [Int.neg_tmod] at back
    omega
  have whole := Int.natCast_natAbs d
  exact ⟨by omega,by omega,Int.tmod_nonneg d,fall⟩

theorem tmodSelf (nonzero : d ≠ 0) : x.tmod d = x ↔ -|d| < x ∧ x < |d| := by
  have whole := Int.natCast_natAbs d
  constructor
  · intro same
    have bounds := @tmodBounds x d nonzero
    rw [same] at bounds
    omega
  · rintro ⟨low,high⟩
    have small : x.natAbs < d.natAbs := by omega
    have size : (x.tmod d).natAbs = x.natAbs := by rw [Int.natAbs_tmod,Nat.mod_eq_of_lt small]
    obtain ⟨_,_,up,down⟩ := @tmodBounds x d nonzero
    omega

-- The bound |d| - 1 of a remainder, MIN included.
theorem magnitudeExact (inside : InRange t.bits d) (nonzero : d ≠ 0) :
    wrap t.bits ((if d < 0 then wrap t.bits (-d) else d) - 1) = |d| - 1 ∧ wrap t.bits (-(|d| - 1)) = -(|d| - 1) ∧
      0 ≤ |d| - 1 ∧ |d| - 1 ≤ maxSigned t.bits := by
  have hw := t.bitsPos
  have pos := halfPos t.bits
  have whole := Int.natCast_natAbs d
  simp only [InRange,minSigned,maxSigned] at inside ⊢
  have first : wrap t.bits ((if d < 0 then wrap t.bits (-d) else d) - 1) = wrap t.bits (|d| - 1) := by
    split
    · rename_i negative
      have size : |d| = -d := abs_of_neg negative
      rw [Int.sub_eq_add_neg,wrapAdd,size,Int.sub_eq_add_neg]
    · rename_i nonneg
      rw [abs_of_nonneg (by omega)]
  refine ⟨first.trans (wrapSelf hw ⟨?_,?_⟩),wrapSelf hw ⟨?_,?_⟩,by omega,by omega⟩ <;> simp only [minSigned,maxSigned] <;> omega

-- A positive value below an unsigned divisor is its own remainder.
theorem unsignedRemainder (hw : 0 < w) (inside : InRange w x) (nonneg : 0 ≤ x) (d : Int) :
    toUnsigned w x = x ∧ 0 ≤ x % toUnsigned w d ∧ x % toUnsigned w d ≤ x ∧ BinaryOp.urem.eval w x d = x % toUnsigned w d := by
  have mod := modulusHalf hw
  have same : toUnsigned w x = x := Int.emod_eq_of_lt nonneg (by simp only [InRange,maxSigned] at inside; omega)
  have range := toUnsignedRange hw d
  have low : 0 ≤ x % toUnsigned w d := by
    rcases Int.lt_or_eq_of_le range.1 with positive | zero
    · exact Int.emod_nonneg x (Int.ne_of_gt positive)
    · rw [← zero,Int.emod_zero]
      exact nonneg
  have high : x % toUnsigned w d ≤ x := by
    have parts := Int.emod_add_mul_ediv x (toUnsigned w d)
    have quotient := Int.mul_nonneg range.1 (Int.ediv_nonneg nonneg range.1)
    omega
  have pos := halfPos w
  refine ⟨same,low,high,?_⟩
  simp only [InRange,minSigned,maxSigned] at inside
  rw [BinaryOp.eval,same]
  exact wrapSelf hw ⟨by simp only [minSigned]; omega,by simp only [maxSigned]; omega⟩

theorem constHolds {lhs : Option VPConstraint} {value : Int → Int} {v : Int} (same : ∀ x, Allows t lhs x → value x = v) :
    Holds t value lhs (some (createConst t v)) :=
  ⟨fun x inside => by rw [same x inside]; exact ⟨Int.le_refl v,Int.le_refl v⟩,fun c made => by cases made; exact Int.le_refl v⟩

theorem noneHolds {lhs : Option VPConstraint} {value : Int → Int} (range : ∀ x, Allows t lhs x → InRange t.bits (value x)) :
    Holds t value lhs none :=
  ⟨range,nofun⟩

section Range
variable {low high : Int} {overflow : YesNoMaybe} {isPowerOfTwo : Bool}

theorem rangeRemSigned (valid : (VPConstraint.integral (.range t low high overflow isPowerOfTwo)).Valid t) (inside : InRange t.bits d) (nonzero : d ≠ 0) :
    Holds t (fun x => x.tmod d) (some (.integral (.range t low high overflow isPowerOfTwo))) (rangeRem t false low high d) := by
  obtain ⟨exact',negated,_,_⟩ := @magnitudeExact t d inside nonzero
  have whole : ∀ c, some (VPConstraint.integral (.range t low high overflow isPowerOfTwo)) = some c → c.Valid t := fun c same => by
    cases same
    exact valid
  have bounds := fun x => @tmodBounds x d nonzero
  unfold rangeRem
  simp only [true_and,if_true]
  rw [exact',negated]
  split
  · rename_i positive
    refine rangeHolds whole fun x between => ?_
    have above : low ≤ x := between.1
    exact ⟨(bounds x).2.2.1 (by omega),(bounds x).2.1⟩
  · split
    · rename_i negative
      refine rangeHolds whole fun x between => ?_
      have below : x ≤ high := between.2
      exact ⟨(bounds x).1,(bounds x).2.2.2 (by omega)⟩
    · exact rangeHolds whole fun x _ => ⟨(bounds x).1,(bounds x).2.1⟩

-- The unsigned remainder of positive numbers; MIN stands for 2^(w-1).
theorem rangeRemUnsigned (valid : (VPConstraint.integral (.range t low high overflow isPowerOfTwo)).Valid t) (inside : InRange t.bits d)
    (nonzero : d ≠ 0) (fits : 0 < low → d = t.getMinSigned ∨ 0 < d) :
    Holds t (fun x => BinaryOp.urem.eval t.bits x d) (some (.integral (.range t low high overflow isPowerOfTwo))) (rangeRem t true low high d) := by
  have hw := t.bitsPos
  have mod := modulusHalf hw
  have pos := halfPos t.bits
  have whole : ∀ c, some (VPConstraint.integral (.range t low high overflow isPowerOfTwo)) = some c → c.Valid t := fun c same => by
    cases same
    exact valid
  unfold rangeRem
  simp only [Bool.true_eq_false,false_and,if_false]
  split
  · rename_i positive
    refine rangeHolds whole fun x between => ?_
    have range := containsInRange valid between
    have above : low ≤ x := between.1
    obtain ⟨_,least,most,value⟩ := unsignedRemainder hw range (by omega) d
    rw [value]
    refine ⟨least,?_⟩
    simp only [InRange,minSigned,maxSigned] at inside range
    rcases fits positive with rfl | positive'
    · have top : wrap t.bits (t.getMinSigned - 1) = half t.bits - 1 := by
        simp only [DataType.getMinSigned,minSigned]
        exact wrapUnique hw (k := 1) ⟨by simp only [minSigned]; omega,by simp only [maxSigned]; omega⟩ (by omega)
      rw [top]
      omega
    · have same : toUnsigned t.bits d = d := Int.emod_eq_of_lt (by omega) (by omega)
      have top : wrap t.bits (d - 1) = d - 1 := wrapSelf hw ⟨by simp only [minSigned]; omega,by simp only [maxSigned]; omega⟩
      have below := Int.emod_lt_of_pos x positive'
      rw [top,same]
      omega
  · exact noneHolds fun x _ => wrapRange hw _

theorem rangeRemReversed (inside : t.getMinSigned < d) (negative : d < 0) (positive : 0 < low) :
    ¬ Holds t (fun x => BinaryOp.urem.eval t.bits x d) (some (.integral (.range t low high overflow isPowerOfTwo))) (rangeRem t true low high d) := by
  have pos := halfPos t.bits
  have top : wrap t.bits (d - 1) = d - 1 :=
    wrapSelf t.bitsPos ⟨by simp only [DataType.getMinSigned] at inside; omega,by simp only [maxSigned]; omega⟩
  intro holds
  unfold rangeRem at holds
  simp only [Bool.true_eq_false,false_and,if_false] at holds
  rw [if_pos positive,top] at holds
  cases made : rangeOf t 0 (d - 1) with
  | none =>
      have full := (rangeOfFull made).1
      simp only [DataType.getMinSigned,minSigned] at full
      omega
  | some c =>
      rw [made] at holds
      have order := holds.order c rfl
      have bounds := rangeOfBounds made
      omega

end Range

theorem wideRange (t : DataType) (inside : InRange t.bits d) : InRange 64 d := by
  have most : half t.bits ≤ half 64 := by cases t <;> decide
  simp only [InRange,minSigned,maxSigned] at inside ⊢
  omega

theorem foldRemHolds (v : Int) (isUnsigned : Bool) (nonzero : d ≠ 0) :
    foldRem t isUnsigned v d = some (createConst t ((if isUnsigned then BinaryOp.urem else BinaryOp.rem).eval t.bits v d)) := by
  unfold foldRem
  split
  · rename_i extreme
    rw [extreme.2.2,extreme.1,extreme.2.1]
    have none : (t.getMinSigned).tmod (-1) = 0 := by
      rw [Int.tmod_neg,Int.tmod_one]
    exact (congrArg (fun v => some (createConst t v)) none).symm
  · cases isUnsigned <;> rfl

theorem removedKeeps {c : IntegralConstraint} {isUnsigned : Bool} (inside : InRange 64 d) (other : d ≠ hugePower)
    (removed : removeRedundantREM isUnsigned c d = true) : isUnsigned = false ∧ ∀ x, c.Contains x → x.tmod d = x := by
  unfold removeRedundantREM at removed
  simp only [Bool.and_eq_true,Bool.not_eq_true',decide_eq_true_eq] at removed
  obtain ⟨⟨power,signed⟩,precision⟩ := removed
  rcases powerOfTenIs inside power with huge | ⟨small,value⟩
  · exact absurd huge other
  · refine ⟨signed,fun x within => ?_⟩
    have bound := getPrecisionBound precision small within
    have pos : (0 : Int) < 10 ^ trailingZeroes (BitVec.ofInt 64 d) := Int.pow_pos (by decide)
    rw [← value] at bound pos
    rw [tmodSelf (by omega),abs_of_pos pos]
    exact bound

theorem hugeRemoved (c : IntegralConstraint) : removeRedundantREM false c hugePower = true := by
  have power : isPositivePowerOfTen hugePower = true := by decide
  have zeroes : trailingZeroes (BitVec.ofInt 64 hugePower) = getMaxSignedPrecision := by decide
  unfold removeRedundantREM
  rw [power,zeroes,decide_eq_true (getPrecisionMost c)]
  rfl

-- The divisor is above 2^(w-1) as an unsigned number, and the bound below it is negative.
def WrapsDivisor (t : DataType) (isUnsigned : Bool) (lhs : Option VPConstraint) (d : Int) : Prop :=
  isUnsigned = true ∧ t.getMinSigned < d ∧ d < 0 ∧
    ∃ low high overflow isPowerOfTwo, lhs = some (.integral (.range t low high overflow isPowerOfTwo)) ∧ 0 < low

-- The divisor is taken for 10^19, and the dividend may be as large as the divisor.
def RemovesHuge (isUnsigned reduces : Bool) (env : Env) (lhs : Option VPConstraint) (d : Int) : Prop :=
  isUnsigned = false ∧ d = hugePower ∧ env.removes = true ∧ ∃ c, lhs = some (.integral c) ∧
    (if c.isConst then env.folds = false else ¬ (reduces = true ∧ env.reduces = true)) ∧ ∃ x, c.Contains x ∧ ¬ (-|d| < x ∧ x < |d|)

structure Sound (t : DataType) (op : BinaryOp) (lhs : Option VPConstraint) (d : Int) (effect : Effect) : Prop where
  range : Holds t (fun x => op.eval t.bits x d) lhs effect.attached
  removal : effect.removed = true → ∀ x, Allows t lhs x → op.eval t.bits x d = x

theorem unchangedSound {lhs : Option VPConstraint} (valid : ∀ c, lhs = some c → c.Valid t) (isUnsigned : Bool) (d : Int) :
    Sound t (if isUnsigned then .urem else .rem) lhs d unchanged := by
  obtain ⟨_,_,_,_,_,every⟩ := boundsHold valid
  refine ⟨noneHolds fun x allowed => ?_,nofun⟩
  cases isUnsigned with
  | false => exact remRange (every x allowed).1
  | true => exact wrapRange t.bitsPos _

theorem removalSound {c : IntegralConstraint} {isUnsigned reduces : Bool} {env : Env} (inside : InRange 64 d) (nonzero : d ≠ 0)
    (fine : ¬ RemovesHuge isUnsigned reduces env (some (.integral c)) d)
    (skipped : (if c.isConst then env.folds = false else ¬ (reduces = true ∧ env.reduces = true)) ∧ env.removes = true)
    (removed : removeRedundantREM isUnsigned c d = true) :
    ∀ x, Allows t (some (.integral c)) x → (if isUnsigned then BinaryOp.urem else BinaryOp.rem).eval t.bits x d = x := by
  intro x allowed
  by_cases huge : d = hugePower
  · have signed : isUnsigned = false := by
      unfold removeRedundantREM at removed
      simpa using (Bool.and_eq_true_iff.mp (Bool.and_eq_true_iff.mp removed).1).2
    subst signed
    change x.tmod d = x
    rw [tmodSelf nonzero]
    by_contra large
    exact fine ⟨rfl,huge,skipped.2,c,rfl,skipped.1,x,allowed,large⟩
  · obtain ⟨rfl,same⟩ := removedKeeps inside huge removed
    exact same x allowed

theorem hugeUnsound {c : IntegralConstraint} {reduces : Bool} {env : Env}
    (removed : ∀ x, Allows t (some (.integral c)) x → BinaryOp.rem.eval t.bits x hugePower = x) :
    ¬ RemovesHuge false reduces env (some (.integral c)) hugePower := by
  rintro ⟨_,_,_,c',same,_,x,inside,large⟩
  cases Option.some.inj same
  exact large ((tmodSelf (by decide)).mp (removed x inside))

theorem constrainRemConst (isUnsigned reduces : Bool) (env : Env) (v d : Int) :
    constrainRem t isUnsigned reduces env (some (.integral (.const t v))) (some (.integral (createConst t d))) =
      ⟨foldRem t isUnsigned v d,(foldRem t isUnsigned v d).isSome && !env.folds && env.removes && removeRedundantREM isUnsigned (.const t v) d⟩ := by
  simp [constrainRem,createConst,VPConstraint.asConst,IntegralConstraint.type]

theorem constrainRemRange (isUnsigned reduces : Bool) (env : Env) (low high : Int) (overflow : YesNoMaybe) (isPowerOfTwo : Bool) (d : Int) :
    constrainRem t isUnsigned reduces env (some (.integral (.range t low high overflow isPowerOfTwo))) (some (.integral (createConst t d))) =
      ⟨rangeRem t isUnsigned low high d,(rangeRem t isUnsigned low high d).isSome && !(reduces && env.reduces) && env.removes &&
        removeRedundantREM isUnsigned (.range t low high overflow isPowerOfTwo) d⟩ := by
  simp [constrainRem,createConst,VPConstraint.asConst,IntegralConstraint.type]

-- A range of a signed remainder is never the whole type.
theorem rangeRemSome (inside : InRange t.bits d) (nonzero : d ≠ 0) (low high : Int) : (rangeRem t false low high d).isSome = true := by
  obtain ⟨exact',negated,least,most⟩ := @magnitudeExact t d inside nonzero
  have pos := halfPos t.bits
  have attached : ∀ low high, t.getMinSigned < low → (rangeOf t low high).isSome = true := fun low high above => by
    cases made : rangeOf t low high with
    | none =>
        have full := (rangeOfFull made).1
        omega
    | some c => rfl
  simp only [maxSigned] at most
  unfold rangeRem
  simp only [true_and,if_true]
  rw [exact',negated]
  split
  · exact attached _ _ (by simp only [DataType.getMinSigned,minSigned]; omega)
  · split <;> exact attached _ _ (by simp only [DataType.getMinSigned,minSigned]; omega)

theorem constrainRemSound (isUnsigned reduces : Bool) (env : Env) {lhs : Option VPConstraint} (valid : ∀ c, lhs = some c → c.Valid t)
    (inside : InRange t.bits d) (nonzero : d ≠ 0) :
    Sound t (if isUnsigned then .urem else .rem) lhs d (constrainRem t isUnsigned reduces env lhs (some (.integral (createConst t d)))) ↔
      ¬ (WrapsDivisor t isUnsigned lhs d ∨ RemovesHuge isUnsigned reduces env lhs d) := by
  have wide := wideRange t inside
  match lhs with
  | none =>
      refine ⟨fun _ broken => ?_,fun _ => unchangedSound valid isUnsigned d⟩
      rcases broken with ⟨_,_,_,_,_,_,_,same,_⟩ | ⟨_,_,_,_,same,_⟩ <;> cases same
  | some (.merged list) =>
      refine ⟨fun _ broken => ?_,fun _ => unchangedSound valid isUnsigned d⟩
      rcases broken with ⟨_,_,_,_,_,_,_,same,_⟩ | ⟨_,_,_,_,same,_⟩ <;> cases same
  | some (.integral (.const t' v)) =>
      obtain rfl : t' = t := (valid _ rfl).1
      rw [constrainRemConst,foldRemHolds v isUnsigned nonzero]
      constructor
      · rintro sound (⟨_,_,_,_,_,_,_,same,_⟩ | huge)
        · cases same
        · obtain ⟨rfl,rfl,removes,c,same,folds,_⟩ := id huge
          cases same
          refine hugeUnsound (sound.removal ?_) huge
          have kept : env.folds = false := folds
          simp only [Option.isSome_some,kept,removes,hugeRemoved]
          rfl
      · intro fine
        refine ⟨constHolds fun x allowed => ?_,fun removed => ?_⟩
        · have low : v ≤ x := allowed.1
          have high : x ≤ v := allowed.2
          rw [Int.le_antisymm high low]
        · simp only [Bool.and_eq_true,Bool.not_eq_true'] at removed
          exact removalSound wide nonzero (fun huge => fine (.inr huge)) ⟨removed.1.1.2,removed.1.2⟩ removed.2
  | some (.integral (.range t' low high overflow isPowerOfTwo)) =>
      obtain rfl : t' = t := (valid _ rfl).1
      rw [constrainRemRange]
      constructor
      · rintro sound (⟨rfl,above,below,_,_,_,_,same,positive⟩ | huge)
        · cases same
          exact rangeRemReversed above below positive sound.range
        · obtain ⟨rfl,rfl,removes,c,same,reduced,_⟩ := id huge
          cases same
          refine hugeUnsound (sound.removal ?_) huge
          have kept : (reduces && env.reduces) = false := by
            rw [Bool.eq_false_iff,ne_eq,Bool.and_eq_true]
            exact reduced
          simp only [rangeRemSome inside nonzero,kept,removes,hugeRemoved]
          rfl
      · intro fine
        refine ⟨?_,fun removed => ?_⟩
        · cases isUnsigned with
          | false => exact rangeRemSigned (valid _ rfl) inside nonzero
          | true =>
              refine rangeRemUnsigned (valid _ rfl) inside nonzero fun positive => ?_
              by_contra wraps
              have least : t'.getMinSigned ≤ d := inside.1
              exact fine (.inl ⟨rfl,by omega,by omega,low,high,overflow,isPowerOfTwo,rfl,positive⟩)
        · simp only [Bool.and_eq_true,Bool.not_eq_true'] at removed
          refine removalSound wide nonzero (fun huge => fine (.inr huge)) ⟨?_,removed.1.2⟩ removed.2
          have kept := removed.1.1.2
          rw [Bool.eq_false_iff,ne_eq,Bool.and_eq_true] at kept
          exact kept

/- The range of a remainder holds and a removed remainder changes nothing, unless an
unsigned divisor has its high bit set or a long divisor passes for 10^19. -/
theorem remaindersHold (rem : Rem) (env : Env) {lhs : Option VPConstraint} (valid : ∀ c, lhs = some c → c.Valid rem.type) {d : Int}
    (inside : InRange rem.type.bits d) (nonzero : d ≠ 0) :
    Sound rem.type rem.op lhs d (rem.handler env lhs (some (.integral (createConst rem.type d)))) ↔
      ¬ (WrapsDivisor rem.type rem.isUnsigned lhs d ∨ RemovesHuge rem.isUnsigned (rem = .lrem) env lhs d) := by
  cases rem with
  | irem => exact constrainRemSound false false env valid inside nonzero
  | iurem => exact constrainRemSound true false env valid inside nonzero
  | lrem => exact constrainRemSound false true env valid inside nonzero

theorem remaindersHoldSample :
    Sound .Int32 .rem (some (.integral (.range .Int32 (-999) 999 .no false))) 1000
      (Rem.irem.handler ⟨true,true,true⟩ (some (.integral (.range .Int32 (-999) 999 .no false))) (some (.integral (createConst .Int32 1000)))) :=
  (@remaindersHold .irem ⟨true,true,true⟩ _ (fun c same => by cases same; decide) 1000 (by decide) (by decide)).mpr fun broken =>
    broken.elim (fun wraps => absurd wraps.1 (by decide)) fun huge => absurd huge.2.1 (by decide)

/- 5 is its own unsigned remainder by 2^32 - 1, and the range goes from 0 to -2; 2^63 - 1 is
taken for its own remainder by 10^19 - 2^64. -/
theorem remaindersBroken :
    (∃ c, (constrainIrem true ⟨true,true,true⟩ (some (.integral (.range .Int32 1 10 .no false))) (some (.integral (createConst .Int32 (-1))))).attached =
      some c ∧ c.getHigh < c.getLow ∧ ¬ c.Contains (BinaryOp.urem.eval 32 5 (-1))) ∧
    (constrainLrem ⟨true,false,true⟩ (some (.integral (.range .Int64 0 9223372036854775807 .no false)))
      (some (.integral (createConst .Int64 (-8446744073709551616))))).removed = true ∧
    BinaryOp.rem.eval 64 9223372036854775807 (-8446744073709551616) = 776627963145224191 :=
  ⟨⟨.range .Int32 0 (-2) .no false,by decide,by decide,by decide⟩,by decide,by decide⟩

end Sound

end OmrCompiler.RemainderRange
