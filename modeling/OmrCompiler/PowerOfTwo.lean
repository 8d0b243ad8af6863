import OmrCompiler.MachineInt
import Mathlib.Data.Nat.Factorization.Basic
import Mathlib.Tactic.Ring

/-! Power of two tests on machine integers: isPowerOf2 and its one-sided forms
(Bit.hpp) and checkPositiveOrNegativePowerOfTwo (OMRTreeEvaluator.cpp). -/
namespace OmrCompiler.PowerOfTwo
open MachineInt

-- input & -input
def lowestBit (w : Nat) (input : Int) : Int := (BitVec.ofInt w input &&& BitVec.ofInt w (-input)).toInt

def isNonNegativePowerOf2 (w : Nat) (input : Int) : Bool :=
  if input = minSigned w then false else lowestBit w input = input

def isNonPositivePowerOf2 (w : Nat) (input : Int) : Bool := lowestBit w input = wrap w (-input)

def isPowerOf2 (w : Nat) (input : Int) : Bool :=
  let input := if input < 0 then wrap w (-input) else input
  lowestBit w input = input

-- while ((value = value >> 1)) ++shiftAmount;
def countShifts (value : Nat) : Nat := if value / 2 = 0 then 0 else countShifts (value / 2) + 1
decreasing_by omega

def checkPositiveOrNegativePowerOfTwo (w : Nat) (value : Int) : Int :=
  if isNonNegativePowerOf2 w value then countShifts (toUnsigned w value).toNat
  else if isNonPositivePowerOf2 w value then countShifts (toUnsigned w (-value)).toNat
  else -1

theorem countShiftsPower (k : Nat) : countShifts (2 ^ k) = k := by
  induction k with
  | zero =>
    rw [countShifts]
    simp
  | succ k ih =>
    have pos : 0 < 2 ^ k := Nat.two_pow_pos k
    have halved : 2 ^ (k + 1) / 2 = 2 ^ k := by
      rw [Nat.pow_succ]
      omega
    rw [countShifts,halved,if_neg (by omega),ih]

-- The lowest bit of 2^k * (2 * j + 1) is 2^k.
theorem andComplement {w k j : Nat} (bound : 2 ^ k * (2 * j + 1) < 2 ^ w) :
    2 ^ k * (2 * j + 1) &&& (2 ^ w - 2 ^ k * (2 * j + 1)) = 2 ^ k := by
  have pos : 0 < 2 ^ k := Nat.two_pow_pos k
  have pred : 2 ^ k * (2 * j + 1) = 2 ^ k * (2 * j) + (2 ^ k - 1) + 1 := by
    rw [Nat.mul_add,Nat.mul_one]
    omega
  have below : 2 ^ k * (2 * j) + (2 ^ k - 1) < 2 ^ w := by omega
  have small : k < w := by
    have : 2 ^ k < 2 ^ w := Nat.lt_of_le_of_lt (Nat.le_mul_of_pos_right _ (by omega)) bound
    exact (Nat.pow_lt_pow_iff_right (by decide)).mp this
  refine Nat.eq_of_testBit_eq fun i => ?_
  have complement : (2 ^ w - 2 ^ k * (2 * j + 1)).testBit i =
      (decide (i < w) && !(2 ^ k * (2 * j) + (2 ^ k - 1)).testBit i) := by
    rw [pred]
    exact Nat.testBit_two_pow_sub_succ below i
  rw [Nat.testBit_and,complement,Nat.testBit_two_pow_mul,Nat.testBit_two_pow_mul_add _ (by omega),Nat.testBit_two_pow]
  rcases Nat.lt_trichotomy i k with less | same | more
  · simp [less,Nat.not_le.mpr less,Nat.ne_of_gt less]
  · subst same
    simp [small,Nat.testBit_zero]
  · obtain ⟨n,hn⟩ : ∃ n, i - k = n + 1 := ⟨i - k - 1,by omega⟩
    have left : (2 * j + 1).testBit (n + 1) = j.testBit n := by
      rw [Nat.testBit_succ]
      congr 1
      omega
    have right : (2 * j).testBit (n + 1) = j.testBit n := by
      rw [Nat.testBit_succ]
      congr 1
      omega
    rw [hn,left,right,decide_eq_true (Nat.le_of_lt more),if_neg (Nat.not_lt.mpr (Nat.le_of_lt more)),
      decide_eq_false (Nat.ne_of_lt more)]
    cases j.testBit n <;> simp

theorem ofIntToNat {w n : Nat} (bound : n < 2 ^ w) : (BitVec.ofInt w n).toNat = n := by
  rw [BitVec.toNat_ofInt,← Int.natCast_mod,Int.toNat_natCast,Nat.mod_eq_of_lt bound]

theorem ofIntNegToNat {w n : Nat} (pos : 0 < n) (bound : n < 2 ^ w) : (BitVec.ofInt w (-n)).toNat = 2 ^ w - n := by
  have same : (-(n : Int)) % ((2 ^ w : Nat) : Int) = ((2 ^ w - n : Nat) : Int) := by
    rw [← Int.add_emod_right,Int.emod_eq_of_lt] <;> omega
  rw [BitVec.toNat_ofInt,same,Int.toNat_natCast]

theorem toIntWrap {w : Nat} (x : BitVec w) : x.toInt = wrap w x.toNat := BitVec.toInt_eq_toNat_bmod x

theorem lowestBitOf {w k j n : Nat} (split : n = 2 ^ k * (2 * j + 1)) (bound : n < 2 ^ w) :
    lowestBit w n = wrap w ((2 ^ k : Nat) : Int) := by
  have pos : 0 < n := by
    rw [split]
    exact Nat.mul_pos (Nat.two_pow_pos k) (by omega)
  rw [lowestBit,toIntWrap,BitVec.toNat_and,ofIntToNat bound,ofIntNegToNat pos bound,split,andComplement (split ▸ bound)]

theorem lowestBitNeg (w : Nat) (v : Int) : lowestBit w (-v) = lowestBit w v := by
  rw [lowestBit,lowestBit,Int.neg_neg,BitVec.and_comm]

theorem ofIntWrap (w : Nat) (v : Int) : BitVec.ofInt w (wrap w v) = BitVec.ofInt w v := by
  refine BitVec.eq_of_toInt_eq ?_
  rw [BitVec.toInt_ofInt,BitVec.toInt_ofInt]
  exact Int.bmod_bmod

theorem powerBits (w k : Nat) : BitVec.ofInt w (2 ^ k) = BitVec.twoPow w k := by
  apply BitVec.eq_of_toNat_eq
  rw [BitVec.toNat_ofInt,BitVec.toNat_twoPow]
  norm_cast

theorem lowestBitWrap (w : Nat) (v : Int) : lowestBit w (wrap w v) = lowestBit w v := by
  have negated : BitVec.ofInt w (-wrap w v) = BitVec.ofInt w (-v) := by
    rw [BitVec.ofInt_neg,ofIntWrap,← BitVec.ofInt_neg]
  rw [lowestBit,lowestBit,ofIntWrap,negated]

-- Below the modulus the wrapped value determines the number.
theorem wrapInjective {w m n : Nat} (left : m < 2 ^ w) (right : n < 2 ^ w) :
    wrap w (m : Int) = wrap w (n : Int) ↔ m = n := by
  refine ⟨fun same => ?_,fun same => by rw [same]⟩
  have bits : BitVec.ofInt w (m : Int) = BitVec.ofInt w (n : Int) := by rw [← ofIntWrap w m,same,ofIntWrap]
  have nats := congrArg BitVec.toNat bits
  rwa [ofIntToNat left,ofIntToNat right] at nats

theorem oddPart {n : Nat} (pos : 0 < n) : ∃ k j, n = 2 ^ k * (2 * j + 1) := by
  obtain ⟨k,m,odd,split⟩ := Nat.exists_eq_two_pow_mul_odd (Nat.ne_of_gt pos)
  obtain ⟨j,rfl⟩ := odd
  exact ⟨k,j,split⟩

theorem powerOfOddPart {n k j : Nat} (split : n = 2 ^ k * (2 * j + 1)) : 2 ^ k = n ↔ ∃ i, n = 2 ^ i := by
  refine ⟨fun same => ⟨k,same.symm⟩,fun ⟨i,power⟩ => ?_⟩
  have divides : 2 * j + 1 ∣ 2 ^ i := ⟨2 ^ k,by rw [← power,split,Nat.mul_comm]⟩
  obtain ⟨e,_,small⟩ := (Nat.dvd_prime_pow Nat.prime_two).mp divides
  cases e with
  | zero =>
    rw [split,small]
    simp
  | succ e =>
    rw [Nat.pow_succ] at small
    omega

section
variable {w : Nat} {d : Int}

theorem magnitudeBound (hw : 0 < w) (inside : InRange w d) : d.natAbs < 2 ^ w ∧ (d.natAbs : Int) ≤ half w := by
  have mod := modulusHalf hw
  have pos := halfPos w
  have cast : ((2 ^ w : Nat) : Int) = modulus w := by simp [modulus]
  simp only [InRange,minSigned,maxSigned] at inside
  omega

theorem lowestBitMagnitude (hw : 0 < w) (inside : InRange w d) (nonzero : d ≠ 0) :
    ∃ k j, d.natAbs = 2 ^ k * (2 * j + 1) ∧ lowestBit w d = wrap w ((2 ^ k : Nat) : Int) := by
  obtain ⟨k,j,split⟩ := oddPart (Int.natAbs_pos.mpr nonzero)
  refine ⟨k,j,split,?_⟩
  rw [← lowestBitOf split (magnitudeBound hw inside).1]
  rcases Int.natAbs_eq d with positive | negative
  · rw [← positive]
  · rw [← lowestBitNeg,show -d = (d.natAbs : Int) by omega]

theorem oddPartLe {n k j : Nat} (split : n = 2 ^ k * (2 * j + 1)) : 2 ^ k ≤ n := by
  rw [split]
  exact Nat.le_mul_of_pos_right _ (by omega)

theorem wrapMagnitude (hw : 0 < w) (inside : InRange w d) : (if d < 0 then wrap w (-d) else d) = wrap w (d.natAbs : Int) := by
  split
  · rw [show (d.natAbs : Int) = -d by omega]
  · rw [show (d.natAbs : Int) = d by omega,wrapSelf hw inside]

theorem isPowerOf2Iff (hw : 0 < w) (inside : InRange w d) (nonzero : d ≠ 0) :
    isPowerOf2 w d = true ↔ ∃ k, d.natAbs = 2 ^ k := by
  obtain ⟨k,j,split,_⟩ := lowestBitMagnitude hw inside nonzero
  have bound := (magnitudeBound hw inside).1
  have small := oddPartLe split
  simp only [isPowerOf2,wrapMagnitude hw inside,decide_eq_true_eq]
  rw [lowestBitWrap,lowestBitOf split bound,wrapInjective (by omega) bound]
  exact powerOfOddPart split

theorem isNonNegativePowerOf2Iff (hw : 0 < w) (inside : InRange w d) (nonzero : d ≠ 0) :
    isNonNegativePowerOf2 w d = true ↔ 0 < d ∧ ∃ k, d.natAbs = 2 ^ k := by
  obtain ⟨k,j,split,lowest⟩ := lowestBitMagnitude hw inside nonzero
  obtain ⟨bound,atMost⟩ := magnitudeBound hw inside
  have small := oddPartLe split
  have twoPos : 0 < 2 ^ k := Nat.two_pow_pos k
  have half := halfPos w
  unfold isNonNegativePowerOf2
  by_cases min : d = minSigned w
  · simp only [minSigned] at min
    simp only [min,minSigned,if_true,Bool.false_eq_true,false_iff]
    omega
  · rw [if_neg min,decide_eq_true_eq,lowest]
    by_cases positive : 0 < d
    · rw [← powerOfOddPart split,and_iff_right positive]
      have self : wrap w (d.natAbs : Int) = d := by rw [show (d.natAbs : Int) = d by omega,wrapSelf hw inside]
      rw [← wrapInjective (by omega) bound,self]
    · refine iff_of_false (fun same => ?_) fun h => positive h.1
      simp only [InRange,minSigned,maxSigned] at inside min
      have self : wrap w ((2 ^ k : Nat) : Int) = ((2 ^ k : Nat) : Int) :=
        wrapSelf hw ⟨by simp only [minSigned]; omega,by simp only [maxSigned]; omega⟩
      omega

theorem isNonPositivePowerOf2Iff (hw : 0 < w) (inside : InRange w d) (nonzero : d ≠ 0) :
    isNonPositivePowerOf2 w d = true ↔ d < 0 ∧ ∃ k, d.natAbs = 2 ^ k := by
  obtain ⟨k,j,split,lowest⟩ := lowestBitMagnitude hw inside nonzero
  obtain ⟨bound,atMost⟩ := magnitudeBound hw inside
  have small := oddPartLe split
  have twoPos : 0 < 2 ^ k := Nat.two_pow_pos k
  unfold isNonPositivePowerOf2
  rw [decide_eq_true_eq,lowest]
  by_cases negative : d < 0
  · rw [← powerOfOddPart split,and_iff_right negative,show -d = (d.natAbs : Int) by omega]
    exact wrapInjective (by omega) bound
  · refine iff_of_false (fun same => ?_) fun h => negative h.1
    simp only [InRange,minSigned,maxSigned] at inside
    have self : wrap w ((2 ^ k : Nat) : Int) = ((2 ^ k : Nat) : Int) :=
      wrapSelf hw ⟨by simp only [minSigned]; omega,by simp only [maxSigned]; omega⟩
    have other : wrap w (-d) = -d := wrapSelf hw ⟨by simp only [minSigned]; omega,by simp only [maxSigned]; omega⟩
    omega

/- The exponent for a power of two of either sign, else -1. -/
theorem checkPower (hw : 0 < w) (inside : InRange w d) (nonzero : d ≠ 0) :
    (∃ k : Nat, d.natAbs = 2 ^ k ∧ checkPositiveOrNegativePowerOfTwo w d = k) ∨
      ((¬ ∃ k : Nat, d.natAbs = 2 ^ k) ∧ checkPositiveOrNegativePowerOfTwo w d = -1) := by
  have bound := (magnitudeBound hw inside).1
  have cast : ((2 ^ w : Nat) : Int) = modulus w := by simp [modulus]
  unfold checkPositiveOrNegativePowerOfTwo
  by_cases power : ∃ k : Nat, d.natAbs = 2 ^ k
  · obtain ⟨k,hk⟩ := power
    refine .inl ⟨k,hk,?_⟩
    by_cases positive : 0 < d
    · rw [if_pos ((isNonNegativePowerOf2Iff hw inside nonzero).mpr ⟨positive,k,hk⟩)]
      have unsigned : toUnsigned w d = d := Int.emod_eq_of_lt (by omega) (by omega)
      rw [unsigned,show d.toNat = 2 ^ k by omega,countShiftsPower]
    · rw [if_neg fun h => positive ((isNonNegativePowerOf2Iff hw inside nonzero).mp h).1,
        if_pos ((isNonPositivePowerOf2Iff hw inside nonzero).mpr ⟨by omega,k,hk⟩)]
      have unsigned : toUnsigned w (-d) = -d := Int.emod_eq_of_lt (by omega) (by omega)
      rw [unsigned,show (-d).toNat = 2 ^ k by omega,countShiftsPower]
  · refine .inr ⟨power,?_⟩
    rw [if_neg fun h => power ((isNonNegativePowerOf2Iff hw inside nonzero).mp h).2,
      if_neg fun h => power ((isNonPositivePowerOf2Iff hw inside nonzero).mp h).2]

end
end OmrCompiler.PowerOfTwo
