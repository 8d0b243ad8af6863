import OmrCompiler.ILTree
import Mathlib.Tactic.Ring

/-! Divisions and remainders by powers of two through shifts and masks, on the
operations of the integer opcodes. -/
namespace OmrCompiler.ShiftArithmetic
open MachineInt Constraint ILTree

section Masks
variable {w k : Nat} {x : Int}

theorem ofIntNat (w : Nat) (x : Int) : ((BitVec.ofInt w x).toNat : Int) = x % modulus w := by
  have cast : ((2 ^ w : Nat) : Int) = modulus w := by simp [modulus]
  rw [BitVec.toNat_ofInt,Int.toNat_of_nonneg (Int.emod_nonneg _ (by positivity)),cast]

theorem powerBelow (small : k < w) : (2 : Int) ^ k ≤ half w := by
  refine pow_le_pow_right₀ (by decide) ?_
  omega

theorem halfSplit (small : k < w) : half w = 2 ^ (w - 1 - k) * 2 ^ k := by
  rw [half,← pow_add]
  congr 1
  omega

-- The low bits are the remainder of the floor division.
theorem andLow (small : k < w) : BinaryOp.and.eval w x (2 ^ k - 1) = x % 2 ^ k := by
  have hw : 0 < w := by omega
  have below := powerBelow small
  have pos : (0 : Int) < 2 ^ k := by positivity
  have mask : (BitVec.ofInt w ((2 : Int) ^ k - 1)).toNat = 2 ^ k - 1 := by
    have mod := modulusHalf hw
    have read := ofIntNat w ((2 : Int) ^ k - 1)
    rw [Int.emod_eq_of_lt (by omega) (by omega)] at read
    have cast : ((2 ^ k - 1 : Nat) : Int) = 2 ^ k - 1 := by
      rw [Int.natCast_sub (Nat.one_le_two_pow)]
      simp
    omega
  have nats : (((BitVec.ofInt w x).toNat &&& (2 ^ k - 1) : Nat) : Int) = x % 2 ^ k := by
    rw [Nat.and_two_pow_sub_one_eq_mod,Int.natCast_mod,ofIntNat]
    have divides : ((2 ^ k : Nat) : Int) ∣ modulus w := by
      refine ⟨2 ^ (w - k),?_⟩
      rw [modulus]
      push_cast
      rw [← pow_add]
      congr 1
      omega
    rw [Int.emod_emod_of_dvd _ divides]
    simp
  rw [BinaryOp.eval,BitVec.toInt_eq_toNat_bmod,BitVec.toNat_and,mask,nats]
  have range := Int.emod_lt_of_pos x pos
  have nonneg := Int.emod_nonneg x (Int.ne_of_gt pos)
  exact wrapSelf hw ⟨by simp only [minSigned]; omega,by simp only [maxSigned]; omega⟩

theorem andSplit (a m : BitVec w) : (a &&& m) + (a &&& ~~~m) = a := by
  have disjoint : (a &&& m) &&& (a &&& ~~~m) = 0#w := by
    ext i hi
    simp only [BitVec.getElem_and,BitVec.getElem_not,BitVec.getElem_zero]
    cases a[i] <;> cases m[i] <;> rfl
  rw [BitVec.add_eq_or_of_and_eq_zero _ _ disjoint]
  ext i hi
  simp only [BitVec.getElem_or,BitVec.getElem_and,BitVec.getElem_not]
  cases a[i] <;> cases m[i] <;> rfl

theorem floorPower (x : Int) (k : Nat) : x / 2 ^ k * 2 ^ k = x - x % 2 ^ k := by
  have := Int.emod_add_mul_ediv x (2 ^ k)
  rw [Int.mul_comm]
  omega

theorem floorPowerRange (small : k < w) (inside : InRange w x) : InRange w (x - x % 2 ^ k) := by
  have pos : (0 : Int) < 2 ^ k := by positivity
  have nonneg := Int.emod_nonneg x (Int.ne_of_gt pos)
  simp only [InRange,minSigned,maxSigned] at *
  refine ⟨?_,by omega⟩
  rw [← floorPower,halfSplit small,← Int.neg_mul]
  refine Int.mul_le_mul_of_nonneg_right ((Int.le_ediv_iff_mul_le pos).mpr ?_) (Int.le_of_lt pos)
  rw [Int.neg_mul,← halfSplit small]
  exact inside.1

theorem ofIntHigh (w k : Nat) : BitVec.ofInt w (-2 ^ k) = ~~~BitVec.ofInt w (2 ^ k - 1) := by
  have one : BitVec.ofInt w (-1) = -1#w := by
    rw [BitVec.ofInt_neg]
    rfl
  rw [BitVec.not_eq_neg_add,← BitVec.ofInt_neg,BitVec.sub_eq_add_neg,← one,← BitVec.ofInt_add]
  congr 1
  ring

-- The high bits are the multiple of the power below.
theorem andHigh (small : k < w) (inside : InRange w x) : BinaryOp.and.eval w x (-2 ^ k) = x - x % 2 ^ k := by
  have hw : 0 < w := by omega
  have low := andLow (x := x) small
  have parts := andSplit (BitVec.ofInt w x) (BitVec.ofInt w (2 ^ k - 1))
  have difference : BitVec.ofInt w x &&& ~~~BitVec.ofInt w (2 ^ k - 1) =
      BitVec.ofInt w x - (BitVec.ofInt w x &&& BitVec.ofInt w (2 ^ k - 1)) := by
    conv_rhs => lhs; rw [← parts]
    rw [BitVec.add_comm,BitVec.add_sub_cancel]
  have value : (BitVec.ofInt w x).toInt = x := by
    rw [BitVec.toInt_ofInt]
    exact wrapSelf hw inside
  simp only [BinaryOp.eval] at low ⊢
  rw [ofIntHigh,difference,BitVec.toInt_sub,low,value]
  exact wrapSelf hw (floorPowerRange small inside)

end Masks

section Shifts
variable {w k : Nat} {x : Int}

theorem shiftByNat (small : k < w) : shiftBy w k = k := by
  rw [shiftBy,Int.emod_eq_of_lt (by omega) (by omega),Int.toNat_natCast]

theorem shrFloor (small : k < w) : BinaryOp.shr.eval w x k = x / 2 ^ k := by rw [BinaryOp.eval,shiftByNat small]

-- Rounding towards zero is rounding down after a bias on the negative side.
def bias (k : Nat) (x : Int) : Int := if x < 0 then 2 ^ k - 1 else 0

theorem tdivBias (k : Nat) (x : Int) : x.tdiv (2 ^ k) = (x + bias k x) / 2 ^ k := by
  have pos : (0 : Int) < 2 ^ k := by positivity
  unfold bias
  split
  · rename_i negative
    have down : x.tdiv (2 ^ k) = -((-x) / 2 ^ k) := by
      rw [← Int.tdiv_eq_ediv_of_nonneg (by omega),Int.neg_tdiv,Int.neg_neg]
    have parts := Int.emod_add_mul_ediv (-x) (2 ^ k)
    have lower := Int.emod_nonneg (-x) (Int.ne_of_gt pos)
    have upper := Int.emod_lt_of_pos (-x) pos
    rw [down]
    refine Int.le_antisymm ((Int.le_ediv_iff_mul_le pos).mpr ?_)
      (Int.lt_add_one_iff.mp ((Int.ediv_lt_iff_lt_mul pos).mpr ?_))
    · rw [Int.neg_mul,Int.mul_comm]
      omega
    · rw [Int.add_mul,Int.neg_mul,Int.mul_comm,Int.one_mul]
      omega
  · rw [Int.add_zero,Int.tdiv_eq_ediv_of_nonneg (by omega)]

theorem tmodBias (k : Nat) (x : Int) : x.tmod (2 ^ k) = x - ((x + bias k x) - (x + bias k x) % 2 ^ k) := by
  have parts := Int.tmod_add_mul_tdiv x (2 ^ k)
  rw [← floorPower,← tdivBias,Int.mul_comm]
  omega

theorem biasRange (small : k < w) (inside : InRange w x) : InRange w (x + bias k x) := by
  have below := powerBelow small
  have pos : (0 : Int) < 2 ^ k := by positivity
  unfold bias
  simp only [InRange,minSigned,maxSigned] at *
  split <;> omega

theorem floorMul {a b c : Int} (pos : 0 < b) (lower : c * b ≤ a) (upper : a < (c + 1) * b) : a / b = c :=
  Int.le_antisymm (Int.lt_add_one_iff.mp ((Int.ediv_lt_iff_lt_mul pos).mpr upper)) ((Int.le_ediv_iff_mul_le pos).mpr lower)

/- The bias as the shifts compute it: copies of the sign in the low k bits. -/
theorem biasShifts (low : 1 ≤ k) (small : k < w) (inside : InRange w x) :
    BinaryOp.ushr.eval w (x / 2 ^ (k - 1)) ((w - k : Nat) : Int) = bias k x := by
  have hw : 0 < w := by omega
  have mod := modulusHalf hw
  have below := powerBelow small
  have topPos : (0 : Int) < 2 ^ (w - k) := by positivity
  have lowPos : (0 : Int) < 2 ^ (k - 1) := by positivity
  have top : half w = 2 ^ (w - k) * 2 ^ (k - 1) := by
    rw [half,← pow_add]
    congr 1
    omega
  have whole : modulus w = 2 ^ k * 2 ^ (w - k) := by
    rw [modulus,← pow_add]
    congr 1
    omega
  have kPos : (0 : Int) < 2 ^ k := by positivity
  have upper : x / 2 ^ (k - 1) < 2 ^ (w - k) := by
    refine (Int.ediv_lt_iff_lt_mul lowPos).mpr ?_
    rw [← top]
    have := inside.2
    simp only [maxSigned] at this
    omega
  have lower : -2 ^ (w - k) ≤ x / 2 ^ (k - 1) := by
    refine (Int.le_ediv_iff_mul_le lowPos).mpr ?_
    rw [Int.neg_mul,← top]
    exact inside.1
  have fits : (2 : Int) ^ (w - k) ≤ modulus w := by
    rw [whole]
    nlinarith
  simp only [BinaryOp.eval,shiftByNat (show w - k < w by omega),bias]
  by_cases negative : x < 0
  · have sign := Int.ediv_neg_of_neg_of_pos negative lowPos
    have turned : toUnsigned w (x / 2 ^ (k - 1)) = x / 2 ^ (k - 1) + modulus w := by
      rw [toUnsigned,← Int.add_emod_right]
      exact Int.emod_eq_of_lt (by omega) (by omega)
    rw [turned,if_pos negative,floorMul (c := 2 ^ k - 1) topPos (by rw [Int.sub_mul,← whole]; omega)
      (by rw [Int.sub_add_cancel,← whole]; omega)]
    exact wrapSelf hw ⟨by simp only [minSigned]; omega,by simp only [maxSigned]; omega⟩
  · have sign := Int.ediv_nonneg (show 0 ≤ x by omega) (Int.le_of_lt lowPos)
    have plain : toUnsigned w (x / 2 ^ (k - 1)) = x / 2 ^ (k - 1) := Int.emod_eq_of_lt sign (by omega)
    rw [plain,if_neg negative,Int.ediv_eq_zero_of_lt sign upper]
    exact wrapSelf hw ⟨by simp only [minSigned]; omega,by simp only [maxSigned]; omega⟩

end Shifts
end OmrCompiler.ShiftArithmetic
