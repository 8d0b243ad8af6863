import OmrCompiler.ShiftRange

/-! Bitwise conjunction of signed integers: its bounds, masks of low bits, operands with
trailing zeroes, and shifts below a mask. -/
namespace OmrCompiler.MaskArithmetic
open MachineInt ILTree ShiftRange

section Words
variable {w : Nat} {x y : Int}

-- The word of a value, as a natural number.
def word (w : Nat) (x : Int) : Nat := (BitVec.ofInt w x).toNat

theorem wordReads (w : Nat) (x : Int) : (word w x : Int) = toUnsigned w x := by
  have cast : ((2 ^ w : Nat) : Int) = modulus w := by simp [modulus]
  rw [word,BitVec.toNat_ofInt,cast]
  have pos : 0 < modulus w := Int.pow_pos (by decide)
  exact Int.toNat_of_nonneg (Int.emod_nonneg x (by omega))

theorem wordNonneg (hw : 0 < w) (inside : InRange w x) (nonneg : 0 ≤ x) : (word w x : Int) = x := by
  rw [wordReads,unsignedNonneg hw inside nonneg]

theorem wordNegative (hw : 0 < w) (inside : InRange w x) (negative : x < 0) : (word w x : Int) = x + modulus w := by
  rw [wordReads,toUnsignedNegative hw inside negative]

theorem wordBelow (w : Nat) (x : Int) : word w x < 2 ^ w := (BitVec.ofInt w x).isLt

-- The word of a result read as a signed value.
theorem wordSigned (hw : 0 < w) (inside : InRange w x) (z : Nat) (same : word w x = z) :
    ((z : Int) < half w ∧ x = z) ∨ (half w ≤ (z : Int) ∧ x = z - modulus w) := by
  have mod := modulusHalf hw
  rcases lt_or_ge x 0 with negative | nonneg
  · have := wordNegative hw inside negative
    simp only [InRange,minSigned,maxSigned] at inside
    exact .inr (by omega)
  · have := wordNonneg hw inside nonneg
    simp only [InRange,minSigned,maxSigned] at inside
    exact .inl (by omega)

theorem andWord (w : Nat) (x y : Int) : word w (BinaryOp.and.eval w x y) = word w x &&& word w y := by
  simp only [word,BinaryOp.eval,BitVec.ofInt_toInt,BitVec.toNat_and]

theorem wordInjective (hw : 0 < w) (left : InRange w x) (right : InRange w y) (same : word w x = word w y) : x = y := by
  have readX := wordReads w x
  have readY := wordReads w y
  rw [unsignedOfSigned hw left] at readX
  rw [unsignedOfSigned hw right] at readY
  have mod := modulusHalf hw
  simp only [InRange,minSigned,maxSigned] at left right
  rw [same] at readX
  split at readX <;> split at readY <;> omega

theorem andComm (w : Nat) (x y : Int) : BinaryOp.and.eval w x y = BinaryOp.and.eval w y x := by
  simp only [BinaryOp.eval,BitVec.and_comm]

theorem andBelow (hw : 0 < w) (right : InRange w y) (nonneg : 0 ≤ y) (x : Int) :
    0 ≤ BinaryOp.and.eval w x y ∧ BinaryOp.and.eval w x y ≤ y := by
  have inside : InRange w (BinaryOp.and.eval w x y) := andRange hw
  have below : word w x &&& word w y ≤ word w y := Nat.and_le_right
  have value := wordNonneg hw right nonneg
  have half := halfPos w
  have signed := wordSigned hw inside _ (andWord w x y)
  simp only [InRange,minSigned,maxSigned] at right
  omega

theorem andAssoc (w : Nat) (x y z : Int) :
    BinaryOp.and.eval w (BinaryOp.and.eval w x y) z = BinaryOp.and.eval w x (BinaryOp.and.eval w y z) := by
  simp only [BinaryOp.eval,BitVec.ofInt_toInt,BitVec.and_assoc]

-- A mask of low bits keeps what fits below it.
theorem andMask {k : Nat} (hw : 0 < w) (mask : InRange w (2 ^ k - 1)) (lower : 0 ≤ x) (upper : x ≤ 2 ^ k - 1) :
    BinaryOp.and.eval w x (2 ^ k - 1) = x := by
  have inside : InRange w x := ⟨by have := halfPos w; simp only [minSigned]; omega,Int.le_trans upper mask.2⟩
  have cast : ((2 ^ k - 1 : Nat) : Int) = 2 ^ k - 1 := by
    have := Nat.two_pow_pos k
    rw [Nat.cast_sub (by omega)]
    simp
  have ofMask : word w (2 ^ k - 1) = 2 ^ k - 1 := by
    have := wordNonneg hw mask (by omega)
    omega
  have ofValue := wordNonneg hw inside lower
  have small : word w x < 2 ^ k := by
    have := Nat.two_pow_pos k
    omega
  refine wordInjective hw (andRange hw) inside ?_
  rw [andWord,ofMask,Nat.and_two_pow_sub_one_of_lt_two_pow small]

theorem andMax (hw : 0 < w) (inside : InRange w x) (nonneg : 0 ≤ x) : BinaryOp.and.eval w x (maxSigned w) = x :=
  andMask (k := w - 1) hw ⟨by have := halfPos w; simp only [minSigned]; change -half w ≤ half w - 1; omega,Int.le_refl _⟩
    nonneg inside.2

-- Under a negative mask a nonnegative result lies below the rest of the mask.
theorem andNegative (hw : 0 < w) (x y : Int) : BinaryOp.and.eval w x y ≤ BinaryOp.and.eval w y (maxSigned w) := by
  have half := halfPos w
  have most : InRange w (maxSigned w) := ⟨by simp only [minSigned,maxSigned]; omega,Int.le_refl _⟩
  have rest := andBelow hw most (by simp only [maxSigned]; omega) y
  have inside : InRange w (BinaryOp.and.eval w x y) := andRange hw
  rcases lt_or_ge (BinaryOp.and.eval w x y) 0 with negative | nonneg
  · omega
  · rw [← andMax hw inside nonneg,andAssoc]
    exact (andBelow hw (andRange hw) rest.1 x).2

-- Bits below the trailing zeroes of the other operand are lost.
theorem andMultiple {s : Nat} (hw : 0 < w) (short : s ≤ w) (multiple : 2 ^ s ∣ x) (right : InRange w y) (lower : 0 ≤ y)
    (upper : y < 2 ^ s) : BinaryOp.and.eval w x y = 0 := by
  have small : word w y < 2 ^ s := by
    have := wordNonneg hw right lower
    exact_mod_cast this ▸ upper
  have divides : 2 ^ s ∣ word w x := by
    have turns : (2 : Int) ^ s ∣ toUnsigned w x := by
      refine Int.dvd_of_emod_eq_zero ?_
      rw [toUnsigned,Int.emod_emod_of_dvd x (show (2 : Int) ^ s ∣ modulus w from pow_dvd_pow 2 short)]
      exact Int.emod_eq_zero_of_dvd multiple
    rw [← wordReads] at turns
    exact_mod_cast turns
  have zero : InRange w 0 := by
    have := halfPos w
    exact ⟨by simp only [minSigned]; omega,by simp only [maxSigned]; omega⟩
  have ofZero := wordNonneg hw zero (Int.le_refl 0)
  refine wordInjective hw (andRange hw) zero ?_
  have below : word w x &&& word w y < 2 ^ s := Nat.lt_of_le_of_lt Nat.and_le_right small
  rw [andWord,← Nat.mod_eq_of_lt below,Nat.and_mod_two_pow,Nat.mod_eq_zero_of_dvd divides,Nat.zero_and]
  omega

-- A signed shift and an unsigned one by the same amount.
theorem shiftedWords {s : Nat} (hw : 0 < w) (some : 0 < s) (short : s ≤ w) (x : Int) :
    word w (unsignedShift w x s) < 2 ^ (w - s) ∧ word w (x / 2 ^ s) % 2 ^ (w - s) = word w (unsignedShift w x s) := by
  obtain ⟨shifted,lower,upper⟩ := unsignedShifted hw x some
  have reads := wordReads w (x / 2 ^ s)
  have range : InRange w (unsignedShift w x s) := wrapRange hw _
  have ofShifted : (word w (unsignedShift w x s) : Int) = toUnsigned w x / 2 ^ s :=
    (wordNonneg hw range (shifted ▸ lower)).trans shifted
  have split : (2 : Int) ^ (w - s) * 2 ^ s = modulus w := by
    rw [← pow_add,Nat.sub_add_cancel short,modulus]
  have pos : (0 : Int) < 2 ^ s := Int.pow_pos (by decide)
  have small : toUnsigned w x / 2 ^ s < 2 ^ (w - s) := by
    refine (Int.ediv_lt_iff_lt_mul pos).mpr ?_
    rw [split]
    exact (toUnsignedRange hw x).2
  refine ⟨by exact_mod_cast ofShifted ▸ small,?_⟩
  have turns : x / 2 ^ s = toUnsigned w x / 2 ^ s + x / modulus w * 2 ^ (w - s) := by
    have whole := Int.emod_add_mul_ediv x (modulus w)
    have exact' : x = toUnsigned w x + (x / modulus w * 2 ^ (w - s)) * 2 ^ s := by
      rw [mul_assoc,split,toUnsigned,mul_comm]
      omega
    conv_lhs => rw [exact']
    exact Int.add_mul_ediv_right _ _ (by omega)
  have residue : (word w (x / 2 ^ s) : Int) % 2 ^ (w - s) = word w (unsignedShift w x s) := by
    rw [reads,ofShifted,toUnsigned,Int.emod_emod_of_dvd _ (show (2 : Int) ^ (w - s) ∣ modulus w from pow_dvd_pow 2 (by omega)),turns,
      Int.add_mul_emod_self_right]
    exact Int.emod_eq_of_lt lower small
  exact_mod_cast residue

-- Under a mask that the bits shifted in do not reach the two shifts agree.
theorem shiftedAgree {s : Nat} (hw : 0 < w) (some : 0 < s) (short : s ≤ w) (x : Int) (right : InRange w y) (lower : 0 ≤ y)
    (upper : y < 2 ^ (w - s)) : BinaryOp.and.eval w (unsignedShift w x s) y = BinaryOp.and.eval w (x / 2 ^ s) y := by
  have small : word w y < 2 ^ (w - s) := by
    have := wordNonneg hw right lower
    exact_mod_cast this ▸ upper
  have shifted := shiftedWords hw some short x
  refine wordInjective hw (andRange hw) (andRange hw) ?_
  have below : word w (x / 2 ^ s) &&& word w y < 2 ^ (w - s) := Nat.lt_of_le_of_lt Nat.and_le_right small
  rw [andWord,andWord,← Nat.mod_eq_of_lt below,Nat.and_mod_two_pow,shifted.2,Nat.mod_eq_of_lt small]

-- Under any other mask they differ on every negative value.
theorem shiftedDiffer {s : Nat} (hw : 0 < w) (some : 0 < s) (short : s ≤ w) (left : InRange w x) (negative : x < 0)
    (reached : 2 ^ (w - s) ≤ word w y) : BinaryOp.and.eval w (unsignedShift w x s) y ≠ BinaryOp.and.eval w (x / 2 ^ s) y := by
  intro same
  have words := congrArg (word w) same
  rw [andWord,andWord] at words
  have pos : (0 : Int) < 2 ^ s := Int.pow_pos (by decide)
  have small : word w (unsignedShift w x s) &&& word w y < 2 ^ (w - s) :=
    Nat.lt_of_le_of_lt Nat.and_le_left (shiftedWords hw some short x).1
  have split : (2 : Nat) ^ s * 2 ^ (w - s) = 2 ^ w := by rw [← pow_add,Nat.add_sub_cancel' short]
  have cast : (2 : Int) ^ s * 2 ^ (w - s) = modulus w := by rw [← pow_add,Nat.add_sub_cancel' short,modulus]
  have ones : word w (x / 2 ^ s) / 2 ^ (w - s) = 2 ^ s - 1 := by
    have shifted := wordNegative hw (floorRange left s) (Int.ediv_neg_of_neg_of_pos negative pos)
    have least : -(2 ^ (w - s)) ≤ x / 2 ^ s := by
      refine (Int.le_ediv_iff_mul_le pos).mpr ?_
      have mod := modulusHalf hw
      have half := halfPos w
      simp only [InRange,minSigned] at left
      rw [Int.neg_mul,Int.mul_comm,cast]
      omega
    have lower : (2 ^ s - 1) * 2 ^ (w - s) ≤ word w (x / 2 ^ s) := by
      have enough : modulus w - 2 ^ (w - s) ≤ (word w (x / 2 ^ s) : Int) := by omega
      rw [Nat.sub_mul,split,Nat.one_mul]
      have natural : ((2 ^ w - 2 ^ (w - s) : Nat) : Int) = modulus w - 2 ^ (w - s) := by
        rw [Nat.cast_sub (Nat.pow_le_pow_right (by decide) (by omega))]
        simp [modulus]
      omega
    have upper : word w (x / 2 ^ s) < (2 ^ s - 1 + 1) * 2 ^ (w - s) := by
      rw [Nat.sub_add_cancel (Nat.one_le_two_pow),split]
      exact wordBelow w _
    exact Nat.div_eq_of_lt_le lower upper
  have top : word w y / 2 ^ (w - s) < 2 ^ s := by
    refine (Nat.div_lt_iff_lt_mul (Nat.two_pow_pos _)).mpr ?_
    rw [split]
    exact wordBelow w y
  have kept : (word w (x / 2 ^ s) &&& word w y) / 2 ^ (w - s) = word w y / 2 ^ (w - s) := by
    rw [Nat.and_div_two_pow,ones,Nat.and_comm,Nat.and_two_pow_sub_one_of_lt_two_pow top]
  rw [← words,Nat.div_eq_of_lt small] at kept
  have := Nat.div_pos reached (Nat.two_pow_pos (w - s))
  omega

end Words

end OmrCompiler.MaskArithmetic
