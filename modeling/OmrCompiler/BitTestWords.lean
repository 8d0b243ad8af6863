import OmrCompiler.BitTest
import OmrCompiler.MaskArithmetic
import OmrCompiler.PowerOfTwo

/-! When a comparison of shifted words agrees with the comparison of the words. -/
namespace OmrCompiler.BitTestWords
open MachineInt CompareHandlers BitwiseBranch
open SimplifierTrees (BinaryOp shiftBy)
open MaskArithmetic (word wordReads wordBelow)
open PowerOfTwo (ofIntWrap toIntWrap)

-- A word of t values read as a signed number.
def signedOf (t z : Int) : Int := if 2 * z < t then z else z - t

def readWord (unsigned : Bool) (t z : Int) : Int := if unsigned then z else signedOf t z

section Orders
variable {t d a m n : Int} {z : Int} {unsigned : Bool}

theorem scaledRead (pos : 0 < d) (t z : Int) : readWord unsigned (d * t) (d * z) = d * readWord unsigned t z := by
  cases unsigned with
  | true => rfl
  | false =>
      have double : 2 * (d * z) = d * (2 * z) := by rw [Int.mul_left_comm]
      simp only [readWord,signedOf,double,Int.mul_lt_mul_left pos,Bool.false_eq_true,↓reduceIte]
      split
      · rfl
      · rw [Int.mul_sub]

theorem scaledHolds (pos : 0 < d) (r : Relation) (x y : Int) : r.holds (d * x) (d * y) = r.holds x y := by
  have less := Int.mul_lt_mul_left (b := x) (c := y) pos
  have more := Int.mul_lt_mul_left (b := y) (c := x) pos
  have same : d * x = d * y ↔ x = y := ⟨fun h => Int.eq_of_mul_eq_mul_left (Int.ne_of_gt pos) h,fun h => h ▸ rfl⟩
  cases r <;> simp only [Relation.holds,decide_eq_decide,ne_eq,same,ge_iff_le,gt_iff_lt] <;> omega

-- The comparison of z, scaled by d, against the comparison of z with h above its t values.
def Same (unsigned : Bool) (r : Relation) (t d m z h : Int) : Prop :=
  r.holds (readWord unsigned t z) (readWord unsigned t m) = r.holds (readWord unsigned (d * t) (z + t * h)) (readWord unsigned (d * t) m)

theorem sameReverse (r : Relation) (h : Int) : Same unsigned (reverse r) t d m z h ↔ Same unsigned r t d m z h := by
  rw [Same,Same,reverseHolds,reverseHolds,Bool.not_inj_iff]

-- The words of an or or an exclusive or: a is the least of them, and all bits set is one.
structure Reached (words : Int → Prop) (t a : Int) : Prop where
  least : words a
  most : words (t - 1)
  within : ∀ z, words z → a ≤ z ∧ z ≤ t - 1
  nonneg : 0 ≤ a

def Agree (words : Int → Prop) (unsigned : Bool) (r : Relation) (t d m : Int) : Prop := ∀ z, words z → ∀ h, 0 ≤ h → h < d → Same unsigned r t d m z h

theorem agreeReverse {words : Int → Prop} (r : Relation) : Agree words unsigned (reverse r) t d m ↔ Agree words unsigned r t d m :=
  ⟨fun agree z on h low high => (sameReverse r h).mp (agree z on h low high),fun agree z on h low high => (sameReverse r h).mpr (agree z on h low high)⟩

section Signed
variable {e h : Int}

theorem positiveRead (inside : 0 ≤ z ∧ z < t) (below : h < e) : readWord false (2 * e * t) (z + t * h) = z + t * h := by
  have comm : 2 * e * t = 2 * (t * e) := by rw [Int.mul_assoc,Int.mul_comm e]
  have step := Int.mul_le_mul_of_nonneg_left (show h + 1 ≤ e by omega) (show 0 ≤ t by omega)
  rw [Int.mul_add,Int.mul_one] at step
  rw [readWord,if_neg (by decide),signedOf,if_pos (by omega)]

-- The high half of the words is below zero.
theorem negativeRead (inside : 0 ≤ z ∧ z < t) (above : e ≤ h) (high : h < 2 * e) : readWord false (2 * e * t) (z + t * h) < 0 := by
  have comm : 2 * e * t = 2 * (t * e) := by rw [Int.mul_assoc,Int.mul_comm e]
  have half := Int.mul_le_mul_of_nonneg_left above (show 0 ≤ t by omega)
  have step := Int.mul_le_mul_of_nonneg_left (show h + 1 ≤ 2 * e by omega) (show 0 ≤ t by omega)
  have twice : t * (2 * e) = 2 * (t * e) := by rw [Int.mul_left_comm]
  rw [Int.mul_add,Int.mul_one,twice] at step
  rw [readWord,if_neg (by decide),signedOf,if_neg (by omega)]
  omega

theorem lowRead (pos : 1 ≤ e) (inside : 0 ≤ z ∧ z < t) : readWord unsigned (2 * e * t) z = z := by
  cases unsigned with
  | true => rfl
  | false =>
      have read := positiveRead (h := 0) (e := e) inside (by omega)
      rwa [Int.mul_zero,Int.add_zero] at read

theorem readInjective (first : 0 ≤ z ∧ z < t) (second : 0 ≤ m ∧ m < t) : readWord unsigned t z = readWord unsigned t m ↔ z = m := by
  cases unsigned with
  | true => rfl
  | false =>
      simp only [readWord,signedOf,Bool.false_eq_true,↓reduceIte]
      split <;> split <;> omega

end Signed

variable {words : Int → Prop} {e : Int} (reached : Reached words t a) (wide : 1 ≤ e) (inside : 0 ≤ m ∧ m < t)
include reached wide inside

theorem agreeLess : Agree words true .lt t (2 * e) m ↔ m ≤ a := by
  refine ⟨fun agree => ?_,fun least z on h low high => ?_⟩
  · have one := agree a reached.least 1 (by omega) (by omega)
    have nonneg := reached.nonneg
    simp only [Same,readWord,Relation.holds,↓reduceIte,decide_eq_decide,Int.mul_one] at one
    omega
  · have range := reached.within z on
    have above : 0 ≤ t * h := Int.mul_nonneg (by omega) low
    simp only [Same,readWord,Relation.holds,↓reduceIte,decide_eq_decide]
    omega

theorem agreeLessOrEqual : Agree words true .le t (2 * e) m ↔ m < a := by
  refine ⟨fun agree => ?_,fun least z on h low high => ?_⟩
  · have one := agree a reached.least 1 (by omega) (by omega)
    have nonneg := reached.nonneg
    simp only [Same,readWord,Relation.holds,↓reduceIte,decide_eq_decide,Int.mul_one] at one
    omega
  · have range := reached.within z on
    have above : 0 ≤ t * h := Int.mul_nonneg (by omega) low
    simp only [Same,readWord,Relation.holds,↓reduceIte,decide_eq_decide]
    omega

theorem agreeEqual : Agree words unsigned .eq t (2 * e) m ↔ ¬ words m := by
  refine ⟨fun agree on => ?_,fun off z on h low high => ?_⟩
  · have top := agree m on (2 * e - 1) (by omega) (by omega)
    have step := Int.mul_le_mul_of_nonneg_left (show 1 ≤ 2 * e - 1 by omega) (show 0 ≤ t by omega)
    have signed := negativeRead (e := e) (h := 2 * e - 1) inside (by omega) (by omega)
    simp only [Same,Relation.holds,lowRead wide inside,decide_true] at top
    have equal := of_decide_eq_true top.symm
    cases unsigned with
    | true =>
        simp only [readWord,↓reduceIte] at equal
        omega
    | false => omega
  · have range := reached.within z on
    have nonneg := reached.nonneg
    have apart : z ≠ m := fun same => off (same ▸ on)
    have left : ¬ readWord unsigned t z = readWord unsigned t m := fun same => apart ((readInjective ⟨by omega,by omega⟩ inside).mp same)
    have right : ¬ readWord unsigned (2 * e * t) (z + t * h) = m := by
      intro same
      have bounds : 0 ≤ z ∧ z < t := by omega
      have above : h = 0 ∨ t ≤ t * h := by
        rcases Int.lt_or_le 0 h with pos | none
        · have := Int.mul_le_mul_of_nonneg_left (show 1 ≤ h by omega) (show 0 ≤ t by omega)
          exact .inr (by omega)
        · exact .inl (by omega)
      have grows : 0 ≤ t * h := Int.mul_nonneg (by omega) low
      cases unsigned with
      | true =>
          simp only [readWord,↓reduceIte] at same
          rcases above with rfl | above <;> omega
      | false =>
          rcases Int.lt_or_le h e with below | beyond
          · rw [positiveRead bounds below] at same
            rcases above with rfl | above <;> omega
          · have negative := negativeRead bounds beyond high
            omega
    simp only [Same,Relation.holds,lowRead wide inside,left,right,decide_false]

theorem agreeSignedLess : ¬ Agree words false .lt t (2 * e) m := by
  intro agree
  have range := reached.within _ reached.most
  have nonneg := reached.nonneg
  have low := agree _ reached.most 0 (by omega) (by omega)
  have high := agree _ reached.most (2 * e - 1) (by omega) (by omega)
  have bounds : 0 ≤ t - 1 ∧ t - 1 < t := by omega
  have negative := negativeRead (e := e) (h := 2 * e - 1) bounds (by omega) (by omega)
  simp only [Same,Relation.holds,lowRead wide inside,lowRead wide bounds,Int.mul_zero,Int.add_zero] at low high
  rw [low] at high
  have same := decide_eq_decide.mp high
  omega

theorem agreeSignedLessOrEqual (long : e = 1 → 2 ≤ t) : Agree words false .le t (2 * e) m ↔ e = 1 ∧ m = t - 1 ∧ t ≤ 2 * a := by
  have nonneg := reached.nonneg
  have most := reached.within _ reached.most
  refine ⟨fun agree => ?_,fun bounds z on h low high => ?_⟩
  · have every : ∀ z, words z → signedOf t z ≤ signedOf t m := by
      intro z on
      have range := reached.within z on
      have high := agree z on (2 * e - 1) (by omega) (by omega)
      have negative := negativeRead (e := e) (h := 2 * e - 1) (show 0 ≤ z ∧ z < t by omega) (by omega) (by omega)
      simp only [Same,Relation.holds,lowRead wide inside] at high
      exact (decide_eq_decide.mp high).mpr (by omega)
    have last := every _ reached.most
    have first := every a reached.least
    have low := agree _ reached.most 0 (by omega) (by omega)
    have bounds : 0 ≤ t - 1 ∧ t - 1 < t := by omega
    simp only [Same,Relation.holds,lowRead wide inside,lowRead wide bounds,Int.mul_zero,Int.add_zero] at low
    have top : m = t - 1 := by
      have := (decide_eq_decide.mp low).mp last
      omega
    have narrow : e = 1 := by
      by_contra more
      have one := agree _ reached.most 1 (by omega) (by omega)
      have read := positiveRead (e := e) (h := 1) bounds (by omega)
      rw [Int.mul_one] at read
      simp only [Same,Relation.holds,lowRead wide inside,read,Int.mul_one] at one
      have := (decide_eq_decide.mp one).mp last
      omega
    have wideT := long narrow
    refine ⟨narrow,top,?_⟩
    rw [top,signedOf,signedOf] at first
    split at first <;> split at first <;> omega
  · obtain ⟨narrow,top,half⟩ := bounds
    have range := reached.within z on
    have left : signedOf t z ≤ signedOf t m := by
      have := long narrow
      rw [top,signedOf,signedOf]
      split <;> split <;> omega
    have right : readWord false (2 * e * t) (z + t * h) ≤ m := by
      have bounds : 0 ≤ z ∧ z < t := by omega
      rcases Int.lt_or_le h e with below | beyond
      · rw [positiveRead bounds below,show h = 0 by omega]
        omega
      · have := negativeRead bounds beyond high
        omega
    have left : readWord false t z ≤ readWord false t m := left
    simp only [Same,Relation.holds,lowRead wide inside,left,right]

end Orders

section Masked
variable {t m n e : Int} {words : Int → Prop} {unsigned : Bool}

-- The words of an and: those below a mask.
structure Below (words : Int → Prop) (t n : Int) : Prop where
  none : words 0
  half : t ≤ 2 * n → ∃ z, words z ∧ 2 * z = t
  within : ∀ z, words z → 0 ≤ z ∧ z ≤ n
  short : n < t

def AgreeBelow (words : Int → Prop) (unsigned : Bool) (r : Relation) (t d m : Int) : Prop := ∀ z, words z → Same unsigned r t d m z 0

theorem belowReverse (r : Relation) {d : Int} : AgreeBelow words unsigned (reverse r) t d m ↔ AgreeBelow words unsigned r t d m :=
  ⟨fun agree z on => (sameReverse r 0).mp (agree z on),fun agree z on => (sameReverse r 0).mpr (agree z on)⟩

theorem belowUnsigned (r : Relation) {d : Int} : AgreeBelow words true r t d m := by
  intro z on
  simp only [Same,readWord,↓reduceIte,Int.mul_zero,Int.add_zero]

variable (below : Below words t n) (wide : 1 ≤ e) (inside : 0 ≤ m ∧ m < t)
include below wide inside

theorem belowEqual : AgreeBelow words unsigned .eq t (2 * e) m := by
  intro z on
  have range := below.within z on
  have short := below.short
  have bounds : 0 ≤ z ∧ z < t := by omega
  simp only [Same,Relation.holds,Int.mul_zero,Int.add_zero,lowRead wide inside,lowRead wide bounds,readInjective bounds inside]

theorem belowSigned {r : Relation} (orders : r = .lt ∨ r = .le) : AgreeBelow words false r t (2 * e) m ↔ 2 * n < t ∧ 2 * m < t := by
  have short := below.short
  have reads : ∀ z, words z → (Same false r t (2 * e) m z 0 ↔ r.holds (signedOf t z) (signedOf t m) = r.holds z m) := by
    intro z on
    have range := below.within z on
    have bounds : 0 ≤ z ∧ z < t := by omega
    rw [Same,Int.mul_zero,Int.add_zero,lowRead wide inside,lowRead wide bounds]
    rfl
  refine ⟨fun agree => ?_,fun bounds z on => ?_⟩
  · have zero := (reads 0 below.none).mp (agree 0 below.none)
    have small : 2 * m < t := by
      by_contra large
      have first : signedOf t 0 = 0 := if_pos (by omega)
      have second : signedOf t m = m - t := if_neg large
      rw [first,second] at zero
      rcases orders with rfl | rfl <;> simp only [Relation.holds,decide_eq_decide] at zero <;> omega
    refine ⟨?_,small⟩
    by_contra large
    obtain ⟨z,on,twice⟩ := below.half (by omega)
    have top := (reads z on).mp (agree z on)
    have first : signedOf t z = z - t := if_neg (by omega)
    have second : signedOf t m = m := if_pos small
    rw [first,second] at top
    rcases orders with rfl | rfl <;> simp only [Relation.holds,decide_eq_decide] at top <;> omega
  · have range := below.within z on
    rw [reads z on,signedOf,signedOf,if_pos (by omega),if_pos (by omega)]

end Masked

section Words
variable {w d k : Nat} {x amount : Int}

theorem wordWrap (w : Nat) (x : Int) : word w (wrap w x) = word w x := by rw [word,ofIntWrap,word]

theorem wordNat (n : Nat) (short : n < 2 ^ w) : word w (n : Int) = n := by
  have reads := wordReads w (n : Int)
  rw [unsignedBelow (by omega) (by rw [modulus]; exact_mod_cast short)] at reads
  omega

-- A shift to the left keeps the low bits, scaled.
theorem wordShifted (split : k + d = w) (x : Int) : word w (x * 2 ^ d) = 2 ^ d * (word w x % 2 ^ k) := by
  have pos : (0 : Int) < 2 ^ d := Int.pow_pos (by decide)
  have whole : modulus w = 2 ^ d * 2 ^ k := by
    rw [modulus,← Int.pow_add]
    congr 1
    omega
  have left := wordReads w (2 ^ d * x)
  rw [toUnsigned,whole,Int.mul_emod_mul_of_pos _ _ pos] at left
  have low : (word w x : Int) % 2 ^ k = x % 2 ^ k := by
    rw [wordReads w x,toUnsigned,whole]
    exact Int.emod_emod_of_dvd x (Int.dvd_mul_left _ _)
  rw [← low] at left
  rw [Int.mul_comm]
  exact_mod_cast left

theorem readWordReads {operand : Operand} (pos : 0 < operand.bits) (v : Int) :
    operand.read v = readWord operand.isUnsigned (2 ^ operand.bits) (word operand.bits v) := by
  have whole := modulusHalf pos
  rw [modulus] at whole
  rw [Operand.read,readWord]
  split
  · exact (wordReads _ v).symm
  · rw [wrapRemainder pos,wordReads,signedOf,modulus]
    split <;> split <;> omega

end Words

section Bits
variable {w d k s : Nat} {op : BinaryOp} {x y amount : Int}

def isBitwise (op : BinaryOp) : Bool := op = .and ∨ op = .or ∨ op = .xor

def wordOp : BinaryOp → Nat → Nat → Nat
  | .and,a,b => a &&& b
  | .or,a,b => a ||| b
  | .xor,a,b => a ^^^ b
  | _,_,_ => 0

theorem bitwiseCases (bitwise : isBitwise op = true) : op = .and ∨ op = .or ∨ op = .xor := of_decide_eq_true bitwise

theorem wordOpWord (bitwise : isBitwise op = true) (x y : Int) : word w (wrap w (op.eval w x y)) = wordOp op (word w x) (word w y) := by
  rw [wordWrap]
  rcases bitwiseCases bitwise with rfl | rfl | rfl
  · simp only [word,BinaryOp.eval,wordOp,BitVec.ofInt_toInt,BitVec.toNat_and]
  · simp only [word,BinaryOp.eval,wordOp,BitVec.ofInt_toInt,BitVec.toNat_or]
  · simp only [word,BinaryOp.eval,wordOp,BitVec.ofInt_toInt,BitVec.toNat_xor]

theorem wordOpScaled (bitwise : isBitwise op = true) (d a b : Nat) : wordOp op (2 ^ d * a) (2 ^ d * b) = 2 ^ d * wordOp op a b := by
  simp only [Nat.mul_comm (2 ^ d),← Nat.shiftLeft_eq]
  rcases bitwiseCases bitwise with rfl | rfl | rfl
  · exact Nat.shiftLeft_and_distrib.symm
  · exact Nat.shiftLeft_or_distrib.symm
  · exact Nat.shiftLeft_xor_distrib.symm

theorem wordOpBelow (bitwise : isBitwise op = true) {a b : Nat} (left : a < 2 ^ k) (right : b < 2 ^ k) : wordOp op a b < 2 ^ k := by
  rcases bitwiseCases bitwise with rfl | rfl | rfl
  · exact Nat.and_lt_two_pow a right
  · exact Nat.or_lt_two_pow left right
  · exact Nat.xor_lt_two_pow left right

-- The bits above those of a short operand.
theorem wordOpAbove (bitwise : isBitwise op = true) (a : Nat) {b : Nat} (short : b < 2 ^ k) :
    wordOp op a b = wordOp op (a % 2 ^ k) b + 2 ^ k * if op = .and then 0 else a / 2 ^ k := by
  have split := Nat.mod_add_div (wordOp op a b) (2 ^ k)
  have low : b % 2 ^ k = b := Nat.mod_eq_of_lt short
  have none : b / 2 ^ k = 0 := Nat.div_eq_of_lt short
  rw [← split]
  rcases bitwiseCases bitwise with rfl | rfl | rfl
  · simp only [wordOp,Nat.and_mod_two_pow,Nat.and_div_two_pow,low,none,Nat.and_zero,↓reduceIte]
  · simp only [wordOp,Nat.or_mod_two_pow,Nat.or_div_two_pow,low,none,Nat.or_zero,reduceCtorEq,↓reduceIte]
  · simp only [wordOp,Nat.xor_mod_two_pow,Nat.xor_div_two_pow,low,none,Nat.xor_zero,reduceCtorEq,↓reduceIte]

-- A constant that is a multiple of what the shift moves.
theorem keptConst (narrow : w ≤ 16) (pos : 0 < w) (inside : InRange w amount) (keeps : amount / 2 ^ s * 2 ^ s = amount) :
    (s < w ∨ amount = 0) ∧ (2 : Int) ^ s ∣ amount := by
  have divides : (2 : Int) ^ s ∣ amount := ⟨amount / 2 ^ s,by rw [Int.mul_comm]; exact keeps.symm⟩
  refine ⟨?_,divides⟩
  rcases Nat.lt_or_ge s w with short | long
  · exact .inl short
  · refine .inr (Int.eq_zero_of_abs_lt_dvd divides ?_)
    have grows : half w < 2 ^ s := by
      rw [half]
      exact_mod_cast Nat.pow_lt_pow_right (by decide : 1 < 2) (by omega)
    simp only [InRange,minSigned,maxSigned] at inside
    rw [abs_lt]
    omega

-- The test, with its amounts as the words they are.
structure Scaled (w : Nat) (s bits cmp : Int) (d k n m : Nat) : Prop where
  moves : 1 ≤ d
  split : k + d = w
  short : n < 2 ^ k ∧ m < 2 ^ k
  original : ∀ x, word w (wrap w (x * 2 ^ shiftBy w s)) = 2 ^ d * (word w x % 2 ^ k)
  words : word w bits = 2 ^ d * n ∧ word w cmp = 2 ^ d * m
  news : word w (wrap w (toUnsigned w bits / 2 ^ s.toNat)) = n ∧ word w (wrap w (toUnsigned w cmp / 2 ^ s.toNat)) = m
  once : d = 1 ↔ s % 32 = 1

theorem scaledConst (narrow : w ≤ 16) (pos : 0 < w) (inside : InRange w amount) (keeps : amount / 2 ^ s * 2 ^ s = amount) (below : s < 64)
    (moves : s % 32 ≠ 0) (split : k + d = w) (least : d = min (s % 32) w) :
    ∃ n, n < 2 ^ k ∧ word w amount = 2 ^ d * n ∧ word w (wrap w (toUnsigned w amount / 2 ^ s)) = n := by
  obtain ⟨short,divides⟩ := keptConst narrow pos inside keeps
  have whole : (2 : Nat) ^ w = 2 ^ d * 2 ^ k := by
    rw [← Nat.pow_add]
    congr 1
    omega
  rcases short with short | zero
  · have same : d = s := by omega
    subst same
    have reads := wordReads w amount
    have dividesWord : 2 ^ d ∣ word w amount := by
      have both : ((2 ^ d : Nat) : Int) ∣ toUnsigned w amount := by
        have wholeDivides : (2 : Int) ^ d ∣ 2 ^ w := ⟨2 ^ k,by exact_mod_cast whole⟩
        rw [toUnsigned,modulus,Int.emod_def]
        push_cast
        exact Int.dvd_sub divides (Int.dvd_mul_of_dvd_left wholeDivides)
      rw [← reads] at both
      exact_mod_cast both
    obtain ⟨n,scaled⟩ := dividesWord
    have small : n < 2 ^ k := by
      have bound := wordBelow w amount
      rw [scaled,whole] at bound
      exact Nat.lt_of_mul_lt_mul_left bound
    refine ⟨n,small,scaled,?_⟩
    have quotient : toUnsigned w amount / 2 ^ d = (n : Int) := by
      rw [← reads,scaled]
      push_cast
      exact Int.mul_ediv_cancel_left _ (Int.ne_of_gt (Int.pow_pos (by decide)))
    have more : 2 ^ k ≤ 2 ^ w := Nat.pow_le_pow_right (by decide) (by omega)
    rw [quotient,wordWrap]
    exact wordNat n (by omega)
  · subst zero
    have none : word w 0 = 0 := by simp [word]
    have nothing : toUnsigned w 0 = 0 := Int.zero_emod _
    exact ⟨0,Nat.two_pow_pos k,by rw [none,Nat.mul_zero],by rw [nothing,Int.zero_ediv,wordWrap,none]⟩

theorem scaledOf {s bits cmp : Int} (narrow : w ≤ 16) (pos : 1 < w) (insideBits : InRange w bits) (insideCmp : InRange w cmp)
    (lower : 0 ≤ s) (below : s < 64) (moves : s % 32 ≠ 0) (keepsBits : bits / 2 ^ s.toNat * 2 ^ s.toNat = bits)
    (keepsCmp : cmp / 2 ^ s.toNat * 2 ^ s.toNat = cmp) : ∃ d k n m, Scaled w s bits cmp d k n m := by
  obtain ⟨d,least⟩ : ∃ d, d = min (s.toNat % 32) w := ⟨_,rfl⟩
  have split : w - d + d = w := by omega
  obtain ⟨n,shortN,wordN,newN⟩ := scaledConst narrow (by omega) insideBits keepsBits (by omega) (by omega) split least
  obtain ⟨m,shortM,wordM,newM⟩ := scaledConst narrow (by omega) insideCmp keepsCmp (by omega) (by omega) split least
  refine ⟨d,w - d,n,m,by omega,split,⟨shortN,shortM⟩,fun x => ?_,⟨wordN,wordM⟩,⟨newN,newM⟩,by omega⟩
  have amount : shiftBy w s = s.toNat % 32 := by
    rw [shiftBy,Nat.max_eq_right (by omega)]
    omega
  rw [amount,wordWrap]
  rcases Nat.le_total (s.toNat % 32) w with fits | beyond
  · have same : s.toNat % 32 = d := by omega
    rw [same,wordShifted split]
  · have same : d = w := by omega
    obtain ⟨more,total⟩ := Nat.exists_eq_add_of_le beyond
    have moved := wordShifted (show 0 + w = w by omega) (x * 2 ^ more)
    rw [total,Int.pow_add,Int.mul_comm (2 ^ w),← Int.mul_assoc,moved,same,Nat.sub_self,Nat.pow_zero,Nat.mod_one,Nat.mod_one]

end Bits

end OmrCompiler.BitTestWords
