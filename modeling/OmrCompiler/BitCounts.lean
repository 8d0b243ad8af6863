import Mathlib.Data.Nat.Factorization.Basic
import Mathlib.Tactic.Ring
import OmrCompiler.MachineInt

/-! Bit counts of 64-bit words: leading and trailing zeroes and the population
count as Bit.hpp and OMRCodeGenerator.cpp compute them, and what they count. -/
namespace OmrCompiler.BitCounts

def kByteLeadingZeroes : List Nat :=
  [8,7,6,6] ++ List.replicate 4 5 ++ List.replicate 8 4 ++ List.replicate 16 3 ++ List.replicate 32 2 ++
    List.replicate 64 1 ++ List.replicate 128 0

def leadingZeroesLoop (inputWord : BitVec 64) : Nat → BitVec 64 → Nat → Nat
  | 0,_,_ => 64
  | bytes+1,byteMask,bitCount =>
      let testWord := inputWord &&& byteMask
      if testWord ≠ 0 then
        let byteValue := (testWord >>> (56 - bitCount)).toNat % 256
        bitCount + kByteLeadingZeroes.getD byteValue 0
      else leadingZeroesLoop inputWord bytes (byteMask >>> 8) (bitCount + 8)

def leadingZeroes (inputWord : BitVec 64) : Nat := leadingZeroesLoop inputWord 8 (0xFF#64 <<< 56) 0

def trailingZeroes (input : BitVec 64) : Nat := 64 - leadingZeroes (~~~input &&& (input - 1))

def populationCount (inputWord : BitVec 64) : Nat :=
  let work := inputWord
  if work = 0 then 0
  else
    let work := work - ((work >>> 1) &&& 0x5555555555555555#64)
    let temp := (work >>> 2) &&& 0x3333333333333333#64
    let work := (work &&& 0x3333333333333333#64) + temp
    let work := (work + (work >>> 4)) &&& 0x0F0F0F0F0F0F0F0F#64
    let work := work + (work <<< 8)
    let work := work + (work <<< 16)
    let work := work + (work <<< 32)
    (work >>> 56).toNat

-- The number of ones among the lowest w bits.
def ones : Nat → Nat → Nat
  | 0,_ => 0
  | w+1,n => n % 2 + ones w (n / 2)

theorem onesZero {w n : Nat} (below : n < 2 ^ w) (none : ones w n = 0) : n = 0 := by
  induction w generalizing n with
  | zero =>
    rw [Nat.pow_zero] at below
    omega
  | succ w ih =>
    rw [ones] at none
    rw [Nat.pow_succ] at below
    have half := ih (show n / 2 < 2 ^ w by omega) (by omega)
    omega

theorem onesOne {w n : Nat} (below : n < 2 ^ w) (one : ones w n = 1) : ∃ a < w, n = 2 ^ a := by
  induction w generalizing n with
  | zero => simp [ones] at one
  | succ w ih =>
    rw [ones] at one
    rw [Nat.pow_succ] at below
    rcases Nat.mod_two_eq_zero_or_one n with even | odd
    · obtain ⟨a,small,same⟩ := ih (show n / 2 < 2 ^ w by omega) (by omega)
      exact ⟨a + 1,by omega,by rw [Nat.pow_succ]; omega⟩
    · have half := onesZero (show n / 2 < 2 ^ w by omega) (by omega)
      exact ⟨0,by omega,by rw [Nat.pow_zero]; omega⟩

theorem onesTwo {w n : Nat} (below : n < 2 ^ w) (two : ones w n = 2) : ∃ a b, a < b ∧ b < w ∧ n = 2 ^ a + 2 ^ b := by
  induction w generalizing n with
  | zero => simp [ones] at two
  | succ w ih =>
    rw [ones] at two
    rw [Nat.pow_succ] at below
    rcases Nat.mod_two_eq_zero_or_one n with even | odd
    · obtain ⟨a,b,order,small,same⟩ := ih (show n / 2 < 2 ^ w by omega) (by omega)
      exact ⟨a + 1,b + 1,by omega,by omega,by rw [Nat.pow_succ,Nat.pow_succ]; omega⟩
    · obtain ⟨b,small,same⟩ := onesOne (show n / 2 < 2 ^ w by omega) (by omega)
      exact ⟨0,b + 1,by omega,by omega,by rw [Nat.pow_succ,Nat.pow_zero]; omega⟩

theorem onesLe (w n : Nat) : ones w n ≤ w := by
  induction w generalizing n with
  | zero => exact le_refl 0
  | succ w ih =>
    have := ih (n / 2)
    rw [ones]
    omega

theorem onesFull {w n : Nat} (below : n < 2 ^ w) (all : ones w n = w) : n + 1 = 2 ^ w := by
  induction w generalizing n with
  | zero =>
    rw [Nat.pow_zero] at below ⊢
    omega
  | succ w ih =>
    have rest := onesLe w (n / 2)
    rw [ones] at all
    rw [Nat.pow_succ] at below ⊢
    have half := ih (show n / 2 < 2 ^ w by omega) (by omega)
    omega

theorem onesShift (w t n : Nat) : ones (t + w) (2 ^ t * n) = ones w n := by
  induction t with
  | zero => simp
  | succ t ih =>
    have halved : 2 ^ (t + 1) * n = 2 * (2 ^ t * n) := by ring
    rw [Nat.succ_add,ones,halved,Nat.mul_mod_right,Nat.mul_div_cancel_left _ (by decide),ih,Nat.zero_add]

theorem onesAbove {w v n : Nat} (below : n < 2 ^ w) : ones (w + v) n = ones w n := by
  induction w generalizing n with
  | zero =>
    obtain rfl : n = 0 := by rw [Nat.pow_zero] at below; omega
    clear below
    induction v with
    | zero => rfl
    | succ v ih => simpa [ones] using ih
  | succ w ih =>
    rw [Nat.pow_succ] at below
    rw [Nat.succ_add,ones,ones,ih (by omega)]

theorem andByte (n k : Nat) : n &&& 255 * 2 ^ k = n / 2 ^ k % 256 * 2 ^ k := by
  refine Nat.eq_of_testBit_eq fun i => ?_
  have mask : (255 * 2 ^ k).testBit i = (decide (k ≤ i) && decide (i - k < 8)) := by
    rw [Nat.mul_comm,Nat.testBit_two_pow_mul,show 255 = 2 ^ 8 - 1 from rfl,Nat.testBit_two_pow_sub_one]
  rw [Nat.testBit_and,mask,Nat.mul_comm (n / 2 ^ k % 256),Nat.testBit_two_pow_mul,show 256 = 2 ^ 8 from rfl,
    Nat.testBit_mod_two_pow,Nat.testBit_div_two_pow]
  by_cases reach : k ≤ i
  · have back : i - k + k = i := by omega
    simp [reach,back,Bool.and_comm]
  · simp [reach]

set_option maxRecDepth 4000 in
theorem byteLeadingZeroes : ∀ b < 256, kByteLeadingZeroes.getD b 0 ≤ 8 ∧ b < 2 ^ (8 - kByteLeadingZeroes.getD b 0) ∧
    (0 < b → kByteLeadingZeroes.getD b 0 < 8 ∧ 2 ^ (7 - kByteLeadingZeroes.getD b 0) ≤ b) := by
  have table : ∀ e ∈ kByteLeadingZeroes.zipIdx, e.1 ≤ 8 ∧ e.2 < 2 ^ (8 - e.1) ∧ (0 < e.2 → e.1 < 8 ∧ 2 ^ (7 - e.1) ≤ e.2) := by
    decide
  exact fun b below => MachineInt.tableEntry (p := fun z b => z ≤ 8 ∧ b < 2 ^ (8 - z) ∧ (0 < b → z < 8 ∧ 2 ^ (7 - z) ≤ b)) table below 0

-- What a count of leading zeroes says about the word.
structure Leading (x : BitVec 64) (count : Nat) : Prop where
  most : count ≤ 64
  upper : x.toNat < 2 ^ (64 - count)
  lower : x.toNat ≠ 0 → count < 64 ∧ 2 ^ (63 - count) ≤ x.toNat

theorem maskAt {bytes : Nat} (few : bytes ≤ 7) : (0xFF#64 <<< (8 * bytes)).toNat = 255 * 2 ^ (8 * bytes) := by
  have top : 2 ^ (8 * bytes) ≤ 2 ^ 56 := Nat.pow_le_pow_right (by decide) (by omega)
  rw [BitVec.toNat_shiftLeft,Nat.shiftLeft_eq]
  apply Nat.mod_eq_of_lt
  show 255 * 2 ^ (8 * bytes) < 2 ^ 64
  omega

theorem maskNext {bytes : Nat} (few : bytes < 7) : (0xFF#64 <<< (8 * (bytes + 1))) >>> 8 = 0xFF#64 <<< (8 * bytes) := by
  apply BitVec.eq_of_toNat_eq
  rw [BitVec.toNat_ushiftRight,maskAt (by omega),maskAt (by omega),Nat.shiftRight_eq_div_pow]
  apply Nat.div_eq_of_eq_mul_left (by decide)
  ring

theorem leadingZeroesLoopSpec (x : BitVec 64) {bytes : Nat} (few : bytes ≤ 8) (below : x.toNat < 2 ^ (8 * bytes)) :
    Leading x (leadingZeroesLoop x bytes (0xFF#64 <<< (8 * (bytes - 1))) (64 - 8 * bytes)) := by
  induction bytes with
  | zero =>
    have zero : x.toNat = 0 := by simpa using below
    rw [leadingZeroesLoop]
    exact ⟨le_refl 64,by rw [zero]; decide,fun some => absurd zero some⟩
  | succ bytes ih =>
    have pos : 0 < 2 ^ (8 * bytes) := Nat.two_pow_pos _
    have byte : x.toNat / 2 ^ (8 * bytes) < 256 := by
      rw [Nat.div_lt_iff_lt_mul pos,show 256 = 2 ^ 8 from rfl,← Nat.pow_add]
      exact lt_of_lt_of_eq below (by congr 1; omega)
    have test : (x &&& 0xFF#64 <<< (8 * bytes)).toNat = x.toNat / 2 ^ (8 * bytes) * 2 ^ (8 * bytes) := by
      rw [BitVec.toNat_and,maskAt (by omega),andByte,Nat.mod_eq_of_lt byte]
    rw [leadingZeroesLoop,Nat.add_sub_cancel]
    by_cases zero : x &&& 0xFF#64 <<< (8 * bytes) = 0
    · have quotient : x.toNat / 2 ^ (8 * bytes) = 0 := by
        rw [zero] at test
        exact (Nat.mul_eq_zero.mp test.symm).resolve_right (by omega)
      have next := ih (by omega) ((Nat.div_eq_zero_iff_lt pos).mp quotient)
      rw [if_neg (not_not.mpr zero),show 64 - 8 * (bytes + 1) + 8 = 64 - 8 * bytes by omega]
      cases bytes with
      | zero => exact next
      | succ bytes =>
        rw [maskNext (by omega)]
        exact next
    · have quotient : 0 < x.toNat / 2 ^ (8 * bytes) := by
        apply Nat.pos_of_ne_zero
        intro none
        rw [none,Nat.zero_mul] at test
        exact zero (BitVec.eq_of_toNat_eq test)
      obtain ⟨most,upper,lower⟩ := byteLeadingZeroes _ byte
      obtain ⟨less,lower⟩ := lower quotient
      have value : ((x &&& 0xFF#64 <<< (8 * bytes)) >>> (56 - (64 - 8 * (bytes + 1)))).toNat % 256 =
          x.toNat / 2 ^ (8 * bytes) := by
        rw [BitVec.toNat_ushiftRight,test,Nat.shiftRight_eq_div_pow,show 56 - (64 - 8 * (bytes + 1)) = 8 * bytes by omega,
          Nat.mul_div_cancel _ pos,Nat.mod_eq_of_lt byte]
      rw [if_pos zero]
      simp only [value]
      generalize kByteLeadingZeroes.getD (x.toNat / 2 ^ (8 * bytes)) 0 = t at most upper lower less ⊢
      have high : 2 ^ (8 - t) * 2 ^ (8 * bytes) = 2 ^ (64 - (64 - 8 * (bytes + 1) + t)) := by
        rw [← Nat.pow_add]
        congr 1
        omega
      have low : 2 ^ (7 - t) * 2 ^ (8 * bytes) = 2 ^ (63 - (64 - 8 * (bytes + 1) + t)) := by
        rw [← Nat.pow_add]
        congr 1
        omega
      refine ⟨by omega,?_,fun _ => ⟨by omega,?_⟩⟩
      · rw [← high]
        exact (Nat.div_lt_iff_lt_mul pos).mp upper
      · rw [← low]
        exact (Nat.le_div_iff_mul_le pos).mp lower

theorem leadingZeroesSpec (x : BitVec 64) : Leading x (leadingZeroes x) :=
  leadingZeroesLoopSpec x (le_refl 8) x.isLt

theorem Leading.unique {x : BitVec 64} {a b : Nat} (left : Leading x a) (right : Leading x b) (some : x.toNat ≠ 0) :
    a = b := by
  obtain ⟨small,low⟩ := left.lower some
  obtain ⟨small',low'⟩ := right.lower some
  have ab := (Nat.pow_lt_pow_iff_right (by decide)).mp (lt_of_le_of_lt low right.upper)
  have ba := (Nat.pow_lt_pow_iff_right (by decide)).mp (lt_of_le_of_lt low' left.upper)
  omega

-- ~x & (x - 1) is the mask of the zeroes below the lowest one.
theorem zeroesMask {w n t j : Nat} (split : n = 2 ^ t * (2 * j + 1)) (below : n < 2 ^ w) :
    (2 ^ w - 1 - n) &&& (n - 1) = 2 ^ t - 1 := by
  have pos : 0 < 2 ^ t := Nat.two_pow_pos t
  have small : t < w := by
    have : 2 ^ t < 2 ^ w := lt_of_le_of_lt (split ▸ Nat.le_mul_of_pos_right _ (by omega)) below
    exact (Nat.pow_lt_pow_iff_right (by decide)).mp this
  have pred : n - 1 = 2 ^ t * (2 * j) + (2 ^ t - 1) := by
    rw [split,Nat.mul_add,Nat.mul_one]
    omega
  refine Nat.eq_of_testBit_eq fun i => ?_
  have complement : (2 ^ w - 1 - n).testBit i = (decide (i < w) && !n.testBit i) := by
    rw [show 2 ^ w - 1 - n = 2 ^ w - (n + 1) by omega]
    exact Nat.testBit_two_pow_sub_succ below i
  rw [Nat.testBit_and,complement,pred,split,Nat.testBit_two_pow_mul,Nat.testBit_two_pow_mul_add _ (by omega),
    Nat.testBit_two_pow_sub_one]
  rcases Nat.lt_trichotomy i t with less | same | more
  · simp [less,Nat.not_le.mpr less,lt_trans less small]
  · subst same
    simp
  · obtain ⟨k,hk⟩ : ∃ k, i - t = k + 1 := ⟨i - t - 1,by omega⟩
    have left : (2 * j + 1).testBit (k + 1) = j.testBit k := by
      rw [Nat.testBit_succ]
      congr 1
      omega
    have right : (2 * j).testBit (k + 1) = j.testBit k := by
      rw [Nat.testBit_succ]
      congr 1
      omega
    have far : ¬ i < t := by omega
    simp [hk,left,right,far,le_of_lt more]

theorem trailingZeroesOdd {x : BitVec 64} {t j : Nat} (split : x.toNat = 2 ^ t * (2 * j + 1)) : trailingZeroes x = t := by
  have pos : 0 < 2 ^ t := Nat.two_pow_pos t
  have some : 0 < x.toNat := by
    rw [split]
    exact Nat.mul_pos pos (by omega)
  have mask : (~~~x &&& (x - 1)).toNat = 2 ^ t - 1 := by
    have pred : (x - 1).toNat = x.toNat - 1 := by
      rw [BitVec.toNat_sub_of_le]
      · rfl
      · exact BitVec.le_def.mpr some
    rw [BitVec.toNat_and,BitVec.toNat_not,pred]
    exact zeroesMask split x.isLt
  have small : t < 64 := by
    have : 2 ^ t < 2 ^ 64 := lt_of_le_of_lt (split ▸ Nat.le_mul_of_pos_right _ (by omega)) x.isLt
    exact (Nat.pow_lt_pow_iff_right (by decide)).mp this
  have spec := leadingZeroesSpec (~~~x &&& (x - 1))
  rw [trailingZeroes]
  cases t with
  | zero =>
    have none : ~~~x &&& (x - 1) = 0#64 := BitVec.eq_of_toNat_eq mask
    rw [none]
    decide
  | succ t =>
    have two : 2 ≤ 2 ^ (t + 1) := Nat.le_self_pow (by omega) 2
    have expected : Leading (~~~x &&& (x - 1)) (63 - t) := by
      refine ⟨by omega,?_,fun _ => ⟨by omega,?_⟩⟩
      · rw [mask,show 64 - (63 - t) = t + 1 by omega]
        omega
      · rw [mask,show 63 - (63 - t) = t by omega,Nat.pow_succ]
        rw [Nat.pow_succ] at two
        omega
    rw [spec.unique expected (by omega)]
    omega

theorem andSplit (n hi : Nat) {lo : Nat} (small : lo < 2 ^ 8) :
    n &&& (lo + 2 ^ 8 * hi) = (n % 2 ^ 8 &&& lo) + 2 ^ 8 * (n / 2 ^ 8 &&& hi) := by
  have low : (n % 2 ^ 8 &&& lo) < 2 ^ 8 := lt_of_le_of_lt Nat.and_le_right small
  have whole := Nat.div_add_mod n (2 ^ 8)
  refine Nat.eq_of_testBit_eq fun i => ?_
  rw [Nat.add_comm lo,Nat.add_comm (n % 2 ^ 8 &&& lo),Nat.testBit_and,Nat.testBit_two_pow_mul_add _ small,
    Nat.testBit_two_pow_mul_add _ low]
  rw [← whole]
  rw [Nat.testBit_two_pow_mul_add _ (Nat.mod_lt _ (by decide)),whole]
  split <;> rw [Nat.testBit_and]

-- A mask of k bits sees the low k bits only.
theorem andLow {lo k : Nat} (small : lo < 2 ^ k) (n : Nat) : n &&& lo = n % 2 ^ k &&& lo := by
  rw [← Nat.mod_eq_of_lt (lt_of_le_of_lt Nat.and_le_right small : n &&& lo < 2 ^ k),Nat.and_mod_two_pow,
    Nat.mod_eq_of_lt small]

-- A mask that repeats one byte.
def repeated (byte : Nat) : Nat → Nat
  | 0 => 0
  | k+1 => byte + 256 * repeated byte k

-- The number with each byte replaced.
def mapBytes (f : Nat → Nat) : Nat → Nat → Nat
  | 0,_ => 0
  | k+1,n => f (n % 256) + 256 * mapBytes f k (n / 256)

def pairsOfByte (b : Nat) : Nat := b - (b / 2 &&& 0x55)

def nibblesOfByte (b : Nat) : Nat := (pairsOfByte b &&& 0x33) + (pairsOfByte b / 4 &&& 0x33)

theorem pairsBytes (k n : Nat) (below : n < 256 ^ k) :
    (n / 2 &&& repeated 0x55 k) ≤ n ∧ n - (n / 2 &&& repeated 0x55 k) = mapBytes pairsOfByte k n := by
  induction k generalizing n with
  | zero =>
    rw [Nat.pow_zero] at below
    simp [repeated,mapBytes]
    omega
  | succ k ih =>
    rw [Nat.pow_succ] at below
    obtain ⟨less,rest⟩ := ih (n / 256) (by omega)
    have byte : (n / 2 % 2 ^ 8 &&& 0x55) = (n % 256 / 2 &&& 0x55) := by
      rw [andLow (k := 7) (by decide) (n / 2 % 2 ^ 8),show n / 2 % 2 ^ 8 % 2 ^ 7 = n % 256 / 2 by omega]
    have small : (n % 256 / 2 &&& 0x55) ≤ n % 256 := le_trans Nat.and_le_left (Nat.div_le_self _ _)
    have split : n / 2 &&& (0x55 + 256 * repeated 0x55 k) = _ := andSplit (n / 2) (repeated 0x55 k) (by decide)
    rw [show n / 2 / 2 ^ 8 = n / 256 / 2 by omega,byte] at split
    rw [repeated,split,mapBytes,← rest,pairsOfByte]
    omega

theorem nibblesBytes (k m : Nat) :
    (mapBytes pairsOfByte k m &&& repeated 0x33 k) + (mapBytes pairsOfByte k m / 4 &&& repeated 0x33 k) =
      mapBytes nibblesOfByte k m := by
  induction k generalizing m with
  | zero => simp [mapBytes]
  | succ k ih =>
    have low : pairsOfByte (m % 256) < 256 := lt_of_le_of_lt (Nat.sub_le _ _) (Nat.mod_lt _ (by decide))
    have rest := ih (m / 256)
    simp only [mapBytes,repeated,nibblesOfByte]
    generalize mapBytes pairsOfByte k (m / 256) = hi at rest ⊢
    generalize pairsOfByte (m % 256) = lo at low ⊢
    have first : lo + 256 * hi &&& (0x33 + 256 * repeated 0x33 k) = _ :=
      andSplit (lo + 256 * hi) (repeated 0x33 k) (by decide)
    have second : (lo + 256 * hi) / 4 &&& (0x33 + 256 * repeated 0x33 k) = _ :=
      andSplit ((lo + 256 * hi) / 4) (repeated 0x33 k) (by decide)
    have byte : ((lo + 256 * hi) / 4 % 2 ^ 8 &&& 0x33) = (lo / 4 &&& 0x33) := by
      rw [andLow (k := 6) (by decide) ((lo + 256 * hi) / 4 % 2 ^ 8),show (lo + 256 * hi) / 4 % 2 ^ 8 % 2 ^ 6 = lo / 4 by omega]
    rw [show (lo + 256 * hi) % 2 ^ 8 = lo by omega,show (lo + 256 * hi) / 2 ^ 8 = hi by omega] at first
    rw [byte,show (lo + 256 * hi) / 4 / 2 ^ 8 = hi / 4 by omega] at second
    rw [first,second,← rest]
    omega

set_option maxRecDepth 4000 in
theorem nibblesSmall : ∀ b < 256, nibblesOfByte b < 256 ∧ nibblesOfByte b % 16 ≤ 4 ∧ nibblesOfByte b / 16 ≤ 4 ∧
    nibblesOfByte b % 16 + nibblesOfByte b / 16 = ones 8 b := by
  decide

theorem nibblesLe (b : Nat) (below : b < 256) : nibblesOfByte b ≤ 0x44 := by
  obtain ⟨-,low,high,-⟩ := nibblesSmall b below
  omega

theorem countsBytes (k m : Nat) :
    (mapBytes nibblesOfByte k m + mapBytes nibblesOfByte k m / 16 &&& repeated 0x0F k) = mapBytes (ones 8) k m := by
  induction k generalizing m with
  | zero => simp [mapBytes]
  | succ k ih =>
    have rest := ih (m / 256)
    obtain ⟨byte,right,left,total⟩ := nibblesSmall (m % 256) (Nat.mod_lt _ (by decide))
    have next : mapBytes nibblesOfByte k (m / 256) % 16 ≤ 4 := by
      cases k with
      | zero => simp [mapBytes]
      | succ k =>
        have := (nibblesSmall (m / 256 % 256) (Nat.mod_lt _ (by decide))).2.1
        rw [mapBytes]
        omega
    have masked (y : Nat) : (y &&& 0x0F) = y % 16 := Nat.and_two_pow_sub_one_eq_mod y 4
    simp only [mapBytes,repeated]
    generalize mapBytes nibblesOfByte k (m / 256) = hi at rest next ⊢
    generalize nibblesOfByte (m % 256) = lo at byte right left total ⊢
    have split : lo + 256 * hi + (lo + 256 * hi) / 16 &&& (0x0F + 256 * repeated 0x0F k) = _ :=
      andSplit (lo + 256 * hi + (lo + 256 * hi) / 16) (repeated 0x0F k) (by decide)
    rw [show (lo + 256 * hi + (lo + 256 * hi) / 16) / 2 ^ 8 = hi + hi / 16 by omega,rest,masked]
      at split
    rw [split,← total]
    omega

theorem onesSplit (a w n : Nat) : ones (a + w) n = ones a (n % 2 ^ a) + ones w (n / 2 ^ a) := by
  induction a generalizing n with
  | zero => simp [ones]
  | succ a ih =>
    have half : n % 2 ^ (a + 1) / 2 = n / 2 % 2 ^ a := by
      rw [Nat.pow_succ,Nat.mul_comm,Nat.mod_mul_right_div_self]
    have parity : n % 2 ^ (a + 1) % 2 = n % 2 := Nat.mod_mod_of_dvd n (Dvd.intro_left (2 ^ a) rfl)
    rw [Nat.succ_add,ones,ih,ones,half,parity,Nat.div_div_eq_div_mul,Nat.pow_succ,Nat.mul_comm 2]
    omega

def byteSum (f : Nat → Nat) : Nat → Nat → Nat
  | 0,_ => 0
  | k+1,n => f (n % 256) + byteSum f k (n / 256)

theorem onesBytes (k n : Nat) : ones (8 * k) n = byteSum (ones 8) k n := by
  induction k generalizing n with
  | zero => rfl
  | succ k ih => rw [show 8 * (k + 1) = 8 + 8 * k by omega,onesSplit,ih,byteSum]; rfl

theorem spreadBytes {n x y z : Nat} (first : x = (n + n * 2 ^ 8 % 2 ^ 64) % 2 ^ 64)
    (second : y = (x + x * 2 ^ 16 % 2 ^ 64) % 2 ^ 64) (third : z = (y + y * 2 ^ 32 % 2 ^ 64) % 2 ^ 64) :
    z = n * 0x0101010101010101 % 2 ^ 64 := by
  have one : x = n * 257 % 2 ^ 64 := by omega
  have two : y = x * 65537 % 2 ^ 64 := by omega
  have three : z = y * 4294967297 % 2 ^ 64 := by omega
  rw [three,two,Nat.mod_mul_mod,one,Nat.mul_assoc,Nat.mod_mul_mod,Nat.mul_assoc]

theorem topByte {a b c d e f g h : Nat} (ha : a ≤ 8) (hb : b ≤ 8) (hc : c ≤ 8) (hd : d ≤ 8) (he : e ≤ 8) (hf : f ≤ 8)
    (hg : g ≤ 8) (hh : h ≤ 8) :
    (a + 256 * (b + 256 * (c + 256 * (d + 256 * (e + 256 * (f + 256 * (g + 256 * (h + 256 * 0)))))))) *
      0x0101010101010101 % 2 ^ 64 / 2 ^ 56 = a + (b + (c + (d + (e + (f + (g + (h + 0))))))) := by
  have spread : (a + 256 * (b + 256 * (c + 256 * (d + 256 * (e + 256 * (f + 256 * (g + 256 * (h + 256 * 0)))))))) *
      0x0101010101010101 = a + 256 * (a + b) + 256 ^ 2 * (a + b + c) + 256 ^ 3 * (a + b + c + d) +
        256 ^ 4 * (a + b + c + d + e) + 256 ^ 5 * (a + b + c + d + e + f) + 256 ^ 6 * (a + b + c + d + e + f + g) +
        256 ^ 7 * (a + b + c + d + e + f + g + h) + 2 ^ 64 * (b + c + d + e + f + g + h + 256 * (c + d + e + f + g + h) +
        256 ^ 2 * (d + e + f + g + h) + 256 ^ 3 * (e + f + g + h) + 256 ^ 4 * (f + g + h) + 256 ^ 5 * (g + h) +
        256 ^ 6 * h) := by
    ring
  rw [spread,Nat.add_mul_mod_self_left,Nat.mod_eq_of_lt (by omega)]
  omega

theorem mapBytesLe {f : Nat → Nat} {c : Nat} (bound : ∀ b < 256, f b ≤ c) (k n : Nat) : mapBytes f k n ≤ repeated c k := by
  induction k generalizing n with
  | zero => exact le_refl 0
  | succ k ih =>
    have here := bound (n % 256) (Nat.mod_lt _ (by decide))
    have rest := ih (n / 256)
    rw [mapBytes,repeated]
    omega

theorem onesTop (n : Nat) : mapBytes (ones 8) 8 n * 0x0101010101010101 % 2 ^ 64 / 2 ^ 56 = ones 64 n := by
  rw [show 64 = 8 * 8 from rfl,onesBytes]
  exact topByte (onesLe 8 _) (onesLe 8 _) (onesLe 8 _) (onesLe 8 _) (onesLe 8 _) (onesLe 8 _) (onesLe 8 _) (onesLe 8 _)

theorem populationCountOnes (x : BitVec 64) : populationCount x = ones 64 x.toNat := by
  by_cases zero : x = 0
  · subst x
    decide
  have fives : repeated 0x55 8 = 0x5555555555555555 := by decide
  have threes : repeated 0x33 8 = 0x3333333333333333 := by decide
  have nibbles : repeated 0x0F 8 = 0x0F0F0F0F0F0F0F0F := by decide
  obtain ⟨less,pairs⟩ := pairsBytes 8 x.toNat x.isLt
  rw [fives] at less pairs
  have second := nibblesBytes 8 x.toNat
  rw [threes] at second
  have third := countsBytes 8 x.toNat
  rw [nibbles] at third
  have small : mapBytes nibblesOfByte 8 x.toNat ≤ repeated 0x44 8 :=
    mapBytesLe nibblesLe 8 x.toNat
  rw [show repeated 0x44 8 = 0x4444444444444444 by decide] at small
  have shifted : ((x >>> 1) &&& 0x5555555555555555#64).toNat = x.toNat / 2 &&& 0x5555555555555555 := by
    rw [BitVec.toNat_and,BitVec.toNat_ushiftRight,Nat.shiftRight_eq_div_pow]
    rfl
  have work1 : (x - ((x >>> 1) &&& 0x5555555555555555#64)).toNat = mapBytes pairsOfByte 8 x.toNat := by
    rw [BitVec.toNat_sub_of_le (BitVec.le_def.mpr (by rw [shifted]; exact less)),shifted,pairs]
  simp only [populationCount,if_neg zero]
  generalize x - ((x >>> 1) &&& 0x5555555555555555#64) = w1 at work1 ⊢
  have work2 : ((w1 &&& 0x3333333333333333#64) + ((w1 >>> 2) &&& 0x3333333333333333#64)).toNat =
      mapBytes nibblesOfByte 8 x.toNat := by
    rw [← work1] at second
    rw [BitVec.toNat_add,BitVec.toNat_and,BitVec.toNat_and,BitVec.toNat_ushiftRight,Nat.shiftRight_eq_div_pow]
    exact (congrArg (· % 2 ^ 64) second).trans (Nat.mod_eq_of_lt (by omega))
  generalize (w1 &&& 0x3333333333333333#64) + ((w1 >>> 2) &&& 0x3333333333333333#64) = w2 at work2 ⊢
  have work3 : ((w2 + (w2 >>> 4)) &&& 0x0F0F0F0F0F0F0F0F#64).toNat = mapBytes (ones 8) 8 x.toNat := by
    rw [BitVec.toNat_and,BitVec.toNat_add,BitVec.toNat_ushiftRight,Nat.shiftRight_eq_div_pow,work2,
      Nat.mod_eq_of_lt (by omega)]
    exact third
  generalize (w2 + (w2 >>> 4)) &&& 0x0F0F0F0F0F0F0F0F#64 = w3 at work3 ⊢
  have double : ∀ (v : BitVec 64) (k : Nat), (v + v <<< k).toNat = (v.toNat + v.toNat * 2 ^ k % 2 ^ 64) % 2 ^ 64 := by
    intro v k
    rw [BitVec.toNat_add,BitVec.toNat_shiftLeft,Nat.shiftLeft_eq]
  have spread := spreadBytes (double w3 8) (double (w3 + w3 <<< 8) 16) (double (w3 + w3 <<< 8 + (w3 + w3 <<< 8) <<< 16) 32)
  rw [BitVec.toNat_ushiftRight,Nat.shiftRight_eq_div_pow,spread,work3,onesTop]

theorem twoOnes {x : BitVec 64} (two : populationCount x = 2) : ∃ a b, a < b ∧ b < 64 ∧ x.toNat = 2 ^ a + 2 ^ b :=
  onesTwo x.isLt (populationCountOnes x ▸ two)

theorem oddPart {x : BitVec 64} (some : x.toNat ≠ 0) : ∃ t j, x.toNat = 2 ^ t * (2 * j + 1) ∧ trailingZeroes x = t := by
  obtain ⟨t,m,odd,split⟩ := Nat.exists_eq_two_pow_mul_odd some
  obtain ⟨j,rfl⟩ := odd
  exact ⟨t,j,split,trailingZeroesOdd split⟩

theorem contiguousOnes {x : BitVec 64} (full : populationCount x + trailingZeroes x + leadingZeroes x = 64) :
    ∃ t s, t < s ∧ s ≤ 64 ∧ x.toNat + 2 ^ t = 2 ^ s ∧ populationCount x = s - t := by
  by_cases zero : x.toNat = 0
  · obtain rfl : x = 0#64 := BitVec.eq_of_toNat_eq zero
    exact absurd full (by decide)
  obtain ⟨t,j,split,trailing⟩ := oddPart zero
  have spec := leadingZeroesSpec x
  obtain ⟨less,lower⟩ := spec.lower zero
  have upper := spec.upper
  rw [trailing] at full
  generalize leadingZeroes x = z at full less lower upper
  have order : t < 64 - z := by
    have : 2 ^ t < 2 ^ (64 - z) := lt_of_le_of_lt (split ▸ Nat.le_mul_of_pos_right _ (by omega)) upper
    exact (Nat.pow_lt_pow_iff_right (by decide)).mp this
  have whole : 2 ^ (64 - z) = 2 ^ t * 2 ^ (64 - z - t) := by
    rw [← Nat.pow_add]
    congr 1
    omega
  have below : 2 * j + 1 < 2 ^ (64 - z - t) := by
    rw [split,whole] at upper
    exact Nat.lt_of_mul_lt_mul_left upper
  have count : populationCount x = ones (64 - z - t) (2 * j + 1) := by
    have room : 64 = t + ((64 - z - t) + z) := by omega
    calc populationCount x = ones (t + ((64 - z - t) + z)) (2 ^ t * (2 * j + 1)) := by
          rw [populationCountOnes,split,← room]
      _ = ones (64 - z - t) (2 * j + 1) := by rw [onesShift,onesAbove below]
  have filled := onesFull below (by omega)
  refine ⟨t,64 - z,order,by omega,?_,by omega⟩
  rw [whole,← filled,split,Nat.mul_add (2 ^ t) (2 * j + 1),Nat.mul_one]

end OmrCompiler.BitCounts
