import OmrCompiler.BitCounts
import Mathlib.Algebra.BigOperators.Intervals

/-! Bit counts of the words of a CS2 bit vector: of 32 bits, and of 64 bits by halves. -/
namespace OmrCompiler.BitManipulator
open BitCounts

def emulateLoop (inputWord : BitVec 32) : Nat → BitVec 32 → Nat → Nat
  | 0,_,_ => 32
  | bytes + 1,byteMask,bitCount =>
      let testWord := inputWord &&& byteMask
      if testWord ≠ 0 then
        let byteValue := (testWord >>> (24 - bitCount)).toNat % 256
        bitCount + kByteLeadingZeroes.getD byteValue 0
      else emulateLoop inputWord bytes (byteMask >>> 8) (bitCount + 8)

def emulateLeadingZeroes (inputWord : BitVec 32) : Nat := emulateLoop inputWord 4 (0xFF#32 <<< 24) 0

def high32Of64 (word : BitVec 64) : BitVec 32 := (word >>> 32).setWidth 32

def low32Of64 (word : BitVec 64) : BitVec 32 := word.setWidth 32

def emulateLeadingZeroes64 (inputDoubleWord : BitVec 64) : Nat :=
  let testWord := high32Of64 inputDoubleWord
  if testWord = 0 then 32 + emulateLeadingZeroes (low32Of64 inputDoubleWord) else emulateLeadingZeroes testWord

def trailingZeroes32 (inputWord : BitVec 32) : Nat := 32 - emulateLeadingZeroes (~~~inputWord &&& (inputWord - 1))

def trailingZeroes64 (inputDoubleWord : BitVec 64) : Nat :=
  let lowerWord := low32Of64 inputDoubleWord
  if lowerWord = 0 then 32 + trailingZeroes32 (high32Of64 inputDoubleWord) else trailingZeroes32 lowerWord

def populationCount32 (inputWord : BitVec 32) : Nat :=
  let work := inputWord
  if work = 0 then 0
  else
    let work := work - ((work >>> 1) &&& 0x55555555#32)
    let temp := (work >>> 2) &&& 0x33333333#32
    let work := (work &&& 0x33333333#32) + temp
    let work := (work + (work >>> 4)) &&& 0x0F0F0F0F#32
    let work := work + (work <<< 8)
    let work := work + (work <<< 16)
    (work >>> 24).toNat

-- Without __64BIT__ a double word is counted by its halves.
def populationCount64 (inputDoubleWord : BitVec 64) : Nat :=
  populationCount32 (high32Of64 inputDoubleWord) + populationCount32 (low32Of64 inputDoubleWord)

section Leading
variable {w : Nat}

-- The first one of a word is its highest bit.
def Leading (x : BitVec w) (count : Nat) : Prop := count < w ∧ 2 ^ (w - 1 - count) ≤ x.toNat ∧ x.toNat < 2 ^ (w - count)

theorem byteLeading {b : Nat} (byte : b < 256) (some : b ≠ 0) : kByteLeadingZeroes.getD b 0 < 8 ∧ 2 ^ (7 - kByteLeadingZeroes.getD b 0) ≤ b ∧
    b < 2 ^ (8 - kByteLeadingZeroes.getD b 0) := by
  obtain ⟨_,upper,lower⟩ := byteLeadingZeroes b byte
  obtain ⟨small,low⟩ := lower (Nat.pos_of_ne_zero some)
  exact ⟨small,low,upper⟩

theorem mask32 (bytes : Nat) (few : bytes ≤ 3) : (0xFF#32 <<< (8 * bytes)).toNat = 255 * 2 ^ (8 * bytes) := by
  match bytes,few with
  | 0,_ => rfl
  | 1,_ => rfl
  | 2,_ => rfl
  | 3,_ => rfl

theorem maskNext32 (bytes : Nat) (few : bytes < 3) : (0xFF#32 <<< (8 * (bytes + 1))) >>> 8 = 0xFF#32 <<< (8 * bytes) := by
  match bytes,few with
  | 0,_ => rfl
  | 1,_ => rfl
  | 2,_ => rfl

theorem emulateLoopSpec (x : BitVec 32) {bytes : Nat} (few : bytes ≤ 4) (below : x.toNat < 2 ^ (8 * bytes)) (some : x ≠ 0) :
    Leading x (emulateLoop x bytes (0xFF#32 <<< (8 * (bytes - 1))) (32 - 8 * bytes)) := by
  induction bytes with
  | zero =>
      have zero : x.toNat = 0 := by simpa using below
      exact absurd (BitVec.eq_of_toNat_eq zero) some
  | succ bytes ih =>
      have pos : 0 < 2 ^ (8 * bytes) := Nat.two_pow_pos _
      have byte : x.toNat / 2 ^ (8 * bytes) < 256 := by
        rw [Nat.div_lt_iff_lt_mul pos]
        calc x.toNat < 2 ^ (8 * (bytes + 1)) := below
          _ = 256 * 2 ^ (8 * bytes) := by rw [Nat.mul_add,Nat.pow_add,Nat.mul_comm]
      have test : (x &&& 0xFF#32 <<< (8 * bytes)).toNat = x.toNat / 2 ^ (8 * bytes) * 2 ^ (8 * bytes) := by
        rw [BitVec.toNat_and,mask32 bytes (by omega),andByte,Nat.mod_eq_of_lt byte]
      rw [emulateLoop,Nat.add_sub_cancel]
      by_cases zero : x &&& 0xFF#32 <<< (8 * bytes) = 0
      · have quotient : x.toNat / 2 ^ (8 * bytes) = 0 := by
          rw [zero] at test
          exact (Nat.mul_eq_zero.mp test.symm).resolve_right (Nat.ne_of_gt pos)
        have next := ih (by omega) ((Nat.div_eq_zero_iff_lt pos).mp quotient)
        have count : 32 - 8 * (bytes + 1) + 8 = 32 - 8 * bytes := by omega
        rw [if_neg (not_not_intro zero),count]
        cases bytes with
        | zero => exact next
        | succ bytes =>
            rw [maskNext32 bytes (by omega)]
            exact next
      · have quotient : x.toNat / 2 ^ (8 * bytes) ≠ 0 := fun none => by
          rw [none,Nat.zero_mul] at test
          exact zero (BitVec.eq_of_toNat_eq test)
        obtain ⟨less,lower,upper⟩ := byteLeading byte quotient
        have value : ((x &&& 0xFF#32 <<< (8 * bytes)) >>> (24 - (32 - 8 * (bytes + 1)))).toNat % 256 = x.toNat / 2 ^ (8 * bytes) := by
          have shift : 24 - (32 - 8 * (bytes + 1)) = 8 * bytes := by omega
          rw [BitVec.toNat_ushiftRight,test,Nat.shiftRight_eq_div_pow,shift,Nat.mul_div_cancel _ pos,Nat.mod_eq_of_lt byte]
        rw [if_pos zero]
        simp only [value]
        generalize kByteLeadingZeroes.getD (x.toNat / 2 ^ (8 * bytes)) 0 = t at less lower upper ⊢
        have low : 2 ^ (7 - t) * 2 ^ (8 * bytes) = 2 ^ (32 - 1 - (32 - 8 * (bytes + 1) + t)) := by
          rw [← Nat.pow_add]
          congr 1
          omega
        have high : 2 ^ (8 - t) * 2 ^ (8 * bytes) = 2 ^ (32 - (32 - 8 * (bytes + 1) + t)) := by
          rw [← Nat.pow_add]
          congr 1
          omega
        refine ⟨by omega,?_,?_⟩
        · rw [← low]
          exact (Nat.le_div_iff_mul_le pos).mp lower
        · rw [← high]
          exact (Nat.div_lt_iff_lt_mul pos).mp upper

theorem emulateLeading {x : BitVec 32} (some : x ≠ 0) : Leading x (emulateLeadingZeroes x) :=
  emulateLoopSpec x (Nat.le_refl 4) x.isLt some

theorem highToNat (x : BitVec 64) : (high32Of64 x).toNat = x.toNat / 2 ^ 32 := by
  unfold high32Of64
  rw [BitVec.toNat_setWidth,BitVec.toNat_ushiftRight,Nat.shiftRight_eq_div_pow]
  exact Nat.mod_eq_of_lt (by have := x.isLt; omega)

theorem lowToNat (x : BitVec 64) : (low32Of64 x).toNat = x.toNat % 2 ^ 32 := BitVec.toNat_setWidth ..

theorem emulateLeading64 {x : BitVec 64} (some : x ≠ 0) : Leading x (emulateLeadingZeroes64 x) := by
  have high := highToNat x
  have low := lowToNat x
  unfold emulateLeadingZeroes64
  dsimp only
  split
  · rename_i none
    rw [none] at high
    have small : x.toNat < 2 ^ 32 := by
      have zero : x.toNat / 2 ^ 32 = 0 := high.symm
      omega
    rw [Nat.mod_eq_of_lt small] at low
    have lower : low32Of64 x ≠ 0 := fun zero => some (BitVec.eq_of_toNat_eq (by rw [← low,zero]; rfl))
    obtain ⟨less,least,most⟩ := emulateLeading lower
    rw [low] at least most
    refine ⟨by omega,?_,?_⟩
    · have same : 64 - 1 - (32 + emulateLeadingZeroes (low32Of64 x)) = 32 - 1 - emulateLeadingZeroes (low32Of64 x) := by omega
      rw [same]
      exact least
    · have same : 64 - (32 + emulateLeadingZeroes (low32Of64 x)) = 32 - emulateLeadingZeroes (low32Of64 x) := by omega
      rw [same]
      exact most
  · rename_i upper
    obtain ⟨less,least,most⟩ := emulateLeading upper
    rw [high] at least most
    generalize emulateLeadingZeroes (high32Of64 x) = t at less least most ⊢
    have lowPower : 2 ^ (64 - 1 - t) = 2 ^ (32 - 1 - t) * 2 ^ 32 := by
      rw [← Nat.pow_add]
      congr 1
      omega
    have highPower : 2 ^ (64 - t) = 2 ^ (32 - t) * 2 ^ 32 := by
      rw [← Nat.pow_add]
      congr 1
      omega
    refine ⟨by omega,?_,?_⟩
    · rw [lowPower]
      exact (Nat.le_div_iff_mul_le (by decide)).mp least
    · rw [highPower]
      exact (Nat.div_lt_iff_lt_mul (by decide)).mp most

-- The bit a count of leading zeroes points at, and the zeroes before it.
theorem Leading.bits {x : BitVec w} {count : Nat} (leading : Leading x count) :
    x.getMsbD count = true ∧ ∀ j < count, x.getMsbD j = false := by
  obtain ⟨less,least,most⟩ := leading
  constructor
  · rw [BitVec.getMsbD_eq_getLsbD,decide_eq_true less,Bool.true_and,BitVec.getLsbD]
    refine Nat.testBit_of_two_pow_le_and_two_pow_add_one_gt least ?_
    have next : w - 1 - count + 1 = w - count := by omega
    rw [next]
    exact most
  · intro j before
    rw [BitVec.getMsbD_eq_getLsbD,BitVec.getLsbD]
    have above : x.toNat < 2 ^ (w - 1 - j) := Nat.lt_of_lt_of_le most (Nat.pow_le_pow_right (by decide) (by omega))
    rw [Nat.testBit_lt_two_pow above,Bool.and_false]

end Leading

section Trailing

-- The last one of a word is its lowest bit.
def Trailing {w : Nat} (x : BitVec w) (count : Nat) : Prop := count < w ∧ ∃ j, x.toNat = 2 ^ count * (2 * j + 1)

theorem trailing32 {x : BitVec 32} (some : x ≠ 0) : Trailing x (trailingZeroes32 x) := by
  have positive : x.toNat ≠ 0 := fun zero => some (BitVec.eq_of_toNat_eq zero)
  obtain ⟨t,m,⟨j,rfl⟩,split⟩ := Nat.exists_eq_two_pow_mul_odd positive
  have small : t < 32 := by
    have power : 2 ^ t < 2 ^ 32 := Nat.lt_of_le_of_lt (split ▸ Nat.le_mul_of_pos_right _ (by omega)) x.isLt
    exact (Nat.pow_lt_pow_iff_right (by decide)).mp power
  have mask : (~~~x &&& (x - 1)).toNat = 2 ^ t - 1 := by
    have pred : (x - 1).toNat = x.toNat - 1 := by
      rw [BitVec.toNat_sub_of_le]
      · rfl
      · exact BitVec.le_def.mpr (Nat.pos_of_ne_zero positive)
    rw [BitVec.toNat_and,BitVec.toNat_not,pred]
    exact zeroesMask split x.isLt
  have count : trailingZeroes32 x = t := by
    unfold trailingZeroes32
    cases t with
    | zero =>
        have none : ~~~x &&& (x - 1) = 0#32 := BitVec.eq_of_toNat_eq mask
        rw [none]
        decide
    | succ t =>
        have two : 2 ≤ 2 ^ (t + 1) := Nat.le_self_pow (Nat.succ_ne_zero t) 2
        have some' : ~~~x &&& (x - 1) ≠ 0 := fun zero => by
          rw [zero] at mask
          have none : 0 = 2 ^ (t + 1) - 1 := mask
          omega
        obtain ⟨less,least,most⟩ := emulateLeading some'
        rw [mask] at least most
        have above : 32 - 1 - emulateLeadingZeroes (~~~x &&& (x - 1)) < t + 1 :=
          (Nat.pow_lt_pow_iff_right (by decide)).mp (Nat.lt_of_le_of_lt least (Nat.sub_lt (by omega) (by decide)))
        have below : t < 32 - emulateLeadingZeroes (~~~x &&& (x - 1)) := by
          refine (Nat.pow_lt_pow_iff_right (by decide)).mp (Nat.lt_of_le_of_lt ?_ most)
          rw [Nat.pow_succ]
          rw [Nat.pow_succ] at two
          omega
        omega
  rw [count]
  exact ⟨small,j,split⟩

theorem trailing64 {x : BitVec 64} (some : x ≠ 0) : Trailing x (trailingZeroes64 x) := by
  have high := highToNat x
  have low := lowToNat x
  unfold trailingZeroes64
  dsimp only
  split
  · rename_i none
    rw [none] at low
    have whole := Nat.div_add_mod x.toNat (2 ^ 32)
    rw [← low,← high] at whole
    have upper : high32Of64 x ≠ 0 := fun zero => some (BitVec.eq_of_toNat_eq (by rw [← whole,zero]; rfl))
    obtain ⟨less,j,split⟩ := trailing32 upper
    refine ⟨by omega,j,?_⟩
    rw [← whole,split,Nat.pow_add,Nat.mul_assoc]
    rfl
  · rename_i lower
    obtain ⟨less,j,split⟩ := trailing32 lower
    refine ⟨by omega,?_⟩
    generalize trailingZeroes32 (low32Of64 x) = t at less split ⊢
    refine ⟨2 ^ (31 - t) * (x.toNat / 2 ^ 32) + j,?_⟩
    have power : 2 ^ t * (2 * 2 ^ (31 - t)) = 2 ^ 32 := by
      rw [← Nat.pow_succ',← Nat.pow_add]
      congr 1
      omega
    calc x.toNat = 2 ^ 32 * (x.toNat / 2 ^ 32) + x.toNat % 2 ^ 32 := (Nat.div_add_mod _ _).symm
      _ = 2 ^ t * (2 * 2 ^ (31 - t)) * (x.toNat / 2 ^ 32) + 2 ^ t * (2 * j + 1) := by rw [power,← low,split]
      _ = 2 ^ t * (2 * (2 ^ (31 - t) * (x.toNat / 2 ^ 32) + j) + 1) := by ring

-- The bit a count of trailing zeroes points at, and the zeroes after it.
theorem Trailing.bits {w : Nat} {x : BitVec w} {count : Nat} (trailing : Trailing x count) :
    x.getMsbD (w - 1 - count) = true ∧ ∀ j, w - 1 - count < j → x.getMsbD j = false := by
  obtain ⟨less,j,split⟩ := trailing
  constructor
  · have index : w - 1 - (w - 1 - count) = count := by omega
    rw [BitVec.getMsbD_eq_getLsbD,decide_eq_true (by omega : w - 1 - count < w),Bool.true_and,index,BitVec.getLsbD,split,
      Nat.testBit_two_pow_mul]
    simp
  · intro i after
    rw [BitVec.getMsbD_eq_getLsbD,BitVec.getLsbD,split,Nat.testBit_two_pow_mul]
    by_cases inside : i < w
    · have above : ¬ count ≤ w - 1 - i := by omega
      simp [above]
    · simp [inside]

end Trailing

section Population

theorem topByte32 {a b c d : Nat} (ha : a ≤ 8) (hb : b ≤ 8) (hc : c ≤ 8) (hd : d ≤ 8) :
    (a + 256 * (b + 256 * (c + 256 * (d + 256 * 0)))) * 0x01010101 % 2 ^ 32 / 2 ^ 24 = a + (b + (c + (d + 0))) := by
  have spread : (a + 256 * (b + 256 * (c + 256 * (d + 256 * 0)))) * 0x01010101 =
      a + 256 * (a + b) + 256 ^ 2 * (a + b + c) + 256 ^ 3 * (a + b + c + d) + 2 ^ 32 * (b + c + d + 256 * (c + d) + 256 ^ 2 * d) := by
    ring
  rw [spread,Nat.add_mul_mod_self_left,Nat.mod_eq_of_lt (by omega)]
  omega

theorem spreadBytes32 {n x y : Nat} (first : x = (n + n * 2 ^ 8 % 2 ^ 32) % 2 ^ 32) (second : y = (x + x * 2 ^ 16 % 2 ^ 32) % 2 ^ 32) :
    y = n * 0x01010101 % 2 ^ 32 := by
  have one : x = n * 257 % 2 ^ 32 := by omega
  have two : y = x * 65537 % 2 ^ 32 := by omega
  rw [two,one,Nat.mod_mul_mod,Nat.mul_assoc]

theorem populationCountOnes32 (x : BitVec 32) : populationCount32 x = ones 32 x.toNat := by
  by_cases zero : x = 0
  · subst x
    decide
  have fives : repeated 0x55 4 = 0x55555555 := by decide
  have threes : repeated 0x33 4 = 0x33333333 := by decide
  have nibbles : repeated 0x0F 4 = 0x0F0F0F0F := by decide
  have fours : repeated 0x44 4 = 0x44444444 := by decide
  obtain ⟨less,pairs⟩ := pairsBytes 4 x.toNat x.isLt
  rw [fives] at less pairs
  have second := nibblesBytes 4 x.toNat
  rw [threes] at second
  have third := countsBytes 4 x.toNat
  rw [nibbles] at third
  have small : mapBytes nibblesOfByte 4 x.toNat ≤ 0x44444444 := fours ▸ mapBytesLe nibblesLe 4 x.toNat
  have shifted : ((x >>> 1) &&& 0x55555555#32).toNat = x.toNat / 2 &&& 0x55555555 := by
    rw [BitVec.toNat_and,BitVec.toNat_ushiftRight,Nat.shiftRight_eq_div_pow]
    rfl
  have work1 : (x - ((x >>> 1) &&& 0x55555555#32)).toNat = mapBytes pairsOfByte 4 x.toNat := by
    rw [BitVec.toNat_sub_of_le (BitVec.le_def.mpr (by rw [shifted]; exact less)),shifted,pairs]
  simp only [populationCount32,if_neg zero]
  generalize x - ((x >>> 1) &&& 0x55555555#32) = w1 at work1 ⊢
  have work2 : ((w1 &&& 0x33333333#32) + ((w1 >>> 2) &&& 0x33333333#32)).toNat = mapBytes nibblesOfByte 4 x.toNat := by
    rw [← work1] at second
    rw [BitVec.toNat_add,BitVec.toNat_and,BitVec.toNat_and,BitVec.toNat_ushiftRight,Nat.shiftRight_eq_div_pow]
    exact (congrArg (· % 2 ^ 32) second).trans (Nat.mod_eq_of_lt (by omega))
  generalize (w1 &&& 0x33333333#32) + ((w1 >>> 2) &&& 0x33333333#32) = w2 at work2 ⊢
  have work3 : ((w2 + (w2 >>> 4)) &&& 0x0F0F0F0F#32).toNat = mapBytes (ones 8) 4 x.toNat := by
    rw [BitVec.toNat_and,BitVec.toNat_add,BitVec.toNat_ushiftRight,Nat.shiftRight_eq_div_pow,work2,Nat.mod_eq_of_lt (by omega)]
    exact third
  generalize (w2 + (w2 >>> 4)) &&& 0x0F0F0F0F#32 = w3 at work3 ⊢
  have double : ∀ (v : BitVec 32) (k : Nat), (v + v <<< k).toNat = (v.toNat + v.toNat * 2 ^ k % 2 ^ 32) % 2 ^ 32 := by
    intro v k
    rw [BitVec.toNat_add,BitVec.toNat_shiftLeft,Nat.shiftLeft_eq]
  have spread := spreadBytes32 (double w3 8) (double (w3 + w3 <<< 8) 16)
  have bytes : ones 32 x.toNat = byteSum (ones 8) 4 x.toNat := onesBytes 4 x.toNat
  rw [BitVec.toNat_ushiftRight,Nat.shiftRight_eq_div_pow,spread,work3,bytes]
  exact topByte32 (onesLe 8 _) (onesLe 8 _) (onesLe 8 _) (onesLe 8 _)

theorem populationCountOnes64 (x : BitVec 64) : populationCount64 x = ones 64 x.toNat := by
  have halves : ones (32 + 32) x.toNat = ones 32 (x.toNat % 2 ^ 32) + ones 32 (x.toNat / 2 ^ 32) := onesSplit 32 32 x.toNat
  unfold populationCount64
  rw [populationCountOnes32,populationCountOnes32,highToNat,lowToNat,Nat.add_comm]
  exact halves.symm

theorem onesSum (w n : Nat) : ones w n = ∑ k ∈ Finset.range w, (n.testBit k).toNat := by
  induction w generalizing n with
  | zero => rfl
  | succ w ih =>
      rw [ones,ih,Finset.sum_range_succ',Nat.add_comm]
      congr 1
      · refine Finset.sum_congr rfl fun k _ => ?_
        rw [Nat.testBit_succ]
      · rw [Nat.testBit_zero]
        rcases Nat.mod_two_eq_zero_or_one n with even | odd
        · simp [even]
        · simp [odd]

end Population

end OmrCompiler.BitManipulator
