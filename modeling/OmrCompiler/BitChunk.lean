import Mathlib.Algebra.BigOperators.Intervals
import OmrCompiler.MachineInt

/-! One chunk of a dense bit vector: an unsigned word of 32 or 64 bits, its bits
numbered from either end. The byte table counts the bits of a chunk. -/
namespace OmrCompiler.BitChunk
open MachineInt

-- BITVECTOR_64BIT and BITVECTOR_BIT_NUMBERING_MSB.
structure Layout where
  wide : Bool
  msb : Bool
  deriving DecidableEq, Repr

def shift (L : Layout) : Nat := if L.wide then 6 else 5

def bitsInChunk (L : Layout) : Nat := 2 ^ shift L

abbrev Chunk (L : Layout) := BitVec (bitsInChunk L)

def getChunkIndex (L : Layout) (bitIndex : Int) : Int := wrap 32 (bitIndex / bitsInChunk L)

def getIndexInChunk (L : Layout) (bitIndex : Int) : Int := bitIndex % bitsInChunk L

def getBitIndex (L : Layout) (chunkIndex : Int) : Int := chunkIndex * bitsInChunk L

def position (L : Layout) (bitIndex : Int) : Nat :=
  let k := (bitIndex % bitsInChunk L).toNat
  if L.msb then bitsInChunk L - 1 - k else k

def getBitMask (L : Layout) (bitIndex : Int) : Chunk L := 1#(bitsInChunk L) <<< position L bitIndex

def bitAt {L : Layout} (c : Chunk L) (bitIndex : Int) : Bool := c &&& getBitMask L bitIndex != 0#(bitsInChunk L)

variable {L : Layout}

theorem bitsInChunkCases (L : Layout) : bitsInChunk L = 32 ∨ bitsInChunk L = 64 := by
  rcases L with ⟨_ | _,msb⟩
  · exact Or.inl rfl
  · exact Or.inr rfl

theorem bitsInChunkPos (L : Layout) : 0 < bitsInChunk L := Nat.two_pow_pos _

theorem positionLt (L : Layout) (i : Int) : position L i < bitsInChunk L := by
  have pos := bitsInChunkPos L
  have low := Int.emod_nonneg i (b := bitsInChunk L) (by omega)
  have high := Int.emod_lt_of_pos i (b := bitsInChunk L) (by omega)
  simp only [position]
  split <;> omega

theorem positionSame {i j : Int} :
    position L i = position L j ↔ i % bitsInChunk L = j % bitsInChunk L := by
  have pos := bitsInChunkPos L
  have hi := Int.emod_nonneg i (b := bitsInChunk L) (by omega)
  have hj := Int.emod_nonneg j (b := bitsInChunk L) (by omega)
  have ki := Int.emod_lt_of_pos i (b := bitsInChunk L) (by omega)
  have kj := Int.emod_lt_of_pos j (b := bitsInChunk L) (by omega)
  simp only [position]
  split <;> omega

theorem maskBit (L : Layout) (i : Int) (k : Nat) :
    (getBitMask L i).getLsbD k = decide (position L i = k) := by
  have inside := positionLt L i
  simp only [getBitMask,BitVec.getLsbD_shiftLeft,BitVec.getLsbD_one]
  by_cases same : position L i = k
  · subst k
    simp [inside,bitsInChunkPos L]
  · by_cases below : k < position L i
    · simp [same,below]
    · simp only [same,decide_false,Bool.and_eq_false_iff,decide_eq_false_iff_not]
      right
      omega

theorem bitAtLsb (c : Chunk L) (i : Int) : bitAt c i = c.getLsbD (position L i) := by
  have inside := positionLt L i
  have zero : (c &&& getBitMask L i = 0#(bitsInChunk L)) ↔ c.getLsbD (position L i) = false := by
    constructor
    · intro none
      have here := congrArg (fun d : Chunk L => d.getLsbD (position L i)) none
      simpa [maskBit] using here
    · intro off
      apply BitVec.eq_of_getLsbD_eq
      intro k _
      rw [BitVec.getLsbD_and,maskBit]
      by_cases same : position L i = k
      · subst k
        simp [off]
      · simp [same]
  cases on : c.getLsbD (position L i)
  · have nil := zero.mpr on
    simp [bitAt,nil]
  · have some : c &&& getBitMask L i ≠ 0#(bitsInChunk L) := fun nil => by simp [on] at zero; exact zero nil
    simpa [bitAt] using some

@[simp] theorem bitAtOr (c d : Chunk L) (i : Int) : bitAt (c ||| d) i = (bitAt c i || bitAt d i) := by
  simp [bitAtLsb]

@[simp] theorem bitAtAnd (c d : Chunk L) (i : Int) : bitAt (c &&& d) i = (bitAt c i && bitAt d i) := by
  simp [bitAtLsb]

@[simp] theorem bitAtNot (c : Chunk L) (i : Int) : bitAt (~~~c) i = !bitAt c i := by
  simp [bitAtLsb,positionLt]

@[simp] theorem bitAtZero (i : Int) : bitAt (0#(bitsInChunk L)) i = false := by
  simp [bitAt]

@[simp] theorem bitAtOnes (i : Int) : bitAt (BitVec.allOnes (bitsInChunk L)) i = true := by
  simp [bitAtLsb,positionLt]

@[simp] theorem bitAtMask (i j : Int) :
    bitAt (getBitMask L i) j = decide (i % bitsInChunk L = j % bitsInChunk L) := by
  simp only [bitAtLsb,maskBit,positionSame]

theorem bitAtMod (c : Chunk L) (i : Int) : bitAt c (i % bitsInChunk L) = bitAt c i := by
  simp only [bitAtLsb]
  congr 1
  exact positionSame.mpr (Int.emod_emod_of_dvd i (dvd_refl _))

theorem positionReached (L : Layout) {k : Nat} (inside : k < bitsInChunk L) :
    ∃ i : Nat, i < bitsInChunk L ∧ position L i = k := by
  cases top : L.msb
  · refine ⟨k,inside,?_⟩
    simp only [position,top]
    rw [Int.emod_eq_of_lt (by omega) (by omega)]
    rfl
  · refine ⟨bitsInChunk L - 1 - k,by omega,?_⟩
    simp only [position,top,if_true]
    rw [Int.emod_eq_of_lt (by omega) (by omega)]
    omega

theorem chunkExt {c d : Chunk L} (same : ∀ i : Nat, i < bitsInChunk L → bitAt c i = bitAt d i) : c = d := by
  apply BitVec.eq_of_getLsbD_eq
  intro k inside
  obtain ⟨i,below,rfl⟩ := positionReached L inside
  simpa only [bitAtLsb] using same i below

theorem chunkNonZero {c : Chunk L} : c ≠ 0#(bitsInChunk L) ↔ ∃ i : Nat, i < bitsInChunk L ∧ bitAt c i = true := by
  constructor
  · intro some
    by_contra off
    apply some
    apply chunkExt
    intro i inside
    rw [bitAtZero]
    exact Bool.eq_false_iff.mpr fun on => off ⟨i,inside,on⟩
  · rintro ⟨i,_,on⟩ rfl
    simp at on

-- for (i = ...) chunk |= getBitMask(i)
def orBits (is : List Int) (c : Chunk L) : Chunk L := is.foldl (fun c i => c ||| getBitMask L i) c

theorem bitAtOrBits (is : List Int) (c : Chunk L) (j : Int) :
    bitAt (orBits is c) j = (bitAt c j || is.any fun i => i % bitsInChunk L == j % bitsInChunk L) := by
  induction is generalizing c with
  | nil => simp [orBits]
  | cons i is ih =>
    have step := ih (c ||| getBitMask L i)
    simp only [orBits,List.foldl_cons,List.any_cons] at step ⊢
    rw [step,bitAtOr,bitAtMask,Bool.or_assoc]
    rfl

def bitsInByte : List Nat :=
  [0,1,1,2,1,2,2,3,1,2,2,3,2,3,3,4,
   1,2,2,3,2,3,3,4,2,3,3,4,3,4,4,5,
   1,2,2,3,2,3,3,4,2,3,3,4,3,4,4,5,
   2,3,3,4,3,4,4,5,3,4,4,5,4,5,5,6,
   1,2,2,3,2,3,3,4,2,3,3,4,3,4,4,5,
   2,3,3,4,3,4,4,5,3,4,4,5,4,5,5,6,
   2,3,3,4,3,4,4,5,3,4,4,5,4,5,5,6,
   3,4,4,5,4,5,5,6,4,5,5,6,5,6,6,7,
   1,2,2,3,2,3,3,4,2,3,3,4,3,4,4,5,
   2,3,3,4,3,4,4,5,3,4,4,5,4,5,5,6,
   2,3,3,4,3,4,4,5,3,4,4,5,4,5,5,6,
   3,4,4,5,4,5,5,6,4,5,5,6,5,6,6,7,
   2,3,3,4,3,4,4,5,3,4,4,5,4,5,5,6,
   3,4,4,5,4,5,5,6,4,5,5,6,5,6,6,7,
   3,4,4,5,4,5,5,6,4,5,5,6,5,6,6,7,
   4,5,5,6,5,6,6,7,5,6,6,7,6,7,7,8]

def byteAt (c : Chunk L) (j : Nat) : Nat := (c.toNat >>> (8 * j)) % 256

-- The counts of p[0] ... p[3], or p[7], added up; the order of the bytes is immaterial.
def bitsInBytes (c : Chunk L) : Nat :=
  ((List.range (bitsInChunk L / 8)).map fun j => bitsInByte.getD (byteAt c j) 0).sum

set_option maxRecDepth 4000 in
theorem bitsInByteCounts : ∀ b < 256, bitsInByte.getD b 0 = ∑ k ∈ Finset.range 8, (b.testBit k).toNat := by
  have table : ∀ e ∈ bitsInByte.zipIdx, e.1 = ∑ k ∈ Finset.range 8, (e.2.testBit k).toNat := by decide
  exact fun b below => tableEntry (p := fun n b => n = ∑ k ∈ Finset.range 8, (b.testBit k).toNat) table below 0

theorem byteBits (c : Chunk L) (j : Nat) :
    bitsInByte.getD (byteAt c j) 0 = ∑ k ∈ Finset.range 8, (c.getLsbD (j * 8 + k)).toNat := by
  rw [bitsInByteCounts (byteAt c j) (Nat.mod_lt _ (by decide))]
  apply Finset.sum_congr rfl
  intro k inside
  have below := Finset.mem_range.mp inside
  have split : (256 : Nat) = 2 ^ 8 := rfl
  rw [byteAt,split,Nat.testBit_mod_two_pow,Nat.testBit_shiftRight,BitVec.testBit_toNat]
  simp only [below,decide_true,Bool.true_and]
  congr 2
  omega

-- A sum over m blocks of width B, block by block.
theorem sumBlocks (f : Nat → Nat) (B m : Nat) :
    ∑ n ∈ Finset.range (m * B), f n = ∑ i ∈ Finset.range m, ∑ k ∈ Finset.range B, f (i * B + k) := by
  induction m with
  | zero => simp
  | succ m ih => rw [Nat.add_mul,Nat.one_mul,Finset.sum_range_add,ih,Finset.sum_range_succ]

theorem positionSum (f : Nat → Nat) (L : Layout) :
    ∑ i ∈ Finset.range (bitsInChunk L), f (position L i) = ∑ k ∈ Finset.range (bitsInChunk L), f k := by
  have at' : ∀ i ∈ Finset.range (bitsInChunk L),
      f (position L i) = if L.msb then f (bitsInChunk L - 1 - i) else f i := by
    intro i inside
    have below := Finset.mem_range.mp inside
    simp only [position]
    rw [Int.emod_eq_of_lt (by omega) (by omega)]
    split <;> simp
  rw [Finset.sum_congr rfl at']
  cases L.msb
  · simp
  · simpa using Finset.sum_range_reflect f (bitsInChunk L)

theorem bitsInBytesCount (c : Chunk L) :
    bitsInBytes c = ∑ i ∈ Finset.range (bitsInChunk L), (bitAt c i).toNat := by
  have whole : bitsInChunk L / 8 * 8 = bitsInChunk L := by
    rcases bitsInChunkCases L with h | h <;> rw [h]
  calc
    bitsInBytes c = ∑ j ∈ Finset.range (bitsInChunk L / 8), ∑ k ∈ Finset.range 8, (c.getLsbD (j * 8 + k)).toNat := by
      simp only [bitsInBytes,byteBits]
      rfl
    _ = ∑ k ∈ Finset.range (bitsInChunk L), (c.getLsbD k).toNat := by
      rw [← sumBlocks (fun k => (c.getLsbD k).toNat),whole]
    _ = ∑ i ∈ Finset.range (bitsInChunk L), (bitAt c i).toNat := by
      simp only [bitAtLsb]
      exact (positionSum (fun k => (c.getLsbD k).toNat) L).symm

end OmrCompiler.BitChunk
