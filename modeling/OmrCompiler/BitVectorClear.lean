import Mathlib.Data.BitVec
import Mathlib.Tactic.Ring
import OmrCompiler.BitVectorFill

/-! Clearing a range of a dense bit vector: `resetAll(m, n)`. A store outside the
allocated chunks has no result. -/
namespace OmrCompiler.BitVector
open MachineInt
open BitChunk

variable {L : Layout}

-- getBitMask(m, n)
def getBitMasks (L : Layout) (m n : Int) : Chunk L :=
  if L.msb then ((getBitMask L m - 1) <<< 1) - getBitMask L n + 2
  else ((getBitMask L n - 1) <<< 1) - getBitMask L m + 2

-- for (i = ...) chunk &= ~getBitMask(i)
def clearBits (is : List Int) (c : Chunk L) : Chunk L := is.foldl (fun c i => c &&& ~~~getBitMask L i) c

def storeInside (is : List Int) (f : Chunk L → Chunk L) (cs : List (Chunk L)) : Option (List (Chunk L)) :=
  if ∀ i ∈ is, 0 ≤ i ∧ i < cs.length then some (storeEach is (fun _ => f) cs) else none

def resetAll (v : TRBitVector L) (m n : Int) : Option (TRBitVector L) :=
  let firstChunk := getChunkIndex L m
  let lastChunk := getChunkIndex L n
  if v.lastChunkWithNonZero < firstChunk ∨ lastChunk < v.firstChunkWithNonZero then some v
  else
    let v := if numChunks v ≤ lastChunk then setChunkSize v (getChunkIndex L n) else v
    if firstChunk = lastChunk then do
      let cs ← storeInside [firstChunk] (· &&& ~~~getBitMasks L m n) v.chunks
      some (resetLowAndHighChunks cs v.firstChunkWithNonZero v.lastChunkWithNonZero)
    else do
      let cs ← storeInside [firstChunk] (fun c =>
        if 0 < getIndexInChunk L m then clearBits (span (getIndexInChunk L m) (bitsInChunk L - 1)) c
        else 0#(bitsInChunk L)) v.chunks
      let cs ← storeInside [lastChunk] (fun c =>
        if getIndexInChunk L n < bitsInChunk L - 1 then clearBits (span 0 (getIndexInChunk L n)).reverse c
        else 0#(bitsInChunk L)) cs
      let cs ← storeInside (span (firstChunk + 1) (lastChunk - 1)) (fun _ => 0#(bitsInChunk L)) cs
      some (resetLowAndHighChunks cs v.firstChunkWithNonZero v.lastChunkWithNonZero)

theorem oneShift (w k : Nat) : 1#w <<< k = (2 : BitVec w) ^ k := by
  induction k with
  | zero => simp
  | succ k ih =>
    rw [BitVec.shiftLeft_add,ih,pow_succ]
    apply BitVec.eq_of_toNat_eq
    simp [Nat.shiftLeft_eq,Nat.mul_mod]

theorem maskRun {w lo hi : Nat} (order : lo ≤ hi) :
    ((1#w <<< hi - 1#w) <<< 1) - 1#w <<< lo + 2#w = BitVec.ofNat w ((2 ^ (hi + 1 - lo) - 1) * 2 ^ lo) := by
  have low : 1 ≤ (2 : Nat) ^ (hi + 1 - lo) := Nat.two_pow_pos _
  have split : (2 : BitVec w) ^ (hi + 1 - lo) * 2 ^ lo = 2 ^ hi * 2 := by
    rw [← pow_add,← pow_succ]
    congr 1
    omega
  have double : ∀ x : BitVec w, x <<< 1 = x * 2 := by
    intro x
    apply BitVec.eq_of_toNat_eq
    simp [Nat.shiftLeft_eq,Nat.mul_mod]
  have run : BitVec.ofNat w ((2 ^ (hi + 1 - lo) - 1) * 2 ^ lo) = (2 ^ (hi + 1 - lo) - 1) * 2 ^ lo := by
    rw [← BitVec.natCast_eq_ofNat,Nat.cast_mul,Nat.cast_sub low]
    push_cast
    rfl
  have two : (2#w : BitVec w) = 2 := rfl
  have one : (1#w : BitVec w) = 1 := rfl
  rw [run,double,oneShift,oneShift,two,one,sub_mul _ _ (2 ^ lo),split]
  ring

theorem bitOfRun (w : Nat) {k : Nat} (inside : k < w) (lo hi : Nat) :
    (BitVec.ofNat w ((2 ^ (hi + 1 - lo) - 1) * 2 ^ lo)).getLsbD k = decide (lo ≤ k ∧ k ≤ hi) := by
  rw [BitVec.getLsbD_ofNat,Nat.testBit_mul_two_pow,Nat.testBit_two_pow_sub_one,Bool.eq_iff_iff]
  simp only [Bool.and_eq_true,decide_eq_true_eq]
  omega

theorem bitAtMasks {m n : Int} (order : m % bitsInChunk L ≤ n % bitsInChunk L) (p : Int) :
    bitAt (getBitMasks L m n) p =
      decide (m % bitsInChunk L ≤ p % bitsInChunk L ∧ p % bitsInChunk L ≤ n % bitsInChunk L) := by
  have hm := indexBounds L m
  have hn := indexBounds L n
  have hp := indexBounds L p
  rw [bitAtLsb]
  cases top : L.msb
  · have order' : position L m ≤ position L n := by
      simp only [position,top,Bool.false_eq_true,if_false]
      omega
    have masks : getBitMasks L m n = _ := (if_neg (by simp [top])).trans (maskRun order')
    rw [masks,bitOfRun _ (positionLt L p),decide_eq_decide]
    simp only [position,top,Bool.false_eq_true,if_false]
    omega
  · have order' : position L n ≤ position L m := by
      simp only [position,top,if_true]
      omega
    have masks : getBitMasks L m n = _ := (if_pos top).trans (maskRun order')
    rw [masks,bitOfRun _ (positionLt L p),decide_eq_decide]
    simp only [position,top,if_true]
    omega

theorem clearBitsOr (is : List Int) (c : Chunk L) : clearBits is c = c &&& ~~~orBits is 0#(bitsInChunk L) := by
  apply chunkExt
  intro p _
  rw [bitAtAnd,bitAtNot,bitAtOrBits,bitAtZero,Bool.false_or]
  induction is generalizing c with
  | nil => simp [clearBits]
  | cons i is ih =>
    have step := ih (c &&& ~~~getBitMask L i)
    simp only [clearBits,List.foldl_cons,List.any_cons] at step ⊢
    rw [step,bitAtAnd,bitAtNot,bitAtMask,Bool.not_or,Bool.and_assoc]
    rfl

theorem bitAtFirstCleared (c : Chunk L) (m p : Int) :
    bitAt (if 0 < getIndexInChunk L m then clearBits (span (getIndexInChunk L m) (bitsInChunk L - 1)) c
      else 0#(bitsInChunk L)) p = (bitAt c p && !decide (m % bitsInChunk L ≤ p % bitsInChunk L)) := by
  have part := bitAtFirstPart 0#(bitsInChunk L) m p
  have hm := indexBounds L m
  have hp := indexBounds L p
  have index : getIndexInChunk L m = m % bitsInChunk L := rfl
  split
  · rename_i inner
    rw [if_pos inner,bitAtZero,Bool.false_or] at part
    rw [clearBitsOr,bitAtAnd,bitAtNot,part]
  · rw [decide_eq_true (by omega)]
    simp

theorem bitAtLastCleared (c : Chunk L) (n p : Int) :
    bitAt (if getIndexInChunk L n < bitsInChunk L - 1 then clearBits (span 0 (getIndexInChunk L n)).reverse c
      else 0#(bitsInChunk L)) p = (bitAt c p && !decide (p % bitsInChunk L ≤ n % bitsInChunk L)) := by
  have part := bitAtLastPart 0#(bitsInChunk L) n p
  have hn := indexBounds L n
  have hp := indexBounds L p
  have index : getIndexInChunk L n = n % bitsInChunk L := rfl
  split
  · rename_i inner
    rw [if_pos inner,bitAtZero,Bool.false_or] at part
    rw [clearBitsOr,bitAtAnd,bitAtNot,part]
  · rw [decide_eq_true (by omega)]
    simp

theorem chunkIndexFits {n : Nat} (reach : (chunkIndex L n : Int) ≤ maxSigned 32) : getChunkIndex L n = chunkIndex L n := by
  have quotient : (n : Int) / bitsInChunk L = chunkIndex L n := rfl
  have low : minSigned 32 = -2147483648 := rfl
  simp only [getChunkIndex,quotient]
  exact wrapSelf (by decide) ⟨by omega,reach⟩

theorem storeInsideSome {is : List Int} {f : Chunk L → Chunk L} {cs : List (Chunk L)}
    (inside : ∀ i ∈ is, 0 ≤ i ∧ i < cs.length) : storeInside is f cs = some (storeEach is (fun _ => f) cs) := if_pos inside

theorem storeOne (i : Int) (f : Chunk L → Chunk L) (cs : List (Chunk L)) :
    storeEach [i] (fun _ => f) cs = cs.modify i.toNat f := rfl

def ResetsExactly (v : TRBitVector L) (S : Finset Nat) (m n : Nat) : Prop :=
  ∃ u, resetAll v m n = some u ∧ Represents u (S \ Finset.Icc m n)

theorem resetAllSkips {v : TRBitVector L} {S : Finset Nat} (h : Represents v S) {m n : Nat}
    (fits : (chunkIndex L n : Int) ≤ maxSigned 32) (fits' : (chunkIndex L m : Int) ≤ maxSigned 32)
    (skip : v.lastChunkWithNonZero < chunkIndex L m ∨ chunkIndex L n < v.firstChunkWithNonZero) :
    ResetsExactly v S m n := by
  have same : S \ Finset.Icc m n = S := by
    apply Finset.sdiff_eq_self_of_disjoint
    rw [Finset.disjoint_left]
    intro p on range
    have within := h.bounded.holdsInside ((h.member p).mp on)
    have low := chunkIndexMono (L := L) (Finset.mem_Icc.mp range).1
    have high := chunkIndexMono (L := L) (Finset.mem_Icc.mp range).2
    omega
  refine ⟨v,?_,by rwa [same]⟩
  rw [resetAll,chunkIndexFits fits,chunkIndexFits fits']
  exact if_pos skip

theorem resetAllClears {v : TRBitVector L} {S : Finset Nat} (h : Represents v S) {m n : Nat} (order : m ≤ n)
    (fits : (chunkIndex L n : Int) ≤ maxSigned 32) (room : (chunkIndex L n : Int) < numChunks v)
    (meets : ¬ (v.lastChunkWithNonZero < chunkIndex L m ∨ chunkIndex L n < v.firstChunkWithNonZero)) :
    ResetsExactly v S m n := by
  have chunks := chunkIndexMono (L := L) order
  have inside : (chunkIndex L n : Int) < v.chunks.length := room
  have old : ∀ p : Nat, p ∈ S ↔ bitAt (chunkOf v.chunks (chunkIndex L p)) p = true := h.member
  have stop : v.lastChunkWithNonZero < v.chunks.length := by
    rcases h.bounded.tight with ⟨_,last⟩ | ⟨_,_,below,_⟩
    · omega
    · exact below
  have range : ∀ p ∈ S \ Finset.Icc m n, v.firstChunkWithNonZero ≤ chunkIndex L p ∧ chunkIndex L p ≤ v.lastChunkWithNonZero :=
    fun p on => h.bounded.holdsInside ((h.member p).mp (Finset.mem_sdiff.mp on).1)
  have hm := indexBounds L m
  have hn := indexBounds L n
  unfold ResetsExactly resetAll
  rw [chunkIndexFits fits,chunkIndexFits (by omega : (chunkIndex L m : Int) ≤ _)]
  simp only [if_neg meets,if_neg (show ¬ numChunks v ≤ chunkIndex L n by omega)]
  split
  · rename_i same
    rw [storeInsideSome (by simp; omega),storeOne]
    refine ⟨_,rfl,rescanRepresents h.bounded.firstNonneg (by simpa using stop) range fun p => ?_⟩
    have am := leByChunk L m p
    have an := leByChunk L p n
    rw [chunkOfModify _ _ (by omega) (by omega),Finset.mem_sdiff,Finset.mem_Icc,old]
    by_cases here : (chunkIndex L p : Int) = chunkIndex L m
    · rw [if_pos ⟨here,by omega⟩,here,bitAtAnd,bitAtNot,bitAtMasks (by
        have := leByChunk L m n
        omega)]
      simp only [Bool.and_eq_true,Bool.not_eq_true',decide_eq_false_iff_not]
      apply and_congr_right
      intro _
      omega
    · rw [if_neg fun both => here both.1]
      have out : ¬ (m ≤ p ∧ p ≤ n) := by omega
      simp [out]
  · rename_i different
    have between : chunkIndex L m < chunkIndex L n := by omega
    rw [storeInsideSome (by simp; omega),storeOne,Option.bind_eq_bind,Option.bind_some,
      storeInsideSome (by simp; omega),storeOne,Option.bind_some,
      storeInsideSome (by intro i on; have := memSpan.mp on; simp; omega),Option.bind_some]
    refine ⟨_,rfl,rescanRepresents h.bounded.firstNonneg (by simpa [lengthStoreEach] using stop) range fun p => ?_⟩
    have am := leByChunk L m p
    have an := leByChunk L p n
    rw [chunkOfSpan _ _ (by omega) (by omega)]
    simp only [List.length_modify]
    rw [Finset.mem_sdiff,Finset.mem_Icc,old]
    by_cases atFirst : (chunkIndex L p : Int) = chunkIndex L m
    · rw [if_neg (by omega),chunkOfModify _ _ (by omega) (by omega),if_neg (by omega),
        chunkOfModify _ _ (by omega) (by omega),if_pos ⟨atFirst,by omega⟩,atFirst,bitAtFirstCleared]
      simp only [Bool.and_eq_true,Bool.not_eq_true',decide_eq_false_iff_not]
      apply and_congr_right
      intro _
      omega
    · by_cases atLast : (chunkIndex L p : Int) = chunkIndex L n
      · rw [if_neg (by omega),chunkOfModify _ _ (by omega) (by omega),
          if_pos ⟨atLast,by simp only [List.length_modify]; omega⟩,bitAtLastCleared,
          chunkOfModify _ _ (by omega) (by omega),if_neg fun both => different both.1.symm,atLast]
        simp only [Bool.and_eq_true,Bool.not_eq_true',decide_eq_false_iff_not]
        apply and_congr_right
        intro _
        omega
      · by_cases middle : chunkIndex L m < chunkIndex L p ∧ chunkIndex L p < chunkIndex L n
        · rw [if_pos ⟨by omega,by omega,by omega⟩,bitAtZero]
          have covered : m ≤ p ∧ p ≤ n := by omega
          simp [covered]
        · rw [if_neg (by omega),chunkOfModify _ _ (by omega) (by omega),if_neg (by omega),
            chunkOfModify _ _ (by omega) (by omega),if_neg (by omega)]
          have out : ¬ (m ≤ p ∧ p ≤ n) := by omega
          simp [out]

/- The array is resized to the index of the last chunk, one short of what the
stores need. -/
theorem resetAllOutside {v : TRBitVector L} {S : Finset Nat} (h : Represents v S) {m n : Nat}
    (fits : (chunkIndex L n : Int) ≤ maxSigned 32) (fits' : (chunkIndex L m : Int) ≤ maxSigned 32)
    (beyond : numChunks v ≤ chunkIndex L n) (meets : ¬ v.lastChunkWithNonZero < chunkIndex L m) :
    resetAll v m n = none := by
  have nonneg : (0 : Int) ≤ numChunks v := by simp [numChunks]
  obtain ⟨_,size,_⟩ := setChunkSizeBounded h.bounded (k := chunkIndex L n) (by omega)
  have length : ((setChunkSize v (chunkIndex L n)).chunks.length : Int) = chunkIndex L n := size
  have held : v.lastChunkWithNonZero < numChunks v := by
    rcases h.bounded.tight with ⟨_,last⟩ | ⟨_,_,below,_⟩
    · omega
    · exact below
  have first : v.firstChunkWithNonZero ≤ numChunks v := by
    rcases h.bounded.tight with ⟨top,_⟩ | ⟨_,_,_,_⟩ <;> omega
  rw [resetAll,chunkIndexFits fits,chunkIndexFits fits',if_neg (by omega)]
  simp only [if_pos beyond]
  rw [if_neg (by omega)]
  have outside : ∀ (f : Chunk L → Chunk L) (cs : List (Chunk L)), (cs.length : Int) = chunkIndex L n →
      storeInside [(chunkIndex L n : Int)] f cs = none := by
    intro f cs short
    apply if_neg
    intro all
    have := (all (chunkIndex L n) (by simp)).2
    omega
  cases stored : storeInside [(chunkIndex L m : Int)] _ (setChunkSize v (chunkIndex L n)).chunks with
  | none => rfl
  | some cs =>
    simp only [storeInside] at stored
    split at stored
    · cases stored
      rw [Option.bind_eq_bind,Option.bind_some,outside _ _ (by rw [lengthStoreEach]; exact length)]
      rfl
    · cases stored

theorem rangeResetExactly {v : TRBitVector L} {S : Finset Nat} (h : Represents v S) {m n : Nat} (order : m ≤ n)
    (fits : (chunkIndex L n : Int) ≤ maxSigned 32) :
    ResetsExactly v S m n ↔ (chunkIndex L n : Int) < numChunks v ∨ v.lastChunkWithNonZero < chunkIndex L m := by
  have chunks := chunkIndexMono (L := L) order
  have fits' : (chunkIndex L m : Int) ≤ maxSigned 32 := by omega
  constructor
  · rintro ⟨u,result,_⟩
    by_contra neither
    have outside := resetAllOutside h fits fits' (by omega) (by omega)
    rw [outside] at result
    cases result
  · intro allowed
    by_cases skip : v.lastChunkWithNonZero < chunkIndex L m ∨ chunkIndex L n < v.firstChunkWithNonZero
    · exact resetAllSkips h fits fits' skip
    · exact resetAllClears h order fits (by omega) skip

-- The vector {3} over the given number of bits, in 64-bit chunks.
def sampleVector (bits : Nat) : TRBitVector ⟨true,false⟩ := set (construct ⟨true,false⟩ bits) 3

theorem sampleRepresents {bits : Nat} (reach : (chunksFor ⟨true,false⟩ bits : Int) ≤ maxSigned 32) :
    Represents (sampleVector bits) {3} := setRepresents (n := 3) (constructRepresents _ reach) (by unfold Addressable; decide)

theorem rangeResetExactlySample : ResetsExactly (sampleVector 128) {3} 2 70 := by
  have represents : Represents (sampleVector 128) {3} := sampleRepresents (by decide)
  exact (rangeResetExactly represents (by decide) (by decide)).mpr (Or.inl (by decide))

-- Bits 2 to 70 of a vector of one chunk: the store to chunk 1 is past its end.
theorem rangeResetOutside : Represents (sampleVector 64) {3} ∧ ¬ ResetsExactly (sampleVector 64) {3} 2 70 := by
  refine ⟨sampleRepresents (by decide),?_⟩
  rintro ⟨u,result,_⟩
  have nothing : resetAll (sampleVector 64) (2 : Nat) (70 : Nat) = none := by decide
  rw [nothing] at result
  cases result

end OmrCompiler.BitVector
