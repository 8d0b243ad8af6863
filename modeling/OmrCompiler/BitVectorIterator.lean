import Mathlib.Data.Finset.Sort
import OmrCompiler.BitVectorClear
import OmrCompiler.BitVectorQueries

/-! Iteration over a dense bit vector and over containers of bits: TR_BitVectorIterator,
TR_BitContainer and TR_BitContainerIterator. A read outside the chunks has no result. -/
namespace OmrCompiler.BitVector
open MachineInt
open BitChunk

variable {L : Layout}

structure TRBitVectorIterator (L : Layout) where
  bitVector : TRBitVector L
  curIndex : Int
  startBit : Int
  deriving DecidableEq, Repr

def incrementBitMask (L : Layout) (mask : Chunk L) : Chunk L := if L.msb then mask >>> 1 else mask + mask

def readChunk (v : TRBitVector L) (i : Int) : Option (Chunk L) := if 0 ≤ i ∧ i < numChunks v then some (chunkAt v i) else none

-- do curChunk++; while (!_chunks[curChunk])
def nextNonZero (v : TRBitVector L) : Nat → Int → Option Int
  | 0,_ => none
  | fuel + 1,curChunk => do
      let c ← readChunk v (curChunk + 1)
      if c = 0#(bitsInChunk L) then nextNonZero v fuel (curChunk + 1) else some (curChunk + 1)

-- while (!(chunk & mask)), the sequential check
def findBit (c : Chunk L) : Nat → Int → Chunk L → Option Int
  | 0,_,_ => none
  | fuel + 1,curIndex,mask => if c &&& mask = 0#(bitsInChunk L) then findBit c fuel (wrap 32 (curIndex + 1)) (incrementBitMask L mask) else some curIndex

namespace TRBitVectorIterator
variable (fuel : Nat) (it : TRBitVectorIterator L)

-- _numChunks << SHIFT
def pastEnd : Int := wrap 32 (numChunks it.bitVector * bitsInChunk L)

def nextBit : Option Int :=
  let v := it.bitVector
  let curIndex := wrap 32 (it.curIndex + 1)
  let curChunk := getChunkIndex L curIndex
  if v.lastChunkWithNonZero < curChunk then some it.pastEnd
  else do
    let c ← readChunk v curChunk
    if c = BitVec.allOnes (bitsInChunk L) then some curIndex
    else
      let rest := c &&& getBitMasks L curIndex (bitsInChunk L - 1)
      if rest = 0#(bitsInChunk L) then
        if v.lastChunkWithNonZero ≤ curChunk then some it.pastEnd
        else do
          let chunk ← nextNonZero v fuel curChunk
          findBit (chunkAt v chunk) fuel (wrap 32 (chunk * bitsInChunk L)) (getBitMask L 0)
      else findBit rest fuel curIndex (getBitMask L curIndex)

def getNextBit : Option (TRBitVectorIterator L) := (nextBit fuel it).map fun curIndex => {it with curIndex := curIndex}

def reset : Option (TRBitVectorIterator L) := getNextBit fuel {it with curIndex := wrap 32 (it.startBit - 1)}

def hasMoreElements : Bool := getChunkIndex L it.curIndex < numChunks it.bitVector

def getNextElement : Option (Int × TRBitVectorIterator L) := (getNextBit fuel it).map fun next => (it.curIndex,next)

end TRBitVectorIterator

def setBitVector (fuel : Nat) (v : TRBitVector L) (startBit : Int) : Option (TRBitVectorIterator L) := TRBitVectorIterator.reset fuel ⟨v,0,startBit⟩

-- The loop that takes the next element while there are more.
def elements (fuel : Nat) : Nat → TRBitVectorIterator L → Option (List Int)
  | 0,_ => none
  | steps + 1,it =>
      if it.hasMoreElements then do
        let (i,it) ← it.getNextElement fuel
        let rest ← elements fuel steps it
        some (i::rest)
      else some []

inductive TRBitContainer (L : Layout) where
  | bitvector (bitVector : Option (TRBitVector L))
  | singleton (singleBit : Int)
  deriving DecidableEq, Repr

namespace TRBitContainer

def get : TRBitContainer L → Int → Int
  | bitvector (some v),n => if BitVector.get v n then 1 else 0
  | bitvector none,_ => 0
  | singleton singleBit,n => if singleBit = n then singleBit else 0

def intersects : TRBitContainer L → TRBitVector L → Bool
  | bitvector (some v),v2 => BitVector.intersects v v2
  | bitvector none,_ => false
  | singleton singleBit,v2 => BitVector.get v2 singleBit

def intersectsContainer : TRBitContainer L → TRBitContainer L → Bool
  | c,bitvector (some v2) => c.intersects v2
  | _,bitvector none => false
  | bitvector (some v),singleton singleBit => get (bitvector (some v)) singleBit ≠ 0
  | bitvector none,singleton _ => false
  | singleton a,singleton b => b = a

def equal : TRBitContainer L → TRBitVector L → Bool
  | bitvector (some v),v2 => BitVector.equal v v2
  | bitvector none,_ => false
  | singleton singleBit,v2 => BitVector.get v2 singleBit && !BitVector.hasMoreThanOneElement v2

end TRBitContainer

-- curIndex is that of the inherited iterator.
inductive TRBitContainerIterator (L : Layout) where
  | bitvector (inherited : Option (TRBitVectorIterator L))
  | singleton (singleBit curIndex : Int)

def setBitContainer (fuel : Nat) : TRBitContainer L → Option (TRBitContainerIterator L)
  | .bitvector (some v) => (setBitVector fuel v 0).map fun it => .bitvector (some it)
  | .bitvector none => some (.bitvector none)
  | .singleton singleBit => some (.singleton singleBit (-1))

namespace TRBitContainerIterator

def hasMoreElements : TRBitContainerIterator L → Bool
  | bitvector (some it) => it.hasMoreElements
  | bitvector none => false
  | singleton _ curIndex => curIndex = -1

def getNextElement (fuel : Nat) : TRBitContainerIterator L → Option (Int × TRBitContainerIterator L)
  | bitvector (some it) => (it.getNextElement fuel).map fun next => (next.1,bitvector (some next.2))
  | bitvector none => some (-1,bitvector none)
  | singleton singleBit _ => some (singleBit,singleton singleBit singleBit)

end TRBitContainerIterator

def containerElements (fuel : Nat) : Nat → TRBitContainerIterator L → Option (List Int)
  | 0,_ => none
  | steps + 1,it =>
      if it.hasMoreElements then do
        let (i,it) ← it.getNextElement fuel
        let rest ← containerElements fuel steps it
        some (i::rest)
      else some []

section Search

theorem incrementMask {i : Int} (inside : i % bitsInChunk L < bitsInChunk L - 1) : incrementBitMask L (getBitMask L i) = getBitMask L (i + 1) := by
  have bounds := indexBounds L i
  have next : (i + 1) % bitsInChunk L = i % bitsInChunk L + 1 := by
    rw [Int.add_emod,Int.emod_eq_of_lt (a := 1) (by decide) (by omega),Int.emod_eq_of_lt (by omega) (by omega)]
  apply BitVec.eq_of_getLsbD_eq
  intro k below
  cases top : L.msb
  · have double : getBitMask L i + getBitMask L i = getBitMask L i <<< 1 := by
      apply BitVec.eq_of_toNat_eq
      rw [BitVec.toNat_add,BitVec.toNat_shiftLeft,Nat.shiftLeft_eq]
      congr 1
      omega
    have step : position L (i + 1) = position L i + 1 := by
      simp only [position,next,top,Bool.false_eq_true,if_false]
      omega
    have here := positionLt L (i + 1)
    rw [incrementBitMask,if_neg (by simp [top]),double,BitVec.getLsbD_shiftLeft,maskBit,maskBit,step]
    by_cases low : k = 0
    · simp [low]
    · have same : (position L i = k - 1) ↔ (position L i + 1 = k) := by omega
      have more : ¬ k < 1 := by omega
      simp [below,more,same]
  · have step : position L i = position L (i + 1) + 1 := by
      simp only [position,next,top,if_true]
      omega
    have same : (position L i = 1 + k) ↔ (position L (i + 1) = k) := by omega
    rw [incrementBitMask,if_pos top,BitVec.getLsbD_ushiftRight,maskBit,maskBit,decide_eq_decide]
    exact same

theorem findBitReaches (c : Chunk L) {m : Nat} (on : bitAt c m = true) (reach : (m : Int) ≤ maxSigned 32) :
    ∀ (n i fuel : Nat), i + n = m → chunkIndex L i = chunkIndex L m → (∀ k, i ≤ k → k < m → bitAt c (k : Nat) = false) → n < fuel →
      findBit c fuel i (getBitMask L i) = some (m : Int) := by
  intro n
  induction n with
  | zero =>
      intro i fuel total _ _ more
      obtain ⟨fuel,rfl⟩ : ∃ k, fuel = k + 1 := ⟨fuel - 1,by omega⟩
      have same : i = m := by omega
      subst same
      have found : c &&& getBitMask L (i : Nat) ≠ 0#(bitsInChunk L) := by simpa [bitAt] using on
      rw [findBit,if_neg found]
  | succ n ih =>
      intro i fuel total chunk off more
      obtain ⟨fuel,rfl⟩ : ∃ k, fuel = k + 1 := ⟨fuel - 1,by omega⟩
      have none : c &&& getBitMask L (i : Nat) = 0#(bitsInChunk L) := by simpa [bitAt] using off i (Nat.le_refl i) (by omega)
      have low : minSigned 32 = -2147483648 := rfl
      have wrapped : wrap 32 ((i : Int) + 1) = (i + 1 : Nat) := by
        rw [wrapSelf (by decide) ⟨by omega,by omega⟩]
        push_cast
        rfl
      have pos := bitsInChunkPos L
      have whole := Nat.div_add_mod i (bitsInChunk L)
      have wholeM := Nat.div_add_mod m (bitsInChunk L)
      have belowM := Nat.mod_lt m pos
      rw [chunkIndex,chunkIndex] at chunk
      rw [chunk] at whole
      have inside : (i : Int) % bitsInChunk L < bitsInChunk L - 1 := by omega
      have next : chunkIndex L (i + 1) = chunkIndex L m := by
        rw [chunkIndex,chunkIndex]
        refine Nat.le_antisymm (Nat.div_le_div_right (by omega)) ?_
        rw [← chunk]
        exact Nat.div_le_div_right (by omega)
      rw [findBit,if_pos none,wrapped,incrementMask inside]
      exact ih (i + 1) fuel (by omega) next (fun k above below => off k (by omega) below) (by omega)

theorem nextNonZeroReaches {v : TRBitVector L} {j : Nat} (some' : chunkAt v j ≠ 0#(bitsInChunk L)) (inside : (j : Int) < numChunks v) :
    ∀ (n i fuel : Nat), i + n + 1 = j → (∀ k, i < k → k < j → chunkAt v (k : Nat) = 0#(bitsInChunk L)) → n < fuel → nextNonZero v fuel i = some (j : Int) := by
  intro n
  induction n with
  | zero =>
      intro i fuel total _ more
      obtain ⟨fuel,rfl⟩ : ∃ k, fuel = k + 1 := ⟨fuel - 1,by omega⟩
      have same : (i : Int) + 1 = j := by omega
      rw [nextNonZero,same,readChunk,if_pos ⟨by omega,inside⟩]
      simp [some']
  | succ n ih =>
      intro i fuel total zero more
      obtain ⟨fuel,rfl⟩ : ∃ k, fuel = k + 1 := ⟨fuel - 1,by omega⟩
      have next : (i : Int) + 1 = (i + 1 : Nat) := by push_cast; rfl
      rw [nextNonZero,next,readChunk,if_pos ⟨by omega,by omega⟩]
      simp only [Option.bind_eq_bind,Option.bind_some,zero (i + 1) (by omega) (by omega),↓reduceIte]
      exact ih (i + 1) fuel (by omega) (fun k above below => zero k (by omega) below) (by omega)

end Search

section Steps
variable {v : TRBitVector L} {S : Finset Nat}

-- The last index that the chunks have room for is an int32_t, and so is the one after it.
def Iterable (v : TRBitVector L) : Prop := numChunks v * bitsInChunk L ≤ maxSigned 32

-- The least member from i on, or the end.
def Points (v : TRBitVector L) (S : Finset Nat) (i : Nat) (cur : Int) : Prop :=
  (∃ m ∈ S, i ≤ m ∧ (∀ k ∈ S, i ≤ k → m ≤ k) ∧ cur = m) ∨ (∀ k ∈ S, k < i) ∧ cur = numChunks v * bitsInChunk L

theorem chunkFits {i : Nat} (reach : (i : Int) ≤ maxSigned 32) : getChunkIndex L i = chunkIndex L i := by
  have quotient : (i : Int) / bitsInChunk L = chunkIndex L i := rfl
  have low : minSigned 32 = -2147483648 := rfl
  have less : chunkIndex L i ≤ i := Nat.div_le_self i _
  simp only [getChunkIndex,quotient]
  exact wrapSelf (by decide) ⟨by omega,by omega⟩

theorem memberInside (h : Represents v S) {m : Nat} (on : m ∈ S) :
    (chunkIndex L m : Int) ≤ v.lastChunkWithNonZero ∧ v.lastChunkWithNonZero < numChunks v ∧ (m : Int) < numChunks v * bitsInChunk L := by
  have inside := h.bounded.holdsInside ((h.member m).mp on)
  have last : v.lastChunkWithNonZero < numChunks v := by
    rcases h.bounded.tight with ⟨_,none⟩ | ⟨_,_,last,_⟩
    · omega
    · exact last
  refine ⟨inside.2,last,?_⟩
  have whole := Nat.div_add_mod m (bitsInChunk L)
  have below := Nat.mod_lt m (bitsInChunkPos L)
  have step : (bitsInChunk L : Int) * (chunkIndex L m + 1) ≤ bitsInChunk L * numChunks v := Int.mul_le_mul_of_nonneg_left (by omega) (by omega)
  have cast : ((bitsInChunk L * chunkIndex L m + m % bitsInChunk L : Nat) : Int) = m := by exact_mod_cast whole
  rw [Int.mul_comm (numChunks v)]
  rw [Int.mul_add,Int.mul_one] at step
  push_cast at cast
  omega

theorem pastEndIs (fits : Iterable v) (it : TRBitVectorIterator L) (same : it.bitVector = v) : it.pastEnd = numChunks v * bitsInChunk L := by
  have low : minSigned 32 = -2147483648 := rfl
  have nonneg : 0 ≤ numChunks v * bitsInChunk L := Int.mul_nonneg (by simp [numChunks]) (by omega)
  rw [TRBitVectorIterator.pastEnd,same]
  exact wrapSelf (by decide) ⟨by omega,fits⟩

-- The bits of a chunk from i on.
theorem restOf (c : Chunk L) (i k : Nat) : bitAt (c &&& getBitMasks L i (bitsInChunk L - 1)) (k : Nat) =
    (bitAt c (k : Nat) && decide (i % bitsInChunk L ≤ k % bitsInChunk L)) := by
  have pos := bitsInChunkPos L
  have last : ((bitsInChunk L : Int) - 1) % bitsInChunk L = bitsInChunk L - 1 := Int.emod_eq_of_lt (by omega) (by omega)
  have boundsI := indexBounds L i
  have boundsK := indexBounds L k
  rw [bitAtAnd,bitAtMasks (by rw [last]; omega),last]
  congr 1
  rw [decide_eq_decide]
  omega

theorem sameChunk {i k : Nat} (same : chunkIndex L i = chunkIndex L k) : i % bitsInChunk L ≤ k % bitsInChunk L ↔ i ≤ k := by
  have wholeI := Nat.div_add_mod i (bitsInChunk L)
  have wholeK := Nat.div_add_mod k (bitsInChunk L)
  rw [chunkIndex,chunkIndex] at same
  rw [same] at wholeI
  omega

theorem leastFrom {i : Nat} (some' : ∃ k ∈ S, i ≤ k) : ∃ m ∈ S, i ≤ m ∧ ∀ k ∈ S, i ≤ k → m ≤ k := by
  classical
  have found : ∃ k, k ∈ S ∧ i ≤ k := some'
  exact ⟨Nat.find found,(Nat.find_spec found).1,(Nat.find_spec found).2,fun k on le => Nat.find_min' found ⟨on,le⟩⟩

-- The first member of a chunk that is found bit by bit.
theorem herePoints (h : Represents v S) (fits : Iterable v) {i fuel : Nat}
    (some' : ¬ chunkAt v (chunkIndex L i) &&& getBitMasks L i (bitsInChunk L - 1) = 0#(bitsInChunk L)) (enough : bitsInChunk L < fuel) :
    ∃ cur, findBit (chunkAt v (chunkIndex L i) &&& getBitMasks L i (bitsInChunk L - 1)) fuel i (getBitMask L i) = some cur ∧ Points v S i cur := by
  obtain ⟨p,insideP,onP⟩ := chunkNonZero.mp some'
  have place := natOfChunk L (chunkIndex L i) insideP
  have modP : p % bitsInChunk L = p := Nat.mod_eq_of_lt insideP
  rw [restOf,Bool.and_eq_true,decide_eq_true_eq,modP] at onP
  have member : chunkIndex L i * bitsInChunk L + p ∈ S := (h.member _).mpr (by rw [holdsAt v _ insideP]; exact onP.1)
  have aboveP : i ≤ chunkIndex L i * bitsInChunk L + p := (sameChunk place.1.symm).mp (by rw [place.2]; exact onP.2)
  obtain ⟨m,on,above,least⟩ := leastFrom ⟨_,member,aboveP⟩
  have below := least _ member aboveP
  have chunk : chunkIndex L i = chunkIndex L m := by
    have first := chunkIndexMono (L := L) above
    have second := chunkIndexMono (L := L) below
    rw [place.1] at second
    omega
  have reachM : (m : Int) ≤ maxSigned 32 := by
    have inside := memberInside h on
    rw [Iterable] at fits
    omega
  have bitOf : ∀ k, chunkIndex L i = chunkIndex L k → i ≤ k →
      bitAt (chunkAt v (chunkIndex L i) &&& getBitMasks L i (bitsInChunk L - 1)) (k : Nat) = decide (k ∈ S) := by
    intro k same above
    rw [restOf,decide_eq_true ((sameChunk same).mpr above),Bool.and_true,same]
    rw [Bool.eq_iff_iff,decide_eq_true_eq]
    exact (h.member k).symm
  refine ⟨m,?_,.inl ⟨m,on,above,least,rfl⟩⟩
  refine findBitReaches _ (by rw [bitOf m chunk above]; exact decide_eq_true on) reachM (m - i) i fuel (by omega) chunk (fun k low high => ?_) ?_
  · have same : chunkIndex L i = chunkIndex L k := by
      have first := chunkIndexMono (L := L) low
      have second := chunkIndexMono (L := L) (show k ≤ m by omega)
      omega
    rw [bitOf k same low]
    refine decide_eq_false fun onK => ?_
    have := least k onK low
    omega
  · have whole := Nat.div_add_mod' i (bitsInChunk L)
    rw [← chunkIndex] at whole
    omega

-- The first member after empty chunks.
theorem laterPoints (h : Represents v S) (fits : Iterable v) {i : Nat} (off : ∀ k ∈ S, i ≤ k → chunkIndex L i < chunkIndex L k)
    (more : ¬ v.lastChunkWithNonZero ≤ chunkIndex L i) {fuel : Nat} (enough : v.chunks.length + bitsInChunk L < fuel) :
    ∃ cur, (do
      let chunk ← nextNonZero v fuel (chunkIndex L i)
      findBit (chunkAt v chunk) fuel (wrap 32 (chunk * bitsInChunk L)) (getBitMask L 0)) = some cur ∧ Points v S i cur := by
  have after : ∀ k, chunkIndex L i < chunkIndex L k → i ≤ k := by
    intro k lower
    by_contra below
    have := chunkIndexMono (L := L) (show k ≤ i by omega)
    omega
  obtain ⟨m,on,above,least⟩ := leastFrom (show ∃ k ∈ S, i ≤ k by
    rcases h.bounded.tight with ⟨_,none⟩ | ⟨_,_,_,_,some'⟩
    · omega
    · obtain ⟨j,lastIs⟩ := Int.eq_ofNat_of_zero_le (show 0 ≤ v.lastChunkWithNonZero by omega)
      rw [lastIs] at some'
      obtain ⟨k,chunk,on⟩ := chunkSome.mp some'
      exact ⟨k,(h.member k).mpr on,after k (by omega)⟩)
  have later := off m on above
  have inside := memberInside h on
  have zero : ∀ k, chunkIndex L i < k → k < chunkIndex L m → chunkAt v (k : Nat) = 0#(bitsInChunk L) := by
    intro k low high
    by_contra some'
    obtain ⟨n,chunk,onN⟩ := chunkSome.mp some'
    have := chunkIndexMono (L := L) (least n ((h.member n).mpr onN) (after n (by omega)))
    omega
  have nonZero : chunkAt v (chunkIndex L m) ≠ 0#(bitsInChunk L) := holdsChunk ((h.member m).mp on)
  have length : numChunks v = v.chunks.length := rfl
  have whole : chunkIndex L m * bitsInChunk L + m % bitsInChunk L = m := Nat.div_add_mod' m _
  have belowM := Nat.mod_lt m (bitsInChunkPos L)
  have startOf := natOfChunk L (chunkIndex L m) (i := 0) (bitsInChunkPos L)
  simp only [Nat.add_zero] at startOf
  have reachM : (m : Int) ≤ maxSigned 32 := by
    rw [Iterable] at fits
    omega
  have wrapped : wrap 32 ((chunkIndex L m : Int) * bitsInChunk L) = (chunkIndex L m * bitsInChunk L : Nat) := by
    have low : minSigned 32 = -2147483648 := rfl
    have cast : (chunkIndex L m : Int) * bitsInChunk L = (chunkIndex L m * bitsInChunk L : Nat) := by push_cast; rfl
    rw [cast]
    exact wrapSelf (by decide) ⟨by omega,by omega⟩
  have mask : getBitMask L 0 = getBitMask L (chunkIndex L m * bitsInChunk L : Nat) := by
    have place : position L 0 = position L (chunkIndex L m * bitsInChunk L : Nat) := positionSame.mpr (by push_cast; simp)
    rw [getBitMask,getBitMask,place]
  rw [nextNonZeroReaches nonZero (by omega) (chunkIndex L m - chunkIndex L i - 1) (chunkIndex L i) fuel (by omega) zero (by omega)]
  simp only [Option.bind_eq_bind,Option.bind_some]
  refine ⟨m,?_,.inl ⟨m,on,above,least,rfl⟩⟩
  rw [wrapped,mask]
  refine findBitReaches _ ((h.member m).mp on) reachM (m % bitsInChunk L) _ fuel whole startOf.1 (fun k lower higher => ?_) (by omega)
  clear wrapped mask reachM
  have chunk : chunkIndex L k = chunkIndex L m := by
    have first := chunkIndexMono (L := L) lower
    have second := chunkIndexMono (L := L) (show k ≤ m by omega)
    rw [startOf.1] at first
    omega
  refine Bool.eq_false_iff.mpr fun onK => ?_
  have member : k ∈ S := (h.member k).mpr (by rw [holds,chunk]; exact onK)
  have := least k member (after k (by omega))
  omega

theorem nextBitPoints (h : Represents v S) (fits : Iterable v) {it : TRBitVectorIterator L} (same : it.bitVector = v) {i : Nat}
    (start : wrap 32 (it.curIndex + 1) = i) (reach : (i : Int) ≤ maxSigned 32) {fuel : Nat} (enough : v.chunks.length + bitsInChunk L < fuel) :
    ∃ cur, it.nextBit fuel = some cur ∧ Points v S i cur := by
  have end' := pastEndIs fits it same
  have past : (∀ k ∈ S, k < i) → Points v S i it.pastEnd := fun none => .inr ⟨none,end'⟩
  have pos := bitsInChunkPos L
  unfold TRBitVectorIterator.nextBit
  simp only [same,start,chunkFits reach]
  split
  · rename_i above
    refine ⟨_,rfl,past fun k on => ?_⟩
    have inside := memberInside h on
    by_contra more
    have := chunkIndexMono (L := L) (show i ≤ k by omega)
    omega
  · rename_i within
    have last : v.lastChunkWithNonZero < numChunks v := by
      rcases h.bounded.tight with ⟨_,none⟩ | ⟨_,_,last,_⟩
      · omega
      · exact last
    rw [readChunk,if_pos ⟨by omega,by omega⟩]
    simp only [Option.bind_eq_bind,Option.bind_some]
    have here : ∀ k, chunkIndex L k = chunkIndex L i → (k ∈ S ↔ bitAt (chunkAt v (chunkIndex L i)) (k : Nat) = true) := by
      intro k chunk
      rw [h.member k,holds,chunk]
    split
    · rename_i full
      refine ⟨i,rfl,.inl ⟨i,(here i rfl).mpr (by rw [full]; exact bitAtOnes _),Nat.le_refl i,fun k _ le => le,rfl⟩⟩
    · split
      · rename_i empty
        have off : ∀ k ∈ S, i ≤ k → chunkIndex L i < chunkIndex L k := by
          intro k on above
          have mono := chunkIndexMono (L := L) above
          by_contra more
          have chunk : chunkIndex L k = chunkIndex L i := by omega
          have bit := restOf (chunkAt v (chunkIndex L i)) i k
          rw [empty,bitAtZero,(here k chunk).mp on,decide_eq_true ((sameChunk chunk.symm).mpr above)] at bit
          cases bit
        split
        · rename_i final
          refine ⟨_,rfl,past fun k on => ?_⟩
          by_contra more
          have := off k on (by omega)
          have inside := memberInside h on
          omega
        · rename_i more
          exact laterPoints h fits off more enough
      · rename_i some'
        exact herePoints h fits some' (by omega)

end Steps

section Runs
variable {v : TRBitVector L} {S : Finset Nat}

-- The members from s on, each once and in ascending order.
def Enumerates (S : Finset Nat) (s : Nat) (list : List Int) : Prop := list.Pairwise (· < ·) ∧ ∀ j, j ∈ list ↔ ∃ n ∈ S, s ≤ n ∧ j = (n : Nat)

theorem elementsFrom (h : Represents v S) (fits : Iterable v) {fuel : Nat} (enough : v.chunks.length + bitsInChunk L < fuel) :
    ∀ (steps i : Nat) (it : TRBitVectorIterator L), it.bitVector = v → Points v S i it.curIndex → v.chunks.length * bitsInChunk L - i < steps →
      ∃ list, elements fuel steps it = some list ∧ Enumerates S i list := by
  have length : numChunks v * bitsInChunk L = (v.chunks.length * bitsInChunk L : Nat) := by rw [numChunks]; push_cast; rfl
  intro steps
  induction steps with
  | zero => intro i it _ _ more; omega
  | succ steps ih =>
      intro i it same points more
      rcases points with ⟨m,on,above,least,cur⟩ | ⟨none,cur⟩
      · have inside := memberInside h on
        have fits' := fits
        rw [Iterable] at fits'
        have has : it.hasMoreElements = true := by
          rw [TRBitVectorIterator.hasMoreElements,cur,same,chunkFits (by omega),decide_eq_true_eq]
          omega
        have start : wrap 32 (it.curIndex + 1) = (m + 1 : Nat) := by
          have low : minSigned 32 = -2147483648 := rfl
          rw [cur,wrapSelf (by decide) ⟨by omega,by omega⟩]
          push_cast
          rfl
        obtain ⟨next,found,points⟩ := nextBitPoints h fits same start (by omega) enough
        obtain ⟨rest,run,ascending,members⟩ := ih (m + 1) {it with curIndex := next} same points (by omega)
        refine ⟨(m : Int)::rest,?_,List.pairwise_cons.mpr ⟨fun j onRest => ?_,ascending⟩,fun j => ?_⟩
        · rw [elements,if_pos has]
          simp [TRBitVectorIterator.getNextElement,TRBitVectorIterator.getNextBit,found,run,cur]
        · obtain ⟨n,_,more,rfl⟩ := (members j).mp onRest
          omega
        · rw [List.mem_cons,members]
          refine ⟨?_,?_⟩
          · rintro (rfl | ⟨n,onS,more,rfl⟩)
            · exact ⟨m,on,above,rfl⟩
            · exact ⟨n,onS,by omega,rfl⟩
          · rintro ⟨n,onS,more,rfl⟩
            have := least n onS more
            rcases Nat.eq_or_lt_of_le this with same | less
            · exact .inl (by rw [same])
            · exact .inr ⟨n,onS,less,rfl⟩
      · have has : ¬ it.hasMoreElements = true := by
          have whole : chunkIndex L (v.chunks.length * bitsInChunk L) = v.chunks.length := Nat.mul_div_cancel _ (bitsInChunkPos L)
          have reach := fits
          rw [Iterable,length] at reach
          rw [TRBitVectorIterator.hasMoreElements,cur,same,length,chunkFits reach,whole,decide_eq_true_eq,numChunks]
          exact Int.lt_irrefl _
        refine ⟨[],by rw [elements,if_neg has],List.Pairwise.nil,fun j => ⟨fun on => absurd on (List.not_mem_nil),?_⟩⟩
        rintro ⟨n,on,more,_⟩
        have := none n on
        omega

theorem findBitRange {c : Chunk L} {found : Int} : ∀ (fuel : Nat) (cur : Int) (mask : Chunk L), InRange 32 cur → findBit c fuel cur mask = some found → InRange 32 found := by
  intro fuel
  induction fuel with
  | zero => intro cur mask _ run; cases run
  | succ fuel ih =>
      intro cur mask inside run
      rw [findBit] at run
      split at run
      · exact ih _ _ (wrapRange (by decide) _) run
      · exact Option.some.inj run ▸ inside

theorem nextBitRange {it : TRBitVectorIterator L} {fuel : Nat} {cur : Int} (run : it.nextBit fuel = some cur) : InRange 32 cur := by
  have wrapped : ∀ x, InRange 32 (wrap 32 x) := wrapRange (by decide)
  simp only [TRBitVectorIterator.nextBit,Option.bind_eq_bind] at run
  split at run
  · exact Option.some.inj run ▸ wrapped _
  · obtain ⟨c,_,run⟩ := Option.bind_eq_some_iff.mp run
    split at run
    · exact Option.some.inj run ▸ wrapped _
    · split at run
      · split at run
        · exact Option.some.inj run ▸ wrapped _
        · obtain ⟨chunk,_,run⟩ := Option.bind_eq_some_iff.mp run
          exact findBitRange _ _ _ (wrapped _) run
      · exact findBitRange _ _ _ (wrapped _) run

-- When the end has no int32_t index, there always seem to be more elements.
theorem elementsEndless (big : ¬ Iterable v) {fuel : Nat} : ∀ (steps : Nat) (it : TRBitVectorIterator L), it.bitVector = v → InRange 32 it.curIndex → elements fuel steps it = none := by
  intro steps
  induction steps with
  | zero => intro it _ _; rfl
  | succ steps ih =>
      intro it same inside
      have has : it.hasMoreElements = true := by
        have pos := bitsInChunkPos L
        rw [Iterable,maxSigned] at big
        simp only [InRange,minSigned,maxSigned] at inside
        have half' : half 32 = 2147483648 := rfl
        have whole := Int.emod_add_mul_ediv it.curIndex (bitsInChunk L)
        have rest := indexBounds L it.curIndex
        have inRange : InRange 32 (it.curIndex / bitsInChunk L) := by
          rcases bitsInChunkCases L with bits | bits
          · rw [bits] at whole rest ⊢
            simp only [InRange,minSigned,maxSigned]
            omega
          · rw [bits] at whole rest ⊢
            simp only [InRange,minSigned,maxSigned]
            omega
        rw [TRBitVectorIterator.hasMoreElements,same,getChunkIndex,wrapSelf (by decide) inRange,decide_eq_true_eq]
        refine Int.lt_of_mul_lt_mul_right (a := bitsInChunk L) ?_ (by omega)
        rw [Int.mul_comm (it.curIndex / bitsInChunk L)]
        omega
      rw [elements,if_pos has,TRBitVectorIterator.getNextElement,TRBitVectorIterator.getNextBit]
      cases found : it.nextBit fuel with
      | none => rfl
      | some next =>
          have rest := ih {it with curIndex := next} same (nextBitRange found)
          simp [rest]

end Runs

section Containers
variable {v w : TRBitVector L} {S C D T : Finset Nat} {c d : TRBitContainer L}

-- With enough fuel the loop ends, having enumerated the members from s on.
def IteratesExactly (v : TRBitVector L) (S : Finset Nat) (s : Nat) : Prop :=
  ∃ enough, ∀ fuel steps, enough ≤ fuel → enough ≤ steps →
    ∃ it list, setBitVector fuel v s = some it ∧ elements fuel steps it = some list ∧ Enumerates S s list

theorem setBitVectorRange {fuel : Nat} {startBit : Int} {it : TRBitVectorIterator L} (set : setBitVector fuel v startBit = some it) :
    it.bitVector = v ∧ InRange 32 it.curIndex := by
  obtain ⟨next,found,rfl⟩ := Option.map_eq_some_iff.mp set
  exact ⟨rfl,nextBitRange found⟩

theorem iteratesExactly (h : Represents v S) {s : Nat} (reach : (s : Int) ≤ maxSigned 32) : IteratesExactly v S s ↔ Iterable v := by
  refine ⟨fun iterates => ?_,fun fits => ?_⟩
  · by_contra big
    obtain ⟨enough,run⟩ := iterates
    obtain ⟨it,list,set,ran,_⟩ := run enough enough (Nat.le_refl _) (Nat.le_refl _)
    obtain ⟨same,inside⟩ := setBitVectorRange set
    rw [elementsEndless big enough it same inside] at ran
    cases ran
  · refine ⟨v.chunks.length * bitsInChunk L + v.chunks.length + bitsInChunk L + 1,fun fuel steps more more' => ?_⟩
    have start : wrap 32 ((⟨v,wrap 32 ((s : Int) - 1),s⟩ : TRBitVectorIterator L).curIndex + 1) = (s : Nat) := by
      have low : minSigned 32 = -2147483648 := rfl
      rw [wrapAdd,Int.sub_add_cancel]
      exact wrapSelf (by decide) ⟨by omega,reach⟩
    obtain ⟨cur,found,points⟩ := nextBitPoints h fits (show (⟨v,wrap 32 ((s : Int) - 1),s⟩ : TRBitVectorIterator L).bitVector = v from rfl) start reach
      (show v.chunks.length + bitsInChunk L < fuel by omega)
    obtain ⟨list,ran,enumerates⟩ := elementsFrom h fits (show v.chunks.length + bitsInChunk L < fuel by omega) steps s ⟨v,cur,s⟩ rfl points (by omega)
    refine ⟨⟨v,cur,s⟩,list,?_,ran,enumerates⟩
    simp [setBitVector,TRBitVectorIterator.reset,TRBitVectorIterator.getNextBit,found]

def Contains : TRBitContainer L → Finset Nat → Prop
  | .bitvector (some v),C => Represents v C
  | .bitvector none,C => C = ∅
  | .singleton singleBit,C => ∃ n : Nat, (n : Int) ≤ maxSigned 32 ∧ singleBit = n ∧ C = {n}

def ContainerIterates (c : TRBitContainer L) (C : Finset Nat) : Prop :=
  ∃ enough, ∀ fuel steps, enough ≤ fuel → enough ≤ steps →
    ∃ it list, setBitContainer fuel c = some it ∧ containerElements fuel steps it = some list ∧ Enumerates C 0 list

theorem containerElementsVector (fuel : Nat) : ∀ (steps : Nat) (it : TRBitVectorIterator L),
    containerElements fuel steps (.bitvector (some it)) = elements fuel steps it := by
  intro steps
  induction steps with
  | zero => exact fun it => rfl
  | succ steps ih =>
      intro it
      rw [containerElements,elements,TRBitContainerIterator.hasMoreElements,TRBitContainerIterator.getNextElement]
      cases it.getNextElement fuel with
      | none => rfl
      | some next => simp [ih]

theorem addressableInt {n : Nat} (reach : (n : Int) ≤ maxSigned 32) : Addressable L n := by
  have top : maxSigned 32 = 2147483647 := rfl
  have whole := Nat.div_add_mod n (bitsInChunk L)
  rw [Addressable,chunkIndex]
  rcases bitsInChunkCases L with bits | bits <;> rw [bits] <;> omega

theorem containerIterates (h : Contains c C) : ContainerIterates c C ↔ ∀ v, c = .bitvector (some v) → Iterable v := by
  rcases c with (_ | v) | singleBit
  · refine ⟨fun _ _ same => (nomatch same),fun _ => ⟨1,fun fuel steps _ more => ⟨.bitvector none,[],rfl,?_,List.Pairwise.nil,fun j => ?_⟩⟩⟩
    · obtain ⟨steps,rfl⟩ : ∃ k, steps = k + 1 := ⟨steps - 1,by omega⟩
      rfl
    · rw [show C = ∅ from h]
      simp
  · have same : ContainerIterates (.bitvector (some v)) C ↔ IteratesExactly v C 0 := by
      refine exists_congr fun enough => forall_congr' fun fuel => forall_congr' fun steps => imp_congr_right fun _ => imp_congr_right fun _ => ?_
      refine ⟨?_,?_⟩
      · rintro ⟨it,list,set,ran,enumerates⟩
        rw [setBitContainer] at set
        obtain ⟨inner,found,rfl⟩ := Option.map_eq_some_iff.mp set
        rw [containerElementsVector] at ran
        exact ⟨inner,list,by rw [Nat.cast_zero,found],ran,enumerates⟩
      · rintro ⟨it,list,set,ran,enumerates⟩
        refine ⟨.bitvector (some it),list,?_,(containerElementsVector fuel steps it).trans ran,enumerates⟩
        rw [Nat.cast_zero] at set
        rw [setBitContainer,set]
        rfl
    have zero : ((0 : Nat) : Int) ≤ maxSigned 32 := by decide
    rw [same,iteratesExactly h zero]
    simp
  · obtain ⟨n,reach,rfl,rfl⟩ := h
    refine ⟨fun _ _ same => (nomatch same),fun _ => ⟨2,fun fuel steps _ more => ⟨.singleton n (-1),[(n : Int)],rfl,?_,List.pairwise_singleton _ _,fun j => ?_⟩⟩⟩
    · obtain ⟨steps,rfl⟩ : ∃ k, steps = k + 2 := ⟨steps - 2,by omega⟩
      have apart : ¬ (n : Int) = -1 := by omega
      simp [containerElements,TRBitContainerIterator.hasMoreElements,TRBitContainerIterator.getNextElement,apart]
    · simp

theorem getSingleton {T : Finset Nat} (hw : Represents w T) {n : Nat} (reach : (n : Int) ≤ maxSigned 32) : get w (n : Int) = decide (n ∈ T) :=
  getMember hw (addressableInt reach)

theorem containerGet (h : Contains c C) : (∀ n : Nat, (n : Int) ≤ maxSigned 32 → (c.get n ≠ 0 ↔ n ∈ C)) ↔ c ≠ .singleton 0 := by
  rcases c with (_ | v) | singleBit
  · simp [TRBitContainer.get,show C = ∅ from h]
  · refine ⟨fun _ same => (nomatch same),fun _ n reach => ?_⟩
    rw [TRBitContainer.get,getSingleton h reach]
    by_cases on : n ∈ C <;> simp [on]
  · obtain ⟨m,reachM,rfl,rfl⟩ := h
    by_cases zero : m = 0
    · subst zero
      simp only [Nat.cast_zero,ne_eq,not_true_eq_false,iff_false]
      intro every
      have := (every 0 (by decide)).mpr (by simp)
      simp [TRBitContainer.get] at this
    · have apart : TRBitContainer.singleton (L := L) (m : Int) ≠ .singleton 0 := by
        intro same
        injection same with same
        omega
      simp only [apart,ne_eq,not_false_eq_true,iff_true]
      intro n _
      rw [TRBitContainer.get,Finset.mem_singleton]
      split <;> omega

theorem containerEqual (h : Contains c C) (hw : Represents w T) : (c.equal w = true ↔ C = T) ↔ ¬ (c = .bitvector none ∧ T = ∅) := by
  rcases c with (_ | v) | singleBit
  · rw [show C = ∅ from h]
    simp [TRBitContainer.equal,eq_comm]
  · simp [TRBitContainer.equal,equalMember h hw]
  · obtain ⟨n,reach,rfl,rfl⟩ := h
    have apart : ¬ (TRBitContainer.singleton (L := L) (n : Int) = .bitvector none ∧ T = ∅) := fun both => nomatch both.1
    rw [TRBitContainer.equal,getSingleton hw reach,hasMoreThanOneElementCard hw]
    simp only [apart,not_false_eq_true,iff_true,Bool.and_eq_true,decide_eq_true_eq,Bool.not_eq_true',decide_eq_false_iff_not,Nat.not_lt]
    refine ⟨fun only => ?_,fun same => ?_⟩
    · refine Finset.eq_of_subset_of_card_le (Finset.singleton_subset_iff.mpr only.1) ?_
      rw [Finset.card_singleton]
      exact only.2
    · rw [← same]
      simp

theorem containerIntersects (h : Contains c C) (hw : Represents w T) : c.intersects w = true ↔ ¬ Disjoint C T := by
  rcases c with (_ | v) | singleBit
  · simp [TRBitContainer.intersects,show C = ∅ from h]
  · simp [TRBitContainer.intersects,intersectsMember h hw]
  · obtain ⟨n,reach,rfl,rfl⟩ := h
    simp [TRBitContainer.intersects,getSingleton hw reach]

theorem containersIntersect (h : Contains c C) (k : Contains d D) : c.intersectsContainer d = true ↔ ¬ Disjoint C D := by
  rcases d with (_ | w) | singleBit
  · rw [show D = ∅ from k]
    rcases c with (_ | v) | b <;> simp [TRBitContainer.intersectsContainer]
  · have same : c.intersectsContainer (.bitvector (some w)) = c.intersects w := by rcases c with (_ | v) | b <;> rfl
    rw [same]
    exact containerIntersects h k
  · obtain ⟨n,reach,rfl,rfl⟩ := k
    rcases c with (_ | v) | b
    · simp [TRBitContainer.intersectsContainer,show C = ∅ from h]
    · rw [TRBitContainer.intersectsContainer,TRBitContainer.get,getSingleton h reach]
      by_cases on : n ∈ C <;> simp [on]
    · obtain ⟨m,_,rfl,rfl⟩ := h
      simp [TRBitContainer.intersectsContainer,eq_comm]

-- Iteration, membership, equality and intersection, each with the condition under which it agrees with the sets.
theorem iterationAgrees (h : Represents v S) {s : Nat} (reach : (s : Int) ≤ maxSigned 32) (hc : Contains c C) (hd : Contains d D) (hw : Represents w T) :
    (IteratesExactly v S s ↔ Iterable v) ∧
    ((∀ n : Nat, (n : Int) ≤ maxSigned 32 → (c.get n ≠ 0 ↔ n ∈ C)) ↔ c ≠ .singleton 0) ∧
    ((c.equal w = true ↔ C = T) ↔ ¬ (c = .bitvector none ∧ T = ∅)) ∧
    (c.intersects w = true ↔ ¬ Disjoint C T) ∧ (c.intersectsContainer d = true ↔ ¬ Disjoint C D) ∧
    (ContainerIterates c C ↔ ∀ v, c = .bitvector (some v) → Iterable v) :=
  ⟨iteratesExactly h reach,containerGet hc,containerEqual hc hw,containerIntersects hc hw,containersIntersect hc hd,containerIterates hc⟩

theorem iterationAgreesSample : IteratesExactly (sampleVector 64) {3} 2 := by
  have represents : Represents (sampleVector 64) {3} := sampleRepresents (by decide)
  have agrees := iterationAgrees (c := .bitvector none) (d := .bitvector none) represents (s := 2) (by decide) (show Contains _ ∅ from rfl) (show Contains _ ∅ from rfl) represents
  exact agrees.1.mpr (by unfold Iterable; decide)

-- The container of bit 0 says that 0 is not a member.
theorem singletonZeroMissing : Contains (L := ⟨true,false⟩) (.singleton 0) {0} ∧
    ¬ ∀ n : Nat, (n : Int) ≤ maxSigned 32 → (TRBitContainer.get (L := ⟨true,false⟩) (.singleton 0) n ≠ 0 ↔ n ∈ ({0} : Finset Nat)) := by
  refine ⟨⟨0,by decide,rfl,rfl⟩,fun every => ?_⟩
  have := (every 0 (by decide)).mpr (by decide)
  exact this rfl

end Containers

end OmrCompiler.BitVector
