import OmrCompiler.BitChunk

/-! Dense bit vectors. The chunks before `firstChunkWithNonZero` and after
`lastChunkWithNonZero` are zero and are skipped by every loop; each operation
below updates the two bounds the way the C++ body does. -/
namespace OmrCompiler.BitVector
open MachineInt
open BitChunk

-- _numChunks is the length of the allocated array.
structure TRBitVector (L : Layout) where
  chunks : List (Chunk L)
  firstChunkWithNonZero : Int
  lastChunkWithNonZero : Int
  deriving DecidableEq, Repr

variable {L : Layout}

def numChunks (v : TRBitVector L) : Int := v.chunks.length

def chunkOf (cs : List (Chunk L)) (i : Int) : Chunk L := cs.getD i.toNat 0#(bitsInChunk L)

def chunkAt (v : TRBitVector L) (i : Int) : Chunk L := chunkOf v.chunks i

def span (low high : Int) : List Int := (List.range (high - low + 1).toNat).map fun (k : Nat) => low + k

-- for (i = ...) _chunks[i] = f(i, _chunks[i])
def storeEach (is : List Int) (f : Int → Chunk L → Chunk L) (cs : List (Chunk L)) : List (Chunk L) :=
  is.foldl (fun cs i => cs.modify i.toNat (f i)) cs

def zeroEach (is : List Int) (cs : List (Chunk L)) : List (Chunk L) :=
  storeEach is (fun _ _ => 0#(bitsInChunk L)) cs

def construct (L : Layout) (initBits : Int) : TRBitVector L :=
  let count := getChunkIndex L (initBits - 1) + 1
  ⟨List.replicate count.toNat 0#(bitsInChunk L),count,-1⟩

-- for ( ; _chunks[high] == 0; high--), which walks off the array when nothing is set.
def scanDown (cs : List (Chunk L)) : Nat → Int
  | 0 => if chunkOf cs 0 = 0#(bitsInChunk L) then -1 else 0
  | k+1 => if chunkOf cs (k+1 : Nat) = 0#(bitsInChunk L) then scanDown cs k else (k+1 : Nat)

-- for ( ; low <= high && _chunks[low] == 0; low++)
def scanUp (cs : List (Chunk L)) : Nat → Int → Int
  | 0,low => low
  | k+1,low => if chunkOf cs low = 0#(bitsInChunk L) then scanUp cs k (low + 1) else low

def resetLowAndHighChunks (cs : List (Chunk L)) (low high : Int) : TRBitVector L :=
  let low := scanUp cs (high - low + 1).toNat low
  if high < low then ⟨cs,cs.length,-1⟩
  else ⟨cs,low,scanDown cs high.toNat⟩

def resized (cs : List (Chunk L)) (chunkSize : Int) : List (Chunk L) :=
  cs.take chunkSize.toNat ++ List.replicate (chunkSize.toNat - cs.length) 0#(bitsInChunk L)

def setChunkSize (v : TRBitVector L) (chunkSize : Int) : TRBitVector L :=
  if chunkSize = numChunks v then v
  else if chunkSize = 0 then ⟨[],0,-1⟩
  else if chunkSize < numChunks v then
    if v.lastChunkWithNonZero < 0 then ⟨resized v.chunks chunkSize,chunkSize,v.lastChunkWithNonZero⟩
    else if chunkSize ≤ v.firstChunkWithNonZero then ⟨resized v.chunks chunkSize,chunkSize,-1⟩
    else if chunkSize ≤ v.lastChunkWithNonZero then
      ⟨resized v.chunks chunkSize,v.firstChunkWithNonZero,scanDown v.chunks (chunkSize - 1).toNat⟩
    else ⟨resized v.chunks chunkSize,v.firstChunkWithNonZero,v.lastChunkWithNonZero⟩
  else if v.lastChunkWithNonZero < 0 then ⟨resized v.chunks chunkSize,chunkSize,v.lastChunkWithNonZero⟩
  else ⟨resized v.chunks chunkSize,v.firstChunkWithNonZero,v.lastChunkWithNonZero⟩

-- if (chunkIndex >= _numChunks) setChunkSize(chunkIndex+1)
def growTo (v : TRBitVector L) (chunkIndex : Int) : TRBitVector L :=
  if numChunks v ≤ chunkIndex then setChunkSize v (wrap 32 (chunkIndex + 1)) else v

def setSize (v : TRBitVector L) (n : Int) : TRBitVector L :=
  setChunkSize v (wrap 32 (getChunkIndex L (n - 1) + 1))

def numUsedChunks (v : TRBitVector L) : Int := v.lastChunkWithNonZero + 1

def pack (v : TRBitVector L) : TRBitVector L := setChunkSize v (numUsedChunks v)

def empty (v : TRBitVector L) : TRBitVector L :=
  ⟨zeroEach (span v.firstChunkWithNonZero v.lastChunkWithNonZero) v.chunks,numChunks v,-1⟩

def get (v : TRBitVector L) (n : Int) : Bool :=
  let chunkIndex := getChunkIndex L n
  if v.lastChunkWithNonZero < chunkIndex then false
  else chunkAt v chunkIndex &&& getBitMask L n != 0#(bitsInChunk L)

-- Both bounds widened to take in the chunks from low to high.
def widen (v : TRBitVector L) (low high : Int) (cs : List (Chunk L)) : TRBitVector L :=
  ⟨cs,if low < v.firstChunkWithNonZero then low else v.firstChunkWithNonZero,
    if v.lastChunkWithNonZero < high then high else v.lastChunkWithNonZero⟩

def set (v : TRBitVector L) (n : Int) : TRBitVector L :=
  let chunkIndex := getChunkIndex L n
  let v := growTo v chunkIndex
  widen v chunkIndex chunkIndex (v.chunks.modify chunkIndex.toNat (· ||| getBitMask L n))

def reset (v : TRBitVector L) (n : Int) (updateLowHigh : Bool) : TRBitVector L :=
  let chunkIndex := getChunkIndex L n
  if v.lastChunkWithNonZero < chunkIndex ∨ chunkIndex < v.firstChunkWithNonZero then v
  else if chunkAt v chunkIndex = 0#(bitsInChunk L) then v
  else
    let cs := v.chunks.modify chunkIndex.toNat (· &&& ~~~getBitMask L n)
    if updateLowHigh ∧ chunkOf cs chunkIndex = 0#(bitsInChunk L) then
      resetLowAndHighChunks cs v.firstChunkWithNonZero v.lastChunkWithNonZero
    else ⟨cs,v.firstChunkWithNonZero,v.lastChunkWithNonZero⟩

def clear (v : TRBitVector L) (n : Int) : Bool × TRBitVector L :=
  let rc := get v n
  (rc,if rc then reset v n true else v)

def assign (v w : TRBitVector L) : TRBitVector L :=
  let v := if numChunks v < numChunks w then setChunkSize v (numChunks w) else v
  let high := w.lastChunkWithNonZero
  if high < 0 then empty v
  else
    let low := w.firstChunkWithNonZero
    let cs := zeroEach (span v.firstChunkWithNonZero (low - 1)) v.chunks
    let cs := storeEach (span low high) (fun i _ => chunkAt w i) cs
    let cs := zeroEach (span (high + 1) v.lastChunkWithNonZero) cs
    ⟨cs,low,high⟩

def orAssign (v w : TRBitVector L) : TRBitVector L :=
  if w.lastChunkWithNonZero < 0 then v
  else
    let v := if numChunks v < numChunks w then setChunkSize v (numChunks w) else v
    widen v w.firstChunkWithNonZero w.lastChunkWithNonZero
      (storeEach (span w.firstChunkWithNonZero w.lastChunkWithNonZero) (fun i c => c ||| chunkAt w i) v.chunks)

def andAssign (v w : TRBitVector L) : TRBitVector L :=
  if v.lastChunkWithNonZero < 0 then v
  else
    let low := w.firstChunkWithNonZero
    let high := w.lastChunkWithNonZero
    if high < v.firstChunkWithNonZero ∨ v.lastChunkWithNonZero < low then empty v
    else
      let cs := if low < v.firstChunkWithNonZero then v.chunks
        else zeroEach (span v.firstChunkWithNonZero (low - 1)) v.chunks
      let low := if low < v.firstChunkWithNonZero then v.firstChunkWithNonZero else low
      let cs := if v.lastChunkWithNonZero < high then cs
        else zeroEach (span (high + 1) v.lastChunkWithNonZero).reverse cs
      let high := if v.lastChunkWithNonZero < high then v.lastChunkWithNonZero else high
      resetLowAndHighChunks (storeEach (span low high) (fun i c => c &&& chunkAt w i) cs) low high

def subAssign (v w : TRBitVector L) : TRBitVector L :=
  if v.lastChunkWithNonZero < 0 then v
  else
    let low := w.firstChunkWithNonZero
    let high := w.lastChunkWithNonZero
    if high < v.firstChunkWithNonZero ∨ v.lastChunkWithNonZero < low then v
    else
      let low := if low < v.firstChunkWithNonZero then v.firstChunkWithNonZero else low
      let high := if v.lastChunkWithNonZero < high then v.lastChunkWithNonZero else high
      resetLowAndHighChunks (storeEach (span low high) (fun i c => c &&& ~~~chunkAt w i) v.chunks)
        v.firstChunkWithNonZero v.lastChunkWithNonZero

-- for (i = ...; i < n; i++) _chunks[chunkIndex] |= getBitMask(i), with an int32_t i and an int64_t n.
def setBelow : Nat → Int → Int → Chunk L → Option (Chunk L)
  | 0,i,n,c => if i < n then none else some c
  | fuel+1,i,n,c => if i < n then setBelow fuel (wrap 32 (i + 1)) n (c ||| getBitMask L i) else some c

def setAll (fuel : Nat) (v : TRBitVector L) (n : Int) : Option (TRBitVector L) :=
  if n ≤ 0 then some v
  else do
    let chunkIndex := getChunkIndex L (n - 1)
    let v := growTo v chunkIndex
    let cs := storeEach (span 0 (chunkIndex - 1)).reverse (fun _ _ => BitVec.allOnes (bitsInChunk L)) v.chunks
    let c ← setBelow fuel (wrap 32 (getBitIndex L chunkIndex)) n (chunkOf cs chunkIndex)
    some ⟨cs.modify chunkIndex.toNat (fun _ => c),0,
      if v.lastChunkWithNonZero < chunkIndex then chunkIndex else v.lastChunkWithNonZero⟩

def setAllBetween (v : TRBitVector L) (m n : Int) : TRBitVector L :=
  let firstChunk := getChunkIndex L m
  let lastChunk := getChunkIndex L n
  let v := growTo v lastChunk
  let ones := BitVec.allOnes (bitsInChunk L)
  if firstChunk = lastChunk then
    widen v firstChunk lastChunk
      (v.chunks.modify firstChunk.toNat (orBits (span (getIndexInChunk L m) (getIndexInChunk L n))))
  else
    let cs := v.chunks.modify firstChunk.toNat fun c =>
      if 0 < getIndexInChunk L m then orBits (span (getIndexInChunk L m) (bitsInChunk L - 1)) c else c ||| ones
    let cs := cs.modify lastChunk.toNat fun c =>
      if getIndexInChunk L n < bitsInChunk L - 1 then orBits (span 0 (getIndexInChunk L n)).reverse c else c ||| ones
    widen v firstChunk lastChunk (storeEach (span (firstChunk + 1) (lastChunk - 1)) (fun _ _ => ones) cs)

def isEmpty (v : TRBitVector L) : Bool := v.lastChunkWithNonZero < 0

def equal (v w : TRBitVector L) : Bool :=
  if v.lastChunkWithNonZero ≠ w.lastChunkWithNonZero then false
  else if v.lastChunkWithNonZero < 0 then true
  else if v.firstChunkWithNonZero ≠ w.firstChunkWithNonZero then false
  else (span v.firstChunkWithNonZero v.lastChunkWithNonZero).all fun i => chunkAt v i == chunkAt w i

def intersects (v w : TRBitVector L) : Bool :=
  if v.lastChunkWithNonZero < 0 then false
  else
    let low := w.firstChunkWithNonZero
    let high := w.lastChunkWithNonZero
    if high < v.firstChunkWithNonZero ∨ v.lastChunkWithNonZero < low then false
    else
      let low := if low < v.firstChunkWithNonZero then v.firstChunkWithNonZero else low
      let high := if v.lastChunkWithNonZero < high then v.lastChunkWithNonZero else high
      (span low high).any fun i => chunkAt v i &&& chunkAt w i != 0#(bitsInChunk L)

-- The int32_t count over the given chunks.
def countChunks (cs : List (Chunk L)) : Int :=
  cs.foldl (fun count c => if c = 0#(bitsInChunk L) then count else wrap 32 (count + bitsInBytes c)) 0

def elementCount (v : TRBitVector L) : Int :=
  countChunks ((span v.firstChunkWithNonZero v.lastChunkWithNonZero).map (chunkAt v))

def commonElementCount (v w : TRBitVector L) : Int :=
  if w.lastChunkWithNonZero < v.firstChunkWithNonZero ∨ v.lastChunkWithNonZero < w.firstChunkWithNonZero then 0
  else
    let low := if w.firstChunkWithNonZero ≤ v.firstChunkWithNonZero then v.firstChunkWithNonZero
      else w.firstChunkWithNonZero
    let high := if v.lastChunkWithNonZero ≤ w.lastChunkWithNonZero then v.lastChunkWithNonZero
      else w.lastChunkWithNonZero
    countChunks ((span low high).map fun i => chunkAt v i &&& chunkAt w i)

def hasMoreThanOneElement (v : TRBitVector L) : Bool :=
  if v.firstChunkWithNonZero < v.lastChunkWithNonZero then true
  else if v.lastChunkWithNonZero < 0 then false
  else 1 < bitsInBytes (chunkAt v v.firstChunkWithNonZero)

def getHighestBitPosition (v : TRBitVector L) : Int :=
  if v.lastChunkWithNonZero < 0 then 0
  else
    match (span 0 (bitsInChunk L - 1)).reverse.find? (fun bitIndex =>
        chunkAt v v.lastChunkWithNonZero &&& getBitMask L bitIndex != 0#(bitsInChunk L)) with
    | some bitIndex => getIndexInChunk L bitIndex + getBitIndex L v.lastChunkWithNonZero
    | none => 0

end OmrCompiler.BitVector
