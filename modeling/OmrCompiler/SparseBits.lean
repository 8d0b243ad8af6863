import Mathlib.Algebra.Ring.Nat

/-! Sparse bit vectors: segments of bits that share the high 16 of their 32 bits, each
a sorted array of the low ones. -/
namespace OmrCompiler.SparseBits

def halfWord : Nat := 0x10000

def kSegmentMask : Nat := 0xFFFF

/- fSize, which has 16 bits, is size; room is the number of values that the memory of
the segment has been allocated for, and fNumValues the number of indices. -/
structure Segment where
  highBits : Nat
  size : Nat
  room : Nat
  indices : List Nat
  deriving DecidableEq, Repr

/- In all that follows, no result means that a value outside the memory of a segment
would be read or written. -/

/- AdvanceIndex. -/

-- The index, if its value is not below the one searched for, or what follows.
def orNext (indices : List Nat) (search low : Nat) (next : Option Nat) : Option Nat := do
  let value ← indices[low]?
  if value ≥ search then some low else next

def advanceLinear (indices : List Nat) (search high : Nat) : Nat → Nat → Option Nat
  | 0,_ => none
  | fuel + 1,low =>
      if low + 3 ≤ high then
        orNext indices search low (orNext indices search (low + 1) (orNext indices search (low + 2) (orNext indices search (low + 3)
          (advanceLinear indices search high fuel (low + 4)))))
      else if low > high then some low
      else orNext indices search low (
        if low + 1 > high then some (low + 1)
        else orNext indices search (low + 1) (if low + 2 > high then some (low + 2) else orNext indices search (low + 2) (some (low + 3))))

-- The range that a value below the one searched for leaves.
def trimmed (search value low high : Nat) : Nat := if search - value + low < high then search - value + low else high

def advanceBinary (indices : List Nat) (search : Nat) : Nat → Nat → Nat → Option Nat
  | 0,_,_ => none
  | fuel + 1,low,high =>
      if high - low > 128 then do
        let mid := (high + low) / 2
        let value ← indices[mid]?
        if value = search then some mid
        else if value > search then advanceBinary indices search fuel low mid
        else advanceBinary indices search fuel mid (trimmed search value mid high)
      else advanceLinear indices search high (high - low + 1) low

def advanceIndex (indices : List Nat) (search low : Nat) : Option Nat := do
  let high := indices.length - 1
  let last ← indices[high]?
  if search ≥ last then some (if search = last then high else high + 1)
  else do
    let value ← indices[low]?
    if search ≤ value then some low else advanceBinary indices search indices.length low (trimmed search value low high)

/- Segments. -/

def allocate (n : Nat) (s : Segment) : Segment := { s with size := n % halfWord, room := n, indices := [] }

def reallocate (n : Nat) (s : Segment) : Segment := { s with size := n % halfWord, room := n, indices := s.indices.take n }

-- The bounds are passed in 16 bits.
def append (input : List Nat) (fromIndex toIndex : Nat) (s : Segment) : Option Segment :=
  let fromIndex := fromIndex % halfWord
  let toIndex := toIndex % halfWord
  if fromIndex ≤ toIndex ∧ toIndex ≤ input.length ∧ s.indices.length + (toIndex - fromIndex) ≤ s.room then
    some { s with indices := s.indices ++ (input.drop fromIndex).take (toIndex - fromIndex) }
  else none

def growSize (size numValues : Nat) : Nat :=
  if numValues > 0 then if numValues ≤ 1024 then 2 * 2 ^ (numValues - 1).log2 else 1024 + 1024 * ((numValues - 1) / 1024)
  else size

def growSegment (size numValues : Nat) (s : Segment) : Segment :=
  let size := growSize size numValues
  if s.size > size then s
  else
    let size := if size > kSegmentMask then kSegmentMask else size
    if s.size = 0 then allocate size s else reallocate size s

def truncateSegment (s : Segment) : Segment := { s with indices := [] }

def compactSegment (s : Segment) : Segment := reallocate s.indices.length s

-- The number of values is not copied.
def copySegment (s input : Segment) : Segment := reallocate input.indices.length s

def noSegment : Segment := ⟨0,0,0,[]⟩

-- The memory for a union or, here, for its first value.
def started (s tmp : Segment) (toAllocate : Nat) : Segment :=
  if tmp.indices = [] then { growSegment s.size toAllocate tmp with highBits := s.highBits } else tmp

def toAllocate (s input : Segment) : Nat :=
  if s.indices.length + input.indices.length > kSegmentMask then kSegmentMask + 1 else s.indices.length + input.indices.length

-- The values of the input from ii on that belong before the value at i.
def upTo (indices input : List Nat) (i ii : Nat) : Option Nat :=
  if i = indices.length then some input.length
  else do
    let w ← indices[i]?
    advanceIndex input w ii

def orLoop (s input : Segment) : Nat → Nat → Nat → Nat → Segment → Option (Nat × Segment)
  | 0,_,_,_,_ => none
  | fuel + 1,i0,i,ii,tmp =>
      if ii < input.indices.length then do
        let v ← input.indices[ii]?
        let i ← advanceIndex s.indices v i
        if i < s.indices.length ∧ s.indices[i]? = some v then orLoop s input fuel i0 i (ii + 1) tmp
        else do
          let tmp ← append s.indices i0 i (started s tmp (toAllocate s input))
          let next ← upTo s.indices input.indices i ii
          let tmp ← append input.indices ii next tmp
          orLoop s input fuel i i next tmp
      else some (i0,tmp)

def orSegment (s input : Segment) : Option (Bool × Segment) :=
  if input.indices = [] then some (false,s)
  else if s.indices = [] then some (true,copySegment s input)
  else do
    let last ← s.indices.getLast?
    let first ← input.indices.head?
    if s.highBits * halfWord + last < input.highBits * halfWord + first then do
      let tmp ← append s.indices 0 s.indices.length (started s noSegment (toAllocate s input))
      let tmp ← append input.indices 0 input.indices.length tmp
      some (true,tmp)
    else do
      let (i0,tmp) ← orLoop s input (input.indices.length + 1) 0 0 0 noSegment
      if tmp.indices = [] then some (false,s)
      else do
        let tmp ← append s.indices i0 s.indices.length tmp
        some (true,tmp)

-- The values of the input that are in the other from ii on, and whether one is not.
def keepCommon (input : List Nat) : List Nat → Nat → List Nat × Bool
  | [],_ => ([],false)
  | v::rest,ii =>
      let ii := ii + ((input.drop ii).takeWhile (· < v)).length
      match input[ii]? with
      | none => ([],true)
      | some w =>
          let (kept,changed) := keepCommon input rest ii
          if w = v then (v::kept,changed) else (kept,true)

def andSegmentInto (s input output : Segment) : Option (Bool × Segment) :=
  if s.indices = [] then some (false,truncateSegment output)
  else if input.indices = [] then some (true,truncateSegment output)
  else
    let output := growSegment s.indices.length 0 output
    let (kept,changed) := keepCommon input.indices s.indices 0
    if kept.length ≤ output.room then
      some (changed,if kept = [] then truncateSegment output else compactSegment { output with indices := kept })
    else none

-- The values in both, and whether one of the first is not in the second.
def andLoop : List Nat → List Nat → List Nat × Bool
  | v::rest,w::others =>
      if v = w then
        let (kept,changed) := andLoop rest others
        (v::kept,changed)
      else if v < w then ((andLoop rest (w::others)).1,true)
      else andLoop (v::rest) others
  | v,_ => ([],!v.isEmpty)
  termination_by a b => a.length + b.length

def andSegment (s input : Segment) : Option (Bool × Segment) :=
  if s.indices = [] then some (false,s)
  else if input.indices = [] then some (true,truncateSegment s)
  else
    let tmp := { allocate (max s.indices.length input.indices.length) noSegment with highBits := s.highBits }
    let (kept,changed) := andLoop s.indices input.indices
    if kept.length ≤ tmp.room then
      if changed = false then some (false,s)
      else if kept = [] then some (true,truncateSegment s)
      else some (true,{ tmp with indices := kept })
    else none

def memmove (memory : List Nat) (dst src n : Nat) : List Nat := memory.take dst ++ (memory.drop src).take n ++ memory.drop (dst + n)

def findSegment (index : Nat) : List Segment → Option Segment
  | [] => none
  | s::rest =>
      if s.highBits ≥ index / halfWord then if s.highBits = index / halfWord then some s else none
      else findSegment index rest

-- Put a segment in the place of the one with its high bits.
def putSegment (index : Nat) (new : Segment) : List Segment → List Segment
  | [] => []
  | s::rest =>
      if s.highBits ≥ index / halfWord then if s.highBits = index / halfWord then new::rest else s::rest
      else s::putSegment index new rest

def removeSegment (index : Nat) : List Segment → List Segment
  | [] => []
  | s::rest =>
      if s.highBits ≥ index / halfWord then if s.highBits = index / halfWord then rest else s::rest
      else s::removeSegment index rest

-- The segment with the high bits of index has room for count values, a new one if there is none.
def addSegment (index count : Nat) : List Segment → List Segment
  | [] => [allocate count ⟨index / halfWord,0,0,[]⟩]
  | s::rest =>
      if s.highBits ≥ index / halfWord then
        if s.highBits = index / halfWord then growSegment count 0 s::rest else allocate count ⟨index / halfWord,0,0,[]⟩::s::rest
      else s::addSegment index count rest

def addSegmentBits (index : Nat) (bits : List Nat) (v : List Segment) : List Segment :=
  let v := addSegment index bits.length v
  match findSegment index v with
  | some s => putSegment index { s with indices := bits } v
  | none => v

def Segment.index (s : Segment) : Nat := s.highBits * halfWord

def clear (_ : List Segment) : List Segment := []

def copy (s : Segment) : Segment := { allocate s.indices.length noSegment with highBits := s.highBits, indices := s.indices }

-- The vector is cleared first, so that nothing is left to copy if it is the other one.
def assign (_ vector : List Segment) : List Segment := vector.map copy

def orEach (v : List Segment) (changed : Bool) : List Segment → Option (Bool × List Segment)
  | [] => some (changed,v)
  | input::rest =>
      match findSegment input.index v with
      | some s => do
          let (hit,s) ← orSegment s input
          orEach (putSegment input.index s v) (hit || changed) rest
      | none => orEach (addSegmentBits input.index input.indices v) true rest

-- The common values of two vectors, into an empty one.
def andIntoEach (inputVector : List Segment) (output : List Segment) (changed : Bool) : List Segment → Option (Bool × List Segment)
  | [] => some (changed,output)
  | s::rest =>
      match findSegment s.index inputVector with
      | none => andIntoEach inputVector output changed rest
      | some input => do
          let output := addSegment s.index s.indices.length output
          let new ← findSegment s.index output
          let (hit,new) ← andSegmentInto s input new
          let output := putSegment s.index new output
          andIntoEach inputVector (if new.indices = [] then removeSegment s.index output else output) (hit || changed) rest

def andInto (v inputVector : List Segment) : Option (Bool × List Segment) := andIntoEach inputVector [] false v

def populationCount (v : List Segment) : Nat := (v.map (·.indices.length)).sum

end OmrCompiler.SparseBits
