import Mathlib.Algebra.Ring.Nat
import Mathlib.Data.List.Perm.Basic
import Mathlib.Data.List.Nodup

/-! Memory regions over a pool of segments, and the provider of segments behind the
pool. A segment is known by its descriptor, a region by the descriptor of its own
first segment. -/
namespace OmrCompiler.RegionMemory

def word : Nat := 2 ^ 64

structure MemorySegment where
  base : Nat
  size : Nat
  allocated : Nat
  next : Nat

namespace MemorySegment

def allocate (bytes : Nat) (s : MemorySegment) : MemorySegment := { s with allocated := (s.allocated + bytes) % word }

def reset (s : MemorySegment) : MemorySegment := { s with allocated := 0 }

def remaining (s : MemorySegment) : Nat := (s.size + word - s.allocated) % word

def link (next : Nat) (s : MemorySegment) : MemorySegment := { s with next := next }

end MemorySegment

structure Region where
  bytesAllocated : Nat
  currentSegment : Nat

-- What a caller was given: the bytes from an offset of a segment on.
structure Allocation where
  region : Nat
  segment : Nat
  offset : Nat
  size : Nat

/- The provider's segments, the stack of the pool, the regions that live, and the
allocations made from them. -/
structure World where
  defaultSegmentSize : Nat
  poolSize : Nat
  heap : Nat → MemorySegment
  nextDescriptor : Nat
  segments : List Nat
  currentBytesAllocated : Nat
  highWaterMark : Nat
  segmentStack : List Nat
  storedSegments : Nat
  poolGone : Bool
  region : Nat → Region
  regions : List Nat
  live : List Allocation

def start (defaultSegmentSize poolSize : Nat) : World :=
  ⟨defaultSegmentSize,poolSize,fun d => ⟨0,0,0,d⟩,0,[],0,0,[],0,false,fun r => ⟨0,r⟩,[],[]⟩

def round (bytes : Nat) : Nat := ((BitVec.ofNat 64 bytes + 15#64) &&& ~~~15#64).toNat

def initialSegmentSize : Nat := 4096

def adjustedSize (defaultSegmentSize requiredSize : Nat) : Nat :=
  (requiredSize + (defaultSegmentSize - 1)) % word / defaultSegmentSize * defaultSegmentSize % word

def World.size (w : World) (d : Nat) : Nat := (w.heap d).size

def World.base (w : World) (d : Nat) : Nat := (w.heap d).base

def World.set (w : World) (d : Nat) (s : MemorySegment) : World := { w with heap := Function.update w.heap d s }

-- The set of segments is ordered by their bases.
def World.find (w : World) (base : Nat) : Option Nat := w.segments.find? fun d => w.base d == base

/- The raw allocator answers with a block or fails. So may the set, and the block is
given back then. -/
def systemRequest (requiredSize : Nat) (raw : Option Nat) (insertFails : Bool) (w : World) : Option (World × Nat) :=
  match raw with
  | none => none
  | some base =>
      if insertFails then none
      else
        let adjusted := adjustedSize w.defaultSegmentSize requiredSize
        let bytes := (w.currentBytesAllocated + adjusted) % word
        let counted : World := { w with currentBytesAllocated := bytes,highWaterMark := max bytes w.highWaterMark }
        match w.find base with
        | some d => some (counted,d)
        | none =>
            let d := w.nextDescriptor
            some ({ counted.set d ⟨base,adjusted,0,d⟩ with nextDescriptor := d + 1,segments := d::w.segments },d)

def systemRelease (d : Nat) (w : World) : Option World := do
  let found ← w.find (w.base d)
  some { w with
    currentBytesAllocated := (w.currentBytesAllocated + word - w.size d % word) % word
    segments := w.segments.erase found }

def poolRequest (requiredSize : Nat) (raw : Option Nat) (insertFails : Bool) (w : World) : Option (World × Nat) :=
  match w.segmentStack with
  | top::rest =>
      if requiredSize ≤ w.defaultSegmentSize then
        some ({ w.set top (w.heap top).reset with segmentStack := rest,storedSegments := w.storedSegments - 1 },top)
      else systemRequest requiredSize raw insertFails w
  | [] => systemRequest requiredSize raw insertFails w

-- The push may fail for want of memory.
def poolRelease (pushFails : Nat → Bool) (d : Nat) (w : World) : Option World :=
  if w.size d = w.defaultSegmentSize ∧ w.storedSegments < w.poolSize then
    if pushFails d then systemRelease d w
    else some { w with segmentStack := d::w.segmentStack,storedSegments := w.storedSegments + 1 }
  else systemRelease d w

def construct (area : Nat) (w : World) : World :=
  let r := w.nextDescriptor
  { w.set r ⟨area,initialSegmentSize,0,r⟩ with
    nextDescriptor := r + 1
    region := Function.update w.region r ⟨0,r⟩
    regions := r::w.regions }

-- The current segment gives the bytes.
def allocateHere (r size : Nat) (w : World) : World :=
  let d := (w.region r).currentSegment
  { w.set d ((w.heap d).allocate (round size)) with
    region := Function.update w.region r { w.region r with bytesAllocated := ((w.region r).bytesAllocated + round size) % word }
    live := ⟨r,d,(w.heap d).allocated,size⟩::w.live }

def linkSegment (r d : Nat) (w : World) : World :=
  { w.set d ((w.heap d).link (w.region r).currentSegment) with
    region := Function.update w.region r { w.region r with currentSegment := d } }

-- A failure comes up from the provider and leaves everything as it was.
def allocate (r size : Nat) (raw : Option Nat) (insertFails : Bool) (w : World) : World × Option Nat :=
  let given (w : World) : World × Option Nat :=
    let s := w.heap (w.region r).currentSegment
    (allocateHere r size w,some (s.base + s.allocated))
  if round size ≤ (w.heap (w.region r).currentSegment).remaining then given w
  else
    match poolRequest (round size) raw insertFails w with
    | none => (w,none)
    | some (w,d) => given (linkSegment r d w)

def unlinkSegment (r : Nat) (w : World) : World :=
  let latest := (w.region r).currentSegment
  { w.set latest ((w.heap latest).link latest) with
    region := Function.update w.region r { w.region r with currentSegment := (w.heap latest).next } }

def releaseSegments (r : Nat) (pushFails : Nat → Bool) : Nat → World → Option World
  | 0,_ => none
  | fuel + 1,w =>
      let latest := (w.region r).currentSegment
      if latest = r then some w
      else do
        let w ← poolRelease pushFails latest (unlinkSegment r w)
        releaseSegments r pushFails fuel w

-- What was allocated from the region goes with it.
def forget (r : Nat) (w : World) : World := { w with live := w.live.filter fun a => a.region ≠ r }

def dropRegion (r : Nat) (w : World) : World := { w with regions := w.regions.erase r }

def destroy (r : Nat) (pushFails : Nat → Bool) (w : World) : Option World := do
  let w ← releaseSegments r pushFails (w.segments.length + 1) (forget r w)
  some (dropRegion r w)

def emptyPool : List Nat → World → Option World
  | [],w => some w
  | top::rest,w => do
      let w ← systemRelease top { w with segmentStack := rest }
      emptyPool rest { w with storedSegments := w.storedSegments - 1 }

def destroyPool (w : World) : Option World := do
  let w ← emptyPool w.segmentStack w
  some { w with poolGone := true }

inductive Op
  | construct (area : Nat)
  | allocate (r size : Nat) (raw : Option Nat) (insertFails : Bool)
  | destroy (r : Nat) (pushFails : Nat → Bool)
  | destroyPool

def step (w : World) : Op → Option World
  | .construct area => some (construct area w)
  | .allocate r size raw insertFails => some (allocate r size raw insertFails w).1
  | .destroy r pushFails => destroy r pushFails w
  | .destroyPool => destroyPool w

def run (w : World) (ops : List Op) : Option World := ops.foldlM step w

-- The segments of a region besides its first, from the current one on.
def walk (w : World) (r : Nat) : Nat → Nat → List Nat
  | 0,_ => []
  | fuel + 1,d => if d = r then [] else d::walk w r fuel (w.heap d).next

def owned (w : World) (r : Nat) : List Nat := walk w r (w.segments.length + 1) (w.region r).currentSegment

structure Block where
  base : Nat
  size : Nat

def Block.Off (x y : Block) : Prop := x.base + x.size ≤ y.base ∨ y.base + y.size ≤ x.base

def World.block (w : World) (d : Nat) : Block := ⟨w.base d,w.size d⟩

def World.range (w : World) (a : Allocation) : Block := ⟨w.base a.segment + a.offset,round a.size⟩

-- The block is nobody's, and no pointer is null.
def Free (w : World) (b : Block) : Prop := 0 < b.base ∧ b.base + b.size ≤ word ∧ ∀ d ∈ w.regions ++ w.segments, b.Off (w.block d)

-- Neither rounding goes over the word.
def Fits (w : World) (size : Nat) : Prop := size + 15 < word ∧ round size + (w.defaultSegmentSize - 1) < word

/- Regions are made and used while the pool lives, a block that comes from outside is
free, and requests do not wrap. -/
def Orderly (w : World) : Op → Prop
  | .construct area => w.poolGone = false ∧ Free w ⟨area,initialSegmentSize⟩
  | .allocate r size raw _ => r ∈ w.regions ∧ Fits w size ∧ ∀ b ∈ raw, Free w ⟨b,adjustedSize w.defaultSegmentSize (round size)⟩
  | .destroy r _ => r ∈ w.regions
  | .destroyPool => w.regions = [] ∧ w.poolGone = false

instance (x y : Block) : Decidable (x.Off y) := inferInstanceAs (Decidable (_ ∨ _))

instance (w : World) (b : Block) : Decidable (Free w b) := inferInstanceAs (Decidable (_ ∧ _ ∧ ∀ d ∈ w.regions ++ w.segments,b.Off (w.block d)))

instance (w : World) (size : Nat) : Decidable (Fits w size) := inferInstanceAs (Decidable (_ ∧ _))

instance (w : World) : (op : Op) → Decidable (Orderly w op)
  | .construct _ => inferInstanceAs (Decidable (_ ∧ _))
  | .allocate _ size raw _ =>
      inferInstanceAs (Decidable (_ ∧ Fits w size ∧ ∀ b ∈ raw,Free w ⟨b,adjustedSize w.defaultSegmentSize (round size)⟩))
  | .destroy _ _ => inferInstanceAs (Decidable (_ ∈ w.regions))
  | .destroyPool => inferInstanceAs (Decidable (_ ∧ _))

def OrderlyRun (w : World) : List Op → Prop
  | [] => True
  | op::ops =>
      Orderly w op ∧
        match step w op with
        | some next => OrderlyRun next ops
        | none => True

instance decideOrderlyRun : (w : World) → (ops : List Op) → Decidable (OrderlyRun w ops)
  | _,[] => inferInstanceAs (Decidable True)
  | w,op::ops =>
      have := fun next => decideOrderlyRun next ops
      match found : step w op with
      | some next => decidable_of_iff (Orderly w op ∧ OrderlyRun next ops) (by rw [OrderlyRun,found])
      | none => decidable_of_iff (Orderly w op) (by rw [OrderlyRun,found,and_true])

structure Sound (w : World) : Prop where
  apart : w.live.Pairwise fun a b => (w.range a).Off (w.range b)
  rounded : ∀ a ∈ w.live, a.size ≤ round a.size ∧ 16 ∣ round a.size
  inside : ∀ a ∈ w.live, a.offset + round a.size ≤ w.size a.segment
  belongs : ∀ a ∈ w.live, a.region ∈ w.regions ∧ (a.segment = a.region ∨ a.segment ∈ owned w a.region)
  once : (w.regions.flatMap (owned w) ++ w.segmentStack).Perm w.segments ∧ w.segments.Nodup
  pooled : w.segmentStack.length ≤ w.poolSize
  returned : w.regions = [] → w.poolGone → w.currentBytesAllocated = 0 ∧ w.segments = []

end OmrCompiler.RegionMemory
