import Mathlib.Algebra.Ring.Nat

/-! The memory of one code cache: method bodies are allocated upwards from the
warm end and downwards from the cold end, or from blocks that were freed and are
kept in a list. The sizes that reach the cache are 32 bits wide, so that their
sums do not wrap in a size_t. -/
namespace OmrCompiler.CodeCache

structure Config where
  -- codeCacheAlignment is a power of two, at least the size of a list node
  shift : Nat
  wide : 16 ≤ 2 ^ shift
  -- codeCacheFreeBlockRecylingEnabled
  recycling : Bool

def Config.alignment (config : Config) : Nat := 2 ^ config.shift

-- (x + round) & ~round
def Config.up (config : Config) (x : Nat) : Nat := (x + (config.alignment - 1)) / config.alignment * config.alignment

-- x & ~round
def Config.down (config : Config) (x : Nat) : Nat := x / config.alignment * config.alignment

def sizeofMethodHeader : Nat := 16

def sizeofFreeCacheBlock : Nat := 16

def minSizeBlock : Nat := if sizeofFreeCacheBlock > 96 then sizeofFreeCacheBlock else 96

structure Block where
  start : Nat
  size : Nat
  deriving DecidableEq, Repr

def Block.stop (b : Block) : Nat := b.start + b.size

-- The code cache; recorded is the _size of the method header at an address, 32 bits wide.
structure Cache where
  warmCodeAlloc : Nat
  coldCodeAlloc : Nat
  freeBlockList : List Block
  sizeOfLargestFreeWarmBlock : Nat
  sizeOfLargestFreeColdBlock : Nat
  recorded : Nat → Nat

def setHeaderSize (address size : Nat) (c : Cache) : Cache :=
  { c with recorded := fun x => if x = address then size % 2 ^ 32 else c.recorded x }

def writeMethodHeader (isMethodHeaderNeeded : Bool) (b : Block) (c : Cache) : Cache :=
  if isMethodHeaderNeeded then setHeaderSize b.start b.size c else c

-- The unsigned difference of two addresses is less than the size of a list node.
def Near (above below : Nat) : Prop := below ≤ above ∧ above - below < sizeofFreeCacheBlock

instance (above below : Nat) : Decidable (Near above below) := inferInstanceAs (Decidable (_ ∧ _))

-- Warm blocks are not merged with cold ones.
def Border (c : Cache) (lower upper : Nat) : Prop := lower < c.warmCodeAlloc ∧ c.coldCodeAlloc ≤ upper

instance (c : Cache) (lower upper : Nat) : Decidable (Border c lower upper) := inferInstanceAs (Decidable (_ ∧ _))

/- The block [start, stop) is put next to curr, the last block before it or the
first of the list. The first result is the block it has become. -/
def placeBlock (c : Cache) (start stop : Nat) (curr : Block) (rest : List Block) : Block × List Block :=
  let unmerged : Block × List Block :=
    let link : Block := ⟨start,stop - start⟩
    if start < curr.start then (link,link::curr::rest) else (link,curr::link::rest)
  let previous : Block × List Block :=
    if curr.start < start ∧ Near start curr.stop then
      if ¬Border c curr.start start then
        let link : Block := ⟨curr.start,start + (stop - start) - curr.start⟩
        (link,link::rest)
      else unmerged
    else unmerged
  if start < curr.start ∧ Near curr.start stop then
    if ¬Border c start curr.start then
      let link : Block := ⟨start,curr.start + curr.size - start⟩
      (link,link::rest)
    else unmerged
  else
    match rest with
    | [] => previous
    | next::rest' =>
        if Near next.start stop ∧ ¬Border c start next.start then
          if Near start curr.stop ∧ ¬Border c curr.start start then
            let link : Block := ⟨curr.start,next.start + next.size - curr.start⟩
            (link,link::rest')
          else
            let link : Block := ⟨start,next.start + next.size - start⟩
            (link,curr::link::rest')
        else previous

def insertBlock (c : Cache) (start stop : Nat) : List Block → Block × List Block
  | [] => (⟨start,stop - start⟩,[⟨start,stop - start⟩])
  | curr::rest =>
      match rest with
      | [] => placeBlock c start stop curr rest
      | next::_ =>
          if next.start < start then
            let (link,rest) := insertBlock c start stop rest
            (link,curr::rest)
          else placeBlock c start stop curr rest

def updateMaxSizeOfFreeBlocks (config : Config) (b : Block) (c : Cache) : Cache :=
  if config.recycling then
    if b.start < c.warmCodeAlloc then
      if c.sizeOfLargestFreeWarmBlock < b.size then { c with sizeOfLargestFreeWarmBlock := b.size } else c
    else if c.sizeOfLargestFreeColdBlock < b.size then { c with sizeOfLargestFreeColdBlock := b.size } else c
  else c

def addFreeBlock2 (config : Config) (start stop : Nat) (c : Cache) : Bool × Cache :=
  let start := config.up start
  if stop ≤ start + sizeofFreeCacheBlock then (false,c)
  else
    let (link,blocks) := insertBlock c start stop c.freeBlockList
    (true,updateMaxSizeOfFreeBlocks config link { c with freeBlockList := blocks })

structure Scan where
  biggest : Option Block
  secondBiggest : Option Block
  bestFit : Option Block

def scanBlock (size : Nat) (scan : Scan) (curr : Block) : Scan :=
  let fit :=
    if size ≤ curr.size then
      match scan.bestFit with
      | none => some curr
      | some best => if curr.size < best.size then some curr else some best
    else scan.bestFit
  match scan.biggest with
  | none => ⟨some curr,scan.secondBiggest,fit⟩
  | some biggest =>
      if biggest.size ≤ curr.size then ⟨some curr,some biggest,fit⟩
      else
        match scan.secondBiggest with
        | none => ⟨some biggest,some curr,fit⟩
        | some second => ⟨some biggest,some (if second.size ≤ curr.size then curr else second),fit⟩

-- The blocks that the search looks at.
def searched (isCold : Bool) (c : Cache) : List Block :=
  c.freeBlockList.filter fun b => if isCold then c.coldCodeAlloc ≤ b.start else b.start < c.warmCodeAlloc

-- removeFreeBlock: the block gives way to what is left of it.
def removeFreeBlock (address : Nat) (left : Option Block) : List Block → List Block
  | [] => []
  | b::rest => if b.start = address then left.toList ++ rest else b::removeFreeBlock address left rest

-- What is left of a block when size bytes are used, if that is enough for a block.
def leftBlock (size : Nat) (b : Block) : Option Block :=
  if minSizeBlock ≤ b.size - size then some ⟨b.start + size,b.size - size⟩ else none

def usedBlock (size : Nat) (b : Block) : Block :=
  if minSizeBlock ≤ b.size - size then ⟨b.start,size⟩ else b

def sizeOf (b : Option Block) : Nat := (b.map Block.size).getD 0

def setLargest (isCold : Bool) (size : Nat) (c : Cache) : Cache :=
  if isCold then { c with sizeOfLargestFreeColdBlock := size } else { c with sizeOfLargestFreeWarmBlock := size }

-- No result where the best fit is a null pointer.
def findFreeBlock (size : Nat) (isCold isMethodHeaderNeeded : Bool) (c : Cache) : Option (Block × Cache) := do
  let scan := (searched isCold c).foldl (scanBlock size) ⟨none,none,none⟩
  let best ← scan.bestFit
  let left := leftBlock size best
  let c := { c with freeBlockList := removeFreeBlock best.start left c.freeBlockList }
  let c :=
    if scan.biggest.map Block.start = some best.start then
      setLargest isCold (if sizeOf left > sizeOf scan.secondBiggest then sizeOf left else sizeOf scan.secondBiggest) c
    else c
  let used := usedBlock size best
  some (used,writeMethodHeader isMethodHeaderNeeded used c)

def performSizeAdjustments (config : Config) (warmCodeSize coldCodeSize : Nat) (needsToBeContiguous isMethodHeaderNeeded : Bool) :
    Nat × Nat :=
  let header := if isMethodHeaderNeeded then sizeofMethodHeader else 0
  let adjust (size : Nat) : Nat := if size = 0 then 0 else config.up (size + header)
  if needsToBeContiguous then (adjust (warmCodeSize + coldCodeSize),0)
  else (adjust warmCodeSize,adjust coldCodeSize)

/- The warm part: the block (empty for an empty request), or null if it does not
fit; with the change of the free space in the repository. -/
def allocateWarm (config : Config) (warmSize : Nat) (isFreeBlock isMethodHeaderNeeded : Bool) (c : Cache) :
    Option (Option Block × Cache × Int) :=
  if isFreeBlock then (findFreeBlock warmSize false isMethodHeaderNeeded c).map fun r => (some r.1,r.2,0)
  else if warmSize = 0 then some (some ⟨c.warmCodeAlloc,0⟩,c,0)
  else
    let address := config.up c.warmCodeAlloc
    let heapAlloc := address + warmSize
    if c.coldCodeAlloc < heapAlloc then some (none,c,0)
    else
      some (some ⟨address,warmSize⟩,
        writeMethodHeader isMethodHeaderNeeded ⟨address,warmSize⟩ { c with warmCodeAlloc := heapAlloc },
        -(heapAlloc - c.warmCodeAlloc : Int))

-- The cold part; warm is the warm part, which is given back if the cold one does not fit.
def allocateCold (config : Config) (coldSize : Nat) (isFreeBlock isMethodHeaderNeeded warmIsFreeBlock : Bool) (warm : Block)
    (c : Cache) : Option (Option Block × Cache × Int) :=
  if isFreeBlock then (findFreeBlock coldSize true isMethodHeaderNeeded c).map fun r => (some r.1,r.2,0)
  else if coldSize = 0 then some (some ⟨c.coldCodeAlloc,0⟩,c,0)
  else
    let heapAlloc := config.down (c.coldCodeAlloc - coldSize)
    if heapAlloc < c.warmCodeAlloc then
      some (none,if warmIsFreeBlock then c else { c with warmCodeAlloc := warm.start },0)
    else
      some (some ⟨heapAlloc,coldSize⟩,
        writeMethodHeader isMethodHeaderNeeded ⟨heapAlloc,coldSize⟩ { c with coldCodeAlloc := heapAlloc },
        -(c.coldCodeAlloc - heapAlloc : Int))

structure Request where
  warmCodeSize : Nat
  coldCodeSize : Nat
  needsToBeContiguous : Bool
  isMethodHeaderNeeded : Bool
  deriving DecidableEq, Repr

-- The warm and the cold block, or null; the cache; the change of the free space in the repository.
def allocateCodeMemory (config : Config) (request : Request) (c : Cache) :
    Option (Option (Block × Block) × Cache × Int) := do
  let header := request.isMethodHeaderNeeded
  let sizes := performSizeAdjustments config request.warmCodeSize request.coldCodeSize request.needsToBeContiguous header
  let warmSize := sizes.1
  let coldSize := sizes.2
  let warmIsFreeBlock := !request.needsToBeContiguous && warmSize != 0 && decide (warmSize ≤ c.sizeOfLargestFreeWarmBlock)
  let coldIsFreeBlock := !request.needsToBeContiguous && coldSize != 0 && decide (coldSize ≤ c.sizeOfLargestFreeColdBlock)
  if coldSize ≠ 0 ∧ coldIsFreeBlock = false ∧
      c.coldCodeAlloc - c.warmCodeAlloc < coldSize + (if warmIsFreeBlock then 0 else warmSize) then
    some (none,c,0)
  else do
    let (warm,c,spent) ← allocateWarm config warmSize warmIsFreeBlock header c
    match warm with
    | none => some (none,c,spent)
    | some warm => do
        let (cold,c,spent') ← allocateCold config coldSize coldIsFreeBlock header warmIsFreeBlock warm c
        some (cold.map fun cold => (warm,cold),c,spent + spent')

-- codeMemoryStart is the address of the header.
def trimCodeMemoryAllocation (config : Config) (codeMemoryStart actualSizeInBytes : Nat) (c : Cache) :
    Bool × Cache × Int :=
  if actualSizeInBytes = 0 then (false,c,0)
  else
    let actual := config.up (actualSizeInBytes + sizeofMethodHeader)
    let oldSize := c.recorded codeMemoryStart
    if oldSize ≤ actual then (false,c,0)
    else
      let shrinkage := oldSize - actual
      let expectedHeapAlloc := codeMemoryStart + oldSize
      if expectedHeapAlloc = c.warmCodeAlloc then
        (true,setHeaderSize codeMemoryStart actual { c with warmCodeAlloc := c.warmCodeAlloc - shrinkage },shrinkage)
      else if minSizeBlock ≤ shrinkage then
        (true,setHeaderSize codeMemoryStart actual (addFreeBlock2 config (codeMemoryStart + actual) expectedHeapAlloc c).2,0)
      else (false,c,0)

end OmrCompiler.CodeCache
