import Mathlib.Data.Nat.Basic

/-! The metadata of the methods in a code cache, by PC: buckets of 512 bytes that
are empty, one tagged pointer or a chain in a block of the method store, with the
last answer kept in front of them. -/
namespace OmrCompiler.MetaData

def bucketSize : Nat := 512

def methodStoreSize : Nat := 256

-- A block has a link, the slots and a terminator.
def storeWords : Nat := methodStoreSize + 2

def methodStoreEnd : Nat := methodStoreSize + 1

-- What a bucket or a slot holds; metadata is given by its address, tagged if its low bit is set.
inductive Word where
  | null
  | entry (metaData : Nat)
  | tagged (metaData : Nat)
  | chain (block slot : Nat)
  | link
  | terminator
  deriving DecidableEq, Repr

-- The terminator, 0xBAAD076D, is odd.
def lowBitSet : Word → Bool
  | .tagged _ => true
  | .terminator => true
  | _ => false

def setLowBit : Word → Word
  | .entry metaData => .tagged metaData
  | word => word

-- currentAllocate is a slot of the last block.
structure Table where
  start : Nat
  top : Nat
  buckets : List Word
  blocks : Nat
  store : Nat → Nat → Word
  currentAllocate : Nat

structure Extent where
  startPC : Nat
  endPC : Nat
  deriving DecidableEq, Repr

def Extent.has (e : Extent) (pc : Nat) : Bool := decide (e.startPC ≤ pc) && decide (pc < e.endPC)

def determineBucket (value : Nat) (t : Table) : Nat := (value - t.start) / bucketSize

def newBlock : Nat → Word := fun slot => if slot = 0 then .link else if slot = methodStoreEnd then .terminator else .null

def allocateMethodStoreInHash (t : Table) : Table :=
  { t with
    blocks := t.blocks + 1
    store := fun block => if block = t.blocks then newBlock else t.store block
    currentAllocate := 1 }

def allocateCodeMetaDataHash (start top : Nat) : Table :=
  allocateMethodStoreInHash ⟨start,top,List.replicate ((top - start) / bucketSize + 1) .null,0,fun _ _ => .null,0⟩

def setStore (block : Nat) (words : Nat → Word) (t : Table) : Table :=
  { t with store := fun b => if b = block then words else t.store b }

/- In all that follows, no result means that a word outside the buckets or the
blocks of the store would be read or written. -/

def findInChain (extent : Nat → Extent) (words : Nat → Word) (searchValue : Nat) : Nat → Nat → Option (Option Nat)
  | 0,_ => none
  | fuel + 1,slot =>
      match words slot with
      | .tagged metaData => some (if (extent metaData).has searchValue then some metaData else none)
      | .entry metaData => if (extent metaData).has searchValue then some (some metaData) else findInChain extent words searchValue fuel (slot + 1)
      | _ => none

def findMetaDataInHash (extent : Nat → Extent) (searchValue : Nat) (t : Table) : Option (Option Nat) :=
  if t.start ≤ searchValue ∧ searchValue < t.top then do
    let bucket ← t.buckets[determineBucket searchValue t]?
    match bucket with
    | .null => some none
    | .tagged metaData => some (if (extent metaData).has searchValue then some metaData else none)
    | .chain block slot => findInChain extent (t.store block) searchValue (storeWords - slot) slot
    | _ => none
  else some none

-- The slot after the tagged one.
def newElement (words : Nat → Word) : Nat → Nat → Option Nat
  | 0,_ => none
  | fuel + 1,slot => if lowBitSet (words slot) then some (slot + 1) else newElement words fuel (slot + 1)

-- There is room for n words after currentAllocate, in this block or in a new one.
def reserveSlots (n : Nat) (t : Table) : Table :=
  if methodStoreEnd < t.currentAllocate + n then allocateMethodStoreInHash t else t

-- Put n words at currentAllocate.
def putWords (n : Nat) (word : Nat → Word) (t : Table) : Option (Word × Table) :=
  let array := t.currentAllocate
  if array + n ≤ storeWords then
    some (.chain (t.blocks - 1) array,
      { setStore (t.blocks - 1)
          (fun slot => if array ≤ slot ∧ slot < array + n then word (slot - array) else t.store (t.blocks - 1) slot) t with
        currentAllocate := array + n })
  else none

def insertMetaDataArrayInHash (dataToInsert : Nat) (array : Word) (t : Table) : Option (Word × Table) :=
  match array with
  | .tagged _ => putWords 2 (fun i => if i = 0 then .entry dataToInsert else array) (reserveSlots 2 t)
  | .chain block slot => do
      let words := t.store block
      let new ← newElement words (storeWords - slot) slot
      if new < storeWords then
        if words new = .null then
          let t := setStore block (fun x => if x = new then words (new - 1) else if x = new - 1 then .entry dataToInsert else words x) t
          some (array,if block = t.blocks - 1 ∧ new = t.currentAllocate then { t with currentAllocate := t.currentAllocate + 1 } else t)
        else
          let chainLength := new - slot
          putWords (chainLength + 1) (fun i => if i = 0 then .entry dataToInsert else words (slot + (i - 1))) (reserveSlots (chainLength + 1) t)
      else none
  | _ => none

def setBucket (i : Nat) (word : Word) (t : Table) : Table := { t with buckets := t.buckets.set i word }

-- The buckets from i on, n of them.
def insertBuckets (dataToInsert : Nat) : Nat → Nat → Table → Option Table
  | 0,_,t => some t
  | n + 1,i,t => do
      let bucket ← t.buckets[i]?
      match bucket with
      | .null => insertBuckets dataToInsert n (i + 1) (setBucket i (.tagged dataToInsert) t)
      | array => do
          let (word,t) ← insertMetaDataArrayInHash dataToInsert array t
          insertBuckets dataToInsert n (i + 1) (setBucket i word t)

-- The buckets that a loop from the one of startPC to the one of endPC visits; it visits one at least.
def visited (startPC endPC : Nat) (t : Table) : Nat := max 1 (determineBucket endPC t + 1 - determineBucket startPC t)

def insertMetaDataRangeInHash (dataToInsert startPC endPC : Nat) (t : Table) : Option (Bool × Table) :=
  if startPC < t.start ∨ t.top < endPC then some (false,t)
  else if startPC = endPC then some (false,t)
  else (insertBuckets dataToInsert (visited startPC endPC t) (determineBucket startPC t) t).map fun t => (true,t)

-- The tagged slot, the number of slots before it, and the place of the data among them (from 1), if any.
def findToRemove (dataToRemove : Nat) (words : Nat → Word) : Nat → Nat → Nat → Nat → Option (Nat × Nat × Nat)
  | 0,_,_,_ => none
  | fuel + 1,index,count,removeSpot =>
      if lowBitSet (words index) then some (index,count,removeSpot)
      else findToRemove dataToRemove words fuel (index + 1) (count + 1) (if words index = .entry dataToRemove then count + 1 else removeSpot)

inductive Removal where
  | missing
  | changed (bucket : Word) (words : Nat → Word)

-- What the bucket gets: the only entry that is left, or the chain.
def tidied (block array : Nat) (words : Nat → Word) : Removal :=
  if lowBitSet (words array) then .changed (words array) fun x => if x = array then .null else words x else .changed (.chain block array) words

def removeMetaDataArrayFromHash (dataToRemove block array : Nat) (words : Nat → Word) : Option Removal := do
  let (index,_,removeSpot) ← findToRemove dataToRemove words (storeWords - array) array 0 0
  let left : Option (Nat → Word) :=
    if words index = .tagged dataToRemove then
      some fun x => if x = index then .null else if x = index - 1 then setLowBit (words x) else words x
    else if removeSpot ≠ 0 then
      some fun x => if x = index then .null else if array + removeSpot - 1 ≤ x ∧ x < index then words (x + 1) else words x
    else none
  match left with
  | none => some .missing
  | some words => some (tidied block array words)

def removeBuckets (dataToRemove : Nat) : Nat → Nat → Table → Option (Bool × Table)
  | 0,_,t => some (true,t)
  | n + 1,i,t => do
      let bucket ← t.buckets[i]?
      match bucket with
      | .tagged metaData =>
          if metaData = dataToRemove then removeBuckets dataToRemove n (i + 1) (setBucket i .null t) else some (false,t)
      | .chain block array => do
          match ← removeMetaDataArrayFromHash dataToRemove block array (t.store block) with
          | .missing => some (false,t)
          | .changed word words => removeBuckets dataToRemove n (i + 1) (setBucket i word (setStore block words t))
      | _ => some (false,t)

def removeMetaDataRangeFromHash (dataToRemove startPC endPC : Nat) (t : Table) : Option (Bool × Table) :=
  if startPC < t.start ∨ t.top < endPC then some (false,t)
  else removeBuckets dataToRemove (visited startPC endPC t) (determineBucket startPC t) t

-- The manager of one code cache: cachedHashTable says whether the last PC was in it.
structure Manager where
  table : Table
  cachedPC : Nat
  cachedHashTable : Bool
  retrievedMetaDataCache : Option Nat

def addCodeCache (segmentBase segmentTop : Nat) : Manager := ⟨allocateCodeMetaDataHash segmentBase segmentTop,0,false,none⟩

def updateCache (currentPC : Nat) (s : Manager) : Manager :=
  if currentPC ≠ s.cachedPC then
    ⟨s.table,currentPC,decide (s.table.start ≤ currentPC) && decide (currentPC < s.table.top),none⟩
  else s

def findMetaDataForPC (extent : Nat → Extent) (pc : Nat) (s : Manager) : Option (Option Nat × Manager) :=
  let s := updateCache pc s
  match s.retrievedMetaDataCache with
  | some metaData => some (some metaData,s)
  | none =>
      if s.cachedHashTable then do
        let found ← findMetaDataInHash extent pc s.table
        some (found,{ s with retrievedMetaDataCache := found })
      else some (none,s)

def insertMetaData (extent : Nat → Extent) (metaData : Nat) (s : Manager) : Option (Bool × Manager) :=
  let e := extent metaData
  let s := updateCache e.startPC s
  if s.cachedHashTable then do
    let (success,table) ← insertMetaDataRangeInHash metaData e.startPC e.endPC s.table
    some (success,{ s with table := table })
  else some (false,s)

def removeMetaData (extent : Nat → Extent) (metaData : Nat) (s : Manager) : Option (Bool × Manager) := do
  let e := extent metaData
  let (found,s) ← findMetaDataForPC extent e.startPC s
  if found = some metaData then
    let s := updateCache e.startPC s
    if s.cachedHashTable then do
      let (success,table) ← removeMetaDataRangeFromHash metaData e.startPC e.endPC s.table
      some (success,{ s with table := table, retrievedMetaDataCache := none })
    else some (false,{ s with retrievedMetaDataCache := none })
  else some (false,{ s with retrievedMetaDataCache := none })

end OmrCompiler.MetaData
