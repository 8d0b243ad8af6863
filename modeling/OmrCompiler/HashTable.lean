import Mathlib.Algebra.Ring.Nat
import Mathlib.Data.Nat.Size

/-! The hash table of CS2: a closed area with one slot for each bucket, index 1 on,
and an open area after it that holds the collisions and the free slots. -/
namespace OmrCompiler.HashTable

def kMinimumHashTableSize : Nat := 16

def word : Nat := 2 ^ 32

-- How the keys of a table are compared and hashed.
structure HashInfo (K : Type) where
  hash : K → Nat
  equal : K → K → Bool
  refl : ∀ a, equal a a = true
  symm : ∀ {a b}, equal a b = true → equal b a = true
  trans : ∀ {a b c}, equal a b = true → equal b c = true → equal a c = true
  nonzero : ∀ a, hash a ≠ 0
  respects : ∀ {a b}, equal a b = true → hash a = hash b

structure Item (K D : Type) where
  key : K
  data : D
  hashCode : Nat

-- An entry without an item is invalid: its hash code is 0.
structure Entry (K D : Type) where
  item : Option (Item K D)
  chain : Nat

structure Table (K D : Type) where
  table : Nat → Entry K D
  tableSize : Nat
  mask : Nat
  nextFree : Nat
  highestIndex : Nat

variable {K D : Type}

def Table.valid (t : Table K D) (x : Nat) : Bool := (t.table x).item.isSome

def Table.chain (t : Table K D) (x : Nat) : Nat := (t.table x).chain

def setEntry (x : Nat) (e : Entry K D) (t : Table K D) : Table K D := { t with table := fun y => if y = x then e else t.table y }

def setCollisionChain (x chain : Nat) (t : Table K D) : Table K D := setEntry x { t.table x with chain := chain } t

def invalidate (x : Nat) (t : Table K D) : Table K D := setEntry x { t.table x with item := none } t

-- The entry becomes the first free slot.
def release (x : Nat) (t : Table K D) : Table K D := { invalidate x (setCollisionChain x t.nextFree t) with nextFree := x }

-- A table without memory.
def empty : Table K D := ⟨fun _ => ⟨none,0⟩,0,0,0,0⟩

/- A table with its memory allocated and its free chain linked up. Index 0 is in no
bucket. The chains of the closed area are set when an entry gets there. -/
def fresh (closedAreaSize openAreaSize : Nat) : Table K D :=
  ⟨fun x => ⟨none,if closedAreaSize < x ∧ x + 1 < closedAreaSize + openAreaSize then x + 1 else 0⟩,
    closedAreaSize + openAreaSize,closedAreaSize - 1,closedAreaSize + 1,0⟩

/- In all that follows, no result means that an assertion fails or that an index
outside the table is used. -/

def holdsKey (info : HashInfo K) (key : K) (hashValue : Nat) (e : Entry K D) : Bool :=
  match e.item with
  | some item => decide (item.hashCode = hashValue) && info.equal key item.key
  | none => false

def locateFrom (info : HashInfo K) (key : K) (hashValue : Nat) (t : Table K D) : Nat → Nat → Option (Bool × Nat)
  | 0,_ => none
  | fuel + 1,index =>
      if holdsKey info key hashValue (t.table index) then some (true,index)
      else if t.chain index ≠ 0 then
        if t.chain index < t.tableSize then locateFrom info key hashValue t fuel (t.chain index) else none
      else some (false,index)

-- The index and the hash value are changed by the search; a hash value of 0 is computed.
def locate (info : HashInfo K) (key : K) (hashIndex hashValue : Nat) (t : Table K D) : Option (Bool × Nat × Nat) :=
  if t.tableSize = 0 then some (false,hashIndex,hashValue)
  else
    let hashValue := if hashValue = 0 then info.hash key else hashValue
    let index := (hashValue &&& t.mask) + 1
    if hashValue ≠ 0 ∧ index < t.tableSize then
      if t.valid index then (locateFrom info key hashValue t t.tableSize index).map fun (found,index) => (found,index,hashValue)
      else some (false,index,hashValue)
    else none

def put (item : Item K D) (index : Nat) (t : Table K D) : Table K D :=
  { setEntry index ⟨some item,0⟩ t with highestIndex := if index > t.highestIndex then index else t.highestIndex }

-- hashIndex is that of an invalid entry or of the last one of a chain.
def place (item : Item K D) (hashIndex : Nat) (t : Table K D) : Option (Nat × Table K D) :=
  if t.valid hashIndex then
    if t.nextFree ≠ 0 ∧ t.nextFree < t.tableSize then
      let t' := setCollisionChain hashIndex t.nextFree t
      some (t.nextFree,put item t.nextFree { t' with nextFree := t'.chain t.nextFree })
    else none
  else some (hashIndex,put item hashIndex t)

def rehashOne (info : HashInfo K) (old t : Table K D) (oldIndex : Nat) : Option (Table K D) :=
  match (old.table oldIndex).item with
  | none => some t
  | some item => do
      let (found,hashIndex,_) ← locate info item.key 0 item.hashCode t
      if found then none
      else do
        let (_,t) ← place item hashIndex t
        some t

-- The entries of the old table up to an index.
def rehash (info : HashInfo K) (old : Table K D) : Nat → Table K D → Option (Table K D)
  | 0,t => some t
  | n + 1,t => do
      let t ← rehash info old n t
      rehashOne info old t n

def growAndRehash (info : HashInfo K) (closedAreaSize openAreaSize : Nat) (t : Table K D) : Option (Table K D) :=
  if closedAreaSize = 0 ∨ openAreaSize = 0 then none else rehash info t t.tableSize (fresh closedAreaSize openAreaSize)

def grow (info : HashInfo K) (t : Table K D) : Option (Table K D) :=
  let newSize := if t.tableSize = 0 then kMinimumHashTableSize - 1 else ((t.mask <<< 1) ||| 1) % word
  let closedAreaSize := (newSize + 1) % word
  growAndRehash info closedAreaSize (closedAreaSize / 4) t

/- The source shifts by 32 less the leading zeroes of the word before inputWord. For
0 and above 2^31 that is all 32 bits, and what comes of it, 0 or 1, is below the
minimum size. -/
def ceilingPowerOfTwo (inputWord : Nat) : Nat := (1 <<< ((inputWord + word - 1) % word).size) % word

def growTo (info : HashInfo K) (newSize : Nat) (t : Table K D) : Option (Table K D) :=
  let closedAreaSize := if ceilingPowerOfTwo newSize < kMinimumHashTableSize then kMinimumHashTableSize else ceilingPowerOfTwo newSize
  let openAreaSize := closedAreaSize / 4
  if closedAreaSize + openAreaSize < t.tableSize then some t else growAndRehash info closedAreaSize openAreaSize t

def add (info : HashInfo K) (key : K) (data : D) (hashIndex hashValue : Nat) (noLocate : Bool) (t : Table K D) : Option (Bool × Nat × Table K D) := do
  let (found,hashIndex,hashValue) ← if noLocate then some (false,hashIndex,hashValue) else locate info key hashIndex hashValue t
  if found then some (false,hashIndex,t)
  else if t.nextFree = 0 then do
    let t ← grow info t
    let (found,hashIndex,hashValue) ← locate info key hashIndex hashValue t
    if found then none
    else do
      let (hashIndex,t) ← place ⟨key,data,hashValue⟩ hashIndex t
      some (true,hashIndex,t)
  else do
    let (hashIndex,t) ← place ⟨key,data,hashValue⟩ hashIndex t
    some (true,hashIndex,t)

-- The entry of a chain that points to hashIndex.
def findPrevious (hashIndex : Nat) (t : Table K D) : Nat → Nat → Option Nat
  | 0,_ => none
  | fuel + 1,collisionIndex =>
      if t.chain collisionIndex = hashIndex then some collisionIndex
      else if collisionIndex ≠ 0 then findPrevious hashIndex t fuel (t.chain collisionIndex) else none

-- The highest valid index up to n, or 0.
def walkBackward (t : Table K D) : Nat → Nat
  | 0 => 0
  | n + 1 => if t.valid (n + 1) then n + 1 else walkBackward t n

def lowerHighest (hashIndex : Nat) (t : Table K D) : Table K D :=
  if hashIndex = t.highestIndex then { t with highestIndex := walkBackward t (hashIndex - 1) } else t

def remove (hashIndex : Nat) (t : Table K D) : Option (Table K D) :=
  match (t.table hashIndex).item with
  | none => none
  | some item =>
      if t.mask + 1 < hashIndex then do
        let collisionIndex ← findPrevious hashIndex t t.tableSize ((item.hashCode &&& t.mask) + 1)
        some (lowerHighest hashIndex (release hashIndex (setCollisionChain collisionIndex (t.chain hashIndex) t)))
      else
        let firstCollision := t.chain hashIndex
        let t := invalidate hashIndex t
        if firstCollision ≠ 0 then
          let t := release firstCollision (setEntry hashIndex (t.table firstCollision) t)
          some (lowerHighest (if hashIndex < firstCollision then firstCollision else hashIndex) t)
        else some (lowerHighest hashIndex t)

def makeEmpty (_ : Table K D) : Table K D := empty

def copyConstruct (t : Table K D) : Table K D := { t with table := fun x => if x < t.tableSize then t.table x else ⟨none,0⟩ }

-- The entries of the longer table that are left over are destroyed.
def assign (t source : Table K D) : Table K D :=
  { t with
    table := fun x => if x < source.tableSize then source.table x else if x < t.tableSize then ⟨none,t.chain x⟩ else t.table x
    tableSize := source.tableSize
    mask := source.mask
    nextFree := source.nextFree }

def dataAt (index : Nat) (t : Table K D) : Option D :=
  if index < t.tableSize then (t.table index).item.map (·.data) else none

def get (info : HashInfo K) (key : K) (t : Table K D) : Option D := do
  let (found,hashIndex,_) ← locate info key 0 0 t
  if found then dataAt hashIndex t else none

def isEmpty (t : Table K D) : Bool := decide (t.highestIndex = 0)

-- The next valid index after fIndex, or 0, with n indices left before the end of the table.
def nextFrom (t : Table K D) : Nat → Nat → Nat
  | 0,_ => 0
  | n + 1,index => if t.valid index then index else nextFrom t n (index + 1)

def setToNext (t : Table K D) (fIndex : Nat) : Nat := nextFrom t (t.tableSize - (fIndex + 1)) (fIndex + 1)

-- What a cursor visits from an index on, until it is not valid.
def visits (t : Table K D) : Nat → Nat → List Nat
  | 0,_ => []
  | fuel + 1,fIndex => if fIndex ≠ 0 ∧ t.valid fIndex then fIndex::visits t fuel (setToNext t fIndex) else []

def visited (t : Table K D) : List Nat := visits t t.tableSize (setToNext t 0)

end OmrCompiler.HashTable
