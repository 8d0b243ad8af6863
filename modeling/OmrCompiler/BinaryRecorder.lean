import OmrCompiler.LittleEndian
import Mathlib.Logic.Function.Basic

/-! The recorder of builder calls that writes bytes to a buffer, and a reader of
what it wrote. Objects and statement names are known by their addresses. -/
namespace OmrCompiler.BinaryRecorder
open LittleEndian (Byte bytesOf)

def ascii (s : String) : List Byte := s.toList.map fun c => BitVec.ofNat 8 c.toNat

-- The texts at the addresses of names, and the addresses of two of them.
structure StatementNames where
  text : Nat → List Byte
  id16bit : Nat
  id32bit : Nat
  named16 : text id16bit = ascii "ID16BIT"
  named32 : text id32bit = ascii "ID32BIT"

structure Recorder where
  nextID : Nat
  idMap : Nat → Option Nat
  idSize : Nat
  buf : List Byte

def push (bytes : List Byte) (r : Recorder) : Recorder := { r with buf := r.buf ++ bytes }

-- The cast of the high byte is made before its shift.
def number8 (num : BitVec 8) : List Byte := [num]

def number16 (num : BitVec 16) : List Byte :=
  [num.setWidth 8 &&& 0xFF,(((num &&& 0xFF00).setWidth 8).setWidth 32 >>> 8).setWidth 8]

def number32 (num : BitVec 32) : List Byte :=
  [(num &&& 0x000000FF).setWidth 8,((num &&& 0x0000FF00) >>> 8).setWidth 8,((num &&& 0x00FF0000) >>> 16).setWidth 8,
    ((num &&& 0xFF000000) >>> 24).setWidth 8]

def number64 (num : BitVec 64) : List Byte :=
  [(num &&& 0x00000000000000FF).setWidth 8,((num &&& 0x000000000000FF00) >>> 8).setWidth 8,
    ((num &&& 0x0000000000FF0000) >>> 16).setWidth 8,((num &&& 0x00000000FF000000) >>> 24).setWidth 8,
    ((num &&& 0x000000FF00000000) >>> 32).setWidth 8,((num &&& 0x0000FF0000000000) >>> 40).setWidth 8,
    ((num &&& 0x00FF000000000000) >>> 48).setWidth 8,((num &&& 0xFF00000000000000) >>> 56).setWidth 8]

def string (s : List Byte) (r : Recorder) : Option Recorder :=
  if s.length < 2 ^ 15 - 1 then some (push s (push (number16 (BitVec.ofNat 16 s.length)) r)) else none

def writeID (id : Nat) (r : Recorder) : Option Recorder :=
  if r.idSize = 8 then some (push (number8 (BitVec.ofNat 8 id)) r)
  else if r.idSize = 16 then some (push (number16 (BitVec.ofNat 16 id)) r)
  else if r.idSize = 32 then some (push (number32 (BitVec.ofNat 32 id)) r)
  else none

def lookupID (ptr : Nat) (r : Recorder) : Option Nat := r.idMap ptr

def knownID (ptr : Nat) (r : Recorder) : Bool := (r.idMap ptr).isSome

def statement (s : Nat) (r : Recorder) : Option Recorder := do
  let id ← lookupID s r
  writeID id r

section Names
variable (names : StatementNames)

def getNewID (r : Recorder) : Option (Nat × Recorder) := do
  let r ←
    if r.nextID = 2 ^ 8 - 2 then statement names.id16bit { r with idSize := 16 }
    else if r.nextID = 2 ^ 16 - 2 then statement names.id32bit { r with idSize := 32 }
    else some r
  some (r.nextID,{ r with nextID := (r.nextID + 1) % 2 ^ 32 })

def storeID (ptr : Nat) (r : Recorder) : Option Recorder :=
  if knownID ptr r then none
  else do
    let (id,r) ← getNewID names r
    some { r with idMap := Function.update r.idMap ptr (some id) }

def ensureAvailableID (ptr : Nat) (r : Recorder) : Option Recorder := if knownID ptr r then some r else storeID names ptr r

/- The builder is not written: the buffer declares that call for another type, so
the empty one of its base class is taken. -/
def ensureStatementDefined (s : Nat) (r : Recorder) : Option Recorder :=
  if knownID s r then some r
  else do
    let r ← storeID names s r
    let r ← statement s r
    string (names.text s) r

def beginStatement (s : Nat) (r : Recorder) : Option Recorder := do
  let r ← ensureStatementDefined names s r
  statement s r

def finish (r : Recorder) : Option Recorder := do
  let r ← writeID 1 r
  string (ascii "Done") r

inductive Call
  | storeID (ptr : Nat)
  | ensureAvailableID (ptr : Nat)
  | beginStatement (s : Nat)
  | number8 (num : BitVec 8)
  | number16 (num : BitVec 16)
  | number32 (num : BitVec 32)
  | number64 (num : BitVec 64)
  | string (s : List Byte)
  | id (id : Nat)
  | value (ptr : Nat)
  | finish

def step (r : Recorder) : Call → Option Recorder
  | .storeID ptr => storeID names ptr r
  | .ensureAvailableID ptr => ensureAvailableID names ptr r
  | .beginStatement s => beginStatement names s r
  | .number8 num => some (push (number8 num) r)
  | .number16 num => some (push (number16 num) r)
  | .number32 num => some (push (number32 num) r)
  | .number64 num => some (push (number64 num) r)
  | .string s => string s r
  | .id id => writeID id r
  | .value ptr => statement ptr r
  | .finish => finish r

def run (r : Recorder) (calls : List Call) : Option Recorder := calls.foldlM (step names) r

def start : Recorder := ⟨2,Function.update (Function.update (fun _ => none) 0 (some 0)) 1 (some 1),8,[]⟩

end Names

section Reading

inductive Item
  | number (size : Nat) (value : BitVec (8 * size))
  | string (text : List Byte)
  | id (id : Nat)
  | definition (id : Nat) (text : List Byte)
  deriving DecidableEq

inductive Kind
  | number (size : Nat)
  | string
  | id
  | definition

def Item.kind : Item → Kind
  | .number size _ => .number size
  | .string _ => .string
  | .id _ => .id
  | .definition _ _ => .definition

-- The bytes of an identifier, and the identifiers that announce another number of them.
structure Reader where
  width : Nat
  announces : Nat → Option Nat

def opened : Reader := ⟨1,fun _ => none⟩

def announcedBy (text : List Byte) : Option Nat :=
  if text = ascii "ID16BIT" then some 2 else if text = ascii "ID32BIT" then some 4 else none

def Reader.learn (reader : Reader) (id : Nat) (text : List Byte) : Reader :=
  match announcedBy text with
  | some width => { reader with announces := Function.update reader.announces id (some width) }
  | none => reader

-- Announcements are read over; there are fewer than there are bytes.
def readID : Nat → Reader → List Byte → Option (Nat × Reader × List Byte)
  | 0,_,_ => none
  | fuel + 1,reader,bytes => do
      let (id,rest) ← LittleEndian.read reader.width bytes
      match reader.announces id with
      | some width => readID fuel { reader with width := width } rest
      | none => some (id,reader,rest)

def readString (bytes : List Byte) : Option (List Byte × List Byte) := do
  let (len,rest) ← LittleEndian.read 2 bytes
  LittleEndian.take len rest

def readItem (reader : Reader) (bytes : List Byte) : Kind → Option (Item × Reader × List Byte)
  | .number size => do
      let (value,rest) ← LittleEndian.read size bytes
      some (.number size (BitVec.ofNat (8 * size) value),reader,rest)
  | .string => do
      let (text,rest) ← readString bytes
      some (.string text,reader,rest)
  | .id => do
      let (id,reader,rest) ← readID (bytes.length + 1) reader bytes
      some (.id id,reader,rest)
  | .definition => do
      let (id,reader,rest) ← readID (bytes.length + 1) reader bytes
      let (text,rest) ← readString rest
      some (.definition id text,reader.learn id text,rest)

def readItems (reader : Reader) (bytes : List Byte) : List Kind → Option (List Item × Reader × List Byte)
  | [] => some ([],reader,bytes)
  | kind::kinds => do
      let (item,reader,rest) ← readItem reader bytes kind
      let (items,reader,rest) ← readItems reader rest kinds
      some (item::items,reader,rest)

def decode (kinds : List Kind) (bytes : List Byte) : Option (List Item) := do
  let (items,_,rest) ← readItems opened bytes kinds
  if rest = [] then some items else none

end Reading

section Recorded
variable (names : StatementNames)

-- What a call records. A new identifier is the next one.
def recorded (r : Recorder) : Call → List Item
  | .storeID _ => []
  | .ensureAvailableID _ => []
  | .beginStatement s =>
      match lookupID s r with
      | some id => [.id id]
      | none => [.definition r.nextID (names.text s),.id r.nextID]
  | .number8 num => [.number 1 num]
  | .number16 num => [.number 2 num]
  | .number32 num => [.number 4 num]
  | .number64 num => [.number 8 num]
  | .string s => [.string s]
  | .id id => [.id id]
  | .value ptr => (lookupID ptr r).toList.map .id
  | .finish => [.id 1,.string (ascii "Done")]

def recordedBy (r : Recorder) : List Call → List Item
  | [] => []
  | call::calls =>
      recorded names r call ++
        match step names r call with
        | some r => recordedBy r calls
        | none => []

-- A new identifier can be had without a change of the width of identifiers.
def Narrow (r : Recorder) : Prop := r.nextID ≠ 2 ^ 8 - 2

def Short (s : List Byte) : Prop := s.length < 256

/- The call defines no address twice, needs no wider identifiers, writes no number of
16 bits with a high byte, also as a length, and announces no width by itself. -/
def Plain (r : Recorder) : Call → Prop
  | .storeID ptr => lookupID ptr r = none ∧ Narrow r
  | .ensureAvailableID ptr => lookupID ptr r = none → Narrow r
  | .beginStatement s => lookupID s r = none → Narrow r ∧ Short (names.text s) ∧ announcedBy (names.text s) = none
  | .number8 _ => True
  | .number16 num => num.toNat < 256
  | .number32 _ => True
  | .number64 _ => True
  | .string s => Short s
  | .id id => id < 256
  | .value ptr => lookupID ptr r ≠ none
  | .finish => True

instance (r : Recorder) : (call : Call) → Decidable (Plain names r call)
  | .storeID _ => inferInstanceAs (Decidable (_ ∧ _ ≠ _))
  | .ensureAvailableID _ => inferInstanceAs (Decidable (_ → _ ≠ _))
  | .beginStatement _ => inferInstanceAs (Decidable (_ → _ ≠ _ ∧ _ < _ ∧ _))
  | .number8 _ => inferInstanceAs (Decidable True)
  | .number16 _ => inferInstanceAs (Decidable (_ < _))
  | .number32 _ => inferInstanceAs (Decidable True)
  | .number64 _ => inferInstanceAs (Decidable True)
  | .string _ => inferInstanceAs (Decidable (_ < _))
  | .id _ => inferInstanceAs (Decidable (_ < _))
  | .value _ => inferInstanceAs (Decidable (_ ≠ _))
  | .finish => inferInstanceAs (Decidable True)

def PlainRun (r : Recorder) : List Call → Prop
  | [] => True
  | call::calls =>
      Plain names r call ∧
        match step names r call with
        | some next => PlainRun next calls
        | none => True

instance decidePlainRun : (r : Recorder) → (calls : List Call) → Decidable (PlainRun names r calls)
  | _,[] => inferInstanceAs (Decidable True)
  | r,call::calls =>
      have := fun next => decidePlainRun next calls
      match found : step names r call with
      | some next => decidable_of_iff (Plain names r call ∧ PlainRun names next calls) (by rw [PlainRun,found])
      | none => decidable_of_iff (Plain names r call) (by rw [PlainRun,found,and_true])

end Recorded

end OmrCompiler.BinaryRecorder
