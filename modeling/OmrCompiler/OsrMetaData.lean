import OmrCompiler.LittleEndian
import Mathlib.Logic.Function.Basic

/-! The metadata of on-stack replacement: the table of shared slots by instruction, its
compression, the two sections written to a buffer, and a reader of these. -/
namespace OmrCompiler.OsrMetaData
open LittleEndian (Byte bytesOf)

abbrev Word := BitVec 32

structure ScratchBufferInfo where
  inlinedSiteIndex : Word
  osrBufferOffset : Word
  scratchBufferOffset : Word
  symSize : Word
  deriving DecidableEq

structure Entry where
  instructionPC : Word
  scratchBufferInfos : List ScratchBufferInfo
  deriving DecidableEq

def Entry.pc (e : Entry) : Int := e.instructionPC.toInt

def addInstruction2SharedSlotMapEntry (instructionPC : Word) (infos : List ScratchBufferInfo) : List Entry → List Entry
  | [] => [⟨instructionPC,infos⟩]
  | cur::rest =>
      if instructionPC.toInt ≤ cur.pc then
        if instructionPC = cur.instructionPC then { cur with scratchBufferInfos := cur.scratchBufferInfos ++ infos }::rest
        else ⟨instructionPC,infos⟩::cur::rest
      else cur::addInstruction2SharedSlotMapEntry instructionPC infos rest

-- Null, or without a code block, or with the first instruction of its catch block.
structure OSRMethodData where
  osrCodeBlock : Bool
  catchBlockStartPC : Word

structure CompilationData where
  instruction2SharedSlotMap : List Entry
  maxScratchBufferSize : Word
  osrMethodDataArray : List (Option OSRMethodData)
  disableOSRSharedSlots : Bool

def wordSize : Nat := 2 ^ 32

def getSizeOfInstruction2SharedSlotMap (d : CompilationData) : Nat :=
  (4 + 4 + 4 + (d.instruction2SharedSlotMap.map fun e => 4 + 4 + 16 * e.scratchBufferInfos.length).sum) % wordSize

def getSizeOfCallerIndex2OSRCatchBlockMap (d : CompilationData) : Nat := (4 + 4 + 4 * d.osrMethodDataArray.length) % wordSize

-- A buffer and where the next write goes.
structure Out where
  mem : Nat → Byte
  pos : Nat

def store (mem : Nat → Byte) (pos : Nat) (bytes : List Byte) : Nat → Byte := fun a =>
  if pos ≤ a then (bytes[a - pos]?).getD (mem a) else mem a

def poke (v : Word) (o : Out) : Out := { o with mem := store o.mem o.pos (bytesOf 4 v.toNat) }

def put (v : Word) (o : Out) : Out := { poke v o with pos := o.pos + 4 }

def writeToBuffer (o : Out) (info : ScratchBufferInfo) : Out :=
  put info.symSize (put info.scratchBufferOffset (put info.osrBufferOffset (put info.inlinedSiteIndex o)))

def writeEntry (o : Out) (e : Entry) : Out :=
  e.scratchBufferInfos.foldl writeToBuffer (put (BitVec.ofNat 32 e.scratchBufferInfos.length) (put e.instructionPC o))

-- The step to the next word belongs to the second branch only.
def writeCatchBlock (o : Out) : Option OSRMethodData → Out
  | none => poke 0 o
  | some data => if data.osrCodeBlock = false then poke 0 o else put data.catchBlockStartPC o

section Reading

def readWord (bytes : List Byte) : Option (Word × List Byte) := do
  let (n,rest) ← LittleEndian.read 4 bytes
  some (BitVec.ofNat 32 n,rest)

end Reading

def bytesOfBuffer (mem : Nat → Byte) (n : Nat) : List Byte := (List.range n).map mem

-- The catch block written for a method, 0 for none.
def catchBlockPC : Option OSRMethodData → Word
  | none => 0
  | some data => if data.osrCodeBlock = false then 0 else data.catchBlockStartPC

abbrev Calls := List (Word × List ScratchBufferInfo)

def recordedFor (pc : Word) (calls : Calls) : List ScratchBufferInfo := (calls.filter fun call => call.1 = pc).flatMap Prod.snd

end OmrCompiler.OsrMetaData
