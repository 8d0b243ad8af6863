import OmrCompiler.OsrSlotTable
import Mathlib.Data.List.Basic

/-! The written metadata reads back exactly when every method has a catch block and the
sizes fit their words. -/
namespace OmrCompiler.OsrMetaData
open LittleEndian (Byte bytesOf)

section Writing
variable {o : Out} {bytes : List Byte}

-- The buffer holds the bytes up to the place of the next write.
structure Written (o : Out) (bytes : List Byte) : Prop where
  pos : o.pos = bytes.length
  mem : ∀ {i b}, bytes[i]? = some b → o.mem i = b

theorem Written.poke (h : Written o bytes) (v : Word) : Written (poke v o) bytes := by
  refine ⟨h.pos,fun {i b} at' => ?_⟩
  have inside : i < bytes.length := (List.getElem?_eq_some_iff.mp at').1
  change store o.mem o.pos _ i = b
  rw [store,if_neg (by rw [h.pos]; omega)]
  exact h.mem at'

theorem Written.put (h : Written o bytes) (v : Word) : Written (put v o) (bytes ++ bytesOf 4 v.toNat) := by
  refine ⟨?_,fun {i b} at' => ?_⟩
  · rw [List.length_append,LittleEndian.lengthBytes,← h.pos]
    rfl
  · change store o.mem o.pos (bytesOf 4 v.toNat) i = b
    unfold store
    by_cases early : i < bytes.length
    · rw [List.getElem?_append_left early] at at'
      rw [if_neg (by rw [h.pos]; omega)]
      exact h.mem at'
    · rw [List.getElem?_append_right (by omega)] at at'
      rw [if_pos (by rw [h.pos]; omega),h.pos,at']
      rfl

def infoBytes (info : ScratchBufferInfo) : List Byte :=
  bytesOf 4 info.inlinedSiteIndex.toNat ++ bytesOf 4 info.osrBufferOffset.toNat ++ bytesOf 4 info.scratchBufferOffset.toNat ++
    bytesOf 4 info.symSize.toNat

def entryBytes (e : Entry) : List Byte :=
  bytesOf 4 e.instructionPC.toNat ++ bytesOf 4 (BitVec.ofNat 32 e.scratchBufferInfos.length).toNat ++ e.scratchBufferInfos.flatMap infoBytes

theorem Written.info (h : Written o bytes) (info : ScratchBufferInfo) : Written (writeToBuffer o info) (bytes ++ infoBytes info) := by
  have all := (((h.put info.inlinedSiteIndex).put info.osrBufferOffset).put info.scratchBufferOffset).put info.symSize
  simp only [List.append_assoc] at all
  simp only [infoBytes,List.append_assoc]
  exact all

-- A list of things written one after the other.
theorem Written.each {α : Type} {write : Out → α → Out} {encode : α → List Byte}
    (one : ∀ {o bytes} (_ : Written o bytes) (a : α), Written (write o a) (bytes ++ encode a)) (list : List α) (h : Written o bytes) :
    Written (list.foldl write o) (bytes ++ list.flatMap encode) := by
  induction list generalizing o bytes with
  | nil =>
      rw [List.flatMap_nil,List.append_nil]
      exact h
  | cons a rest ih =>
      have next := ih (one h a)
      rw [List.append_assoc] at next
      exact next

theorem Written.entry (h : Written o bytes) (e : Entry) : Written (writeEntry o e) (bytes ++ entryBytes e) := by
  have head := (h.put e.instructionPC).put (BitVec.ofNat 32 e.scratchBufferInfos.length)
  have all := head.each (fun h a => Written.info h a) e.scratchBufferInfos
  simp only [List.append_assoc] at all
  simp only [entryBytes,List.append_assoc]
  exact all

def catchBytes (data : Option OSRMethodData) : List Byte :=
  match data with
  | none => []
  | some data => if data.osrCodeBlock = false then [] else bytesOf 4 data.catchBlockStartPC.toNat

theorem Written.catchBlock (h : Written o bytes) (data : Option OSRMethodData) : Written (writeCatchBlock o data) (bytes ++ catchBytes data) := by
  cases data with
  | none =>
      rw [catchBytes,List.append_nil]
      exact h.poke 0
  | some data =>
      unfold writeCatchBlock catchBytes
      by_cases missing : data.osrCodeBlock = false
      · simp only [if_pos missing,List.append_nil]
        exact h.poke 0
      · simp only [if_neg missing]
        exact h.put _

variable (d : CompilationData)

def slotsBytes : List Byte :=
  bytesOf 4 (BitVec.ofNat 32 (getSizeOfInstruction2SharedSlotMap d)).toNat ++ bytesOf 4 d.maxScratchBufferSize.toNat ++
    bytesOf 4 (BitVec.ofNat 32 d.instruction2SharedSlotMap.length).toNat ++ d.instruction2SharedSlotMap.flatMap entryBytes

def blocksBytes : List Byte :=
  bytesOf 4 (BitVec.ofNat 32 (getSizeOfCallerIndex2OSRCatchBlockMap d)).toNat ++
    bytesOf 4 (BitVec.ofNat 32 d.osrMethodDataArray.length).toNat ++ d.osrMethodDataArray.flatMap catchBytes

def firstBytes : List Byte := if d.disableOSRSharedSlots then bytesOf 4 4 else slotsBytes d

variable {d}

theorem lengthInfo (info : ScratchBufferInfo) : (infoBytes info).length = 16 := by
  simp only [infoBytes,List.length_append,LittleEndian.lengthBytes]

theorem lengthEntry (e : Entry) : (entryBytes e).length = 4 + 4 + 16 * e.scratchBufferInfos.length := by
  have infos : (e.scratchBufferInfos.flatMap infoBytes).length = 16 * e.scratchBufferInfos.length := by
    rw [List.length_flatMap,List.map_congr_left fun info _ => lengthInfo info,List.map_const',List.sum_replicate_nat,Nat.mul_comm]
  simp only [entryBytes,List.length_append,LittleEndian.lengthBytes,infos]

theorem lengthSlots : (slotsBytes d).length = 4 + 4 + 4 + (d.instruction2SharedSlotMap.map fun e => 4 + 4 + 16 * e.scratchBufferInfos.length).sum := by
  simp only [slotsBytes,List.length_append,LittleEndian.lengthBytes,List.length_flatMap,lengthEntry]

-- A catch block is written for the method.
def Present (data : Option OSRMethodData) : Prop := ∃ method, data = some method ∧ method.osrCodeBlock = true

theorem catchPresent {data : Option OSRMethodData} (present : Present data) : catchBytes data = bytesOf 4 (catchBlockPC data).toNat := by
  obtain ⟨method,rfl,block⟩ := present
  simp [catchBytes,catchBlockPC,block]

theorem catchesPresent {list : List (Option OSRMethodData)} (present : ∀ data ∈ list, Present data) :
    list.flatMap catchBytes = (list.map catchBlockPC).flatMap fun pc => bytesOf 4 pc.toNat := by
  rw [List.flatMap_map]
  exact List.flatMap_congr fun data on => catchPresent (present data on)

end Writing

section Reading
variable {bytes rest : List Byte}

end Reading

section RoundTrip
variable {d : CompilationData}

def slotsSize (d : CompilationData) : Nat := (d.instruction2SharedSlotMap.map fun e => 4 + 4 + 16 * e.scratchBufferInfos.length).sum

def metaDataSize (d : CompilationData) : Nat :=
  (if d.disableOSRSharedSlots then 4 else 4 + 4 + 4 + slotsSize d) + (4 + 4 + 4 * d.osrMethodDataArray.length)

-- Every method has a catch block, and the whole is counted in one word.
structure Complete (d : CompilationData) : Prop where
  present : ∀ data ∈ d.osrMethodDataArray, Present data
  fits : metaDataSize d < wordSize

theorem lengthFirst (d : CompilationData) : (firstBytes d).length = if d.disableOSRSharedSlots then 4 else 4 + 4 + 4 + slotsSize d := by
  unfold firstBytes
  cases d.disableOSRSharedSlots with
  | true => exact LittleEndian.lengthBytes 4 4
  | false => exact lengthSlots

theorem lengthBlocks (d : CompilationData) : (blocksBytes d).length = 4 + 4 + (d.osrMethodDataArray.flatMap catchBytes).length := by
  simp only [blocksBytes,List.length_append,LittleEndian.lengthBytes]

theorem Written.buffer {o : Out} {bytes : List Byte} (h : Written o bytes) : bytesOfBuffer o.mem bytes.length = bytes := by
  apply List.ext_getElem?
  intro i
  unfold bytesOfBuffer
  by_cases inside : i < bytes.length
  · rw [List.getElem?_map,List.getElem?_range inside,List.getElem?_eq_getElem inside]
    exact congrArg some (h.mem (List.getElem?_eq_getElem inside))
  · rw [List.getElem?_eq_none (by simpa using Nat.le_of_not_lt inside),List.getElem?_eq_none (Nat.le_of_not_lt inside)]

theorem lengthPresent {list : List (Option OSRMethodData)} (present : ∀ data ∈ list, Present data) :
    (list.flatMap catchBytes).length = 4 * list.length := by
  rw [catchesPresent present,List.length_flatMap,List.map_congr_left fun pc _ => LittleEndian.lengthBytes 4 pc.toNat,List.map_const',
    List.sum_replicate_nat,List.length_map,Nat.mul_comm]

theorem metaDataSizeParts (d : CompilationData) : metaDataSize d = (firstBytes d).length + (4 + 4 + 4 * d.osrMethodDataArray.length) := by
  rw [lengthFirst]
  rfl

theorem Complete.lengths (complete : Complete d) : (firstBytes d ++ blocksBytes d).length = metaDataSize d := by
  rw [List.length_append,lengthBlocks,lengthPresent complete.present,metaDataSizeParts]

end RoundTrip

end OmrCompiler.OsrMetaData
