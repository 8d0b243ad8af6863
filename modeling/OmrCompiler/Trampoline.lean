import Mathlib.Data.List.Nodup

/-! The trampolines of a code cache: permanent slots that are reserved and then
allocated downwards, temporary slots that are allocated upwards until the next
synchronization, and the entries of the methods that use them. -/
namespace OmrCompiler.Trampoline

-- What initialize has laid out, in a cache that needs method trampolines.
structure Layout where
  trampolineCodeSize : Nat
  trampolineBase : Nat
  tempTrampolineBase : Nat
  tempTrampolineTop : Nat
  tempTrampolinesMax : Nat
  syncArraySize : Nat
  sized : 0 < trampolineCodeSize
  room : trampolineBase < tempTrampolineBase
  temps : tempTrampolineTop = tempTrampolineBase + trampolineCodeSize * tempTrampolinesMax

structure Entry where
  method : Nat
  currentStartPC : Option Nat
  currentTrampoline : Option Nat
  deriving DecidableEq, Repr

/- A method has one entry, so its entry stands in a sync block under the method's
name; none is a null entry. The code of a trampoline is where it jumps to. -/
structure State where
  reservationMark : Nat
  allocationMark : Nat
  tempTrampolineNext : Nat
  entries : List Entry
  syncList : List (List (Option Nat))
  fullSyncRequired : Bool
  almostFull : Bool
  code : Nat → Option Nat

inductive ErrorCode where
  | success | insufficientSpace | fatalError
  deriving DecidableEq, Repr

-- The state that initialize leaves.
def initial (layout : Layout) : State :=
  ⟨layout.tempTrampolineBase,layout.tempTrampolineBase,layout.tempTrampolineBase,[],
    if layout.tempTrampolinesMax = 0 then [] else [[]],false,false,fun _ => none⟩

def findResolvedMethod (method : Nat) (s : State) : Option Entry := s.entries.find? (·.method = method)

def updateEntry (method : Nat) (change : Entry → Entry) (s : State) : State :=
  { s with entries := s.entries.map fun e => if e.method = method then change e else e }

def createTrampoline (trampoline target : Nat) (s : State) : State :=
  { s with code := fun x => if x = trampoline then some target else s.code x }

def allocateTrampoline (layout : Layout) (s : State) : Option Nat × State :=
  if s.reservationMark < s.allocationMark then
    let mark := s.allocationMark - layout.trampolineCodeSize
    (some mark,{ s with allocationMark := mark })
  else (none,s)

def allocateTempTrampoline (layout : Layout) (s : State) : Option Nat × State :=
  if layout.tempTrampolineTop ≤ s.tempTrampolineNext then (none,s)
  else (some s.tempTrampolineNext,{ s with tempTrampolineNext := s.tempTrampolineNext + layout.trampolineCodeSize })

def reserveSpaceForTrampoline (layout : Layout) (s : State) : ErrorCode × State :=
  if layout.trampolineBase + layout.trampolineCodeSize ≤ s.reservationMark then
    (.success,{ s with reservationMark := s.reservationMark - layout.trampolineCodeSize })
  else (.insufficientSpace,{ s with almostFull := true })

-- available: there is memory for a hash entry.
def addResolvedMethod (method : Nat) (available : Bool) (s : State) : Bool × State :=
  if available then (true,{ s with entries := ⟨method,none,none⟩ :: s.entries }) else (false,s)

def reserveResolvedTrampoline (layout : Layout) (method : Nat) (available : Bool) (s : State) : ErrorCode × State :=
  match findResolvedMethod method s with
  | some _ => (.success,s)
  | none =>
      match reserveSpaceForTrampoline layout s with
      | (.success,s) =>
          match addResolvedMethod method available s with
          | (true,s) => (.success,s)
          | (false,s) => (.fatalError,s)
      | (error,s) => (error,s)

def findOrAddResolvedMethod (method : Nat) (available : Bool) (s : State) : State :=
  match findResolvedMethod method s with
  | some _ => s
  | none => (addResolvedMethod method available s).2

-- No result: the code dereferences a null entry, or creates a trampoline at a null address.
def findTrampoline (layout : Layout) (method startPC : Nat) (s : State) : Option (Nat × State) := do
  let entry ← findResolvedMethod method s
  match entry.currentTrampoline with
  | some trampoline => some (trampoline,s)
  | none => do
      let (allocated,s) := allocateTrampoline layout s
      let trampoline ← allocated
      let s := createTrampoline trampoline startPC s
      some (trampoline,updateEntry method (fun e => ⟨e.method,some startPC,some trampoline⟩) s)

-- The first block that has free slots takes the entry.
def addToFreeBlock (size : Nat) (entry : Option Nat) : List (List (Option Nat)) → Option (List (List (Option Nat)))
  | [] => none
  | block::rest =>
      if block.length < size then some ((block ++ [entry])::rest) else (addToFreeBlock size entry rest).map (block::·)

-- available: there is memory for another sync block.
def saveTempTrampoline (layout : Layout) (entry : Option Nat) (available : Bool) (s : State) : State :=
  if entry ∈ s.syncList.flatten then s
  else
    match addToFreeBlock layout.syncArraySize entry s.syncList with
    | some blocks => { s with syncList := blocks }
    | none => if available then { s with syncList := [entry]::s.syncList } else { s with fullSyncRequired := true }

def replaceTrampoline (layout : Layout) (method : Nat) (oldTrampoline : Option Nat) (newTargetPC : Nat) (needSync : Bool)
    (available : Bool) (s : State) : Option (Option Nat × State) := do
  let entry := findResolvedMethod method s
  let setStartPC := updateEntry method fun e => { e with currentStartPC := some newTargetPC }
  match oldTrampoline with
  | none => do
      let _ ← entry
      let (trampoline,s) := allocateTrampoline layout s
      let s := updateEntry method (fun e => { e with currentTrampoline := trampoline }) s
      some (trampoline,setStartPC s)
  | some old =>
      if needSync then do
        let (trampoline,s) := allocateTempTrampoline layout s
        let s := saveTempTrampoline layout (entry.map Entry.method) available s
        match trampoline with
        | none => some (none,s)
        | some trampoline => do
            let _ ← entry
            some (some trampoline,setStartPC s)
      else do
        let _ ← entry
        some (some old,setStartPC s)

def syncEntry (startPC : Nat → Nat) (s : State) (method : Nat) (trampoline : Nat) : State :=
  updateEntry method (fun e => { e with currentStartPC := some (startPC method) })
    (createTrampoline trampoline (startPC method) s)

-- The scan of all entries.
def syncAll (startPC : Nat → Nat) : List Entry → State → State
  | [],s => s
  | entry::rest,s =>
      match entry.currentTrampoline with
      | some trampoline =>
          if entry.currentStartPC ≠ some (startPC entry.method) then
            syncAll startPC rest (syncEntry startPC s entry.method trampoline)
          else syncAll startPC rest s
      | none => syncAll startPC rest s

-- The recorded entries; no result where a null entry or a null trampoline is dereferenced.
def syncListed (startPC : Nat → Nat) : List (Option Nat) → State → Option State
  | [],s => some s
  | listed::rest,s => do
      let method ← listed
      let entry ← findResolvedMethod method s
      let trampoline ← entry.currentTrampoline
      syncListed startPC rest (syncEntry startPC s method trampoline)

def syncTempTrampolines (layout : Layout) (startPC : Nat → Nat) (s : State) : Option State := do
  let s ←
    if s.fullSyncRequired then some { syncAll startPC s.entries s with fullSyncRequired := false }
    else syncListed startPC s.syncList.flatten s
  some { s with syncList := s.syncList.map fun _ => [], tempTrampolineNext := layout.tempTrampolineBase }

inductive Call where
  | reserveResolvedTrampoline (method : Nat) (available : Bool)
  | findOrAddResolvedMethod (method : Nat) (available : Bool)
  | findTrampoline (method startPC : Nat)
  | replaceTrampoline (method : Nat) (oldTrampoline : Option Nat) (newTargetPC : Nat) (needSync available : Bool)
  | syncTempTrampolines (startPC : Nat → Nat)

def step (layout : Layout) (s : State) : Call → Option State
  | .reserveResolvedTrampoline method available => some (reserveResolvedTrampoline layout method available s).2
  | .findOrAddResolvedMethod method available => some (findOrAddResolvedMethod method available s)
  | .findTrampoline method startPC => (findTrampoline layout method startPC s).map Prod.snd
  | .replaceTrampoline method old newTargetPC needSync available =>
      (replaceTrampoline layout method old newTargetPC needSync available s).map Prod.snd
  | .syncTempTrampolines startPC => syncTempTrampolines layout startPC s

end OmrCompiler.Trampoline
