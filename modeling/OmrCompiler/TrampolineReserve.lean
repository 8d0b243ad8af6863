import Mathlib.Tactic.Ring
import OmrCompiler.Trampoline

/-! Reserved trampolines: what a call does to the marks and to the slots of the
methods, and when every reservation can be turned into a trampoline. -/
namespace OmrCompiler.Trampoline

-- The methods that have an entry, with their trampolines.
def slots (s : State) : List (Nat × Option Nat) := s.entries.map fun e => (e.method,e.currentTrampoline)

def setSlot (method : Nat) (trampoline : Option Nat) (held : List (Nat × Option Nat)) : List (Nat × Option Nat) :=
  held.map fun x => if x.1 = method then (method,trampoline) else x

-- What a call does to the marks and the slots.
inductive Effect (layout : Layout) (s : State) : Call → State → Prop where
  | quiet {call s'} (marks : s'.reservationMark = s.reservationMark ∧ s'.allocationMark = s.allocationMark)
      (same : slots s' = slots s) : Effect layout s call s'
  | reserved {method available s'} (space : layout.trampolineBase + layout.trampolineCodeSize ≤ s.reservationMark)
      (mark : s'.reservationMark = s.reservationMark - layout.trampolineCodeSize)
      (other : s'.allocationMark = s.allocationMark) (fresh : method ∉ (slots s).map Prod.fst)
      (held : slots s' = if available then (method,none) :: slots s else slots s) :
      Effect layout s (.reserveResolvedTrampoline method available) s'
  | added {method s'} (marks : s'.reservationMark = s.reservationMark ∧ s'.allocationMark = s.allocationMark)
      (fresh : method ∉ (slots s).map Prod.fst) (held : slots s' = (method,none) :: slots s) :
      Effect layout s (.findOrAddResolvedMethod method true) s'
  | found {method startPC s'} (waiting : (method,none) ∈ slots s) (left : s.reservationMark < s.allocationMark)
      (mark : s'.allocationMark = s.allocationMark - layout.trampolineCodeSize)
      (other : s'.reservationMark = s.reservationMark) (held : slots s' = setSlot method (some s'.allocationMark) (slots s)) :
      Effect layout s (.findTrampoline method startPC) s'
  | replaced {method newTargetPC needSync available s'} (left : s.reservationMark < s.allocationMark)
      (mark : s'.allocationMark = s.allocationMark - layout.trampolineCodeSize)
      (other : s'.reservationMark = s.reservationMark) (held : slots s' = setSlot method (some s'.allocationMark) (slots s)) :
      Effect layout s (.replaceTrampoline method none newTargetPC needSync available) s'
  | cleared {method newTargetPC needSync available s'} (left : ¬s.reservationMark < s.allocationMark)
      (marks : s'.reservationMark = s.reservationMark ∧ s'.allocationMark = s.allocationMark)
      (held : slots s' = setSlot method none (slots s)) :
      Effect layout s (.replaceTrampoline method none newTargetPC needSync available) s'

section
variable {layout : Layout} {s s' : State} {method : Nat}

theorem findNone (missing : findResolvedMethod method s = none) : method ∉ (slots s).map Prod.fst := by
  simp only [findResolvedMethod,List.find?_eq_none,decide_eq_true_eq] at missing
  simp only [slots,List.map_map,List.mem_map,Function.comp,not_exists,not_and]
  exact missing

theorem findSome {entry : Entry} (found : findResolvedMethod method s = some entry) :
    (method,entry.currentTrampoline) ∈ slots s ∧ entry ∈ s.entries ∧ entry.method = method := by
  have same : entry.method = method := by simpa using List.find?_some found
  have on := List.mem_of_find?_eq_some found
  refine ⟨?_,on,same⟩
  exact List.mem_map.mpr ⟨entry,on,by rw [same]⟩

theorem slotsStart (pc : Option Nat) : slots (updateEntry method (fun e => { e with currentStartPC := pc }) s) = slots s := by
  simp only [slots,updateEntry,List.map_map]
  refine List.map_congr_left fun e _ => ?_
  simp only [Function.comp]
  split <;> rfl

theorem slotsTrampoline (change : Entry → Entry) (trampoline : Option Nat)
    (same : ∀ e, (change e).method = e.method ∧ (change e).currentTrampoline = trampoline) :
    slots (updateEntry method change s) = setSlot method trampoline (slots s) := by
  simp only [slots,updateEntry,setSlot,List.map_map]
  refine List.map_congr_left fun e _ => ?_
  simp only [Function.comp]
  split
  next here => simp [same,here]
  next => rfl

theorem syncAllSlots (startPC : Nat → Nat) (entries : List Entry) : slots (syncAll startPC entries s) = slots s ∧
    (syncAll startPC entries s).reservationMark = s.reservationMark ∧
    (syncAll startPC entries s).allocationMark = s.allocationMark := by
  induction entries generalizing s with
  | nil => exact ⟨rfl,rfl,rfl⟩
  | cons e rest ih =>
    simp only [syncAll]
    split
    · split
      · obtain ⟨held,marks⟩ := @ih (syncEntry startPC s e.method _)
        exact ⟨held.trans (slotsStart _),marks⟩
      · exact ih
    · exact ih

theorem syncListedSlots {startPC : Nat → Nat} {listed : List (Option Nat)} (run : syncListed startPC listed s = some s') :
    slots s' = slots s ∧ s'.reservationMark = s.reservationMark ∧ s'.allocationMark = s.allocationMark := by
  induction listed generalizing s with
  | nil =>
    cases run
    exact ⟨rfl,rfl,rfl⟩
  | cons x rest ih =>
    simp only [syncListed,bind,Option.bind_eq_some_iff] at run
    obtain ⟨m,rfl,entry,found,t,here,run⟩ := run
    obtain ⟨held,marks⟩ := ih run
    exact ⟨held.trans (slotsStart _),marks⟩

theorem reserveEffect {available : Bool} :
    Effect layout s (.reserveResolvedTrampoline method available) (reserveResolvedTrampoline layout method available s).2 := by
  cases found : findResolvedMethod method s with
  | some entry =>
    simp only [reserveResolvedTrampoline,found]
    exact .quiet ⟨rfl,rfl⟩ rfl
  | none =>
    by_cases space : layout.trampolineBase + layout.trampolineCodeSize ≤ s.reservationMark
    · cases available <;>
        simp only [reserveResolvedTrampoline,found,reserveSpaceForTrampoline,space,if_true,addResolvedMethod] <;>
        exact .reserved space rfl rfl (findNone found) rfl
    · simp only [reserveResolvedTrampoline,found,reserveSpaceForTrampoline,if_neg space]
      exact .quiet ⟨rfl,rfl⟩ rfl

theorem findOrAddEffect {available : Bool} :
    Effect layout s (.findOrAddResolvedMethod method available) (findOrAddResolvedMethod method available s) := by
  cases found : findResolvedMethod method s with
  | some entry =>
    simp only [findOrAddResolvedMethod,found]
    exact .quiet ⟨rfl,rfl⟩ rfl
  | none =>
    simp only [findOrAddResolvedMethod,found]
    cases available with
    | true => exact .added ⟨rfl,rfl⟩ (findNone found) rfl
    | false => exact .quiet ⟨rfl,rfl⟩ rfl

theorem findEffect {startPC trampoline : Nat} (run : findTrampoline layout method startPC s = some (trampoline,s')) :
    Effect layout s (.findTrampoline method startPC) s' := by
  simp only [findTrampoline,bind,Option.bind_eq_some_iff] at run
  obtain ⟨entry,found,run⟩ := run
  cases here : entry.currentTrampoline with
  | some t =>
    simp only [here,Option.some.injEq,Prod.mk.injEq] at run
    obtain ⟨rfl,rfl⟩ := run
    exact .quiet ⟨rfl,rfl⟩ rfl
  | none =>
    have waiting := (findSome found).1
    rw [here] at waiting
    by_cases left : s.reservationMark < s.allocationMark
    · simp only [here,allocateTrampoline,if_pos left,Option.bind_some,Option.some.injEq,Prod.mk.injEq] at run
      obtain ⟨rfl,rfl⟩ := run
      exact .found waiting left rfl rfl (slotsTrampoline _ _ fun _ => ⟨rfl,rfl⟩)
    · simp only [here,allocateTrampoline,if_neg left,Option.bind_none,reduceCtorEq] at run

theorem saveEffect {entry : Option Nat} {available : Bool} : slots (saveTempTrampoline layout entry available s) = slots s ∧
    (saveTempTrampoline layout entry available s).reservationMark = s.reservationMark ∧
    (saveTempTrampoline layout entry available s).allocationMark = s.allocationMark := by
  simp only [saveTempTrampoline]
  split
  · exact ⟨rfl,rfl,rfl⟩
  · split
    · exact ⟨rfl,rfl,rfl⟩
    · split <;> exact ⟨rfl,rfl,rfl⟩

theorem tempEffect : slots (allocateTempTrampoline layout s).2 = slots s ∧
    (allocateTempTrampoline layout s).2.reservationMark = s.reservationMark ∧
    (allocateTempTrampoline layout s).2.allocationMark = s.allocationMark := by
  simp only [allocateTempTrampoline]
  split <;> exact ⟨rfl,rfl,rfl⟩

theorem replaceEffect {old result : Option Nat} {newTargetPC : Nat} {needSync available : Bool}
    (run : replaceTrampoline layout method old newTargetPC needSync available s = some (result,s')) :
    Effect layout s (.replaceTrampoline method old newTargetPC needSync available) s' := by
  cases old with
  | none =>
    simp only [replaceTrampoline,bind,Option.bind_eq_some_iff,Option.some.injEq,Prod.mk.injEq] at run
    obtain ⟨entry,found,rfl,rfl⟩ := run
    by_cases left : s.reservationMark < s.allocationMark
    · simp only [allocateTrampoline,if_pos left]
      refine .replaced left rfl rfl ?_
      rw [slotsStart]
      exact slotsTrampoline _ _ fun _ => ⟨rfl,rfl⟩
    · simp only [allocateTrampoline,if_neg left]
      refine .cleared left ⟨rfl,rfl⟩ ?_
      rw [slotsStart]
      exact slotsTrampoline _ _ fun _ => ⟨rfl,rfl⟩
  | some old =>
    cases needSync with
    | false =>
      simp only [replaceTrampoline,bind,Option.bind_eq_some_iff,Bool.false_eq_true,if_false,Option.some.injEq,Prod.mk.injEq] at run
      obtain ⟨entry,found,rfl,rfl⟩ := run
      exact .quiet ⟨rfl,rfl⟩ (slotsStart _)
    | true =>
      have temp := @tempEffect layout s
      have save := @saveEffect layout (allocateTempTrampoline layout s).2 ((findResolvedMethod method s).map Entry.method) available
      simp only [replaceTrampoline,bind,if_true] at run
      cases slot : (allocateTempTrampoline layout s).1 with
      | none =>
        simp only [slot,Option.some.injEq,Prod.mk.injEq] at run
        obtain ⟨rfl,rfl⟩ := run
        exact .quiet ⟨save.2.1.trans temp.2.1,save.2.2.trans temp.2.2⟩ (save.1.trans temp.1)
      | some t =>
        simp only [slot,Option.bind_eq_some_iff,Option.some.injEq,Prod.mk.injEq] at run
        obtain ⟨entry,found,rfl,rfl⟩ := run
        exact .quiet ⟨save.2.1.trans temp.2.1,save.2.2.trans temp.2.2⟩ ((slotsStart _).trans (save.1.trans temp.1))

theorem stepEffect {call : Call} (run : step layout s call = some s') : Effect layout s call s' := by
  cases call with
  | reserveResolvedTrampoline method available =>
    cases run
    exact reserveEffect
  | findOrAddResolvedMethod method available =>
    cases run
    exact findOrAddEffect
  | findTrampoline method startPC =>
    obtain ⟨⟨t,s'⟩,result,rfl⟩ := Option.map_eq_some_iff.mp run
    exact findEffect result
  | replaceTrampoline method old newTargetPC needSync available =>
    obtain ⟨⟨t,s'⟩,result,rfl⟩ := Option.map_eq_some_iff.mp run
    exact replaceEffect result
  | syncTempTrampolines startPC =>
    simp only [step,syncTempTrampolines,bind] at run
    split at run
    · cases run
      have all := @syncAllSlots s startPC s.entries
      exact .quiet ⟨all.2.1,all.2.2⟩ all.1
    · simp only [Option.bind_eq_some_iff,Option.some.injEq] at run
      obtain ⟨mid,run,rfl⟩ := run
      have listed := syncListedSlots run
      exact .quiet ⟨listed.2.1,listed.2.2⟩ listed.1

end

-- The marks are k slots apart; the slots that are in use lie above them, each on its own.
structure Spread (layout : Layout) (s : State) (k : Nat) : Prop where
  floor : layout.trampolineBase ≤ s.reservationMark
  between : s.allocationMark = s.reservationMark + layout.trampolineCodeSize * k
  ceiling : s.allocationMark ≤ layout.tempTrampolineBase
  methods : ((slots s).map Prod.fst).Nodup
  placed : ∀ m t, (m,some t) ∈ slots s → s.allocationMark ≤ t ∧ t + layout.trampolineCodeSize ≤ layout.tempTrampolineBase
  apart : ∀ m t m' t', (m,some t) ∈ slots s → (m',some t') ∈ slots s → m ≠ m' →
    t + layout.trampolineCodeSize ≤ t' ∨ t' + layout.trampolineCodeSize ≤ t

section
variable {layout : Layout} {s s' : State} {method k : Nat} {held : List (Nat × Option Nat)}

theorem memSetSlot {trampoline : Option Nat} {x : Nat × Option Nat} (on : x ∈ setSlot method trampoline held) :
    x = (method,trampoline) ∨ x.1 ≠ method ∧ x ∈ held := by
  obtain ⟨y,onY,rfl⟩ := List.mem_map.mp on
  by_cases here : y.1 = method
  · rw [if_pos here]
    exact .inl rfl
  · rw [if_neg here]
    exact .inr ⟨here,onY⟩

theorem methodsSetSlot (trampoline : Option Nat) : (setSlot method trampoline held).map Prod.fst = held.map Prod.fst := by
  simp only [setSlot,List.map_map]
  refine List.map_congr_left fun x _ => ?_
  simp only [Function.comp]
  split
  next here => exact here.symm
  next => rfl

-- The slot at the new allocation mark lies below all others.
theorem Spread.allocated (spread : Spread layout s k) (left : s.reservationMark < s.allocationMark)
    (mark : s'.allocationMark = s.allocationMark - layout.trampolineCodeSize) (other : s'.reservationMark = s.reservationMark)
    (change : slots s' = setSlot method (some s'.allocationMark) (slots s)) : ∃ j, k = j + 1 ∧ Spread layout s' j := by
  obtain ⟨floor,between,ceiling,methods,placed,apart⟩ := spread
  have size := layout.sized
  obtain ⟨j,rfl⟩ : ∃ j, k = j + 1 := by
    cases k with
    | zero =>
      rw [Nat.mul_zero] at between
      omega
    | succ j => exact ⟨j,rfl⟩
  have between' : s'.allocationMark = s'.reservationMark + layout.trampolineCodeSize * j := by
    rw [Nat.mul_succ] at between
    omega
  have above : s'.allocationMark + layout.trampolineCodeSize = s.allocationMark := by
    rw [Nat.mul_succ] at between
    omega
  refine ⟨j,rfl,by omega,between',by omega,?_,fun m t on => ?_,fun m t m' t' on on' differ => ?_⟩
  · rw [change,methodsSetSlot]
    exact methods
  · rw [change] at on
    rcases memSetSlot on with same | ⟨-,before⟩
    · cases same
      omega
    · have := placed m t before
      omega
  · rw [change] at on on'
    rcases memSetSlot on with same | ⟨-,before⟩ <;> rcases memSetSlot on' with same' | ⟨-,before'⟩
    · cases same
      cases same'
      exact absurd rfl differ
    · cases same
      have := placed m' t' before'
      omega
    · cases same'
      have := placed m t before
      omega
    · exact apart m t m' t' before before' differ

theorem Spread.same (spread : Spread layout s k)
    (marks : s'.reservationMark = s.reservationMark ∧ s'.allocationMark = s.allocationMark)
    (methods : ((slots s').map Prod.fst).Nodup) (fewer : ∀ m t, (m,some t) ∈ slots s' → (m,some t) ∈ slots s) :
    Spread layout s' k := by
  obtain ⟨floor,between,ceiling,-,placed,apart⟩ := spread
  refine ⟨by omega,by omega,by omega,methods,fun m t on => ?_,fun m t m' t' on on' => ?_⟩
  · rw [marks.2]
    exact placed m t (fewer m t on)
  · exact apart m t m' t' (fewer m t on) (fewer m' t' on')

theorem Spread.step {call : Call} (spread : Spread layout s k) (effect : Effect layout s call s') :
    ∃ j, Spread layout s' j := by
  have size := layout.sized
  cases effect with
  | quiet marks same =>
    refine ⟨k,spread.same marks ?_ ?_⟩
    · rw [same]
      exact spread.methods
    · rw [same]
      exact fun _ _ on => on
  | @reserved method available _ space mark other fresh change =>
    obtain ⟨floor,between,ceiling,methods,placed,apart⟩ := spread
    have fewer : ∀ m t, (m,some t) ∈ slots s' → (m,some t) ∈ slots s := by
      intro m t on
      rw [change] at on
      cases available <;> simpa using on
    refine ⟨k + 1,by omega,?_,by omega,?_,fun m t on => ?_,fun m t m' t' on on' => ?_⟩
    · rw [Nat.mul_succ]
      omega
    · rw [change]
      cases available with
      | false => exact methods
      | true => exact List.nodup_cons.mpr ⟨fresh,methods⟩
    · rw [other]
      exact placed m t (fewer m t on)
    · exact apart m t m' t' (fewer m t on) (fewer m' t' on')
  | added marks fresh change =>
    refine ⟨k,spread.same marks ?_ fun m t on => ?_⟩
    · rw [change]
      exact List.nodup_cons.mpr ⟨fresh,spread.methods⟩
    · rw [change] at on
      simpa using on
  | found waiting left mark other change =>
    obtain ⟨j,-,after⟩ := spread.allocated left mark other change
    exact ⟨j,after⟩
  | replaced left mark other change =>
    obtain ⟨j,-,after⟩ := spread.allocated left mark other change
    exact ⟨j,after⟩
  | cleared left marks change =>
    refine ⟨k,spread.same marks ?_ fun m t on => ?_⟩
    · rw [change,methodsSetSlot]
      exact spread.methods
    · rw [change] at on
      rcases memSetSlot on with same | ⟨-,before⟩
      · cases same
      · exact before

theorem spreadInitial : Spread layout (initial layout) 0 := by
  have room := layout.room
  refine ⟨Nat.le_of_lt room,rfl,Nat.le_refl _,List.nodup_nil,?_,?_⟩ <;> simp [slots,initial]

end

def waiting (held : List (Nat × Option Nat)) : Nat := held.countP fun x => x.2 = none

/- An entry is only made together with its reservation, and a trampoline is only
asked for by replaceTrampoline while the method has none. -/
def Permitted (layout : Layout) (s : State) : Call → Prop
  | .reserveResolvedTrampoline method available => available = true ∨ method ∈ (slots s).map Prod.fst ∨
      s.reservationMark < layout.trampolineBase + layout.trampolineCodeSize
  | .findOrAddResolvedMethod method available => available = false ∨ method ∈ (slots s).map Prod.fst
  | .findTrampoline _ _ => True
  | .replaceTrampoline method old _ _ _ => old = none → ∀ t, (method,some t) ∉ slots s
  | .syncTempTrampolines _ => True

-- The method for which the call returns a successful reservation.
def Call.reserved (layout : Layout) (s : State) : Call → List Nat
  | .reserveResolvedTrampoline method available =>
      if (Trampoline.reserveResolvedTrampoline layout method available s).1 = .success then [method] else []
  | _ => []

-- The methods with a successful reservation and the state reached.
def runCalls (layout : Layout) : State → List Call → Option (List Nat × State)
  | s,[] => some ([],s)
  | s,call::calls => do
      let next ← step layout s call
      let (reserved,last) ← runCalls layout next calls
      some (call.reserved layout s ++ reserved,last)

def AllPermitted (layout : Layout) : State → List Call → Prop
  | _,[] => True
  | s,call::calls => Permitted layout s call ∧ ∀ next, step layout s call = some next → AllPermitted layout next calls

-- As many slots are reserved and not yet allocated as entries wait for one.
def Reserved (layout : Layout) (s : State) : Prop := Spread layout s (waiting (slots s))

section
variable {layout : Layout} {s s' : State} {method k : Nat} {held : List (Nat × Option Nat)}

theorem waitingSetSlot {trampoline : Nat} (methods : (held.map Prod.fst).Nodup) (on : (method,none) ∈ held) :
    waiting held = waiting (setSlot method (some trampoline) held) + 1 := by
  induction held with
  | nil => simp at on
  | cons x held ih =>
    rw [List.map_cons,List.nodup_cons] at methods
    rcases List.mem_cons.mp on with rfl | later
    · have rest : setSlot method (some trampoline) held = held := by
        refine (List.map_congr_left fun y onY => ?_).trans (List.map_id' held)
        have other : y.1 ≠ method := fun same => methods.1 (List.mem_map.mpr ⟨y,onY,same⟩)
        rw [if_neg other]
      have unfolded : setSlot method (some trampoline) ((method,none)::held) =
          (method,some trampoline)::setSlot method (some trampoline) held := by
        simp [setSlot]
      rw [unfolded,rest]
      simp [waiting]
    · have other : x.1 ≠ method := fun same => methods.1 (List.mem_map.mpr ⟨_,later,same.symm⟩)
      have unfolded : setSlot method (some trampoline) (x::held) = x::setSlot method (some trampoline) held := by
        simp [setSlot,other]
      have tail := ih methods.2 later
      simp only [waiting,unfolded,List.countP_cons] at tail ⊢
      omega

theorem Spread.unique {j : Nat} (first : Spread layout s k) (second : Spread layout s j) : k = j := by
  have same : layout.trampolineCodeSize * k = layout.trampolineCodeSize * j := by
    have := first.between
    have := second.between
    omega
  exact Nat.eq_of_mul_eq_mul_left layout.sized same

theorem waitingPositive (on : (method,none) ∈ held) : 0 < waiting held :=
  List.countP_pos_iff.mpr ⟨_,on,by simp⟩

-- A permitted replacement without an old trampoline meets an entry that waits for one.
theorem replaceWaiting {newTargetPC : Nat} {needSync available : Bool}
    (run : step layout s (.replaceTrampoline method none newTargetPC needSync available) = some s')
    (fresh : ∀ t, (method,some t) ∉ slots s) : (method,none) ∈ slots s := by
  obtain ⟨⟨t,s'⟩,result,rfl⟩ := Option.map_eq_some_iff.mp run
  simp only [replaceTrampoline,bind,Option.bind_eq_some_iff] at result
  obtain ⟨entry,found,-⟩ := result
  have on := (findSome found).1
  cases here : entry.currentTrampoline with
  | none =>
    rw [here] at on
    exact on
  | some t =>
    rw [here] at on
    exact absurd on (fresh t)

theorem Reserved.step {call : Call} (reserved : Reserved layout s) (run : step layout s call = some s')
    (permitted : Permitted layout s call) : Reserved layout s' := by
  have effect := stepEffect run
  have spread : Spread layout s (waiting (slots s)) := reserved
  obtain ⟨j,after⟩ := Spread.step spread effect
  have distance := spread.between
  have distance' := after.between
  have size := layout.sized
  suffices same : j = waiting (slots s') by
    rw [Reserved,← same]
    exact after
  cases effect with
  | quiet marks same =>
    rw [same]
    exact after.unique (spread.same marks after.methods (same ▸ fun _ _ on => on))
  | @reserved method available _ space mark other fresh change =>
    have available : available = true := by
      rcases permitted with yes | known | full
      · exact yes
      · exact absurd known fresh
      · omega
    subst available
    have more : waiting (slots s') = waiting (slots s) + 1 := by
      rw [change]
      simp [waiting]
    rw [more]
    refine Nat.eq_of_mul_eq_mul_left size ?_
    rw [Nat.mul_succ]
    have floor := spread.floor
    omega
  | @added method _ marks fresh change =>
    rcases permitted with no | known
    · cases no
    · exact absurd known fresh
  | found on left mark other change =>
    obtain ⟨i,more,next⟩ := spread.allocated left mark other change
    have fewer := @waitingSetSlot _ (slots s) s'.allocationMark spread.methods on
    rw [← change] at fewer
    rw [after.unique next]
    omega
  | replaced left mark other change =>
    obtain ⟨i,more,next⟩ := spread.allocated left mark other change
    have on := replaceWaiting run (permitted rfl)
    have fewer := @waitingSetSlot _ (slots s) s'.allocationMark spread.methods on
    rw [← change] at fewer
    rw [after.unique next]
    omega
  | cleared left marks change =>
    have on := waitingPositive (replaceWaiting run (permitted rfl))
    have reach : layout.trampolineCodeSize * 1 ≤ layout.trampolineCodeSize * waiting (slots s) := Nat.mul_le_mul_left _ on
    omega

theorem reservedInitial : Reserved layout (initial layout) := spreadInitial

theorem Reserved.findTrampoline (reserved : Reserved layout s) (known : method ∈ (slots s).map Prod.fst) (startPC : Nat) :
    (findTrampoline layout method startPC s).isSome := by
  cases found : findResolvedMethod method s with
  | none => exact absurd known (findNone found)
  | some entry =>
    cases here : entry.currentTrampoline with
    | some t => simp [Trampoline.findTrampoline,found,here]
    | none =>
      have on := (findSome found).1
      rw [here] at on
      have reach : layout.trampolineCodeSize * 1 ≤ layout.trampolineCodeSize * waiting (slots s) :=
        Nat.mul_le_mul_left _ (waitingPositive on)
      have left : s.reservationMark < s.allocationMark := by
        have distance : s.allocationMark = _ := Spread.between reserved
        have size := layout.sized
        omega
      simp [Trampoline.findTrampoline,found,here,allocateTrampoline,left]

theorem stepKnown {call : Call} (run : step layout s call = some s') (known : method ∈ (slots s).map Prod.fst) :
    method ∈ (slots s').map Prod.fst := by
  cases stepEffect run with
  | quiet marks same => rwa [same]
  | @reserved m available _ space mark other fresh change =>
    rw [change]
    cases available with
    | false => exact known
    | true => exact List.mem_cons_of_mem _ known
  | added marks fresh change =>
    rw [change]
    exact List.mem_cons_of_mem _ known
  | found on left mark other change => rwa [change,methodsSetSlot]
  | replaced left mark other change => rwa [change,methodsSetSlot]
  | cleared left marks change => rwa [change,methodsSetSlot]

theorem reservedKnown {call : Call} (run : step layout s call = some s') (on : method ∈ call.reserved layout s) :
    method ∈ (slots s').map Prod.fst := by
  cases call with
  | reserveResolvedTrampoline m available =>
    cases run
    simp only [Call.reserved] at on
    split at on
    next success =>
      obtain rfl : method = m := by simpa using on
      cases found : findResolvedMethod method s with
      | some entry =>
        simp only [reserveResolvedTrampoline,found]
        exact List.mem_map_of_mem (findSome found).1
      | none =>
        by_cases space : layout.trampolineBase + layout.trampolineCodeSize ≤ s.reservationMark
        · cases available with
          | true => simp [reserveResolvedTrampoline,found,reserveSpaceForTrampoline,space,addResolvedMethod,slots]
          | false => simp [reserveResolvedTrampoline,found,reserveSpaceForTrampoline,space,addResolvedMethod] at success
        · simp [reserveResolvedTrampoline,found,reserveSpaceForTrampoline,space] at success
    next => simp at on
  | findOrAddResolvedMethod m available => simp [Call.reserved] at on
  | findTrampoline m startPC => simp [Call.reserved] at on
  | replaceTrampoline m old newTargetPC needSync available => simp [Call.reserved] at on
  | syncTempTrampolines startPC => simp [Call.reserved] at on

theorem runReserved {calls : List Call} {methods : List Nat} (reserved : Reserved layout s)
    (run : runCalls layout s calls = some (methods,s')) (permitted : AllPermitted layout s calls) :
    Reserved layout s' ∧ (∀ m ∈ methods, m ∈ (slots s').map Prod.fst) ∧
      ∀ m ∈ (slots s).map Prod.fst, m ∈ (slots s').map Prod.fst := by
  induction calls generalizing s methods with
  | nil =>
    cases run
    exact ⟨reserved,by simp,fun _ on => on⟩
  | cons call calls ih =>
    simp only [runCalls,bind,Option.bind_eq_some_iff,Option.some.injEq,Prod.mk.injEq] at run
    obtain ⟨next,first,⟨rest,last⟩,later,rfl,rfl⟩ := run
    obtain ⟨after,known,kept⟩ := ih (reserved.step first permitted.1) later (permitted.2 next first)
    refine ⟨after,fun m on => ?_,fun m on => kept m (stepKnown first on)⟩
    rcases List.mem_append.mp on with here | there
    · exact kept m (reservedKnown first here)
    · exact known m there

theorem failedReserve {available : Bool} (permitted : Permitted layout s (.reserveResolvedTrampoline method available))
    (failed : (reserveResolvedTrampoline layout method available s).1 ≠ .success) :
    (reserveResolvedTrampoline layout method available s).2.reservationMark = s.reservationMark := by
  cases found : findResolvedMethod method s with
  | some entry => simp [reserveResolvedTrampoline,found] at failed
  | none =>
    by_cases space : layout.trampolineBase + layout.trampolineCodeSize ≤ s.reservationMark
    · rcases permitted with rfl | known | full
      · simp [reserveResolvedTrampoline,found,reserveSpaceForTrampoline,space,addResolvedMethod] at failed
      · exact absurd known (findNone found)
      · omega
    · simp [reserveResolvedTrampoline,found,reserveSpaceForTrampoline,space]

end

-- In every run whose calls are all permitted.
theorem reservedTrampolineAllocated (layout : Layout) (calls : List Call) (methods : List Nat) (s : State)
    (run : runCalls layout (initial layout) calls = some (methods,s)) (permitted : AllPermitted layout (initial layout) calls) :
    (∀ m ∈ methods, ∀ startPC, (findTrampoline layout m startPC s).isSome) ∧
    (∀ m t, (m,some t) ∈ slots s → layout.trampolineBase ≤ t ∧ t + layout.trampolineCodeSize ≤ layout.tempTrampolineBase) ∧
    (∀ m t m' t', (m,some t) ∈ slots s → (m',some t') ∈ slots s → m ≠ m' →
      t + layout.trampolineCodeSize ≤ t' ∨ t' + layout.trampolineCodeSize ≤ t) ∧
    ∀ m available, Permitted layout s (.reserveResolvedTrampoline m available) →
      (reserveResolvedTrampoline layout m available s).1 ≠ .success →
      (reserveResolvedTrampoline layout m available s).2.reservationMark = s.reservationMark := by
  obtain ⟨reserved,known,-⟩ := runReserved reservedInitial run permitted
  have spread : Spread layout s (waiting (slots s)) := reserved
  refine ⟨fun m on startPC => reserved.findTrampoline (known m on) startPC,fun m t on => ?_,spread.apart,?_⟩
  · have place := spread.placed m t on
    have floor := spread.floor
    have distance := spread.between
    omega
  · exact fun m available permitted failed => failedReserve permitted failed

def sampleLayout : Layout := ⟨8,64,128,144,2,1,by decide,by decide,by decide⟩

-- Two methods are reserved, one is found and replaced.
def sampleCalls : List Call :=
  [.reserveResolvedTrampoline 1 true,.reserveResolvedTrampoline 2 true,.findTrampoline 1 500,
    .replaceTrampoline 1 (some 120) 600 true true,.replaceTrampoline 2 none 700 false true]

theorem reservedTrampolineAllocatedSample :
    ∃ methods s, runCalls sampleLayout (initial sampleLayout) sampleCalls = some (methods,s) ∧
      ∀ m ∈ methods, ∀ startPC, (findTrampoline sampleLayout m startPC s).isSome := by
  have permitted : AllPermitted sampleLayout (initial sampleLayout) sampleCalls := by
    refine ⟨.inl rfl,fun _ first => ?_⟩
    cases first
    refine ⟨.inl rfl,fun _ second => ?_⟩
    cases second
    refine ⟨trivial,fun _ third => ?_⟩
    cases third
    refine ⟨fun absent => (by cases absent),fun _ fourth => ?_⟩
    cases fourth
    refine ⟨fun _ t on => ?_,fun _ _ => trivial⟩
    have held : (2,some t) ∈ [(2,none),(1,some 120)] := on
    simp at held
  exact ⟨_,_,rfl,(reservedTrampolineAllocated sampleLayout sampleCalls _ _ rfl permitted).1⟩

/- An entry made by findOrAddResolvedMethod passes for a reservation that does not
exist; and a reservation whose entry cannot be made stays behind. -/
theorem reservationMissing :
    (∃ s, runCalls sampleLayout (initial sampleLayout)
        [.findOrAddResolvedMethod 1 true,.reserveResolvedTrampoline 1 true] = some ([1],s) ∧
      findTrampoline sampleLayout 1 500 s = none) ∧
    (reserveResolvedTrampoline sampleLayout 2 false (initial sampleLayout)).1 = .fatalError ∧
    (reserveResolvedTrampoline sampleLayout 2 false (initial sampleLayout)).2.reservationMark ≠
      (initial sampleLayout).reservationMark := by
  refine ⟨⟨_,rfl,rfl⟩,rfl,by decide⟩

end OmrCompiler.Trampoline
