import OmrCompiler.TrampolineReserve

/-! Synchronization of temporary trampolines: which permanent trampolines it
rewrites, and when none that was replaced since the last one stays stale. -/
namespace OmrCompiler.Trampoline

/- Since the last synchronization: the methods whose permanent trampoline was
replaced by a temporary one, and the temporary slots with the methods they went to. -/
structure Tracked where
  pending : List Nat
  temps : List (Nat × Nat)
  deriving DecidableEq, Repr

def track (layout : Layout) (s : State) (g : Tracked) : Call → Tracked
  | .replaceTrampoline method (some _) _ true _ =>
      { pending :=
          match findResolvedMethod method s with
          | some entry => if entry.currentTrampoline = none then g.pending else method::g.pending
          | none => g.pending
        temps :=
          match (allocateTempTrampoline layout s).1 with
          | some slot => (method,slot)::g.temps
          | none => g.temps }
  | .syncTempTrampolines _ => ⟨[],[]⟩
  | _ => g

-- The permanent trampolines of the pending methods jump to the current start PCs.
def Current (startPC : Nat → Nat) (pending : List Nat) (s s' : State) : Prop :=
  ∀ m ∈ pending, ∀ t, (m,some t) ∈ slots s → s'.code t = some (startPC m)

-- The full scan takes no pending entry for up to date that is not.
def Detectable (startPC : Nat → Nat) (pending : List Nat) (s : State) : Prop :=
  ∀ e ∈ s.entries, e.method ∈ pending → ∀ t, e.currentTrampoline = some t →
    e.currentStartPC ≠ some (startPC e.method) ∨ s.code t = some (startPC e.method)

/- replaceTrampoline is passed the trampoline of the method's entry; a full
synchronization can tell which trampolines are stale. -/
def Synchronizable (s : State) (g : Tracked) : Call → Prop
  | .replaceTrampoline method old _ _ _ => (findResolvedMethod method s).map Entry.currentTrampoline = some old
  | .syncTempTrampolines startPC => s.fullSyncRequired = false ∨ Detectable startPC g.pending s
  | _ => True

section
variable {layout : Layout} {s s' : State} {method k t : Nat} {startPC : Nat → Nat}

theorem memSlots {e : Entry} (on : e ∈ s.entries) : (e.method,e.currentTrampoline) ∈ slots s :=
  List.mem_map.mpr ⟨e,on,rfl⟩

theorem slotsMem {v : Option Nat} (on : (method,v) ∈ slots s) : ∃ e ∈ s.entries, e.method = method ∧ e.currentTrampoline = v := by
  obtain ⟨e,onE,same⟩ := List.mem_map.mp on
  cases same
  exact ⟨e,onE,rfl,rfl⟩

theorem slotUnique {v w : Option Nat} (methods : ((slots s).map Prod.fst).Nodup) (first : (method,v) ∈ slots s)
    (second : (method,w) ∈ slots s) : v = w := by
  have same := List.inj_on_of_nodup_map methods first second rfl
  exact (Prod.mk.inj same).2

theorem findHeld {v : Option Nat} (methods : ((slots s).map Prod.fst).Nodup) (on : (method,v) ∈ slots s) :
    ∃ entry, findResolvedMethod method s = some entry ∧ entry.currentTrampoline = v := by
  cases found : findResolvedMethod method s with
  | none => exact absurd (List.mem_map_of_mem on) (findNone found)
  | some entry => exact ⟨entry,rfl,slotUnique methods (findSome found).1 on⟩

-- Two methods never share a trampoline.
theorem Spread.owner {m m' : Nat} (spread : Spread layout s k) (first : (m,some t) ∈ slots s) (second : (m',some t) ∈ slots s) :
    m = m' := by
  by_contra differ
  have apart := spread.apart m t m' t first second differ
  have size := layout.sized
  omega

theorem syncAllUntouched {entries : List Entry} (off : ∀ e ∈ entries, e.currentTrampoline ≠ some t) :
    (syncAll startPC entries s).code t = s.code t := by
  induction entries generalizing s with
  | nil => rfl
  | cons e rest ih =>
    have later : ∀ {s : State}, (syncAll startPC rest s).code t = s.code t := ih fun x on => off x (by simp [on])
    simp only [syncAll]
    split
    next t' here =>
      have other : t ≠ t' := fun same => off e (by simp) (same ▸ here)
      split
      · rw [later]
        simp [syncEntry,updateEntry,createTrampoline,other]
      · exact later
    next => exact later

theorem syncAllCode {entries : List Entry} {e : Entry} (on : e ∈ entries) (here : e.currentTrampoline = some t)
    (single : entries.Pairwise fun x y => x.currentTrampoline = some t → y.currentTrampoline ≠ some t) :
    (syncAll startPC entries s).code t =
      if e.currentStartPC ≠ some (startPC e.method) then some (startPC e.method) else s.code t := by
  induction entries generalizing s with
  | nil => simp at on
  | cons x rest ih =>
    rw [List.pairwise_cons] at single
    rcases List.mem_cons.mp on with rfl | later
    · have off : ∀ y ∈ rest, y.currentTrampoline ≠ some t := fun y onY => single.1 y onY here
      simp only [syncAll,here]
      split
      · rw [syncAllUntouched off]
        simp [syncEntry,updateEntry,createTrampoline]
      · exact syncAllUntouched off
    · have other : x.currentTrampoline ≠ some t := fun same => single.1 e later same here
      simp only [syncAll]
      split
      next t' there =>
        have differ : t ≠ t' := fun same => other (same ▸ there)
        split
        · rw [ih later single.2]
          simp [syncEntry,updateEntry,createTrampoline,differ]
        · exact ih later single.2
      next => exact ih later single.2

theorem syncEntrySlots : slots (syncEntry startPC s method t) = slots s := slotsStart _

theorem Spread.synced (spread : Spread layout s k) : Spread layout (syncEntry startPC s method t) k := by
  refine spread.same ⟨rfl,rfl⟩ ?_ ?_
  · rw [syncEntrySlots]
    exact spread.methods
  · rw [syncEntrySlots]
    exact fun _ _ on => on

-- The recorded entries are all rewritten; what is up to date stays so.
theorem syncListedCode {listed : List (Option Nat)} (spread : Spread layout s k)
    (entries : ∀ x ∈ listed, ∃ m t, x = some m ∧ (m,some t) ∈ slots s) :
    ∃ s', syncListed startPC listed s = some s' ∧ ∀ m t, (m,some t) ∈ slots s →
      some m ∈ listed ∨ s.code t = some (startPC m) → s'.code t = some (startPC m) := by
  induction listed generalizing s with
  | nil => exact ⟨s,rfl,fun m t _ here => here.elim (fun on => by simp at on) id⟩
  | cons x rest ih =>
    obtain ⟨m,t,rfl,on⟩ := entries x (by simp)
    obtain ⟨entry,found,held⟩ := findHeld spread.methods on
    obtain ⟨s',run,code⟩ := @ih (syncEntry startPC s m t) spread.synced fun x onX => by
      rw [syncEntrySlots]
      exact entries x (by simp [onX])
    refine ⟨s',by simp [syncListed,found,held,run],fun m' t' on' here => code m' t' (by rwa [syncEntrySlots]) ?_⟩
    by_cases same : t' = t
    · subst same
      obtain rfl := spread.owner on on'
      exact .inr (by simp [syncEntry,updateEntry,createTrampoline])
    · have other : some m' ≠ some m := by
        rintro equal
        cases equal
        exact same (Option.some.inj (slotUnique spread.methods on' on))
      rcases here with listed | before
      · rcases List.mem_cons.mp listed with equal | later
        · exact absurd equal other
        · exact .inl later
      · exact .inr (by simpa [syncEntry,updateEntry,createTrampoline,same] using before)

-- What holds between two synchronizations.
structure Between (layout : Layout) (s : State) (g : Tracked) : Prop where
  spread : ∃ k, Spread layout s k
  next : s.tempTrampolineNext = layout.tempTrampolineBase + layout.trampolineCodeSize * g.temps.length
  within : g.temps.length ≤ layout.tempTrampolinesMax
  temps : ∀ x ∈ g.temps, layout.tempTrampolineBase ≤ x.2 ∧ x.2 + layout.trampolineCodeSize ≤ s.tempTrampolineNext
  apart : g.temps.Pairwise fun x y => y.2 + layout.trampolineCodeSize ≤ x.2
  listed : ∀ x ∈ s.syncList.flatten, ∃ m t, x = some m ∧ (m,some t) ∈ slots s
  saved : s.fullSyncRequired = true ∨ ∀ m ∈ g.pending, some m ∈ s.syncList.flatten

theorem betweenInitial : Between layout (initial layout) ⟨[],[]⟩ := by
  refine ⟨⟨0,spreadInitial⟩,by simp [initial],by simp,by simp,List.Pairwise.nil,?_,.inr (by simp)⟩
  intro x on
  simp only [initial] at on
  split at on <;> simp at on

theorem syncFull (full : s.fullSyncRequired = true) : syncTempTrampolines layout startPC s =
    some { syncAll startPC s.entries s with
      fullSyncRequired := false
      syncList := (syncAll startPC s.entries s).syncList.map fun _ => []
      tempTrampolineNext := layout.tempTrampolineBase } := by
  simp only [syncTempTrampolines,full,if_true]
  rfl

theorem syncShort (off : s.fullSyncRequired = false) (run : syncListed startPC s.syncList.flatten s = some s') :
    syncTempTrampolines layout startPC s =
      some { s' with syncList := s'.syncList.map fun _ => [], tempTrampolineNext := layout.tempTrampolineBase } := by
  simp only [syncTempTrampolines,off,Bool.false_eq_true,if_false,run]
  rfl

theorem Between.sync {g : Tracked} (between : Between layout s g)
    (safe : Synchronizable s g (.syncTempTrampolines startPC)) :
    ∃ s', syncTempTrampolines layout startPC s = some s' ∧ Current startPC g.pending s s' := by
  obtain ⟨k,spread⟩ := between.spread
  by_cases full : s.fullSyncRequired = true
  · refine ⟨_,syncFull full,fun m on t held => ?_⟩
    obtain ⟨e,onE,rfl,here⟩ := slotsMem held
    have single : s.entries.Pairwise fun x y => x.currentTrampoline = some t → y.currentTrampoline ≠ some t := by
      have methods : s.entries.Pairwise fun x y => x.method ≠ y.method := by
        have distinct := spread.methods
        simp only [slots,List.map_map,List.Nodup,List.pairwise_map,Function.comp] at distinct
        exact distinct
      refine methods.imp_of_mem fun {x y} onX onY differ hereX hereY => differ ?_
      have first := memSlots onX
      have second := memSlots onY
      rw [hereX] at first
      rw [hereY] at second
      exact spread.owner first second
    have code := @syncAllCode s t startPC s.entries e onE here single
    show (syncAll startPC s.entries s).code t = some (startPC e.method)
    rw [code]
    split
    · rfl
    next equal =>
      rcases safe with no | detect
      · rw [full] at no
        cases no
      · exact (detect e onE on t here).resolve_left equal
  · have off : s.fullSyncRequired = false := by simpa using full
    obtain ⟨s',run,code⟩ := @syncListedCode layout s k startPC s.syncList.flatten spread between.listed
    have saved := between.saved.resolve_left full
    exact ⟨_,syncShort off run,fun m on t held => code m t held (.inl (saved m on))⟩

def sameTemps (s s' : State) : Prop :=
  s'.tempTrampolineNext = s.tempTrampolineNext ∧ s'.syncList = s.syncList ∧ s'.fullSyncRequired = s.fullSyncRequired

theorem reserveTemps {available : Bool} : sameTemps s (reserveResolvedTrampoline layout method available s).2 := by
  simp only [reserveResolvedTrampoline,reserveSpaceForTrampoline,addResolvedMethod]
  cases findResolvedMethod method s with
  | some entry => exact ⟨rfl,rfl,rfl⟩
  | none =>
    by_cases space : layout.trampolineBase + layout.trampolineCodeSize ≤ s.reservationMark
    · cases available <;> simp [space,sameTemps]
    · simp [space,sameTemps]

theorem findOrAddTemps {available : Bool} : sameTemps s (findOrAddResolvedMethod method available s) := by
  simp only [findOrAddResolvedMethod,addResolvedMethod]
  cases findResolvedMethod method s with
  | some entry => exact ⟨rfl,rfl,rfl⟩
  | none => cases available <;> exact ⟨rfl,rfl,rfl⟩

theorem allocateTemps : sameTemps s (allocateTrampoline layout s).2 := by
  simp only [allocateTrampoline]
  split <;> exact ⟨rfl,rfl,rfl⟩

theorem findTemps {pc trampoline : Nat} (run : findTrampoline layout method pc s = some (trampoline,s')) : sameTemps s s' := by
  simp only [findTrampoline,bind,Option.bind_eq_some_iff] at run
  obtain ⟨entry,found,run⟩ := run
  cases here : entry.currentTrampoline with
  | some t =>
    simp only [here,Option.some.injEq,Prod.mk.injEq] at run
    obtain ⟨rfl,rfl⟩ := run
    exact ⟨rfl,rfl,rfl⟩
  | none =>
    simp only [here,Option.bind_eq_some_iff,Option.some.injEq,Prod.mk.injEq] at run
    obtain ⟨t,-,-,rfl⟩ := run
    exact @allocateTemps layout s

theorem memSetOther {m : Nat} {v : Option Nat} (methods : ((slots s).map Prod.fst).Nodup) (on : (m,some t) ∈ slots s)
    (waits : (method,none) ∈ slots s) : (m,some t) ∈ setSlot method v (slots s) := by
  refine List.mem_map.mpr ⟨_,on,if_neg ?_⟩
  rintro rfl
  cases slotUnique methods waits on

theorem safeWaits {g : Tracked} {newTargetPC : Nat} {needSync available : Bool}
    (safe : Synchronizable s g (.replaceTrampoline method none newTargetPC needSync available)) : (method,none) ∈ slots s := by
  obtain ⟨entry,found,here⟩ := Option.map_eq_some_iff.mp safe
  have on := (findSome found).1
  rwa [here] at on

-- Trampolines that are there stay.
theorem slotKept {call : Call} {g : Tracked} {m : Nat} (spread : Spread layout s k) (run : step layout s call = some s')
    (safe : Synchronizable s g call) (on : (m,some t) ∈ slots s) : (m,some t) ∈ slots s' := by
  cases stepEffect run with
  | quiet marks same => rwa [same]
  | @reserved method available _ space mark other fresh change =>
    rw [change]
    cases available with
    | false => exact on
    | true => exact List.mem_cons_of_mem _ on
  | added marks fresh change =>
    rw [change]
    exact List.mem_cons_of_mem _ on
  | found waits left mark other change =>
    rw [change]
    exact memSetOther spread.methods on waits
  | replaced left mark other change =>
    rw [change]
    exact memSetOther spread.methods on (safeWaits safe)
  | cleared left marks change =>
    rw [change]
    exact memSetOther spread.methods on (safeWaits safe)

theorem Between.quiet {call : Call} {g : Tracked} (between : Between layout s g) (run : step layout s call = some s')
    (safe : Synchronizable s g call) (same : sameTemps s s') : Between layout s' g := by
  obtain ⟨⟨k,spread⟩,next,within,temps,apart,listed,saved⟩ := between
  obtain ⟨sameNext,sameList,sameFull⟩ := same
  refine ⟨spread.step (stepEffect run),by rw [sameNext,next],within,by rwa [sameNext],apart,fun x on => ?_,?_⟩
  · rw [sameList] at on
    obtain ⟨m,t,rfl,held⟩ := listed x on
    exact ⟨m,t,rfl,slotKept spread run safe held⟩
  · rwa [sameFull,sameList]

-- The entry is recorded, and nothing recorded is lost, or a full synchronization is required.
theorem savedEntry {entry : Option Nat} {available : Bool} :
    (∀ x ∈ (saveTempTrampoline layout entry available s).syncList.flatten, x = entry ∨ x ∈ s.syncList.flatten) ∧
    ((saveTempTrampoline layout entry available s).fullSyncRequired = true ∨
      entry ∈ (saveTempTrampoline layout entry available s).syncList.flatten ∧
      (∀ x ∈ s.syncList.flatten, x ∈ (saveTempTrampoline layout entry available s).syncList.flatten) ∧
      (saveTempTrampoline layout entry available s).fullSyncRequired = s.fullSyncRequired) ∧
    (s.fullSyncRequired = true → (saveTempTrampoline layout entry available s).fullSyncRequired = true) ∧
    (saveTempTrampoline layout entry available s).tempTrampolineNext = s.tempTrampolineNext := by
  have free : ∀ blocks blocks' : List (List (Option Nat)), addToFreeBlock layout.syncArraySize entry blocks = some blocks' →
      ∀ x, x ∈ blocks'.flatten ↔ x = entry ∨ x ∈ blocks.flatten := by
    intro blocks
    induction blocks with
    | nil => simp [addToFreeBlock]
    | cons block rest ih =>
      intro blocks' added x
      simp only [addToFreeBlock] at added
      split at added
      · cases added
        simp only [List.flatten_cons,List.mem_append,List.mem_singleton]
        tauto
      · obtain ⟨tail,more,rfl⟩ := Option.map_eq_some_iff.mp added
        simp only [List.flatten_cons,List.mem_append,ih tail more x]
        tauto
  simp only [saveTempTrampoline]
  split
  next there => exact ⟨fun x on => .inr on,.inr ⟨there,fun _ on => on,rfl⟩,id,rfl⟩
  next =>
    split
    next blocks added =>
      have same := free _ _ added
      exact ⟨fun x on => (same x).mp on,.inr ⟨(same entry).mpr (.inl rfl),fun x on => (same x).mpr (.inr on),rfl⟩,id,rfl⟩
    next =>
      split
      · refine ⟨fun x on => by simpa using on,.inr ⟨by simp,fun x on => ?_,rfl⟩,id,rfl⟩
        rw [List.flatten_cons]
        exact List.mem_append_right _ on
      · exact ⟨fun x on => .inr on,.inl rfl,fun _ => rfl,rfl⟩

-- A replacement that has to be synchronized: its slot and its record.
theorem replaceSynced {old newTargetPC : Nat} {available : Bool} {entry : Entry}
    (run : step layout s (.replaceTrampoline method (some old) newTargetPC true available) = some s')
    (found : findResolvedMethod method s = some entry) :
    s'.tempTrampolineNext = (allocateTempTrampoline layout s).2.tempTrampolineNext ∧
    s'.syncList = (saveTempTrampoline layout (some method) available (allocateTempTrampoline layout s).2).syncList ∧
    s'.fullSyncRequired =
      (saveTempTrampoline layout (some method) available (allocateTempTrampoline layout s).2).fullSyncRequired := by
  have name : entry.method = method := (findSome found).2.2
  have next := (@savedEntry layout (allocateTempTrampoline layout s).2 (some method) available).2.2.2
  obtain ⟨⟨r,s'⟩,result,rfl⟩ := Option.map_eq_some_iff.mp run
  simp only [replaceTrampoline,bind,if_true,found,Option.map_some,name] at result
  cases slot : (allocateTempTrampoline layout s).1 with
  | none =>
    simp only [slot,Option.some.injEq,Prod.mk.injEq] at result
    obtain ⟨rfl,rfl⟩ := result
    exact ⟨next,rfl,rfl⟩
  | some t =>
    simp only [slot,Option.bind_some,Option.some.injEq,Prod.mk.injEq] at result
    obtain ⟨rfl,rfl⟩ := result
    exact ⟨next,rfl,rfl⟩

theorem Between.replaced {g : Tracked} {old newTargetPC : Nat} {available : Bool} (between : Between layout s g)
    (run : step layout s (.replaceTrampoline method (some old) newTargetPC true available) = some s')
    (safe : Synchronizable s g (.replaceTrampoline method (some old) newTargetPC true available)) :
    Between layout s' (track layout s g (.replaceTrampoline method (some old) newTargetPC true available)) := by
  obtain ⟨⟨k,spread⟩,next,within,temps,apart,listed,saved⟩ := between
  obtain ⟨entry,found,here⟩ := Option.map_eq_some_iff.mp safe
  obtain ⟨nextAfter,listAfter,fullAfter⟩ := replaceSynced run found
  have held : (method,some old) ∈ slots s := by
    have on := (findSome found).1
    rwa [here] at on
  obtain ⟨only,record,full,-⟩ := @savedEntry layout (allocateTempTrampoline layout s).2 (some method) available
  rw [← listAfter] at only record
  rw [← fullAfter] at record full
  have size := layout.sized
  have top := layout.temps
  have fields : (allocateTempTrampoline layout s).2.syncList = s.syncList ∧
      (allocateTempTrampoline layout s).2.fullSyncRequired = s.fullSyncRequired := by
    simp only [allocateTempTrampoline]
    split <;> exact ⟨rfl,rfl⟩
  rw [fields.1] at only record
  rw [fields.2] at full record
  have pending : (track layout s g (.replaceTrampoline method (some old) newTargetPC true available)).pending =
      method::g.pending := by
    simp [track,found,here]
  have recorded : s'.fullSyncRequired = true ∨ ∀ m ∈ method::g.pending, some m ∈ s'.syncList.flatten := by
    rcases record with yes | ⟨now,kept,-⟩
    · exact .inl yes
    · rcases saved with yes | before
      · exact .inl (full yes)
      · refine .inr fun m on => ?_
        rcases List.mem_cons.mp on with rfl | later
        · exact now
        · exact kept _ (before m later)
  have entries : ∀ x ∈ s'.syncList.flatten, ∃ m t, x = some m ∧ (m,some t) ∈ slots s' := by
    intro x on
    rcases only x on with rfl | before
    · exact ⟨method,old,rfl,slotKept spread run safe held⟩
    · obtain ⟨m,t,rfl,there⟩ := listed x before
      exact ⟨m,t,rfl,slotKept spread run safe there⟩
  by_cases out : layout.tempTrampolineTop ≤ s.tempTrampolineNext
  · have slots : (track layout s g (.replaceTrampoline method (some old) newTargetPC true available)).temps = g.temps := by
      simp [track,allocateTempTrampoline,out]
    have nextSame : s'.tempTrampolineNext = s.tempTrampolineNext := by
      rw [nextAfter]
      simp [allocateTempTrampoline,out]
    refine ⟨spread.step (stepEffect run),?_,?_,?_,?_,entries,by rwa [pending]⟩ <;> rw [slots]
    · rw [nextSame,next]
    · exact within
    · rwa [nextSame]
    · exact apart
  · have slots : (track layout s g (.replaceTrampoline method (some old) newTargetPC true available)).temps =
        (method,s.tempTrampolineNext)::g.temps := by
      simp [track,allocateTempTrampoline,out]
    have nextMore : s'.tempTrampolineNext = s.tempTrampolineNext + layout.trampolineCodeSize := by
      rw [nextAfter]
      simp [allocateTempTrampoline,out]
    have fits : g.temps.length < layout.tempTrampolinesMax := by
      by_contra full
      have reach : layout.trampolineCodeSize * layout.tempTrampolinesMax ≤ layout.trampolineCodeSize * g.temps.length :=
        Nat.mul_le_mul_left _ (by omega)
      omega
    refine ⟨spread.step (stepEffect run),?_,?_,?_,?_,entries,by rwa [pending]⟩ <;> rw [slots]
    · rw [nextMore,List.length_cons,Nat.mul_succ]
      omega
    · exact fits
    · intro x on
      rcases List.mem_cons.mp on with rfl | before
      · show layout.tempTrampolineBase ≤ s.tempTrampolineNext ∧ _
        omega
      · have := temps x before
        omega
    · exact List.pairwise_cons.mpr ⟨fun y on => (temps y on).2,apart⟩

theorem Between.step {g : Tracked} {call : Call} (between : Between layout s g) (run : step layout s call = some s')
    (safe : Synchronizable s g call) : Between layout s' (track layout s g call) := by
  cases call with
  | reserveResolvedTrampoline m available =>
    have same : sameTemps s s' := by
      cases run
      exact reserveTemps
    exact between.quiet run safe same
  | findOrAddResolvedMethod m available =>
    have same : sameTemps s s' := by
      cases run
      exact findOrAddTemps
    exact between.quiet run safe same
  | findTrampoline m pc =>
    have same : sameTemps s s' := by
      obtain ⟨⟨r,s'⟩,result,rfl⟩ := Option.map_eq_some_iff.mp run
      exact findTemps result
    exact between.quiet run safe same
  | replaceTrampoline m old newTargetPC needSync available =>
    cases old with
    | none =>
      have same : sameTemps s s' := by
        obtain ⟨⟨r,s'⟩,result,rfl⟩ := Option.map_eq_some_iff.mp run
        simp only [replaceTrampoline,bind,Option.bind_eq_some_iff,Option.some.injEq,Prod.mk.injEq] at result
        obtain ⟨entry,found,-,rfl⟩ := result
        exact @allocateTemps layout s
      exact between.quiet run safe same
    | some old =>
      cases needSync with
      | true => exact between.replaced run safe
      | false =>
        have same : sameTemps s s' := by
          obtain ⟨⟨r,s'⟩,result,rfl⟩ := Option.map_eq_some_iff.mp run
          simp only [replaceTrampoline,bind,Option.bind_eq_some_iff,Bool.false_eq_true,if_false,Option.some.injEq,
            Prod.mk.injEq] at result
          obtain ⟨entry,found,-,rfl⟩ := result
          exact ⟨rfl,rfl,rfl⟩
        exact between.quiet run safe same
  | syncTempTrampolines pc =>
    obtain ⟨k,spread⟩ := between.spread
    have reset : s'.tempTrampolineNext = layout.tempTrampolineBase ∧ s'.syncList.flatten = [] := by
      have empty : ∀ blocks : List (List (Option Nat)), (blocks.map fun _ => ([] : List (Option Nat))).flatten = [] := by simp
      cases full : s.fullSyncRequired with
      | true =>
        rw [Trampoline.step,syncFull full] at run
        cases run
        exact ⟨rfl,empty _⟩
      | false =>
        obtain ⟨mid,listed,-⟩ := @syncListedCode layout s k pc s.syncList.flatten spread between.listed
        rw [Trampoline.step,syncShort full listed] at run
        cases run
        exact ⟨rfl,empty _⟩
    refine ⟨spread.step (stepEffect run),by simp [track,reset.1],by simp [track],by simp [track],List.Pairwise.nil,?_,
      .inr (by simp [track])⟩
    simp [reset.2]

end

def runTracked (layout : Layout) : State → Tracked → List Call → Option (Tracked × State)
  | s,g,[] => some (g,s)
  | s,g,call::calls => do
      let next ← step layout s call
      runTracked layout next (track layout s g call) calls

def AllSynchronizable (layout : Layout) : State → Tracked → List Call → Prop
  | _,_,[] => True
  | s,g,call::calls => Synchronizable s g call ∧
      ∀ next, step layout s call = some next → AllSynchronizable layout next (track layout s g call) calls

theorem runBetween {layout : Layout} {s s' : State} {g g' : Tracked} {calls : List Call} (between : Between layout s g)
    (run : runTracked layout s g calls = some (g',s')) (safe : AllSynchronizable layout s g calls) : Between layout s' g' := by
  induction calls generalizing s g with
  | nil =>
    cases run
    exact between
  | cons call calls ih =>
    simp only [runTracked,bind,Option.bind_eq_some_iff] at run
    obtain ⟨next,first,later⟩ := run
    exact ih (between.step first safe.1) later (safe.2 next first)

-- In every run whose calls are all synchronizable, for a synchronization at its end.
theorem noStaleTrampoline (layout : Layout) (calls : List Call) (g : Tracked) (s : State)
    (run : runTracked layout (initial layout) ⟨[],[]⟩ calls = some (g,s))
    (safe : AllSynchronizable layout (initial layout) ⟨[],[]⟩ calls) :
    (∀ startPC, Synchronizable s g (.syncTempTrampolines startPC) →
      ∃ s', syncTempTrampolines layout startPC s = some s' ∧ Current startPC g.pending s s') ∧
    ∀ x ∈ g.temps, ∀ y ∈ g.temps, x.1 ≠ y.1 →
      x.2 + layout.trampolineCodeSize ≤ y.2 ∨ y.2 + layout.trampolineCodeSize ≤ x.2 := by
  have between := runBetween betweenInitial run safe
  let Apart (x y : Nat × Nat) : Prop :=
    x.1 ≠ y.1 → x.2 + layout.trampolineCodeSize ≤ y.2 ∨ y.2 + layout.trampolineCodeSize ≤ x.2
  have apart : g.temps.Pairwise Apart := between.apart.imp fun below _ => .inr below
  have flipped : g.temps.Pairwise (flip Apart) := between.apart.imp fun below _ => .inl below
  exact ⟨fun startPC last => between.sync last,
    fun x onX y onY => apart.forall_of_forall_of_flip (fun _ _ differ => absurd rfl differ) flipped onX onY⟩

-- Two methods have trampolines; both are recompiled and replaced.
def staleCalls (available : Bool) : List Call :=
  [.reserveResolvedTrampoline 1 true,.reserveResolvedTrampoline 2 true,.findTrampoline 1 500,.findTrampoline 2 500,
    .replaceTrampoline 1 (some 120) 600 true true,.replaceTrampoline 2 (some 112) 700 true available]

def recompiled (method : Nat) : Nat := if method = 1 then 600 else 700

theorem noStaleTrampolineSample : ∃ g s s', runTracked sampleLayout (initial sampleLayout) ⟨[],[]⟩ (staleCalls true) = some (g,s) ∧
    g.pending = [2,1] ∧ syncTempTrampolines sampleLayout recompiled s = some s' ∧ Current recompiled g.pending s s' := by
  have safe : AllSynchronizable sampleLayout (initial sampleLayout) ⟨[],[]⟩ (staleCalls true) := by
    refine ⟨trivial,fun _ first => ?_⟩
    cases first
    refine ⟨trivial,fun _ second => ?_⟩
    cases second
    refine ⟨trivial,fun _ third => ?_⟩
    cases third
    refine ⟨trivial,fun _ fourth => ?_⟩
    cases fourth
    refine ⟨rfl,fun _ fifth => ?_⟩
    cases fifth
    exact ⟨rfl,fun _ _ => trivial⟩
  have result := (noStaleTrampoline sampleLayout (staleCalls true) _ _ rfl safe).1 recompiled (.inl rfl)
  obtain ⟨s',run,current⟩ := result
  exact ⟨_,_,s',rfl,rfl,run,current⟩

/- No block could be added for the second method, so all entries are scanned; both
already carry their new start PC, and both trampolines keep jumping to the old one. -/
theorem staleTrampoline : ∃ g s s',
    runTracked sampleLayout (initial sampleLayout) ⟨[],[]⟩ (staleCalls false) = some (g,s) ∧ g.pending = [2,1] ∧
    syncTempTrampolines sampleLayout recompiled s = some s' ∧ (1,some 120) ∈ slots s ∧ s'.code 120 = some 500 ∧
    ¬Current recompiled g.pending s s' := by
  refine ⟨_,_,_,rfl,rfl,rfl,?_,rfl,fun current => ?_⟩
  · decide
  · have wrong := current 1 (by decide) 120 (by decide)
    revert wrong
    decide

end OmrCompiler.Trampoline
