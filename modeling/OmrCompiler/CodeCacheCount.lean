import OmrCompiler.CodeCacheReservation

/-! The number of code caches and its limit. -/
namespace OmrCompiler.Reservation

-- The thread has passed the test of the limit, and its cache is not counted yet.
def Phase.growing : Phase → Bool
  | .creating _ _ => true
  | .publishing _ _ => true
  | _ => false

def growing (s : State) : Nat := s.threads.countP Phase.growing

/- A thread that passes the test of the limit leaves room for the caches that
other threads are creating. -/
def Roomy (config : Config) (s : State) (thread : Nat) (action : Action) : Prop :=
  ∀ old compThreadID success suitable, s.threads[thread]? = some (.testing old compThreadID) → action = .resume success suitable →
    canAddNewCodeCache config s.manager = true → s.manager.curNumberOfCodeCaches + growing s < config.maxNumberOfCodeCaches

inductive Grown (config : Config) (s : State) : State → Prop where
  | start : Grown config s s
  | next {thread : Nat} {action : Action} {middle last : State} (before : Grown config s middle) (roomy : Roomy config middle thread action)
      (ran : step config thread action middle = some last) : Grown config s last

structure Counted (config : Config) (s : State) : Prop where
  exact : s.manager.codeCacheList.length = s.manager.curNumberOfCodeCaches
  limit : s.manager.codeCacheList.length ≤ config.maxNumberOfCodeCaches

section
variable {config : Config} {m m' : Manager} {p p' : Phase} {s s' : State} {action : Action}

-- What a step does to the count and to the caches that are being created.
theorem advancesCounted (moved : Advances config action p m p' m') (exact : m.codeCacheList.length = m.curNumberOfCodeCaches) :
    m'.codeCacheList.length = m'.curNumberOfCodeCaches ∧
    (m'.curNumberOfCodeCaches + (if p'.growing then 1 else 0) ≤ m.curNumberOfCodeCaches + (if p.growing then 1 else 0) ∨
      (∃ old compThreadID success suitable, p = .testing old compThreadID ∧ action = .resume success suitable) ∧
        canAddNewCodeCache config m = true ∧ m'.curNumberOfCodeCaches = m.curNumberOfCodeCaches) := by
  cases moved with
  | @passed _ old compThreadID success suitable room => exact ⟨exact,.inr ⟨⟨old,compThreadID,success,suitable,rfl,rfl⟩,room,rfl⟩⟩
  | @refused _ old => cases old <;> exact ⟨exact,.inl (by simp [giveUp,Phase.growing])⟩
  | @failed _ old => cases old <;> exact ⟨exact,.inl (by simp [giveUp,Phase.growing])⟩
  | @made _ old compThreadID =>
      unfold createCodeCache
      simp only
      split <;> exact ⟨exact,.inl (Nat.le_refl _)⟩
  | added => exact ⟨by simp [addCodeCache,exact],.inl (by simp [addCodeCache,Phase.growing])⟩
  | switched => exact ⟨by simp [addCodeCache,exact],.inl (by simp [addCodeCache,Phase.growing])⟩
  | _ => exact ⟨exact,.inl (by simp [Phase.growing,reserve,unreserve,clearReserved,clearReservingCompThreadID])⟩

theorem stepCounted {thread : Nat} (exact : s.manager.codeCacheList.length = s.manager.curNumberOfCodeCaches)
    (limit : s.manager.curNumberOfCodeCaches + growing s ≤ config.maxNumberOfCodeCaches) (roomy : Roomy config s thread action)
    (ran : step config thread action s = some s') :
    s'.manager.codeCacheList.length = s'.manager.curNumberOfCodeCaches ∧
      s'.manager.curNumberOfCodeCaches + growing s' ≤ config.maxNumberOfCodeCaches := by
  obtain ⟨phase,phase',m,found,moved,rfl⟩ := stepSound ran
  obtain ⟨bound,equal⟩ := List.getElem?_eq_some_iff.mp found
  obtain ⟨exact',change⟩ := advancesCounted moved exact
  have before : growing s = (s.threads.eraseIdx thread).countP Phase.growing + if phase.growing then 1 else 0 := by
    unfold growing
    rw [← (List.getElem_cons_eraseIdx_perm bound).countP_eq Phase.growing,List.countP_cons,equal]
  have after : growing ⟨m,s.threads.set thread phase'⟩ = (s.threads.eraseIdx thread).countP Phase.growing + if phase'.growing then 1 else 0 := by
    unfold growing
    rw [(List.set_perm_cons_eraseIdx bound phase').countP_eq Phase.growing,List.countP_cons]
  refine ⟨exact',?_⟩
  rw [after]
  simp only
  rcases change with less | ⟨⟨old,compThreadID,success,suitable,rfl,rfl⟩,room,same⟩
  · omega
  · have free := roomy old compThreadID success suitable found rfl room
    have one : (if phase'.growing then 1 else 0) ≤ 1 := by
      split <;> omega
    omega

theorem grownCounted (exact : s.manager.codeCacheList.length = s.manager.curNumberOfCodeCaches)
    (limit : s.manager.curNumberOfCodeCaches + growing s ≤ config.maxNumberOfCodeCaches) (grown : Grown config s s') :
    s'.manager.codeCacheList.length = s'.manager.curNumberOfCodeCaches ∧
      s'.manager.curNumberOfCodeCaches + growing s' ≤ config.maxNumberOfCodeCaches := by
  induction grown with
  | start => exact ⟨exact,limit⟩
  | next before roomy ran ih => exact stepCounted ih.1 ih.2 roomy ran

theorem startUpLength (made : Nat → Bool) (l : List Nat) (m : Manager) :
    (l.foldl (createAtStartUp made) m).codeCacheList.length = m.codeCacheList.length + l.countP made := by
  induction l generalizing m with
  | nil => simp
  | cons i l ih =>
      rw [List.foldl_cons,ih,List.countP_cons]
      unfold createAtStartUp
      by_cases ok : made i = true
      · simp only [if_pos ok,addCodeCache,createCodeCache,List.length_cons]
        split <;> simp only [reserve,unreserve,clearReserved,clearReservingCompThreadID] <;> omega
      · simp only [if_neg ok]
        omega

/- The manager's count is the length of its list and within the limit in every
state that a run reaches, if the start-up creates all its caches and the threads
leave room for each other. -/
theorem codeCachesCounted {n threads : Nat} {made : Nat → Bool} (all : ∀ i < min config.maxNumberOfCodeCaches n, made i = true)
    (grown : Grown config ⟨startUp config n made,List.replicate threads .idle⟩ s) : Counted config s := by
  have length : (startUp config n made).codeCacheList.length = min config.maxNumberOfCodeCaches n := by
    have counted := startUpLength made (List.range (min config.maxNumberOfCodeCaches n)) ⟨[],0,fun _ => false,fun _ => -2,0⟩
    rw [List.countP_eq_length.mpr fun i on => all i (List.mem_range.mp on),List.length_range] at counted
    exact counted.trans (Nat.zero_add _)
  have idle : growing ⟨startUp config n made,List.replicate threads .idle⟩ = 0 := by
    simp [growing,List.countP_replicate,Phase.growing]
  obtain ⟨exact,limit⟩ := @grownCounted config _ _ length (by rw [idle]; exact Nat.min_le_left _ _) grown
  exact ⟨exact,by omega⟩

end

def limitConfig : Config := ⟨true,2⟩

def limitState : State := ⟨startUp limitConfig 1 fun _ => true,List.replicate 2 .idle⟩

theorem codeCachesCountedSample : ∃ s, step limitConfig 0 (.getNewCodeCache 0) limitState = some s ∧ s.manager.codeCacheList = [0] ∧
    Counted limitConfig s := by
  have roomy : Roomy limitConfig limitState 0 (.getNewCodeCache 0) := fun old compThreadID success suitable found asked => by cases asked
  exact ⟨_,rfl,rfl,codeCachesCounted (fun _ _ => rfl) (.next .start roomy rfl)⟩

-- Two threads pass the test before one of them has added its cache.
theorem limitExceeded : ∃ s, run limitConfig [(0,.getNewCodeCache 0),(1,.getNewCodeCache 1),(0,.resume true fun _ => true),
      (1,.resume true fun _ => true),(0,.resume true fun _ => true),(1,.resume true fun _ => true),(0,.resume true fun _ => true),
      (1,.resume true fun _ => true)] limitState = some s ∧ s.manager.codeCacheList = [2,1,0] ∧ ¬Counted limitConfig s := by
  refine ⟨_,rfl,rfl,fun counted => ?_⟩
  have limit := counted.limit
  revert limit
  decide

end OmrCompiler.Reservation
