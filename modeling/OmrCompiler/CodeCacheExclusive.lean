import Mathlib.Data.List.Nodup
import OmrCompiler.CodeCacheReservation

/-! A code cache is held by one thread at a time, if no thread takes a cache that
another one is about to finish releasing. -/
namespace OmrCompiler.Reservation

-- The caches that a thread has; after the first write of a release it has the old one no more.
def Phase.holds : Phase → List Nat
  | .idle => []
  | .testing old _ => (old.map Call.codeCache).toList
  | .creating old _ => (old.map Call.codeCache).toList
  | .publishing old codeCache => codeCache::(old.map Call.codeCache).toList
  | .holding codeCache => [codeCache]
  | .allocating call => [call.codeCache]
  | .searching call _ => [call.codeCache]
  | .releasing call codeCache => [codeCache,call.codeCache]
  | .finishing _ codeCache => [codeCache]

-- The ID that the thread will write into the next cache it reserves.
def Phase.compThreadID : Phase → Option Int
  | .testing _ compThreadID => some compThreadID
  | .creating _ compThreadID => some compThreadID
  | .searching _ compThreadID => some compThreadID
  | _ => none

-- The cache whose release lacks the second write.
def Phase.released : Phase → Option Nat
  | .finishing call _ => some call.codeCache
  | _ => none

-- The caches that the step looks for.
def scans : Phase → Action → Option (Nat → Bool)
  | .idle,.reserveCodeCache _ suitable => some suitable
  | .searching call _,.resume _ suitable => if 0 < call.allocationRetries then some suitable else none
  | _,_ => none

-- The ID that a thread comes with.
def Action.compThreadID : Action → Option Int
  | .reserveCodeCache compThreadID _ => some compThreadID
  | .getNewCodeCache compThreadID => some compThreadID
  | _ => none

/- Threads come with the IDs that ask for a reservation, and the cache that a scan
finds is not one that another thread has released by half. -/
structure Orderly (s : State) (thread : Nat) (action : Action) : Prop where
  asked : ∀ id, action.compThreadID = some id → -1 ≤ id
  whole : ∀ phase suitable codeCache, s.threads[thread]? = some phase → scans phase action = some suitable →
    scanCacheList suitable s.manager = some codeCache → ∀ other ∈ s.threads, other.released ≠ some codeCache

inductive Reached (config : Config) (s : State) : State → Prop where
  | start : Reached config s s
  | next {thread : Nat} {action : Action} {middle last : State} (before : Reached config s middle) (orderly : Orderly middle thread action)
      (ran : step config thread action middle = some last) : Reached config s last

structure Safe (m : Manager) (phases : List Phase) : Prop where
  once : (phases.flatMap Phase.holds).Nodup
  held : ∀ p ∈ phases, ∀ c ∈ p.holds, m.reserved c = true ∧ -1 ≤ m.reservingCompThreadID c ∧ c < m.created
  ids : ∀ p ∈ phases, ∀ id, p.compThreadID = some id → -1 ≤ id
  released : ∀ p ∈ phases, ∀ c, p.released = some c → c ∉ phases.flatMap Phase.holds ∧ c < m.created
  listed : ∀ c ∈ m.codeCacheList, c < m.created

section
variable {config : Config} {m m' : Manager} {p p' : Phase} {phases phases' : List Phase} {s s' : State} {action : Action}

theorem Safe.perm (safe : Safe m phases) (perm : phases.Perm phases') : Safe m phases' := by
  have held := perm.flatMap_right Phase.holds
  refine ⟨held.nodup_iff.mp safe.once,fun p on => safe.held p (perm.mem_iff.mpr on),fun p on => safe.ids p (perm.mem_iff.mpr on),
    fun p on c same => ?_,safe.listed⟩
  obtain ⟨off,bound⟩ := safe.released p (perm.mem_iff.mpr on) c same
  exact ⟨fun among => off (held.mem_iff.mpr among),bound⟩

-- One thread has moved, and what the others hold is as it was.
theorem Safe.move (safe : Safe m (p::phases)) (once : (p'.holds ++ phases.flatMap Phase.holds).Nodup)
    (held : ∀ c ∈ p'.holds, m'.reserved c = true ∧ -1 ≤ m'.reservingCompThreadID c ∧ c < m'.created)
    (frame : ∀ c ∈ phases.flatMap Phase.holds, m'.reserved c = m.reserved c ∧ m'.reservingCompThreadID c = m.reservingCompThreadID c)
    (created : m.created ≤ m'.created) (ids : ∀ id, p'.compThreadID = some id → -1 ≤ id)
    (released : ∀ c, p'.released = some c → c ∉ p'.holds ++ phases.flatMap Phase.holds ∧ c < m'.created)
    (apart : ∀ q ∈ phases, ∀ c, q.released = some c → c ∉ p'.holds) (listed : ∀ c ∈ m'.codeCacheList, c < m'.created) :
    Safe m' (p'::phases) := by
  refine ⟨by rwa [List.flatMap_cons],fun q on c has => ?_,fun q on => ?_,fun q on c same => ?_,listed⟩
  · rcases List.mem_cons.mp on with rfl | other
    · exact held c has
    · obtain ⟨reserved,id,bound⟩ := safe.held q (List.mem_cons_of_mem _ other) c has
      obtain ⟨sameReserved,sameId⟩ := frame c (List.mem_flatMap.mpr ⟨q,other,has⟩)
      rw [sameReserved,sameId]
      exact ⟨reserved,id,Nat.lt_of_lt_of_le bound created⟩
  · rcases List.mem_cons.mp on with rfl | other
    · exact ids
    · exact safe.ids q (List.mem_cons_of_mem _ other)
  · rw [List.flatMap_cons]
    rcases List.mem_cons.mp on with rfl | other
    · exact released c same
    · obtain ⟨off,bound⟩ := safe.released q (List.mem_cons_of_mem _ other) c same
      refine ⟨fun among => ?_,Nat.lt_of_lt_of_le bound created⟩
      rcases List.mem_append.mp among with mine | theirs
      · exact apart q other c same mine
      · exact off (by rw [List.flatMap_cons]; exact List.mem_append_right _ theirs)

theorem Safe.onceParts (safe : Safe m (p::phases)) : p.holds.Nodup ∧ (phases.flatMap Phase.holds).Nodup ∧
    ∀ c ∈ p.holds, c ∉ phases.flatMap Phase.holds := by
  have once := safe.once
  rw [List.flatMap_cons,List.nodup_append] at once
  exact ⟨once.1,once.2.1,fun c has among => once.2.2 c has c among rfl⟩

theorem Safe.others (safe : Safe m (p::phases)) {q : Phase} {c : Nat} (on : q ∈ phases) (same : q.released = some c) : c ∉ p.holds := by
  intro has
  refine (safe.released q (List.mem_cons_of_mem _ on) c same).1 ?_
  rw [List.flatMap_cons]
  exact List.mem_append_left _ has

-- The thread has gone on with some of its caches.
theorem Safe.less (safe : Safe m (p::phases)) (fewer : p'.holds.Sublist p.holds) (list : ∀ c ∈ m'.codeCacheList, c < m.created)
    (same : m'.reserved = m.reserved ∧ m'.reservingCompThreadID = m.reservingCompThreadID ∧ m'.created = m.created)
    (ids : ∀ id, p'.compThreadID = some id → -1 ≤ id) (whole : p'.released = none) : Safe m' (p'::phases) := by
  obtain ⟨own,rest,apart⟩ := safe.onceParts
  obtain ⟨reserved,id,created⟩ := same
  refine safe.move ?_ (fun c has => ?_) (fun c _ => ⟨by rw [reserved],by rw [id]⟩) (Nat.le_of_eq created.symm) ids (by simp [whole])
    (fun q on c same has => safe.others on same (fewer.mem has)) (by rw [created]; exact list)
  · refine List.nodup_append.mpr ⟨fewer.nodup own,rest,fun c has d among equal => ?_⟩
    subst equal
    exact apart c (fewer.mem has) among
  · rw [reserved,id,created]
    exact safe.held p List.mem_cons_self c (fewer.mem has)

-- The thread has reserved one more cache, which nobody had.
theorem Safe.take {c : Nat} {id : Int} (safe : Safe m (p::phases)) (free : m.reserved c = false) (bound : c < m.created) (asked : -1 ≤ id)
    (whole : ∀ q ∈ phases, q.released ≠ some c) (holds : p'.holds = c::p.holds) (ids : ∀ id, p'.compThreadID = some id → -1 ≤ id)
    (own : p'.released = none) : Safe (reserve c id m) (p'::phases) := by
  obtain ⟨mine,rest,apart⟩ := safe.onceParts
  have unheld : ∀ q ∈ p::phases, c ∉ q.holds := by
    intro q on has
    have reserved := (safe.held q on c has).1
    rw [free] at reserved
    cases reserved
  have off : c ∉ phases.flatMap Phase.holds := by
    intro among
    obtain ⟨q,on,has⟩ := List.mem_flatMap.mp among
    exact unheld q (List.mem_cons_of_mem _ on) has
  have other : ∀ d, d ≠ c → (reserve c id m).reserved d = m.reserved d ∧ (reserve c id m).reservingCompThreadID d = m.reservingCompThreadID d :=
    fun d differ => ⟨if_neg differ,if_neg differ⟩
  refine safe.move ?_ (fun d has => ?_) (fun d among => other d fun equal => off (equal ▸ among)) (Nat.le_refl _) ids (by simp [own])
    (fun q on d same has => ?_) safe.listed
  · rw [holds,List.cons_append,List.nodup_cons]
    refine ⟨fun among => ?_,List.nodup_append.mpr ⟨mine,rest,fun d has e among equal => apart d has (equal ▸ among)⟩⟩
    rcases List.mem_append.mp among with own | theirs
    · exact unheld p List.mem_cons_self own
    · exact off theirs
  · rw [holds] at has
    rcases List.mem_cons.mp has with rfl | old
    · exact ⟨if_pos rfl,by simpa [reserve] using asked,bound⟩
    · have differ : d ≠ c := fun equal => unheld p List.mem_cons_self (equal ▸ old)
      rw [(other d differ).1,(other d differ).2]
      exact safe.held p List.mem_cons_self d old
  · rw [holds] at has
    rcases List.mem_cons.mp has with rfl | old
    · exact whole q on same
    · exact safe.others on same old

-- The thread has changed fields of a cache that it alone had, and has it no more.
theorem Safe.drop {c : Nat} (safe : Safe m (p::phases)) (mine : c ∉ phases.flatMap Phase.holds) (fewer : p'.holds.Sublist p.holds)
    (given : c ∉ p'.holds) (same : ∀ d, d ≠ c → m'.reserved d = m.reserved d ∧ m'.reservingCompThreadID d = m.reservingCompThreadID d)
    (list : m'.codeCacheList = m.codeCacheList) (created : m'.created = m.created) (ids : ∀ id, p'.compThreadID = some id → -1 ≤ id)
    (half : ∀ d, p'.released = some d → d = c ∧ c < m.created) : Safe m' (p'::phases) := by
  obtain ⟨own,rest,apart⟩ := safe.onceParts
  refine safe.move ?_ (fun d has => ?_) (fun d among => same d fun equal => mine (equal ▸ among)) (Nat.le_of_eq created.symm) ids
    (fun d released => ?_) (fun q on d released has => safe.others on released (fewer.mem has)) ?_
  · refine List.nodup_append.mpr ⟨fewer.nodup own,rest,fun d has e among equal => ?_⟩
    subst equal
    exact apart d (fewer.mem has) among
  · have differ : d ≠ c := fun equal => given (equal ▸ has)
    rw [(same d differ).1,(same d differ).2,created]
    exact safe.held p List.mem_cons_self d (fewer.mem has)
  · obtain ⟨rfl,bound⟩ := half d released
    refine ⟨fun among => ?_,created ▸ bound⟩
    rcases List.mem_append.mp among with its | theirs
    · exact given its
    · exact mine theirs
  · rw [list,created]
    exact safe.listed

end

def sampleConfig : Config := ⟨true,3⟩

def sampleState : State := ⟨startUp sampleConfig 2 fun _ => true,List.replicate 3 .idle⟩

end OmrCompiler.Reservation
