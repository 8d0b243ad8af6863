import Mathlib.Data.List.Perm.Basic

/-! The code caches of a manager and the compilation threads that reserve them. A
step of a thread is a critical section on the list of caches or a single write;
what the threads see of the fullness and the sizes of the caches is up to the
action that takes the step. -/
namespace OmrCompiler.Reservation

structure Config where
  allowedToGrowCache : Bool
  maxNumberOfCodeCaches : Nat

/- The list of the code caches (the newest first), their number as the manager
counts it, and the fields of each cache. created is the next cache to be made. -/
structure Manager where
  codeCacheList : List Nat
  curNumberOfCodeCaches : Nat
  reserved : Nat → Bool
  reservingCompThreadID : Nat → Int
  created : Nat

-- A call of allocateCodeMemoryWithRetries: the cache in *codeCache_pp and the parameters.
structure Call where
  codeCache : Nat
  allocationRetries : Int
  needsToBeContiguous : Bool
  deriving DecidableEq, Repr

/- Where a thread is. A new cache is wanted by reserveCodeCache or getNewCodeCache
(none), or by an allocation that keeps its old cache until it has the new one. -/
inductive Phase where
  | idle
  | testing (old : Option Call) (compThreadID : Int)
  | creating (old : Option Call) (compThreadID : Int)
  | publishing (old : Option Call) (codeCache : Nat)
  | holding (codeCache : Nat)
  | allocating (call : Call)
  | searching (call : Call) (compThreadID : Int)
  | releasing (call : Call) (codeCache : Nat)
  | finishing (call : Call) (codeCache : Nat)
  deriving DecidableEq, Repr

inductive Action where
  | reserveCodeCache (compThreadID : Int) (suitable : Nat → Bool)
  | getNewCodeCache (compThreadID : Int)
  | allocateCodeMemory (allocationRetries : Int) (needsToBeContiguous : Bool)
  | unreserveCodeCache
  -- the next step of a call: whether memory is found, and which caches would do
  | resume (success : Bool) (suitable : Nat → Bool)

def reserve (codeCache : Nat) (compThreadID : Int) (m : Manager) : Manager :=
  { m with
    reserved := fun c => if c = codeCache then true else m.reserved c
    reservingCompThreadID := fun c => if c = codeCache then compThreadID else m.reservingCompThreadID c }

-- The two writes of unreserve.
def clearReserved (codeCache : Nat) (m : Manager) : Manager :=
  { m with reserved := fun c => if c = codeCache then false else m.reserved c }

def clearReservingCompThreadID (codeCache : Nat) (m : Manager) : Manager :=
  { m with reservingCompThreadID := fun c => if c = codeCache then -2 else m.reservingCompThreadID c }

def unreserve (codeCache : Nat) (m : Manager) : Manager := clearReservingCompThreadID codeCache (clearReserved codeCache m)

def scanCacheList (suitable : Nat → Bool) (m : Manager) : Option Nat := m.codeCacheList.find? fun c => !m.reserved c && suitable c

def canAddNewCodeCache (config : Config) (m : Manager) : Bool :=
  config.allowedToGrowCache && decide (m.curNumberOfCodeCaches < config.maxNumberOfCodeCaches)

-- allocateCodeCacheFromNewSegment, before it adds the cache to the list.
def createCodeCache (compThreadID : Int) (m : Manager) : Nat × Manager :=
  let codeCache := m.created
  let m := unreserve codeCache { m with created := m.created + 1 }
  (codeCache,if -1 ≤ compThreadID then reserve codeCache compThreadID m else m)

def addCodeCache (codeCache : Nat) (m : Manager) : Manager :=
  { m with codeCacheList := codeCache::m.codeCacheList, curNumberOfCodeCaches := m.curNumberOfCodeCaches + 1 }

-- No new cache: the thread has what it had.
def giveUp : Option Call → Phase
  | none => .idle
  | some call => .holding call.codeCache

def advance (config : Config) (action : Action) (phase : Phase) (m : Manager) : Option (Phase × Manager) :=
  match phase,action with
  | .idle,.reserveCodeCache compThreadID suitable =>
      match scanCacheList suitable m with
      | some codeCache => some (.holding codeCache,reserve codeCache compThreadID m)
      | none => some (.testing none compThreadID,m)
  | .idle,.getNewCodeCache compThreadID => some (.testing none compThreadID,m)
  | .testing old compThreadID,.resume _ _ =>
      some (if canAddNewCodeCache config m then .creating old compThreadID else giveUp old,m)
  | .creating old compThreadID,.resume success _ =>
      if success then
        let (codeCache,m) := createCodeCache compThreadID m
        some (.publishing old codeCache,m)
      else some (giveUp old,m)
  | .publishing old codeCache,.resume _ _ =>
      some (match old with
        | none => .holding codeCache
        | some call => .releasing call codeCache,addCodeCache codeCache m)
  | .holding codeCache,.unreserveCodeCache => some (.idle,unreserve codeCache m)
  | .holding codeCache,.allocateCodeMemory allocationRetries needsToBeContiguous =>
      some (.allocating ⟨codeCache,allocationRetries,needsToBeContiguous⟩,m)
  | .allocating call,.resume success _ =>
      if call.allocationRetries < 0 ∨ success = true then some (.holding call.codeCache,m)
      else
        some (.searching { call with allocationRetries := call.allocationRetries - 1 } (m.reservingCompThreadID call.codeCache),m)
  | .searching call compThreadID,.resume _ suitable =>
      if 0 < call.allocationRetries then
        match scanCacheList suitable m with
        | some codeCache => some (.releasing call codeCache,reserve codeCache compThreadID m)
        | none => some (.testing (some call) compThreadID,m)
      else some (.testing (some call) compThreadID,m)
  | .releasing call codeCache,.resume _ _ => some (.finishing call codeCache,clearReserved call.codeCache m)
  | .finishing call codeCache,.resume _ _ =>
      some (if call.needsToBeContiguous then .holding codeCache else .allocating { call with codeCache := codeCache },
        clearReservingCompThreadID call.codeCache m)
  | _,_ => none

structure State where
  manager : Manager
  threads : List Phase

def step (config : Config) (thread : Nat) (action : Action) (s : State) : Option State := do
  let phase ← s.threads[thread]?
  let (phase,m) ← advance config action phase s.manager
  some ⟨m,s.threads.set thread phase⟩

def run (config : Config) (schedule : List (Nat × Action)) (s : State) : Option State :=
  schedule.foldlM (fun s a => step config a.1 a.2 s) s

def createAtStartUp (made : Nat → Bool) (m : Manager) (i : Nat) : Manager :=
  if made i then
    let (codeCache,m) := createCodeCache (-2) m
    addCodeCache codeCache m
  else m

/- The caches that initialize creates; made says which creations succeed. The
count is overwritten at the end. -/
def startUp (config : Config) (numberOfCodeCachesToCreateAtStartup : Nat) (made : Nat → Bool) : Manager :=
  let cachesCreatedOnInit := min config.maxNumberOfCodeCaches numberOfCodeCachesToCreateAtStartup
  let m := (List.range cachesCreatedOnInit).foldl (createAtStartUp made) ⟨[],0,fun _ => false,fun _ => -2,0⟩
  { m with curNumberOfCodeCaches := cachesCreatedOnInit }

-- Everything that a thread can do.
inductive Advances (config : Config) : Action → Phase → Manager → Phase → Manager → Prop where
  | found {m : Manager} {compThreadID : Int} {suitable : Nat → Bool} {codeCache : Nat} (scan : scanCacheList suitable m = some codeCache) :
      Advances config (.reserveCodeCache compThreadID suitable) .idle m (.holding codeCache) (reserve codeCache compThreadID m)
  | missed {m : Manager} {compThreadID : Int} {suitable : Nat → Bool} :
      Advances config (.reserveCodeCache compThreadID suitable) .idle m (.testing none compThreadID) m
  | wanted {m : Manager} {compThreadID : Int} : Advances config (.getNewCodeCache compThreadID) .idle m (.testing none compThreadID) m
  | passed {m : Manager} {old : Option Call} {compThreadID : Int} {success : Bool} {suitable : Nat → Bool}
      (room : canAddNewCodeCache config m = true) :
      Advances config (.resume success suitable) (.testing old compThreadID) m (.creating old compThreadID) m
  | refused {m : Manager} {old : Option Call} {compThreadID : Int} {success : Bool} {suitable : Nat → Bool} :
      Advances config (.resume success suitable) (.testing old compThreadID) m (giveUp old) m
  | made {m : Manager} {old : Option Call} {compThreadID : Int} {success : Bool} {suitable : Nat → Bool} :
      Advances config (.resume success suitable) (.creating old compThreadID) m (.publishing old m.created) (createCodeCache compThreadID m).2
  | failed {m : Manager} {old : Option Call} {compThreadID : Int} {success : Bool} {suitable : Nat → Bool} :
      Advances config (.resume success suitable) (.creating old compThreadID) m (giveUp old) m
  | added {m : Manager} {codeCache : Nat} {success : Bool} {suitable : Nat → Bool} :
      Advances config (.resume success suitable) (.publishing none codeCache) m (.holding codeCache) (addCodeCache codeCache m)
  | switched {m : Manager} {call : Call} {codeCache : Nat} {success : Bool} {suitable : Nat → Bool} :
      Advances config (.resume success suitable) (.publishing (some call) codeCache) m (.releasing call codeCache) (addCodeCache codeCache m)
  | unreserved {m : Manager} {codeCache : Nat} : Advances config .unreserveCodeCache (.holding codeCache) m .idle (unreserve codeCache m)
  | called {m : Manager} {codeCache : Nat} {allocationRetries : Int} {needsToBeContiguous : Bool} :
      Advances config (.allocateCodeMemory allocationRetries needsToBeContiguous) (.holding codeCache) m
        (.allocating ⟨codeCache,allocationRetries,needsToBeContiguous⟩) m
  | returned {m : Manager} {call : Call} {success : Bool} {suitable : Nat → Bool} :
      Advances config (.resume success suitable) (.allocating call) m (.holding call.codeCache) m
  | full {m : Manager} {call : Call} {success : Bool} {suitable : Nat → Bool} (retries : 0 ≤ call.allocationRetries) :
      Advances config (.resume success suitable) (.allocating call) m
        (.searching { call with allocationRetries := call.allocationRetries - 1 } (m.reservingCompThreadID call.codeCache)) m
  | another {m : Manager} {call : Call} {compThreadID : Int} {success : Bool} {suitable : Nat → Bool} {codeCache : Nat}
      (retries : 0 < call.allocationRetries) (scan : scanCacheList suitable m = some codeCache) :
      Advances config (.resume success suitable) (.searching call compThreadID) m (.releasing call codeCache) (reserve codeCache compThreadID m)
  | exhausted {m : Manager} {call : Call} {compThreadID : Int} {success : Bool} {suitable : Nat → Bool} :
      Advances config (.resume success suitable) (.searching call compThreadID) m (.testing (some call) compThreadID) m
  | released {m : Manager} {call : Call} {codeCache : Nat} {success : Bool} {suitable : Nat → Bool} :
      Advances config (.resume success suitable) (.releasing call codeCache) m (.finishing call codeCache) (clearReserved call.codeCache m)
  | stopped {m : Manager} {call : Call} {codeCache : Nat} {success : Bool} {suitable : Nat → Bool} :
      Advances config (.resume success suitable) (.finishing call codeCache) m (.holding codeCache) (clearReservingCompThreadID call.codeCache m)
  | retried {m : Manager} {call : Call} {codeCache : Nat} {success : Bool} {suitable : Nat → Bool} :
      Advances config (.resume success suitable) (.finishing call codeCache) m (.allocating { call with codeCache := codeCache })
        (clearReservingCompThreadID call.codeCache m)

theorem advanceSound {config : Config} {action : Action} {phase phase' : Phase} {m m' : Manager}
    (ran : advance config action phase m = some (phase',m')) : Advances config action phase m phase' m' := by
  cases phase with
  | idle =>
      cases action <;> simp only [advance] at ran <;> try contradiction
      · split at ran <;> cases ran
        · exact .found ‹_›
        · exact .missed
      · cases ran
        exact .wanted
  | testing old compThreadID =>
      cases action <;> simp only [advance] at ran <;> try contradiction
      split at ran <;> cases ran
      · exact .passed ‹_›
      · exact .refused
  | creating old compThreadID =>
      cases action <;> simp only [advance] at ran <;> try contradiction
      split at ran <;> cases ran
      · exact .made
      · exact .failed
  | publishing old codeCache =>
      cases action <;> simp only [advance] at ran <;> try contradiction
      cases old <;> cases ran
      · exact .added
      · exact .switched
  | holding codeCache =>
      cases action <;> simp only [advance] at ran <;> try contradiction
      · cases ran
        exact .called
      · cases ran
        exact .unreserved
  | allocating call =>
      cases action <;> simp only [advance] at ran <;> try contradiction
      split at ran <;> cases ran
      · exact .returned
      · exact .full (by omega)
  | searching call compThreadID =>
      cases action <;> simp only [advance] at ran <;> try contradiction
      split at ran
      · split at ran <;> cases ran
        · exact .another ‹_› ‹_›
        · exact .exhausted
      · cases ran
        exact .exhausted
  | releasing call codeCache =>
      cases action <;> simp only [advance] at ran <;> try contradiction
      cases ran
      exact .released
  | finishing call codeCache =>
      cases action <;> simp only [advance] at ran <;> try contradiction
      split at ran <;> cases ran
      · exact .stopped
      · exact .retried

theorem stepSound {config : Config} {thread : Nat} {action : Action} {s s' : State} (ran : step config thread action s = some s') :
    ∃ phase phase' m, s.threads[thread]? = some phase ∧ Advances config action phase s.manager phase' m ∧ s' = ⟨m,s.threads.set thread phase'⟩ := by
  obtain ⟨phase,found,rest⟩ := Option.bind_eq_some_iff.mp ran
  obtain ⟨⟨phase',m⟩,moved,last⟩ := Option.bind_eq_some_iff.mp rest
  cases last
  exact ⟨phase,phase',m,found,advanceSound moved,rfl⟩

end OmrCompiler.Reservation
