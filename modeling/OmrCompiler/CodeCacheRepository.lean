import Mathlib.Algebra.Ring.Int.Defs
import Mathlib.Algebra.BigOperators.Group.List.Basic
import OmrCompiler.CodeCacheRun

/-! The repository that code caches are carved from, and the free space that its
manager publishes. -/
namespace OmrCompiler.Repository

structure Config where
  cache : CodeCache.Config
  trampolineCodeSize : Nat
  numRuntimeHelpers : Nat
  codeCacheTrampolineAlignmentBytes : Nat
  codeCacheHelperAlignmentMask : Nat
  ccPreLoadedCodeSize : Nat
  needsMethodTrampolines : Bool
  trampolineSpacePercentage : Nat
  codeCachePadKB : Nat
  -- the temporary trampolines that the code generator wants in a cache of a size
  tempTrampolines : Nat → Nat

def sizeofPointer : Nat := 8

-- x & ~mask
def clear (mask x : Nat) : Nat := x - (x &&& mask)

-- The memory of a code cache: carved, but not initialized; in use; given up, though nobody got it back.
inductive Stage where
  | pending
  | ready (s : CodeCache.State)
  | lost

structure Segment where
  base : Nat
  top : Nat
  stage : Stage

-- published is _coldCodeAlloc - _warmCodeAlloc of the repository code cache.
structure Manager where
  segmentBase : Nat
  segmentAlloc : Nat
  segmentTop : Nat
  published : Int
  carved : List Segment

def allocateCodeCacheRepository (base top : Nat) : Manager :=
  ⟨base,base + sizeofPointer,top,top - (base + sizeofPointer : Nat),[]⟩

def carveCodeCacheSpaceFromRepository (config : Config) (segmentSize : Nat) (m : Manager) : Manager :=
  let wanted := max segmentSize (config.codeCachePadKB * 2 ^ 10)
  let size := if m.segmentAlloc - m.segmentBase = sizeofPointer then (wanted + 2 ^ 64 - sizeofPointer) % 2 ^ 64 else wanted
  if size ≤ m.segmentTop - m.segmentAlloc then
    { m with segmentAlloc := m.segmentAlloc + size, carved := m.carved ++ [⟨m.segmentAlloc,m.segmentAlloc + size,.pending⟩] }
  else m

def helperBase (config : Config) (top : Nat) : Nat :=
  clear config.codeCacheTrampolineAlignmentBytes (top - config.trampolineCodeSize * config.numRuntimeHelpers)

def trampolineBase (config : Config) (base top : Nat) : Nat :=
  if config.trampolineCodeSize = 0 then top
  else
    let helper := helperBase config top
    if config.needsMethodTrampolines then helper - (helper - base) * config.trampolineSpacePercentage / 100 else helper

def tempTrampolineBase (config : Config) (base top : Nat) : Nat :=
  helperBase config top - config.trampolineCodeSize * (if config.needsMethodTrampolines then config.tempTrampolines (top - base) else 0)

def warmCodeStart (config : Config) (base : Nat) : Nat := config.cache.up (base + sizeofPointer)

def coldCodeStart (config : Config) (base top : Nat) : Nat :=
  clear config.codeCacheHelperAlignmentMask (trampolineBase config base top) - config.ccPreLoadedCodeSize

-- available: there is memory for the tables of the cache.
def initializeFails (config : Config) (base top : Nat) (available : Bool) : Bool :=
  !available || config.trampolineCodeSize != 0 && config.needsMethodTrampolines &&
    decide (tempTrampolineBase config base top ≤ trampolineBase config base top)

-- What initialize takes from the free space; without trampolines it returns before that.
def spaceLost (config : Config) (base top : Nat) : Nat :=
  if config.trampolineCodeSize = 0 then 0 else (warmCodeStart config base - base) + (top - trampolineBase config base top)

def emptyCache (config : Config) (base top : Nat) : CodeCache.State :=
  ⟨⟨warmCodeStart config base,coldCodeStart config base top,[],0,0,fun _ => 0⟩,[]⟩

-- Nothing happens if somebody has carved on top of the segment.
def undoCarvingFromRepository (which : Nat) (segment : Segment) (m : Manager) : Manager :=
  let size := segment.top - segment.base
  if m.segmentAlloc = segment.base + size then
    { m with segmentAlloc := m.segmentAlloc - size, carved := m.carved.eraseIdx which }
  else { m with carved := m.carved.set which { segment with stage := .lost } }

-- The change of the free space that a call on a code cache reports.
def spent (config : CodeCache.Config) (s : CodeCache.State) : CodeCache.Op → Int
  | .allocate request => ((CodeCache.allocateCodeMemory config request s.cache).map fun r => r.2.2).getD 0
  | .trim which actualSizeInBytes =>
      match s.live[which]? with
      | some ⟨b,true⟩ => (CodeCache.trimCodeMemoryAllocation config b.start actualSizeInBytes s.cache).2.2
      | _ => 0
  | .free _ => 0

inductive Op where
  | carve (segmentSize : Nat)
  | initialization (which : Nat) (available : Bool)
  | use (which : Nat) (op : CodeCache.Op)

def step (config : Config) (m : Manager) : Op → Option Manager
  | .carve segmentSize => some (carveCodeCacheSpaceFromRepository config segmentSize m)
  | .initialization which available =>
      match m.carved[which]? with
      | some ⟨base,top,.pending⟩ =>
          if initializeFails config base top available then some (undoCarvingFromRepository which ⟨base,top,.pending⟩ m)
          else
            some { m with
              published := m.published - spaceLost config base top
              carved := m.carved.set which ⟨base,top,.ready (emptyCache config base top)⟩ }
      | _ => some m
  | .use which op =>
      match m.carved[which]? with
      | some ⟨base,top,.ready s⟩ => (CodeCache.step config.cache s op).map fun s' =>
          { m with
            published := m.published + spent config.cache s op
            carved := m.carved.set which ⟨base,top,.ready s'⟩ }
      | _ => some m

section
variable {config : CodeCache.Config} {c c' : CodeCache.Cache} {s s' : CodeCache.State} {size : Nat} {header isFreeBlock : Bool}

theorem addFreeBlock2Ends (start stop : Nat) (c : CodeCache.Cache) :
    (CodeCache.addFreeBlock2 config start stop c).2.warmCodeAlloc = c.warmCodeAlloc ∧
    (CodeCache.addFreeBlock2 config start stop c).2.coldCodeAlloc = c.coldCodeAlloc := by
  unfold CodeCache.addFreeBlock2
  by_cases small : stop ≤ config.up start + CodeCache.sizeofFreeCacheBlock
  · rw [if_pos small]
    exact ⟨rfl,rfl⟩
  · simp only [if_neg small]
    have fields := @CodeCache.updateMaxFields config (CodeCache.insertBlock c (config.up start) stop c.freeBlockList).1
      { c with freeBlockList := (CodeCache.insertBlock c (config.up start) stop c.freeBlockList).2 }
    exact ⟨fields.1,fields.2.1⟩

theorem trimSpent (address actualSizeInBytes : Nat) (c : CodeCache.Cache) :
    let r := CodeCache.trimCodeMemoryAllocation config address actualSizeInBytes c
    (r.2.1.coldCodeAlloc - r.2.1.warmCodeAlloc : Int) = c.coldCodeAlloc - c.warmCodeAlloc + r.2.2 := by
  intro r
  unfold r CodeCache.trimCodeMemoryAllocation
  by_cases empty : actualSizeInBytes = 0
  · simp [empty]
  · rw [if_neg empty]
    by_cases same : c.recorded address ≤ config.up (actualSizeInBytes + CodeCache.sizeofMethodHeader)
    · simp only [if_pos same]
      omega
    · simp only [if_neg same]
      by_cases last : address + c.recorded address = c.warmCodeAlloc
      · simp only [if_pos last,CodeCache.setHeaderSize]
        omega
      · simp only [if_neg last]
        split
        · obtain ⟨warm,cold⟩ := @addFreeBlock2Ends config (address + config.up (actualSizeInBytes + CodeCache.sizeofMethodHeader))
            (address + c.recorded address) c
          simp only [CodeCache.setHeaderSize,warm,cold]
          omega
        · simp

-- What a call reports is how far the ends of the heap have moved.
theorem spentExact {op : CodeCache.Op} (layout : CodeCache.Layout config s.cache s.live) (ran : CodeCache.step config s op = some s') :
    (s'.cache.coldCodeAlloc - s'.cache.warmCodeAlloc : Int) = s.cache.coldCodeAlloc - s.cache.warmCodeAlloc + spent config s op := by
  cases op with
  | allocate request =>
      rcases CodeCache.allocateLayout request layout with refused | ⟨warm,cold,c',given,granted,-,-,-,moved⟩
      · simp only [CodeCache.step,refused,Option.map_some] at ran
        cases ran
        simp [spent,refused]
      · simp only [CodeCache.step,granted,Option.map_some] at ran
        cases ran
        simpa [spent,granted] using moved
  | trim which actualSizeInBytes =>
      cases found : s.live[which]? with
      | none =>
          simp only [CodeCache.step,found] at ran
          cases ran
          simp [spent,found]
      | some l =>
          obtain ⟨b,headed⟩ := l
          cases headed with
          | false =>
              simp only [CodeCache.step,found] at ran
              cases ran
              simp [spent,found]
          | true =>
              simp only [CodeCache.step,found] at ran
              cases ran
              simp only [spent,found]
              exact trimSpent b.start actualSizeInBytes s.cache
  | free which =>
      cases found : s.live[which]? with
      | none =>
          simp only [CodeCache.step,found] at ran
          cases ran
          simp [spent]
      | some l =>
          simp only [CodeCache.step,found] at ran
          cases ran
          obtain ⟨warm,cold⟩ := @addFreeBlock2Ends config l.block.start l.block.stop s.cache
          simp [spent,warm,cold]

end

-- The space of a segment that counts as free.
def Segment.free (x : Segment) : Int :=
  match x.stage with
  | .pending => x.top - x.base
  | .ready s => s.cache.coldCodeAlloc - s.cache.warmCodeAlloc
  | .lost => 0

-- No byte is in both segments.
def Apart (x y : Segment) : Prop := ∀ n, ¬(x.base ≤ n ∧ n < x.top ∧ y.base ≤ n ∧ n < y.top)

/- Carved segments are disjoint and inside the repository; the published free
space is what is not carved or not yet initialized and what is free in the caches. -/
structure Accounted (m : Manager) : Prop where
  inside : ∀ x ∈ m.carved, m.segmentBase ≤ x.base ∧ x.base ≤ x.top ∧ x.top ≤ m.segmentTop
  disjoint : m.carved.Pairwise Apart
  space : m.published = (m.segmentTop - m.segmentAlloc : Int) + (m.carved.map Segment.free).sum

/- The step accounts for all the space: a cache is initialized with trampolines,
and its cold code starts right below them; a failed initialization is undone. -/
def Exact (config : Config) (m : Manager) : Op → Prop
  | .carve _ => True
  | .initialization which available => ∀ base top, m.carved[which]? = some ⟨base,top,.pending⟩ →
      if initializeFails config base top available then m.segmentAlloc = top
      else config.trampolineCodeSize ≠ 0 ∧ config.ccPreLoadedCodeSize = 0 ∧
        trampolineBase config base top &&& config.codeCacheHelperAlignmentMask = 0 ∧
        warmCodeStart config base ≤ trampolineBase config base top
  | .use _ _ => True

inductive Reached (config : Config) (m : Manager) : Manager → Prop where
  | start : Reached config m m
  | next {op : Op} {middle last : Manager} (before : Reached config m middle) (exact : Exact config middle op)
      (ran : step config middle op = some last) : Reached config m last

structure Kept (config : Config) (m : Manager) : Prop where
  accounted : Accounted m
  base : m.segmentBase ≤ m.segmentAlloc
  top : m.segmentAlloc ≤ m.segmentTop
  below : ∀ x ∈ m.carved, x.top ≤ m.segmentAlloc ∨ x.base = x.top
  caches : ∀ x ∈ m.carved, ∀ s, x.stage = .ready s → CodeCache.Layout config.cache s.cache s.live

section
variable {config : Config} {m m' : Manager} {x y : Segment} {which : Nat}

theorem Apart.symm (apart : Apart x y) : Apart y x := fun n both => apart n ⟨both.2.2.1,both.2.2.2,both.1,both.2.1⟩

theorem Kept.perm {carved : List Segment} (kept : Kept config m) (perm : m.carved.Perm carved) : Kept config { m with carved := carved } := by
  refine ⟨⟨fun x on => kept.accounted.inside x (perm.mem_iff.mpr on),(perm.pairwise_iff fun apart => apart.symm).mp kept.accounted.disjoint,?_⟩,
    kept.base,kept.top,fun x on => kept.below x (perm.mem_iff.mpr on),fun x on => kept.caches x (perm.mem_iff.mpr on)⟩
  rw [kept.accounted.space]
  simp only
  rw [(perm.map Segment.free).sum_eq]

-- A segment has a new stage; the published space changes as its free space does.
theorem Kept.restage (y : Segment) (kept : Kept config m) (found : m.carved[which]? = some x) (base : y.base = x.base) (top : y.top = x.top)
    (layout : ∀ s, y.stage = .ready s → CodeCache.Layout config.cache s.cache s.live) (published : Int)
    (space : published = m.published + y.free - x.free) : Kept config { m with published := published, carved := m.carved.set which y } := by
  obtain ⟨bound,equal⟩ := List.getElem?_eq_some_iff.mp found
  have front := kept.perm (List.getElem_cons_eraseIdx_perm bound).symm
  rw [equal] at front
  obtain ⟨⟨inside,disjoint,total⟩,low,high,below,caches⟩ := front
  simp only [List.map_cons,List.sum_cons] at total
  have moved : Kept config { m with published := published, carved := y::m.carved.eraseIdx which } := by
    refine ⟨⟨fun z on => ?_,?_,?_⟩,low,high,fun z on => ?_,fun z on => ?_⟩
    · rcases List.mem_cons.mp on with rfl | old
      · rw [base,top]
        exact inside x List.mem_cons_self
      · exact inside z (List.mem_cons_of_mem _ old)
    · rw [List.pairwise_cons] at disjoint
      refine List.pairwise_cons.mpr ⟨fun z on => ?_,disjoint.2⟩
      have apart := disjoint.1 z on
      unfold Apart at *
      rw [base,top]
      exact apart
    · simp only [List.map_cons,List.sum_cons]
      omega
    · rcases List.mem_cons.mp on with rfl | old
      · rw [base,top]
        exact below x List.mem_cons_self
      · exact below z (List.mem_cons_of_mem _ old)
    · rcases List.mem_cons.mp on with rfl | old
      · exact layout
      · exact caches z (List.mem_cons_of_mem _ old)
  exact moved.perm (List.set_perm_cons_eraseIdx bound y).symm

theorem clearLe (mask n : Nat) : clear mask n ≤ n := Nat.sub_le _ _

theorem trampolineBaseLe (base top : Nat) : trampolineBase config base top ≤ top := by
  have helper : helperBase config top ≤ top := Nat.le_trans (clearLe _ _) (Nat.sub_le _ _)
  unfold trampolineBase
  split
  · exact Nat.le_refl _
  · split
    · exact Nat.le_trans (Nat.sub_le _ _) helper
    · exact helper

theorem carveKept (segmentSize : Nat) (kept : Kept config m) : Kept config (carveCodeCacheSpaceFromRepository config segmentSize m) := by
  obtain ⟨⟨inside,disjoint,space⟩,low,high,below,caches⟩ := kept
  unfold carveCodeCacheSpaceFromRepository
  simp only
  generalize (if m.segmentAlloc - m.segmentBase = sizeofPointer then
    (max segmentSize (config.codeCachePadKB * 2 ^ 10) + 2 ^ 64 - sizeofPointer) % 2 ^ 64 else max segmentSize (config.codeCachePadKB * 2 ^ 10)) = size
  by_cases fits : size ≤ m.segmentTop - m.segmentAlloc
  · rw [if_pos fits]
    refine ⟨⟨fun x on => ?_,?_,?_⟩,?_,?_,fun x on => ?_,fun x on s ready => ?_⟩
    · rcases List.mem_append.mp on with old | new
      · exact inside x old
      · rw [List.mem_singleton.mp new]
        simp only
        omega
    · refine List.pairwise_append.mpr ⟨disjoint,List.pairwise_singleton _ _,fun x on y new n both => ?_⟩
      rw [List.mem_singleton.mp new] at both
      have under := below x on
      simp only at both
      omega
    · simp only [List.map_append,List.map_cons,List.map_nil,List.sum_append,List.sum_cons,List.sum_nil,Segment.free]
      omega
    · simp only
      omega
    · simp only
      omega
    · rcases List.mem_append.mp on with old | new
      · have under := below x old
        simp only
        omega
      · rw [List.mem_singleton.mp new]
        exact .inl (Nat.le_refl _)
    · rcases List.mem_append.mp on with old | new
      · exact caches x old s ready
      · rw [List.mem_singleton.mp new] at ready
        cases ready
  · rw [if_neg fits]
    exact ⟨⟨inside,disjoint,space⟩,low,high,below,caches⟩

theorem undoKept {base top : Nat} (kept : Kept config m) (found : m.carved[which]? = some ⟨base,top,.pending⟩) (last : m.segmentAlloc = top) :
    Kept config (undoCarvingFromRepository which ⟨base,top,.pending⟩ m) := by
  obtain ⟨bound,equal⟩ := List.getElem?_eq_some_iff.mp found
  have front := kept.perm (List.getElem_cons_eraseIdx_perm bound).symm
  rw [equal] at front
  obtain ⟨⟨inside,disjoint,total⟩,-,high,below,caches⟩ := front
  simp only [List.map_cons,List.sum_cons,Segment.free] at total
  have bounds := inside _ List.mem_cons_self
  simp only at bounds high
  rw [List.pairwise_cons] at disjoint
  unfold undoCarvingFromRepository
  rw [if_pos (show m.segmentAlloc = base + (top - base) by omega)]
  refine ⟨⟨fun x on => inside x (List.mem_cons_of_mem _ on),disjoint.2,?_⟩,?_,?_,fun x on => ?_,fun x on => caches x (List.mem_cons_of_mem _ on)⟩
  · simp only
    omega
  · simp only
    omega
  · simp only
    omega
  · by_cases empty : x.base = x.top
    · exact .inr empty
    · left
      have order := inside x (List.mem_cons_of_mem _ on)
      have under := below x (List.mem_cons_of_mem _ on)
      have apart := disjoint.1 x on (max base x.base)
      simp only at *
      omega

theorem spaceExact {base top : Nat} (trampolines : config.trampolineCodeSize ≠ 0) (plain : config.ccPreLoadedCodeSize = 0)
    (aligned : trampolineBase config base top &&& config.codeCacheHelperAlignmentMask = 0) :
    coldCodeStart config base top = trampolineBase config base top ∧
    spaceLost config base top = (warmCodeStart config base - base) + (top - trampolineBase config base top) := by
  unfold coldCodeStart spaceLost clear
  rw [aligned,plain,if_neg trampolines]
  exact ⟨rfl,rfl⟩

theorem emptyInitial {base top : Nat} (room : warmCodeStart config base ≤ coldCodeStart config base top) :
    CodeCache.Initial config.cache (emptyCache config base top) :=
  ⟨room,CodeCache.upMultiple _,rfl,rfl,rfl,rfl⟩

theorem stepKept {op : Op} (kept : Kept config m) (exact : Exact config m op) : ∃ m', step config m op = some m' ∧ Kept config m' := by
  cases op with
  | carve segmentSize => exact ⟨_,rfl,carveKept segmentSize kept⟩
  | initialization which available =>
      cases found : m.carved[which]? with
      | none => exact ⟨m,by simp [step,found],kept⟩
      | some x =>
          obtain ⟨base,top,stage⟩ := x
          cases stage with
          | ready s => exact ⟨m,by simp [step,found],kept⟩
          | lost => exact ⟨m,by simp [step,found],kept⟩
          | pending =>
              have condition := exact base top found
              simp only [step,found]
              by_cases fails : initializeFails config base top available = true
              · rw [if_pos fails] at condition
                rw [if_pos fails]
                exact ⟨_,rfl,undoKept kept found condition⟩
              · rw [if_neg fails] at condition
                rw [if_neg fails]
                obtain ⟨trampolines,plain,aligned,room⟩ := condition
                obtain ⟨cold,lost⟩ := spaceExact trampolines plain aligned
                refine ⟨_,rfl,kept.restage ⟨base,top,.ready (emptyCache config base top)⟩ found rfl rfl ?_ _ ?_⟩
                · intro s ready
                  cases ready
                  exact CodeCache.initialLayout (emptyInitial (by rw [cold]; exact room))
                · have above : base ≤ warmCodeStart config base := by
                    have up := @CodeCache.leUp config.cache (base + sizeofPointer)
                    unfold warmCodeStart
                    omega
                  have under := @trampolineBaseLe config base top
                  simp only [Segment.free,emptyCache,cold,lost]
                  omega
  | use which op =>
      cases found : m.carved[which]? with
      | none => exact ⟨m,by simp [step,found],kept⟩
      | some x =>
          obtain ⟨base,top,stage⟩ := x
          cases stage with
          | pending => exact ⟨m,by simp [step,found],kept⟩
          | lost => exact ⟨m,by simp [step,found],kept⟩
          | ready s =>
              have layout := kept.caches _ (List.mem_of_getElem? found) s rfl
              obtain ⟨s',ran,layout'⟩ := CodeCache.stepLayout layout op
              have moved := spentExact layout ran
              simp only [step,found,ran,Option.map_some]
              refine ⟨_,rfl,kept.restage ⟨base,top,.ready s'⟩ found rfl rfl ?_ _ ?_⟩
              · intro last ready
                cases ready
                exact layout'
              · simp only [Segment.free]
                omega

theorem initialKept {base top : Nat} (room : base + sizeofPointer ≤ top) : Kept config (allocateCodeCacheRepository base top) := by
  refine ⟨⟨by simp [allocateCodeCacheRepository],List.Pairwise.nil,?_⟩,Nat.le_add_right _ _,room,by simp [allocateCodeCacheRepository],
    by simp [allocateCodeCacheRepository]⟩
  simp [allocateCodeCacheRepository]

theorem reachedKept (kept : Kept config m) (reached : Reached config m m') : Kept config m' := by
  induction reached with
  | start => exact kept
  | next before exact ran ih =>
      obtain ⟨result,same,kept'⟩ := stepKept ih exact
      rw [ran] at same
      cases same
      exact kept'

/- The published free space is exact in every state that a run reaches whose
steps account for all the space. -/
theorem repositorySpaceAccounted {base top : Nat} (room : base + sizeofPointer ≤ top)
    (reached : Reached config (allocateCodeCacheRepository base top) m) : Accounted m :=
  (reachedKept (initialKept room) reached).accounted

end

def sampleConfig (trampolineCodeSize : Nat) : Config := ⟨CodeCache.sampleConfig,trampolineCodeSize,4,8,31,0,false,0,0,fun _ => 0⟩

def sampleManager : Manager := allocateCodeCacheRepository (2 ^ 20) (2 ^ 21)

theorem repositorySpaceAccountedSample : ∃ m, step (sampleConfig 16) (carveCodeCacheSpaceFromRepository (sampleConfig 16) (2 ^ 16) sampleManager)
    (.initialization 0 true) = some m ∧ m.published = 2 ^ 20 - 96 ∧ Accounted m := by
  have first : Reached (sampleConfig 16) sampleManager (carveCodeCacheSpaceFromRepository (sampleConfig 16) (2 ^ 16) sampleManager) :=
    @Reached.next _ _ (.carve (2 ^ 16)) _ _ .start trivial rfl
  refine ⟨_,rfl,by decide,?_⟩
  refine repositorySpaceAccounted (by decide) (@Reached.next _ _ (.initialization 0 true) _ _ first ?_ rfl)
  intro base top found
  cases found
  decide

-- Without trampolines nothing is taken from the published space.
theorem spaceOverheadPublished : ∃ m, step (sampleConfig 0) (carveCodeCacheSpaceFromRepository (sampleConfig 0) (2 ^ 16) sampleManager)
    (.initialization 0 true) = some m ∧ m.published = 2 ^ 20 - 8 ∧
    (m.segmentTop - m.segmentAlloc : Int) + (m.carved.map Segment.free).sum = 2 ^ 20 - 32 ∧ ¬Accounted m := by
  refine ⟨_,rfl,by decide,by decide,fun accounted => ?_⟩
  have space := accounted.space
  revert space
  decide

end OmrCompiler.Repository
