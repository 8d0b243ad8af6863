import OmrCompiler.RegionMemory

/-! Who holds which segment: the blocks stand apart, the regions own chains of them,
and a segment may be linked to a region or come loose again. -/
namespace OmrCompiler.RegionMemory

theorem maskSixteen (x : BitVec 64) : x &&& ~~~15#64 = (x >>> 4) <<< 4 := by
  have mask : ∀ i < 64, (~~~15#64).getLsbD i = decide (4 ≤ i) := by decide
  apply BitVec.eq_of_getLsbD_eq
  intro i inside
  rw [BitVec.getLsbD_and,mask i inside,BitVec.getLsbD_shiftLeft,BitVec.getLsbD_ushiftRight]
  by_cases low : i < 4
  · simp [low,Nat.not_le.mpr low]
  · have high : 4 ≤ i := Nat.le_of_not_lt low
    simp [low,high,inside,Nat.add_sub_cancel' high]

theorem roundUp {bytes : Nat} (fits : bytes + 15 < word) : round bytes = (bytes + 15) / 16 * 16 := by
  have number : word = 2 ^ 64 := rfl
  rw [round,maskSixteen,BitVec.toNat_shiftLeft,BitVec.toNat_ushiftRight,BitVec.toNat_add,BitVec.toNat_ofNat,Nat.shiftLeft_eq,
    Nat.shiftRight_eq_div_pow]
  have small : bytes % 2 ^ 64 = bytes := by omega
  have sum : (bytes + (15#64).toNat) % 2 ^ 64 = bytes + 15 := by
    have value : (15#64).toNat = 15 := rfl
    omega
  rw [small,sum]
  omega

theorem roundEnough {bytes : Nat} (fits : bytes + 15 < word) : bytes ≤ round bytes ∧ 16 ∣ round bytes := by
  rw [roundUp fits]
  refine ⟨by omega,Nat.dvd_mul_left 16 _⟩

theorem adjustedEnough {unit required : Nat} (positive : 0 < unit) (fits : required + (unit - 1) < word) :
    required ≤ adjustedSize unit required ∧ (0 < required → 0 < adjustedSize unit required) := by
  have div := Nat.div_add_mod (required + (unit - 1)) unit
  have rest := Nat.mod_lt (required + (unit - 1)) positive
  rw [Nat.mul_comm] at div
  have small : (required + (unit - 1)) / unit * unit < word := by omega
  rw [adjustedSize,Nat.mod_eq_of_lt fits,Nat.mod_eq_of_lt small]
  omega

section Blocks
variable {heap : Nat → MemorySegment} {regions segments : List Nat} {bound d : Nat} {s : MemorySegment}

def blockOf (s : MemorySegment) : Block := ⟨s.base,s.size⟩

-- The segments of the regions and of the provider stand apart in memory.
structure Blocks (heap : Nat → MemorySegment) (regions segments : List Nat) (bound : Nat) : Prop where
  nodup : (regions ++ segments).Nodup
  known : ∀ d ∈ regions ++ segments, d < bound
  off : ∀ d ∈ regions ++ segments, ∀ e ∈ regions ++ segments, d ≠ e → (blockOf (heap d)).Off (blockOf (heap e))
  inside : ∀ d ∈ regions ++ segments, 0 < (heap d).base ∧ (heap d).base + (heap d).size ≤ word
  used : ∀ d ∈ regions ++ segments, (heap d).allocated ≤ (heap d).size ∧ 16 ∣ (heap d).allocated
  positive : ∀ d ∈ segments, 0 < (heap d).size

theorem Block.Off.symm {x y : Block} (off : x.Off y) : y.Off x := Or.symm off

theorem Blocks.touch (h : Blocks heap regions segments bound) (same : blockOf s = blockOf (heap d))
    (used : d ∈ regions ++ segments → s.allocated ≤ s.size ∧ 16 ∣ s.allocated) :
    Blocks (Function.update heap d s) regions segments bound := by
  have block : ∀ e, blockOf (Function.update heap d s e) = blockOf (heap e) := fun e => by
    by_cases here : e = d
    · rw [here,Function.update_self,same]
    · rw [Function.update_of_ne here]
  have base : ∀ e, (Function.update heap d s e).base = (heap e).base := fun e => congrArg Block.base (block e)
  have size : ∀ e, (Function.update heap d s e).size = (heap e).size := fun e => congrArg Block.size (block e)
  refine ⟨h.nodup,h.known,fun e on f on' apart => ?_,fun e on => ?_,fun e on => ?_,fun e on => ?_⟩
  · rw [block,block]
    exact h.off e on f on' apart
  · rw [base,size]
    exact h.inside e on
  · by_cases here : e = d
    · rw [here,Function.update_self]
      exact used (here ▸ on)
    · rw [Function.update_of_ne here]
      exact h.used e on
  · rw [size]
    exact h.positive e on

theorem Blocks.less (h : Blocks heap regions segments bound) {regions' segments' : List Nat} (sub : regions'.Sublist regions)
    (sub' : segments'.Sublist segments) : Blocks heap regions' segments' bound := by
  have all := (sub.append sub').subset
  exact ⟨h.nodup.sublist (sub.append sub'),fun d on => h.known d (all on),fun d on e on' => h.off d (all on) e (all on'),
    fun d on => h.inside d (all on),fun d on => h.used d (all on),fun d on => h.positive d (sub'.subset on)⟩

-- A block of its own under a new descriptor.
theorem Blocks.added (h : Blocks heap regions segments bound) {regions' segments' : List Nat}
    (perm : (regions' ++ segments').Perm (bound :: (regions ++ segments))) (new : s.allocated = 0)
    (place : 0 < s.base ∧ s.base + s.size ≤ word) (free : ∀ d ∈ regions ++ segments, (blockOf s).Off (blockOf (heap d)))
    (positive : ∀ d ∈ segments', d = bound ∧ 0 < s.size ∨ d ∈ segments) :
    Blocks (Function.update heap bound s) regions' segments' (bound + 1) := by
  have old : ∀ d ∈ regions ++ segments, Function.update heap bound s d = heap d := fun d on =>
    Function.update_of_ne (Nat.ne_of_lt (h.known d on)) s heap
  have cases' : ∀ d ∈ regions' ++ segments', d = bound ∨ d ∈ regions ++ segments := fun d on => List.mem_cons.mp (perm.subset on)
  refine ⟨?_,fun d on => ?_,fun d on e on' apart => ?_,fun d on => ?_,fun d on => ?_,fun d on => ?_⟩
  · rw [perm.nodup_iff,List.nodup_cons]
    exact ⟨fun on => Nat.lt_irrefl _ (h.known bound on),h.nodup⟩
  · rcases cases' d on with rfl | was
    · exact Nat.lt_succ_self d
    · exact Nat.lt_succ_of_lt (h.known d was)
  · rcases cases' d on with rfl | was <;> rcases cases' e on' with rfl | was'
    · exact absurd rfl apart
    · rw [Function.update_self,old e was']
      exact free e was'
    · rw [Function.update_self,old d was]
      exact (free d was).symm
    · rw [old d was,old e was']
      exact h.off d was e was' apart
  · rcases cases' d on with rfl | was
    · rw [Function.update_self]
      exact place
    · rw [old d was]
      exact h.inside d was
  · rcases cases' d on with rfl | was
    · rw [Function.update_self,new]
      exact ⟨Nat.zero_le _,Nat.dvd_zero 16⟩
    · rw [old d was]
      exact h.used d was
  · rcases positive d on with ⟨rfl,wide⟩ | was
    · rw [Function.update_self]
      exact wide
    · rw [old d (List.mem_append_right _ was)]
      exact h.positive d was

end Blocks

section Chains

-- From a segment along the links to the region's first one.
def Chain (next : Nat → Nat) (r : Nat) : Nat → List Nat → Prop
  | d,[] => d = r
  | d,x::rest => d = x ∧ x ≠ r ∧ Chain next r (next x) rest

theorem Chain.congr {next next' : Nat → Nat} {r d : Nat} {list : List Nat} (chain : Chain next r d list)
    (same : ∀ x ∈ list, next' x = next x) : Chain next' r d list := by
  induction list generalizing d with
  | nil => exact chain
  | cons x rest ih =>
      refine ⟨chain.1,chain.2.1,?_⟩
      rw [same x List.mem_cons_self]
      exact ih chain.2.2 fun y on => same y (List.mem_cons_of_mem _ on)

theorem Chain.walk {w : World} {r d fuel : Nat} {list : List Nat} (chain : Chain (fun d => (w.heap d).next) r d list)
    (enough : list.length < fuel) : walk w r fuel d = list := by
  induction list generalizing d fuel with
  | nil =>
      cases fuel with
      | zero => rfl
      | succ fuel => exact if_pos chain
  | cons x rest ih =>
      cases fuel with
      | zero => exact absurd enough (Nat.not_lt_zero _)
      | succ fuel =>
          obtain ⟨rfl,away,later⟩ := chain
          rw [RegionMemory.walk,if_neg away,ih later (Nat.lt_of_succ_lt_succ enough)]

theorem flatMapUpdate {regions : List Nat} (nodup : regions.Nodup) {r : Nat} (on : r ∈ regions) (own : Nat → List Nat) (list : List Nat) :
    (regions.flatMap (Function.update own r list)).Perm (list ++ (regions.erase r).flatMap own) := by
  have first := (List.perm_cons_erase on).flatMap_right (Function.update own r list)
  rw [List.flatMap_cons,Function.update_self] at first
  have rest : (regions.erase r).flatMap (Function.update own r list) = (regions.erase r).flatMap own := by
    apply List.flatMap_congr
    intro e on'
    exact Function.update_of_ne (fun here => nodup.not_mem_erase (here ▸ on')) _ _
  rwa [rest] at first

theorem flatMapErase {regions : List Nat} {r : Nat} (on : r ∈ regions) (own : Nat → List Nat) :
    (regions.flatMap own).Perm (own r ++ (regions.erase r).flatMap own) := by
  have first := (List.perm_cons_erase on).flatMap_right own
  rwa [List.flatMap_cons] at first

end Chains

section Holding
variable {w : World} {own : Nat → List Nat} {loose : List Nat} {r d size : Nat}

def World.next (w : World) (d : Nat) : Nat := (w.heap d).next

def SegmentApart (a b : Allocation) : Prop :=
  a.segment = b.segment → a.offset + round a.size ≤ b.offset ∨ b.offset + round b.size ≤ a.offset

/- Each region owns a chain of segments, the pool holds others, and the loose ones are
on their way between them. -/
structure Held (w : World) (own : Nat → List Nat) (loose : List Nat) : Prop where
  blocks : Blocks w.heap w.regions w.segments w.nextDescriptor
  chain : ∀ r ∈ w.regions, Chain w.next r (w.region r).currentSegment (own r)
  parts : (w.regions.flatMap own ++ w.segmentStack ++ loose).Perm w.segments
  pooled : ∀ d ∈ w.segmentStack, w.size d = w.defaultSegmentSize
  stored : w.storedSegments = w.segmentStack.length ∧ w.segmentStack.length ≤ w.poolSize
  bytes : w.currentBytesAllocated = (w.segments.map w.size).sum % word
  room : 0 < w.defaultSegmentSize
  live : ∀ a ∈ w.live, a.region ∈ w.regions ∧ (a.segment = a.region ∨ a.segment ∈ own a.region) ∧
    a.offset + round a.size ≤ (w.heap a.segment).allocated ∧ a.size + 15 < word
  apart : w.live.Pairwise SegmentApart
  gone : w.poolGone = true → w.regions = [] ∧ w.segmentStack = []

theorem Held.ownedSegment (h : Held w own loose) (on : r ∈ w.regions) (mine : d ∈ own r) : d ∈ w.segments :=
  h.parts.subset (List.mem_append_left _ (List.mem_append_left _ (List.mem_flatMap.mpr ⟨r,on,mine⟩)))

theorem Held.current (h : Held w own loose) (on : r ∈ w.regions) :
    (w.region r).currentSegment = r ∨ (w.region r).currentSegment ∈ own r := by
  have chain := h.chain r on
  cases list : own r with
  | nil =>
      rw [list] at chain
      exact .inl chain
  | cons x rest =>
      rw [list] at chain
      exact .inr (chain.1 ▸ List.mem_cons_self)

theorem Held.mine (h : Held w own loose) (on : r ∈ w.regions) (mine : d = r ∨ d ∈ own r) : d ∈ w.regions ++ w.segments := by
  rcases mine with rfl | inside
  · exact List.mem_append_left _ on
  · exact List.mem_append_right _ (h.ownedSegment on inside)

-- A segment that is not a region's is neither its first nor in its chain.
theorem Held.notMine (h : Held w own loose) (away : d ∈ w.segmentStack ∨ d ∈ loose) (on : r ∈ w.regions) : d ≠ r ∧ d ∉ own r := by
  have listed : d ∈ w.segmentStack ++ loose := List.mem_append.mpr away
  have segment : d ∈ w.segments := h.parts.subset (by rw [List.append_assoc]; exact List.mem_append_right _ listed)
  have nodup := h.blocks.nodup
  have each := (h.parts.nodup_iff.mpr nodup.of_append_right)
  rw [List.append_assoc] at each
  refine ⟨fun here => (List.disjoint_of_nodup_append nodup) (here ▸ on) segment,fun inside => ?_⟩
  exact (List.disjoint_of_nodup_append each) (List.mem_flatMap.mpr ⟨r,on,inside⟩) listed

theorem Held.bump (h : Held w own loose) (on : r ∈ w.regions) (small : size + 15 < word)
    (fits : (w.heap (w.region r).currentSegment).allocated + round size ≤ w.size (w.region r).currentSegment) :
    Held (allocateHere r size w) own loose := by
  set c := (w.region r).currentSegment with isC
  have mine := h.mine on (h.current on)
  have place := h.blocks.inside c mine
  have used := h.blocks.used c mine
  have total : ((w.heap c).allocated + round size) % word = (w.heap c).allocated + round size := by
    apply Nat.mod_eq_of_lt
    unfold World.size at fits
    omega
  have heap : (allocateHere r size w).heap = Function.update w.heap c { w.heap c with allocated := (w.heap c).allocated + round size } := by
    simp only [allocateHere,World.set,MemorySegment.allocate,← isC,total]
  have sized : ∀ e, (allocateHere r size w).size e = w.size e := fun e => by
    by_cases here : e = c <;> simp [World.size,heap,here]
  have next : ∀ e, (allocateHere r size w).next e = w.next e := fun e => by
    by_cases here : e = c <;> simp [World.next,heap,here]
  have currents : ∀ e, ((allocateHere r size w).region e).currentSegment = (w.region e).currentSegment := fun e => by
    by_cases here : e = r <;> simp [allocateHere,here]
  have more : ∀ e, (w.heap e).allocated ≤ ((allocateHere r size w).heap e).allocated := fun e => by
    by_cases here : e = c <;> simp [heap,here]
  refine ⟨?_,fun e on' => ?_,h.parts,fun e on' => (sized e).trans (h.pooled e on'),h.stored,?_,h.room,fun a on' => ?_,?_,h.gone⟩
  · rw [heap]
    exact h.blocks.touch rfl fun _ => ⟨fits,Nat.dvd_add used.2 (roundEnough small).2⟩
  · rw [currents]
    exact (h.chain e on').congr fun x _ => next x
  · change w.currentBytesAllocated = (w.segments.map _).sum % word
    rw [List.map_congr_left fun e _ => sized e]
    exact h.bytes
  · rcases List.mem_cons.mp on' with rfl | was
    · refine ⟨on,h.current on,?_,small⟩
      have grown : ((allocateHere r size w).heap c).allocated = (w.heap c).allocated + round size := by simp [heap]
      exact Nat.le_of_eq grown.symm
    · obtain ⟨region,segment,below,small'⟩ := h.live a was
      exact ⟨region,segment,Nat.le_trans below (more a.segment),small'⟩
  · refine List.pairwise_cons.mpr ⟨fun a was same => .inr ?_,h.apart⟩
    have below := (h.live a was).2.2.1
    rw [← same] at below
    exact below

-- A loose segment goes to the front of a region's chain.
theorem Held.link (h : Held w own (d::loose)) (on : r ∈ w.regions) :
    Held (linkSegment r d w) (Function.update own r (d::own r)) loose := by
  have away := h.notMine (.inr List.mem_cons_self) on
  have heap : (linkSegment r d w).heap = Function.update w.heap d ((w.heap d).link (w.region r).currentSegment) := rfl
  have sized : ∀ e, (linkSegment r d w).size e = w.size e := fun e => by
    by_cases here : e = d <;> simp [World.size,heap,here,MemorySegment.link]
  have next : ∀ {e}, e ≠ d → (linkSegment r d w).next e = w.next e := fun here => by simp [World.next,heap,here]
  have used : ∀ e, ((linkSegment r d w).heap e).allocated = (w.heap e).allocated := fun e => by
    by_cases here : e = d <;> simp [heap,here,MemorySegment.link]
  have regions := h.blocks.nodup.of_append_left
  refine ⟨h.blocks.touch rfl fun on' => h.blocks.used d on',fun e on' => ?_,?_,fun e on' => (sized e).trans (h.pooled e on'),h.stored,?_,h.room,
    fun a on' => ?_,h.apart,fun gone => h.gone gone⟩
  · by_cases here : e = r
    · subst here
      rw [Function.update_self]
      have started : ((linkSegment e d w).region e).currentSegment = d := by simp [linkSegment]
      have follows : (linkSegment e d w).next d = (w.region e).currentSegment := by simp [World.next,heap,MemorySegment.link]
      rw [started]
      refine ⟨rfl,away.1,?_⟩
      rw [follows]
      exact (h.chain e on).congr fun x inside => next fun same => away.2 (same ▸ inside)
    · have other := h.notMine (.inr List.mem_cons_self) on'
      have started : ((linkSegment r d w).region e).currentSegment = (w.region e).currentSegment := by simp [linkSegment,here]
      rw [Function.update_of_ne here,started]
      exact (h.chain e on').congr fun x inside => next fun same => other.2 (same ▸ inside)
  · refine List.Perm.trans ?_ h.parts
    have grown := (flatMapUpdate regions on own (d::own r)).trans ((flatMapErase on own).symm.cons d)
    rw [List.append_assoc,List.append_assoc]
    refine (grown.append_right _).trans ?_
    exact List.perm_middle.symm.trans (List.perm_middle.symm.append_left _)
  · change w.currentBytesAllocated = (w.segments.map _).sum % word
    rw [List.map_congr_left fun e _ => sized e]
    exact h.bytes
  · obtain ⟨region,segment,below,small⟩ := h.live a on'
    refine ⟨region,segment.imp_right fun inside => ?_,by rw [used]; exact below,small⟩
    by_cases here : a.region = r
    · rw [here,Function.update_self]
      exact List.mem_cons_of_mem _ (here ▸ inside)
    · rw [Function.update_of_ne here]
      exact inside

-- The current segment of a region whose allocations are gone comes loose.
theorem Held.unlink (h : Held w own loose) (on : r ∈ w.regions) {rest : List Nat} (list : own r = d::rest)
    (free : ∀ a ∈ w.live, a.region ≠ r) : Held (unlinkSegment r w) (Function.update own r rest) (d::loose) := by
  have chain := h.chain r on
  rw [list] at chain
  obtain ⟨started,first,later⟩ := chain
  have each := h.parts.nodup_iff.mpr h.blocks.nodup.of_append_right
  have regions := h.blocks.nodup.of_append_left
  have split := (flatMapErase on own).append_right (w.segmentStack ++ loose)
  rw [← List.append_assoc] at split
  have each' := split.nodup_iff.mp each
  rw [list,List.cons_append,List.cons_append,List.nodup_cons] at each'
  have heap : (unlinkSegment r w).heap = Function.update w.heap d ((w.heap d).link d) := by
    simp only [unlinkSegment,World.set,started]
  have sized : ∀ e, (unlinkSegment r w).size e = w.size e := fun e => by
    by_cases here : e = d <;> simp [World.size,heap,here,MemorySegment.link]
  have next : ∀ {e}, e ≠ d → (unlinkSegment r w).next e = w.next e := fun here => by simp [World.next,heap,here]
  have used : ∀ e, ((unlinkSegment r w).heap e).allocated = (w.heap e).allocated := fun e => by
    by_cases here : e = d <;> simp [heap,here,MemorySegment.link]
  refine ⟨?_,fun e on' => ?_,?_,fun e on' => (sized e).trans (h.pooled e on'),h.stored,?_,h.room,fun a on' => ?_,h.apart,fun gone => h.gone gone⟩
  · change Blocks (unlinkSegment r w).heap w.regions w.segments w.nextDescriptor
    rw [heap]
    exact h.blocks.touch rfl fun on' => h.blocks.used d on'
  · by_cases here : e = r
    · subst here
      have moved : ((unlinkSegment e w).region e).currentSegment = w.next d := by simp [unlinkSegment,started,World.next]
      rw [Function.update_self,moved]
      refine later.congr fun x inside => next fun same => each'.1 ?_
      exact List.mem_append_left _ (List.mem_append_left _ (same ▸ inside))
    · have stays : ((unlinkSegment r w).region e).currentSegment = (w.region e).currentSegment := by simp [unlinkSegment,here]
      rw [Function.update_of_ne here,stays]
      refine (h.chain e on').congr fun x inside => next fun same => each'.1 ?_
      exact List.mem_append_left _ (List.mem_append_right _ (List.mem_flatMap.mpr ⟨e,(List.mem_erase_of_ne here).mpr on',same ▸ inside⟩))
  · refine List.Perm.trans ?_ h.parts
    have shrunk := flatMapUpdate regions on own rest
    have whole := flatMapErase on own
    rw [list,List.cons_append] at whole
    have apart := (shrunk.cons d).trans whole.symm
    rw [List.append_assoc,List.append_assoc,← List.append_assoc]
    refine List.perm_middle.trans ?_
    rw [List.append_assoc,← List.cons_append]
    exact apart.append_right _
  · change w.currentBytesAllocated = (w.segments.map _).sum % word
    rw [List.map_congr_left fun e _ => sized e]
    exact h.bytes
  · obtain ⟨region,segment,below,small⟩ := h.live a on'
    refine ⟨region,?_,by rw [used]; exact below,small⟩
    rw [Function.update_of_ne (free a on')]
    exact segment

end Holding

end OmrCompiler.RegionMemory
