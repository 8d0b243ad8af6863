import OmrCompiler.RegionHeld

/-! Requests and releases of segments, whole runs of regions, and what holds in every
state they reach. -/
namespace OmrCompiler.RegionMemory

section Holding
variable {w : World} {own : Nat → List Nat} {loose : List Nat} {r d size : Nat}

theorem Held.findBase (h : Held w own loose) (on : d ∈ w.segments) : w.find (w.base d) = some d := by
  have all : ∀ e ∈ w.segments, w.base e = w.base d → e = d := by
    intro e on' same
    by_contra other
    have off := h.blocks.off e (List.mem_append_right _ on') d (List.mem_append_right _ on) other
    have wide := h.blocks.positive e on'
    have wide' := h.blocks.positive d on
    unfold World.base at same
    unfold Block.Off blockOf at off
    simp only at off
    omega
  unfold World.find
  cases found : w.segments.find? fun e => w.base e == w.base d with
  | none => exact absurd (List.find?_eq_none.mp found d on) (by simp)
  | some e =>
      have same : w.base e = w.base d := by simpa using List.find?_some found
      rw [all e (List.mem_of_find?_eq_some found) same]

theorem Held.findFree (h : Held w own loose) {b : Block} (free : Free w b) (wide : 0 < b.size) : w.find b.base = none := by
  refine List.find?_eq_none.mpr fun e on same => ?_
  have same' : w.base e = b.base := by simpa using same
  have off := free.2.2 e (List.mem_append_right _ on)
  have wide' := h.blocks.positive e on
  unfold World.base at same'
  unfold Block.Off World.block World.base World.size at off
  simp only at off
  omega

theorem sumErase (size : Nat → Nat) {list : List Nat} (on : d ∈ list) :
    (list.map size).sum = size d + ((list.erase d).map size).sum := by
  rw [((List.perm_cons_erase on).map size).sum_nat,List.map_cons,List.sum_cons]

-- What nobody else sees of a change at the provider.
structure SameOwners (w w' : World) : Prop where
  region : w'.region = w.region
  regions : w'.regions = w.regions
  live : w'.live = w.live

structure SameLive (w w' : World) : Prop where
  regions : w'.regions = w.regions
  live : w'.live = w.live

theorem Held.systemRelease (h : Held w own (d::loose)) : ∃ w', systemRelease d w = some w' ∧ Held w' own loose ∧ SameOwners w w' := by
  have on : d ∈ w.segments := h.parts.subset (List.mem_append_right _ List.mem_cons_self)
  have sum := sumErase w.size on
  have sub : (w.segments.erase d).Sublist w.segments := List.erase_sublist
  have bytes : (w.currentBytesAllocated + word - w.size d % word) % word = ((w.segments.erase d).map w.size).sum % word := by
    rw [h.bytes,sum]
    have number : word = 2 ^ 64 := rfl
    rw [number]
    omega
  refine ⟨{ w with
    currentBytesAllocated := (w.currentBytesAllocated + word - w.size d % word) % word
    segments := w.segments.erase d },by rw [RegionMemory.systemRelease,h.findBase on]; rfl,
    ⟨h.blocks.less (List.Sublist.refl _) sub,h.chain,?_,h.pooled,h.stored,bytes,h.room,h.live,h.apart,h.gone⟩,⟨rfl,rfl,rfl⟩⟩
  have moved := (List.perm_middle.symm.trans h.parts).erase d
  rwa [List.erase_cons_head] at moved

theorem Held.poolRelease (h : Held w own (d::loose)) (pushFails : Nat → Bool) (open' : w.poolGone = false) :
    ∃ w', poolRelease pushFails d w = some w' ∧ Held w' own loose ∧ SameOwners w w' ∧ w'.poolGone = false := by
  have kept : ∀ w', RegionMemory.systemRelease d w = some w' → w'.poolGone = w.poolGone := fun w' released => by
    simp only [RegionMemory.systemRelease,bind,Option.bind_eq_some_iff] at released
    obtain ⟨found,_,last⟩ := released
    cases Option.some.inj last
    rfl
  have back : ∃ w', RegionMemory.systemRelease d w = some w' ∧ Held w' own loose ∧ SameOwners w w' ∧ w'.poolGone = false := by
    obtain ⟨w',released,held,same⟩ := h.systemRelease
    exact ⟨w',released,held,same,(kept w' released).trans open'⟩
  unfold RegionMemory.poolRelease
  by_cases fits : w.size d = w.defaultSegmentSize ∧ w.storedSegments < w.poolSize
  · rw [if_pos fits]
    cases pushFails d with
    | true => exact back
    | false =>
        refine ⟨_,rfl,⟨h.blocks,h.chain,?_,fun e on => ?_,?_,h.bytes,h.room,h.live,h.apart,fun gone => ?_⟩,⟨rfl,rfl,rfl⟩,open'⟩
        · refine List.Perm.trans ?_ h.parts
          change (w.regions.flatMap own ++ d::w.segmentStack ++ loose).Perm _
          rw [List.append_assoc,List.append_assoc]
          exact List.perm_middle.symm.append_left _
        · rcases List.mem_cons.mp on with rfl | was
          · exact fits.1
          · exact h.pooled e was
        · have stored := h.stored
          have below := fits.2
          change w.storedSegments + 1 = w.segmentStack.length + 1 ∧ w.segmentStack.length + 1 ≤ w.poolSize
          omega
        · rw [open'] at gone
          cases gone
  · rw [if_neg fits]
    exact back

-- A segment just requested: empty, and large enough.
structure Requested (requiredSize : Nat) (own : Nat → List Nat) (loose : List Nat) (w w' : World) (d : Nat) : Prop where
  held : Held w' own (d::loose)
  same : SameOwners w w'
  empty : (w'.heap d).allocated = 0
  enough : requiredSize ≤ w'.size d

theorem Held.systemRequest (h : Held w own loose) {requiredSize base : Nat} (positive : 0 < requiredSize)
    (fits : requiredSize + (w.defaultSegmentSize - 1) < word) (free : Free w ⟨base,adjustedSize w.defaultSegmentSize requiredSize⟩) :
    ∃ w', systemRequest requiredSize (some base) false w = some (w',w.nextDescriptor) ∧
      Requested requiredSize own loose w w' w.nextDescriptor := by
  obtain ⟨enough,wide⟩ := adjustedEnough h.room fits
  have new := h.findFree free (wide positive)
  set adjusted := adjustedSize w.defaultSegmentSize requiredSize
  let n := w.nextDescriptor
  let w' : World := { w with
    heap := Function.update w.heap n ⟨base,adjusted,0,n⟩
    currentBytesAllocated := (w.currentBytesAllocated + adjusted) % word
    highWaterMark := max ((w.currentBytesAllocated + adjusted) % word) w.highWaterMark
    nextDescriptor := n + 1
    segments := n::w.segments }
  have made : RegionMemory.systemRequest requiredSize (some base) false w = some (w',n) := by
    simp only [RegionMemory.systemRequest]
    rw [if_neg Bool.false_ne_true,new]
    rfl
  have old : ∀ d ∈ w.regions ++ w.segments, w'.heap d = w.heap d := fun d on =>
    Function.update_of_ne (Nat.ne_of_lt (h.blocks.known d on)) _ _
  have segment : ∀ {d}, d ∈ w.segments → d ∈ w.regions ++ w.segments := List.mem_append_right _
  have listed : ∀ {d}, d ∈ w.segmentStack → d ∈ w.segments := fun on =>
    h.parts.subset (List.mem_append_left _ (List.mem_append_right _ on))
  have here : w'.heap n = ⟨base,adjusted,0,n⟩ := Function.update_self n _ w.heap
  refine ⟨w',made,⟨?_,fun r on => ?_,?_,fun d on => ?_,h.stored,?_,h.room,fun a on => ?_,h.apart,h.gone⟩,⟨rfl,rfl,rfl⟩,by rw [here],?_⟩
  · refine h.blocks.added List.perm_middle rfl ⟨free.1,free.2.1⟩ free.2.2 fun d on => ?_
    rcases List.mem_cons.mp on with rfl | was
    · exact .inl ⟨rfl,wide positive⟩
    · exact .inr was
  · refine (h.chain r on).congr fun x inside => ?_
    change (w'.heap x).next = (w.heap x).next
    rw [old x (segment (h.ownedSegment on inside))]
  · exact List.perm_middle.trans (h.parts.cons n)
  · change (w'.heap d).size = _
    rw [old d (segment (listed on))]
    exact h.pooled d on
  · have sizes : w.segments.map w'.size = w.segments.map w.size := List.map_congr_left fun d on => by
      change (w'.heap d).size = (w.heap d).size
      rw [old d (segment on)]
    have first : w'.size n = adjusted := by
      change (w'.heap n).size = adjusted
      rw [here]
    change (w.currentBytesAllocated + adjusted) % word = ((n::w.segments).map w'.size).sum % word
    rw [List.map_cons,List.sum_cons,sizes,first,h.bytes,Nat.mod_add_mod,Nat.add_comm]
  · obtain ⟨region,mine,below,small⟩ := h.live a on
    refine ⟨region,mine,?_,small⟩
    rw [old a.segment (h.mine region mine)]
    exact below
  · change requiredSize ≤ (w'.heap n).size
    rw [here]
    exact enough

theorem Held.recycle (h : Held w own loose) {top requiredSize : Nat} {rest : List Nat} (stack : w.segmentStack = top::rest)
    (fits : requiredSize ≤ w.defaultSegmentSize) :
    Requested requiredSize own loose w
      { w.set top (w.heap top).reset with segmentStack := rest,storedSegments := w.storedSegments - 1 } top := by
  have pooled : top ∈ w.segmentStack := stack ▸ List.mem_cons_self
  set w' : World := { w.set top (w.heap top).reset with segmentStack := rest,storedSegments := w.storedSegments - 1 }
  have heap : w'.heap = Function.update w.heap top (w.heap top).reset := rfl
  have sized : ∀ e, w'.size e = w.size e := fun e => by
    by_cases here : e = top <;> simp [World.size,heap,here,MemorySegment.reset]
  have next : ∀ e, w'.next e = w.next e := fun e => by
    by_cases here : e = top <;> simp [World.next,heap,here,MemorySegment.reset]
  refine ⟨⟨h.blocks.touch rfl fun _ => ⟨Nat.zero_le _,Nat.dvd_zero 16⟩,fun r on => (h.chain r on).congr fun x _ => next x,?_,fun e on => ?_,?_,?_,
    h.room,fun a on => ?_,h.apart,fun gone => ?_⟩,⟨rfl,rfl,rfl⟩,?_,?_⟩
  · refine List.Perm.trans ?_ h.parts
    rw [stack,List.append_assoc,List.append_assoc]
    exact List.perm_middle.append_left _
  · rw [sized]
    exact h.pooled e (stack ▸ List.mem_cons_of_mem _ on)
  · have stored := h.stored
    rw [stack,List.length_cons] at stored
    change w.storedSegments - 1 = rest.length ∧ rest.length ≤ w.poolSize
    omega
  · change w.currentBytesAllocated = (w.segments.map _).sum % word
    rw [List.map_congr_left fun e _ => sized e]
    exact h.bytes
  · obtain ⟨region,mine,below,small⟩ := h.live a on
    have away := h.notMine (.inl pooled) region
    have other : a.segment ≠ top := by
      rcases mine with first | inside
      · exact fun same => away.1 (same.symm.trans first)
      · exact fun same => away.2 (same ▸ inside)
    refine ⟨region,mine,?_,small⟩
    rw [heap,Function.update_of_ne other]
    exact below
  · have none' := (h.gone gone).2
    rw [stack] at none'
    cases none'
  · rw [heap,Function.update_self]
    rfl
  · rw [sized,h.pooled top pooled]
    exact fits

theorem Held.poolRequest (h : Held w own loose) {requiredSize : Nat} {raw : Option Nat} {insertFails : Bool} (positive : 0 < requiredSize)
    (fits : requiredSize + (w.defaultSegmentSize - 1) < word)
    (free : ∀ b, raw = some b → Free w ⟨b,adjustedSize w.defaultSegmentSize requiredSize⟩) :
    poolRequest requiredSize raw insertFails w = none ∨
      ∃ w' d, poolRequest requiredSize raw insertFails w = some (w',d) ∧ Requested requiredSize own loose w w' d := by
  have system : RegionMemory.systemRequest requiredSize raw insertFails w = none ∨
      ∃ w' d, RegionMemory.systemRequest requiredSize raw insertFails w = some (w',d) ∧ Requested requiredSize own loose w w' d := by
    cases raw with
    | none => exact .inl rfl
    | some base =>
        cases insertFails with
        | true => exact .inl rfl
        | false =>
            obtain ⟨w',made,requested⟩ := h.systemRequest positive fits (free base rfl)
            exact .inr ⟨w',_,made,requested⟩
  unfold RegionMemory.poolRequest
  cases stack : w.segmentStack with
  | nil => exact system
  | cons top rest =>
      by_cases small : requiredSize ≤ w.defaultSegmentSize
      · simp only [if_pos small]
        exact .inr ⟨_,top,rfl,h.recycle stack small⟩
      · simp only [if_neg small]
        exact system

theorem remainingLe {s : MemorySegment} (used : s.allocated ≤ s.size) : s.remaining ≤ s.size - s.allocated := by
  have split : s.size + word - s.allocated = s.size - s.allocated + word := by omega
  rw [MemorySegment.remaining,split,Nat.add_mod_right]
  exact Nat.mod_le _ _

theorem Held.allocate (h : Held w own []) {raw : Option Nat} {insertFails : Bool} (orderly : Orderly w (.allocate r size raw insertFails)) :
    ∃ own', Held (allocate r size raw insertFails w).1 own' [] := by
  obtain ⟨on,⟨small,fits⟩,free⟩ := orderly
  unfold RegionMemory.allocate
  by_cases here : round size ≤ (w.heap (w.region r).currentSegment).remaining
  · have used := (h.blocks.used _ (h.mine on (h.current on))).1
    have enough := Nat.le_trans here (remainingLe used)
    simp only [if_pos here]
    refine ⟨own,h.bump on small ?_⟩
    change _ ≤ (w.heap _).size
    omega
  · have positive : 0 < round size := by omega
    simp only [if_neg here]
    rcases @Held.poolRequest w own [] h (round size) raw insertFails positive fits free with failed | ⟨w',d,made,requested⟩
    · rw [failed]
      exact ⟨own,h⟩
    · rw [made]
      have on' : r ∈ w'.regions := requested.same.regions ▸ on
      have linked := requested.held.link on'
      have current : ((linkSegment r d w').region r).currentSegment = d := by simp [linkSegment]
      refine ⟨_,linked.bump on' small ?_⟩
      have empty : ((linkSegment r d w').heap d).allocated = 0 := by
        simp only [linkSegment,World.set,Function.update_self,MemorySegment.link]
        exact requested.empty
      have sized : (linkSegment r d w').size d = w'.size d := by simp [World.size,linkSegment,World.set,MemorySegment.link]
      rw [current,empty,sized,Nat.zero_add]
      exact requested.enough

theorem Held.construct (h : Held w own []) {area : Nat} (orderly : Orderly w (.construct area)) :
    Held (construct area w) (Function.update own w.nextDescriptor []) [] := by
  obtain ⟨open',free⟩ := orderly
  let n := w.nextDescriptor
  have heap : (RegionMemory.construct area w).heap = Function.update w.heap n ⟨area,initialSegmentSize,0,n⟩ := rfl
  have old : ∀ d ∈ w.regions ++ w.segments, (RegionMemory.construct area w).heap d = w.heap d := fun d on =>
    Function.update_of_ne (Nat.ne_of_lt (h.blocks.known d on)) _ _
  have segment : ∀ {d}, d ∈ w.segments → d ∈ w.regions ++ w.segments := List.mem_append_right _
  have fresh : ∀ {r}, r ∈ w.regions → r ≠ n := fun on => Nat.ne_of_lt (h.blocks.known _ (List.mem_append_left _ on))
  have owns : ∀ {r}, r ∈ w.regions → Function.update own n [] r = own r := fun on => Function.update_of_ne (fresh on) _ _
  refine ⟨?_,fun r on => ?_,?_,fun d on => ?_,h.stored,?_,h.room,fun a on => ?_,h.apart,fun gone => ?_⟩
  · exact h.blocks.added (List.Perm.refl _) rfl ⟨free.1,free.2.1⟩ free.2.2 fun d on => .inr on
  · rcases List.mem_cons.mp on with rfl | was
    · have first : ((RegionMemory.construct area w).region w.nextDescriptor).currentSegment = w.nextDescriptor := by
        simp [RegionMemory.construct]
      rw [first,Function.update_self]
      rfl
    · have stays : (RegionMemory.construct area w).region r = w.region r := Function.update_of_ne (fresh was) _ _
      rw [stays]
      have same : Function.update own w.nextDescriptor [] r = own r := owns was
      rw [same]
      refine (h.chain r was).congr fun x inside => ?_
      change ((RegionMemory.construct area w).heap x).next = (w.heap x).next
      rw [old x (segment (h.ownedSegment was inside))]
  · have flat : (n::w.regions).flatMap (Function.update own n []) = w.regions.flatMap own := by
      rw [List.flatMap_cons,Function.update_self,List.nil_append]
      exact List.flatMap_congr fun r on => owns on
    change ((n::w.regions).flatMap (Function.update own n []) ++ w.segmentStack ++ []).Perm w.segments
    rw [flat]
    exact h.parts
  · change ((RegionMemory.construct area w).heap d).size = _
    rw [old d (segment (h.parts.subset (List.mem_append_left _ (List.mem_append_right _ on))))]
    exact h.pooled d on
  · have sizes : w.segments.map (RegionMemory.construct area w).size = w.segments.map w.size := List.map_congr_left fun d on => by
      change ((RegionMemory.construct area w).heap d).size = (w.heap d).size
      rw [old d (segment on)]
    change w.currentBytesAllocated = (w.segments.map _).sum % word
    rw [sizes]
    exact h.bytes
  · obtain ⟨region,mine,below,small⟩ := h.live a on
    refine ⟨List.mem_cons_of_mem _ region,?_,?_,small⟩
    · have same : Function.update own w.nextDescriptor [] a.region = own a.region := owns region
      rw [same]
      exact mine
    · rw [old a.segment (h.mine region mine)]
      exact below
  · have shut : w.poolGone = true := gone
    rw [open'] at shut
    cases shut

theorem Held.forget (h : Held w own loose) (r : Nat) : Held (forget r w) own loose :=
  ⟨h.blocks,h.chain,h.parts,h.pooled,h.stored,h.bytes,h.room,fun a on => h.live a (List.mem_of_mem_filter on),h.apart.sublist List.filter_sublist,h.gone⟩

theorem Held.releaseSegments (pushFails : Nat → Bool) {fuel : Nat} (enough : (own r).length < fuel) (h : Held w own []) (on : r ∈ w.regions)
    (free : ∀ a ∈ w.live, a.region ≠ r) (open' : w.poolGone = false) :
    ∃ w' own', releaseSegments r pushFails fuel w = some w' ∧ Held w' own' [] ∧ SameLive w w' ∧ own' r = [] := by
  -- One segment of the chain goes in each round.
  induction fuel generalizing w own with
  | zero => exact absurd enough (Nat.not_lt_zero _)
  | succ fuel ih =>
      have chain := h.chain r on
      cases list : own r with
      | nil =>
          rw [list] at chain
          exact ⟨w,own,if_pos chain,h,⟨rfl,rfl⟩,list⟩
      | cons d rest =>
          rw [list] at chain
          have unlinked := h.unlink on list free
          have shut : (unlinkSegment r w).poolGone = false := open'
          obtain ⟨next,released,held,same,still⟩ := unlinked.poolRelease pushFails shut
          have shorter : (Function.update own r rest r).length < fuel := by
            rw [Function.update_self]
            rw [list,List.length_cons] at enough
            omega
          obtain ⟨w',own',ran,held',same',empty⟩ := ih shorter held (same.regions ▸ on) (same.live ▸ free) still
          refine ⟨w',own',?_,held',⟨same'.regions.trans same.regions,same'.live.trans same.live⟩,empty⟩
          have away : ¬ (w.region r).currentSegment = r := chain.1 ▸ chain.2.1
          rw [RegionMemory.releaseSegments]
          simp only [if_neg away]
          rw [chain.1,released]
          exact ran

theorem Held.dropRegion (h : Held w own []) (on : r ∈ w.regions) (empty : own r = []) (free : ∀ a ∈ w.live, a.region ≠ r) :
    Held (dropRegion r w) own [] := by
  have sub : (w.regions.erase r).Sublist w.regions := List.erase_sublist
  refine ⟨h.blocks.less sub (List.Sublist.refl _),fun e on' => h.chain e (sub.subset on'),?_,h.pooled,h.stored,h.bytes,h.room,fun a on' => ?_,h.apart,
    fun gone => ?_⟩
  · refine List.Perm.trans ?_ h.parts
    have split := flatMapErase on own
    rw [empty,List.nil_append] at split
    exact (split.symm.append_right _).append_right _
  · obtain ⟨region,mine,below,small⟩ := h.live a on'
    exact ⟨(List.mem_erase_of_ne (free a on')).mpr region,mine,below,small⟩
  · have none' := (h.gone gone).1
    rw [none'] at on
    cases on

theorem Held.destroy (h : Held w own []) (on : r ∈ w.regions) (pushFails : Nat → Bool) :
    ∃ w' own', destroy r pushFails w = some w' ∧ Held w' own' [] := by
  have open' : w.poolGone = false := by
    cases gone : w.poolGone with
    | false => rfl
    | true =>
        have none' := (h.gone gone).1
        rw [none'] at on
        cases on
  have free : ∀ a ∈ (RegionMemory.forget r w).live, a.region ≠ r := fun a inside => by simpa using (List.mem_filter.mp inside).2
  have short : (own r).length < w.segments.length + 1 := by
    have all := h.parts.length_eq
    have part := (flatMapErase on own).length_eq
    simp only [List.length_append] at all part
    omega
  obtain ⟨w',own',ran,held,same,empty⟩ := (h.forget r).releaseSegments pushFails short on free open'
  refine ⟨_,own',?_,held.dropRegion (same.regions ▸ on) empty (same.live ▸ free)⟩
  rw [RegionMemory.destroy]
  change (RegionMemory.releaseSegments r pushFails (w.segments.length + 1) (RegionMemory.forget r w)).bind _ = _
  rw [ran]
  rfl

theorem Held.emptyPool (stack : List Nat) (h : Held w own []) (is : w.segmentStack = stack) :
    ∃ w', emptyPool stack w = some w' ∧ Held w' own [] ∧ w'.segmentStack = [] ∧ w'.regions = w.regions := by
  induction stack generalizing w with
  | nil => exact ⟨w,rfl,h,is,rfl⟩
  | cons top rest ih =>
      have stored := h.stored
      rw [is,List.length_cons] at stored
      -- The top comes loose and goes back to the provider.
      have popped : Held { w with segmentStack := rest,storedSegments := rest.length } own [top] := by
        refine ⟨h.blocks,h.chain,?_,fun d on => h.pooled d (is ▸ List.mem_cons_of_mem _ on),⟨rfl,by change rest.length ≤ w.poolSize; omega⟩,h.bytes,h.room,
          h.live,h.apart,fun gone => ?_⟩
        · refine List.Perm.trans ?_ h.parts
          rw [is,List.append_assoc,List.append_assoc]
          exact List.perm_middle.append_left _
        · have none' := (h.gone gone).2
          rw [is] at none'
          cases none'
      obtain ⟨next,released,held,same⟩ := popped.systemRelease
      have fields : next.storedSegments = rest.length ∧ next.segmentStack = rest := by
        simp only [RegionMemory.systemRelease,bind,Option.bind_eq_some_iff] at released
        obtain ⟨found,_,last⟩ := released
        cases Option.some.inj last
        exact ⟨rfl,rfl⟩
      have later : RegionMemory.systemRelease top { w with segmentStack := rest } = some { next with storedSegments := w.storedSegments } := by
        simp only [RegionMemory.systemRelease,bind,Option.bind_eq_some_iff] at released ⊢
        obtain ⟨found,at',last⟩ := released
        refine ⟨found,at',?_⟩
        cases Option.some.inj last
        rfl
      have counted : { { next with storedSegments := w.storedSegments } with storedSegments := w.storedSegments - 1 } = next := by
        have one : w.storedSegments - 1 = next.storedSegments := by omega
        rw [one]
      obtain ⟨w',ran,held',empty,regions⟩ := ih held fields.2
      refine ⟨w',?_,held',empty,regions.trans same.regions⟩
      rw [RegionMemory.emptyPool]
      change (RegionMemory.systemRelease top { w with segmentStack := rest }).bind _ = _
      rw [later]
      change RegionMemory.emptyPool rest { { next with storedSegments := w.storedSegments } with storedSegments := w.storedSegments - 1 } = _
      rw [counted]
      exact ran

theorem Held.step (h : Held w own []) {op : Op} (orderly : Orderly w op) : ∃ w' own', step w op = some w' ∧ Held w' own' [] := by
  cases op with
  | construct area => exact ⟨_,_,rfl,h.construct orderly⟩
  | allocate r size raw insertFails =>
      obtain ⟨own',held⟩ := h.allocate orderly
      exact ⟨_,own',rfl,held⟩
  | destroy r pushFails => exact h.destroy orderly pushFails
  | destroyPool =>
      obtain ⟨w',ran,held,empty,regions⟩ := h.emptyPool w.segmentStack rfl
      refine ⟨{ w' with poolGone := true },own,?_,held.blocks,held.chain,held.parts,held.pooled,held.stored,held.bytes,held.room,held.live,held.apart,
        fun _ => ⟨regions.trans orderly.1,empty⟩⟩
      change (RegionMemory.emptyPool w.segmentStack w).bind _ = _
      rw [ran]
      rfl

theorem Held.run (h : Held w own []) (ops : List Op) (orderly : OrderlyRun w ops) : ∃ w' own', run w ops = some w' ∧ Held w' own' [] := by
  induction ops generalizing w own with
  | nil => exact ⟨w,own,rfl,h⟩
  | cons op ops ih =>
      obtain ⟨next,own',ran,held⟩ := h.step orderly.1
      have rest := orderly.2
      rw [ran] at rest
      obtain ⟨last,own'',ran',held'⟩ := ih held rest
      refine ⟨last,own'',?_,held'⟩
      rw [RegionMemory.run,List.foldlM_cons,ran]
      exact ran'

theorem Held.owned (h : Held w own []) (on : r ∈ w.regions) : owned w r = own r := by
  refine (h.chain r on).walk ?_
  have all := h.parts.length_eq
  have part := (flatMapErase on own).length_eq
  simp only [List.length_append] at all part
  omega

theorem Held.sound (h : Held w own []) : Sound w := by
  have flat : w.regions.flatMap (RegionMemory.owned w) = w.regions.flatMap own := List.flatMap_congr fun r on => h.owned on
  have inside : ∀ a ∈ w.live, a.offset + round a.size ≤ w.size a.segment := fun a on => by
    obtain ⟨region,mine,below,_⟩ := h.live a on
    exact Nat.le_trans below (h.blocks.used _ (h.mine region mine)).1
  refine ⟨?_,fun a on => roundEnough (h.live a on).2.2.2,inside,fun a on => ?_,?_,h.stored.2,fun regions gone => ?_⟩
  · refine h.apart.imp_of_mem fun {a b} onA onB apart => ?_
    obtain ⟨regionA,mineA,_⟩ := h.live a onA
    obtain ⟨regionB,mineB,_⟩ := h.live b onB
    unfold Block.Off World.range
    by_cases same : a.segment = b.segment
    · have offsets := apart same
      simp only [same]
      omega
    · have off := h.blocks.off _ (h.mine regionA mineA) _ (h.mine regionB mineB) same
      have endA := inside a onA
      have endB := inside b onB
      unfold Block.Off blockOf at off
      unfold World.size at endA endB
      simp only [World.base] at off ⊢
      omega
  · obtain ⟨region,mine,_⟩ := h.live a on
    rw [h.owned region]
    exact ⟨region,mine⟩
  · have parts := h.parts
    rw [List.append_nil,← flat] at parts
    exact ⟨parts,h.blocks.nodup.of_append_right⟩
  · have parts := h.parts
    rw [regions,(h.gone gone).2] at parts
    have none' : w.segments = [] := List.nil_perm.mp parts
    refine ⟨?_,none'⟩
    rw [h.bytes,none']
    rfl

theorem startHeld {unit : Nat} (positive : 0 < unit) (poolSize : Nat) : Held (start unit poolSize) (fun _ => []) [] := by
  have none' : Blocks (start unit poolSize).heap [] [] 0 :=
    ⟨List.nodup_nil,by simp,by simp,by simp,by simp,by simp⟩
  exact ⟨none',by simp [start],List.Perm.refl _,by simp [start],⟨rfl,Nat.zero_le _⟩,rfl,positive,by simp [start],.nil,fun _ => ⟨rfl,rfl⟩⟩

end Holding

theorem failedUnchanged {w : World} {r size : Nat} {raw : Option Nat} {insertFails : Bool} (failed : (allocate r size raw insertFails w).2 = none) :
    (allocate r size raw insertFails w).1 = w := by
  unfold allocate at failed ⊢
  by_cases here : round size ≤ (w.heap (w.region r).currentSegment).remaining
  · simp only [if_pos here] at failed
    cases failed
  · simp only [if_neg here] at failed ⊢
    cases request : poolRequest (round size) raw insertFails w with
    | none => rfl
    | some made =>
        rw [request] at failed
        cases failed

theorem regionMemoryReturned {unit : Nat} (positive : 0 < unit) (poolSize : Nat) (ops : List Op) (orderly : OrderlyRun (start unit poolSize) ops) :
    ∃ w, run (start unit poolSize) ops = some w ∧ Sound w ∧
      ∀ r size raw insertFails, (allocate r size raw insertFails w).2 = none → (allocate r size raw insertFails w).1 = w := by
  obtain ⟨w,own,ran,held⟩ := (startHeld positive poolSize).run ops orderly
  exact ⟨w,ran,held.sound,fun _ _ _ _ => failedUnchanged⟩

def sampleOps : List Op :=
  [.construct 4096,.allocate 0 5000 (some 65536) false,.allocate 0 100 none false,.construct 16384,.destroy 0 fun _ => false,
    .allocate 2 6000 none false,.allocate 2 9000 none false,.destroy 2 fun _ => true,.destroyPool]

theorem regionMemoryReturnedSample : 0 < 8192 ∧ OrderlyRun (start 8192 4) sampleOps ∧ ∃ w, run (start 8192 4) sampleOps = some w ∧ Sound w ∧
    ∀ r size raw insertFails, (allocate r size raw insertFails w).2 = none → (allocate r size raw insertFails w).1 = w := by
  have orderly : OrderlyRun (start 8192 4) sampleOps := by decide
  exact ⟨by decide,orderly,regionMemoryReturned (by decide) 4 sampleOps orderly⟩

-- The largest request is rounded to no bytes at all.
theorem requestWraps : ∃ w, run (start 8192 4) [.construct 4096,.allocate 0 (2 ^ 64 - 1) none false] = some w ∧ ¬ Sound w := by
  refine ⟨_,rfl,fun sound => ?_⟩
  have enough := (sound.rounded ⟨0,0,0,2 ^ 64 - 1⟩ List.mem_cons_self).1
  exact absurd enough (by decide)

end OmrCompiler.RegionMemory
