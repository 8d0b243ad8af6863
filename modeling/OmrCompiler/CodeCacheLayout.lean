import Mathlib.Data.List.Perm.Basic
import OmrCompiler.CodeCacheSearch

/-! The layout of a code cache with the allocations that are in use: what each
change of the cache preserves. -/
namespace OmrCompiler.CodeCache

-- An allocation that is in use; headed if it starts with a method header.
structure Live where
  block : Block
  headed : Bool
  deriving DecidableEq, Repr

def Off (x y : Block) : Prop := x.stop ≤ y.start ∨ y.stop ≤ x.start

-- The two sizes are exact, or 0 if free blocks are not used again.
def Bookkept (config : Config) (c : Cache) : Prop :=
  if config.recycling then Exact c else c.sizeOfLargestFreeWarmBlock = 0 ∧ c.sizeOfLargestFreeColdBlock = 0

structure Layout (config : Config) (c : Cache) (live : List Live) : Prop where
  order : c.warmCodeAlloc ≤ c.coldCodeAlloc
  aligned : config.alignment ∣ c.warmCodeAlloc
  lives : ∀ l ∈ live, Fits config c l.block
  apart : live.Pairwise fun x y => Off x.block y.block
  frees : ∀ b ∈ c.freeBlockList, Fits config c b
  sorted : c.freeBlockList.Pairwise (Apart c)
  mixed : ∀ l ∈ live, ∀ b ∈ c.freeBlockList, Off l.block b
  sizes : ∀ l ∈ live, l.headed = true → c.recorded l.block.start = l.block.size % 2 ^ 32
  bookkept : Bookkept config c

section
variable {config : Config} {c c' : Cache} {size : Nat} {b best link x y : Block} {l : Live} {live live' : List Live} {blocks before after : List Block}

theorem Off.symm (off : Off x y) : Off y x := Or.symm off

-- A part of a block is off what the block is off.
theorem Off.part (off : Off x y) (low : x.start ≤ b.start) (high : b.stop ≤ x.stop) : Off b y := by
  simp only [Off] at *
  omega

theorem Fits.mono (fits : Fits config c b) (warm : c.warmCodeAlloc ≤ c'.warmCodeAlloc) (cold : c'.coldCodeAlloc ≤ c.coldCodeAlloc) :
    Fits config c' b := by
  refine ⟨fits.start,fits.size,fits.some,?_⟩
  have region := fits.region
  omega

theorem Apart.mono (apart : Apart c x y) (warm : c.warmCodeAlloc ≤ c'.warmCodeAlloc) (cold : c'.coldCodeAlloc ≤ c.coldCodeAlloc) :
    Apart c' x y := by
  simp only [Apart,Border] at *
  omega

theorem Layout.perm (layout : Layout config c live) (perm : live.Perm live') : Layout config c live' := by
  refine ⟨layout.order,layout.aligned,fun l on => layout.lives l (perm.mem_iff.mpr on),(perm.pairwise_iff ?_).mp layout.apart,
    layout.frees,layout.sorted,fun l on => layout.mixed l (perm.mem_iff.mpr on),fun l on => layout.sizes l (perm.mem_iff.mpr on),layout.bookkept⟩
  intro x y off
  exact off.symm

theorem Layout.drop (layout : Layout config c (l::live)) : Layout config c live :=
  ⟨layout.order,layout.aligned,fun l on => layout.lives l (List.mem_cons_of_mem _ on),(List.pairwise_cons.mp layout.apart).2,layout.frees,
    layout.sorted,fun l on => layout.mixed l (List.mem_cons_of_mem _ on),fun l on => layout.sizes l (List.mem_cons_of_mem _ on),layout.bookkept⟩

-- The ends of the heap have moved towards each other.
theorem Layout.grow (layout : Layout config c live) (warm : c.warmCodeAlloc ≤ c'.warmCodeAlloc) (cold : c'.coldCodeAlloc ≤ c.coldCodeAlloc)
    (order : c'.warmCodeAlloc ≤ c'.coldCodeAlloc) (aligned : config.alignment ∣ c'.warmCodeAlloc)
    (same : c'.freeBlockList = c.freeBlockList) (recorded : c'.recorded = c.recorded) (bookkept : Bookkept config c') :
    Layout config c' live := by
  refine ⟨order,aligned,fun l on => (layout.lives l on).mono warm cold,layout.apart,?_,?_,?_,?_,bookkept⟩
  · rw [same]
    exact fun b on => (layout.frees b on).mono warm cold
  · rw [same]
    exact layout.sorted.imp fun apart => apart.mono warm cold
  · rw [same]
    exact layout.mixed
  · rw [recorded]
    exact layout.sizes

theorem writeMethodHeaderFields (header : Bool) (b : Block) (c : Cache) :
    (writeMethodHeader header b c).warmCodeAlloc = c.warmCodeAlloc ∧ (writeMethodHeader header b c).coldCodeAlloc = c.coldCodeAlloc ∧
    (writeMethodHeader header b c).freeBlockList = c.freeBlockList ∧
    (writeMethodHeader header b c).sizeOfLargestFreeWarmBlock = c.sizeOfLargestFreeWarmBlock ∧
    (writeMethodHeader header b c).sizeOfLargestFreeColdBlock = c.sizeOfLargestFreeColdBlock := by
  cases header <;> exact ⟨rfl,rfl,rfl,rfl,rfl⟩

theorem bookkeptCongr (warm : c'.warmCodeAlloc = c.warmCodeAlloc) (cold : c'.coldCodeAlloc = c.coldCodeAlloc)
    (same : c'.freeBlockList = c.freeBlockList) (largestWarm : c'.sizeOfLargestFreeWarmBlock = c.sizeOfLargestFreeWarmBlock)
    (largestCold : c'.sizeOfLargestFreeColdBlock = c.sizeOfLargestFreeColdBlock) (bookkept : Bookkept config c) : Bookkept config c' := by
  simp only [Bookkept,Exact,searched,sizeOfLargestFreeBlock,warm,cold,same,largestWarm,largestCold] at *
  exact bookkept

-- A block that is off everything is handed out.
theorem Layout.add (layout : Layout config c live) (header : Bool) (fits : Fits config c b) (off : ∀ l ∈ live, Off b l.block)
    (off' : ∀ x ∈ c.freeBlockList, Off b x) : Layout config (writeMethodHeader header b c) (⟨b,header⟩::live) := by
  obtain ⟨warm,cold,same,largestWarm,largestCold⟩ := writeMethodHeaderFields header b c
  refine ⟨?_,?_,?_,List.pairwise_cons.mpr ⟨off,layout.apart⟩,?_,?_,?_,?_,?_⟩
  · rw [warm,cold]
    exact layout.order
  · rw [warm]
    exact layout.aligned
  · intro l on
    refine Fits.mono ?_ (Nat.le_of_eq warm.symm) (Nat.le_of_eq cold)
    rcases List.mem_cons.mp on with rfl | old
    · exact fits
    · exact layout.lives l old
  · rw [same]
    exact fun b on => (layout.frees b on).mono (Nat.le_of_eq warm.symm) (Nat.le_of_eq cold)
  · rw [same]
    exact layout.sorted.imp fun apart => apart.mono (Nat.le_of_eq warm.symm) (Nat.le_of_eq cold)
  · rw [same]
    intro l on x free
    rcases List.mem_cons.mp on with rfl | old
    · exact off' x free
    · exact layout.mixed l old x free
  · intro l on headed
    rcases List.mem_cons.mp on with rfl | old
    · simp only at headed
      simp [writeMethodHeader,setHeaderSize,headed]
    · have distinct : l.block.start ≠ b.start := by
        have wide := fits.some
        have wide' := (layout.lives l old).some
        have away := off l old
        simp only [Off,Block.stop] at away
        omega
      rw [← layout.sizes l old headed]
      cases header
      · rfl
      · simp [writeMethodHeader,setHeaderSize,distinct]
  · exact bookkeptCongr warm cold same largestWarm largestCold layout.bookkept

-- The ends of the heap have moved, and every free block is still on its side.
theorem bookkeptMoved (order : c.warmCodeAlloc ≤ c.coldCodeAlloc) (order' : c'.warmCodeAlloc ≤ c'.coldCodeAlloc)
    (same : c'.freeBlockList = c.freeBlockList) (largestWarm : c'.sizeOfLargestFreeWarmBlock = c.sizeOfLargestFreeWarmBlock)
    (largestCold : c'.sizeOfLargestFreeColdBlock = c.sizeOfLargestFreeColdBlock) (wide : ∀ b ∈ c.freeBlockList, 0 < b.size)
    (sides : ∀ b ∈ c.freeBlockList, b.stop ≤ c.warmCodeAlloc ∧ b.stop ≤ c'.warmCodeAlloc ∨ c.coldCodeAlloc ≤ b.start ∧ c'.coldCodeAlloc ≤ b.start)
    (bookkept : Bookkept config c) : Bookkept config c' := by
  have unmoved : ∀ isCold, searched isCold c' = searched isCold c := by
    intro isCold
    rw [searchedEq,searchedEq,same]
    refine List.filter_congr fun b on => ?_
    have side := sides b on
    have positive := wide b on
    rw [Block.stop] at side
    cases isCold <;> simp [onSide] <;> omega
  have sizes : ∀ isCold, sizeOfLargestFreeBlock isCold c' = sizeOfLargestFreeBlock isCold c := by
    intro isCold
    cases isCold
    · exact largestWarm
    · exact largestCold
  simp only [Bookkept,Exact,unmoved,sizes,largestWarm,largestCold] at *
  exact bookkept

theorem usedInside (enough : size ≤ best.size) : (usedBlock size best).start = best.start ∧ (usedBlock size best).stop ≤ best.stop ∧
    size ≤ (usedBlock size best).size ∧ ∀ left, leftBlock size best = some left → (usedBlock size best).stop = left.start ∧ left.stop = best.stop := by
  by_cases wide : minSizeBlock ≤ best.size - size
  · have used : usedBlock size best = ⟨best.start,size⟩ := if_pos wide
    rw [used]
    refine ⟨rfl,?_,Nat.le_refl _,fun left split => ?_⟩
    · simp only [Block.stop]
      omega
    · rw [leftBlock,if_pos wide] at split
      obtain rfl := Option.some.inj split
      refine ⟨rfl,?_⟩
      simp only [Block.stop]
      omega
  · have used : usedBlock size best = best := if_neg wide
    rw [used]
    refine ⟨rfl,Nat.le_refl _,enough,fun left split => ?_⟩
    rw [leftBlock,if_neg wide] at split
    cases split

theorem usedFits (fits : Fits config c best) (positive : 0 < size) (aligned : config.alignment ∣ size) (enough : size ≤ best.size) :
    Fits config c (usedBlock size best) := by
  have region := fits.region
  unfold usedBlock
  split
  · refine ⟨fits.start,aligned,positive,?_⟩
    simp only [Block.stop] at *
    omega
  · exact fits

theorem leftFits {left : Block} (fits : Fits config c best) (aligned : config.alignment ∣ size) (split : leftBlock size best = some left) :
    Fits config c left := by
  have region := fits.region
  have least : 96 ≤ minSizeBlock := by decide
  unfold leftBlock at split
  split at split <;> cases split
  refine ⟨Nat.dvd_add fits.start aligned,Nat.dvd_sub fits.size aligned,?_,?_⟩
  · show 0 < best.size - size
    omega
  · simp only [Block.stop] at *
    omega

theorem Apart.further (apart : Apart c x y) (start : y.start ≤ b.start) : Apart c x b := by
  simp only [Apart,Border] at *
  omega

theorem leftApart {left : Block} (fits : Fits config c best) (order : c.warmCodeAlloc ≤ c.coldCodeAlloc) (aligned : config.alignment ∣ size)
    (split : leftBlock size best = some left) (apart : Apart c best y) : Apart c left y := by
  have region := fits.region
  have wide := (leftFits fits aligned split).some
  have least : 96 ≤ minSizeBlock := by decide
  unfold leftBlock at split
  split at split <;> cases split
  simp only [Apart,Border,Block.stop] at *
  omega

-- A free block is handed out, and what is left of it stays free.
theorem Layout.take {isCold : Bool} (layout : Layout config c live) (header : Bool) (taken : Taken size isCold c best c')
    (positive : 0 < size) (aligned : config.alignment ∣ size) (kept : Bookkept config c') :
    Layout config (writeMethodHeader header (usedBlock size best) c') (⟨usedBlock size best,header⟩::live) := by
  obtain ⟨before,after,list,list'⟩ := taken.list
  obtain ⟨starts,ends,-,meets⟩ := usedInside taken.enough
  have member : best ∈ c.freeBlockList := by simp [list]
  have fit := layout.frees best member
  have warm : c.warmCodeAlloc ≤ c'.warmCodeAlloc := Nat.le_of_eq taken.warm.symm
  have cold : c'.coldCodeAlloc ≤ c.coldCodeAlloc := Nat.le_of_eq taken.cold
  -- every free block is an old one or what is left of best
  have origin : ∀ x ∈ c'.freeBlockList, x ∈ before ∨ leftBlock size best = some x ∨ x ∈ after := by
    intro x on
    rw [list',List.mem_append,List.mem_append] at on
    simpa using on
  have sorted := layout.sorted
  rw [list,List.pairwise_append,List.pairwise_cons] at sorted
  obtain ⟨sortedBefore,⟨later,sortedAfter⟩,earlier⟩ := sorted
  have smaller : Layout config c' live := by
    refine ⟨by rw [taken.warm,taken.cold]; exact layout.order,by rw [taken.warm]; exact layout.aligned,
      fun l on => (layout.lives l on).mono warm cold,layout.apart,fun x on => ?_,?_,fun l on x free => ?_,?_,kept⟩
    · refine Fits.mono ?_ warm cold
      rcases origin x on with early | split | late
      · exact layout.frees x (by simp [list,early])
      · exact leftFits fit aligned split
      · exact layout.frees x (by simp [list,late])
    · rw [list']
      refine List.Pairwise.imp (fun apart => Apart.mono apart warm cold) ?_
      refine List.pairwise_append.mpr ⟨sortedBefore,List.pairwise_append.mpr ⟨?_,sortedAfter,fun left on y late => ?_⟩,fun a early y on => ?_⟩
      · cases leftBlock size best <;> simp
      · exact leftApart fit layout.order aligned (by simpa using on) (later y late)
      · rcases List.mem_append.mp on with left | late
        · refine (earlier a early best (by simp)).further ?_
          have bounds := meets y (by simpa using left)
          simp only [Block.stop] at *
          omega
        · exact earlier a early y (by simp [late])
    · rcases origin x free with early | split | late
      · exact layout.mixed l on x (by simp [list,early])
      · have off := layout.mixed l on best member
        have bounds := meets x split
        have wide := (leftFits fit aligned split).some
        simp only [Off,Block.stop] at *
        omega
      · exact layout.mixed l on x (by simp [list,late])
    · rw [taken.recorded]
      exact layout.sizes
  refine smaller.add header ((usedFits fit positive aligned taken.enough).mono warm cold) (fun l on => ?_) fun x free => ?_
  · exact (layout.mixed l on best member).symm.part (Nat.le_of_eq starts.symm) ends
  · rcases origin x free with early | split | late
    · refine .inr ?_
      rw [starts]
      exact (earlier x early best (by simp)).startBelow
    · exact .inl (Nat.le_of_eq (meets x split).1)
    · exact .inl (Nat.le_trans ends (later x late).startBelow)

-- The blocks that have become one are on its side.
theorem mergedSide (isCold : Bool) (fits : Fits config c link) (order : c.warmCodeAlloc ≤ c.coldCodeAlloc) (wide : 0 < b.size)
    (low : link.start ≤ b.start) (high : b.stop ≤ link.stop) : onSide isCold c b = onSide isCold c link := by
  have region := fits.region
  have positive := fits.some
  simp only [Block.stop] at *
  cases isCold <;> simp [onSide] <;> omega

theorem updateMaxFields (link : Block) (c : Cache) : (updateMaxSizeOfFreeBlocks config link c).warmCodeAlloc = c.warmCodeAlloc ∧
    (updateMaxSizeOfFreeBlocks config link c).coldCodeAlloc = c.coldCodeAlloc ∧
    (updateMaxSizeOfFreeBlocks config link c).freeBlockList = c.freeBlockList ∧ (updateMaxSizeOfFreeBlocks config link c).recorded = c.recorded := by
  unfold updateMaxSizeOfFreeBlocks
  repeat' split
  all_goals exact ⟨rfl,rfl,rfl,rfl⟩

theorem updateMaxSize (isCold : Bool) (recycling : config.recycling = true) (fits : Fits config c link) (order : c.warmCodeAlloc ≤ c.coldCodeAlloc) :
    sizeOfLargestFreeBlock isCold (updateMaxSizeOfFreeBlocks config link c) =
      if onSide isCold c link then max (sizeOfLargestFreeBlock isCold c) link.size else sizeOfLargestFreeBlock isCold c := by
  have region := fits.region
  have positive := fits.some
  unfold updateMaxSizeOfFreeBlocks
  rw [if_pos recycling]
  simp only [Block.stop] at region
  by_cases warm : link.start < c.warmCodeAlloc
  · have notCold : ¬c.coldCodeAlloc ≤ link.start := by omega
    rw [if_pos warm]
    cases isCold
    · simp only [onSide,warm,decide_true,if_true,Bool.false_eq_true,if_false]
      split <;> simp only [sizeOfLargestFreeBlock,Bool.false_eq_true,if_false] <;> omega
    · simp only [onSide,notCold,decide_false,if_true,Bool.false_eq_true,if_false]
      split <;> rfl
  · have cold : c.coldCodeAlloc ≤ link.start := by omega
    rw [if_neg warm]
    cases isCold
    · simp only [onSide,warm,decide_false,Bool.false_eq_true,if_false]
      split <;> rfl
    · simp only [onSide,cold,decide_true,if_true]
      split <;> simp only [sizeOfLargestFreeBlock,if_true] <;> omega

theorem bookkeptFreed {start stop : Nat} (freed : Freed config c start stop c.freeBlockList link blocks) (order : c.warmCodeAlloc ≤ c.coldCodeAlloc)
    (fits : ∀ b ∈ c.freeBlockList, Fits config c b) (bookkept : Bookkept config c) :
    Bookkept config (updateMaxSizeOfFreeBlocks config link { c with freeBlockList := blocks }) := by
  by_cases recycling : config.recycling
  · rw [Bookkept,if_pos recycling] at *
    obtain ⟨before,merged,after,split,split',inside,-,-⟩ := freed.split
    obtain ⟨warm,cold,same,-⟩ := @updateMaxFields config link { c with freeBlockList := blocks }
    intro isCold
    have size := updateMaxSize (c := { c with freeBlockList := blocks }) isCold recycling
      ⟨freed.fits.start,freed.fits.size,freed.fits.some,freed.fits.region⟩ order
    have was := bookkept isCold
    have sides : merged.filter (onSide isCold c) = if onSide isCold c link then merged else [] := by
      have equal : ∀ b ∈ merged, onSide isCold c b = onSide isCold c link := fun b on =>
        mergedSide isCold freed.fits order (fits b (by simp [split,on])).some (inside b on).1 (inside b on).2
      rw [List.filter_congr equal]
      cases onSide isCold c link <;> simp
    have small : largest merged ≤ link.size := largestLe fun b on => by
      have bounds := inside b on
      simp only [Block.stop] at bounds
      omega
    have onSame : onSide isCold (updateMaxSizeOfFreeBlocks config link { c with freeBlockList := blocks }) = onSide isCold c := by
      funext b
      simp [onSide,warm,cold]
    have sizeSame : sizeOfLargestFreeBlock isCold { c with freeBlockList := blocks } = sizeOfLargestFreeBlock isCold c := by
      cases isCold <;> rfl
    rw [searchedEq,split,List.filter_append,List.filter_append,sides,largestAppend,largestAppend] at was
    have onSame' : onSide isCold { c with freeBlockList := blocks } link = onSide isCold c link := by
      cases isCold <;> rfl
    rw [searchedEq,same,onSame,size,onSame',sizeSame,was,split',List.filter_append,List.filter_cons]
    cases side : onSide isCold c link
    · simp
    · simp only [if_true,largestAppend,largestCons]
      omega
  · rw [Bookkept,if_neg recycling] at *
    rw [updateMaxSizeOfFreeBlocks,if_neg recycling]
    exact bookkept

theorem upAligned {n : Nat} (aligned : config.alignment ∣ n) : config.up n = n := by
  obtain ⟨k,rfl⟩ := aligned
  have wide := @alignmentWide config
  unfold Config.up
  rw [Nat.mul_add_div (by omega),Nat.div_eq_of_lt (by omega),Nat.add_zero,Nat.mul_comm]

theorem upMultiple (n : Nat) : config.alignment ∣ config.up n := Nat.dvd_mul_left _ _

-- What is off all that a block consists of is off the block.
theorem offCovered {merged : List Block} (wide : 0 < x.size) (wide' : 0 < link.size)
    (covered : ∀ n, link.start ≤ n → n < link.stop → b.start ≤ n ∧ n < b.stop ∨ ∃ y ∈ merged, y.start ≤ n ∧ n < y.stop)
    (off : Off x b) (offs : ∀ y ∈ merged, Off x y) : Off x link := by
  by_contra overlap
  have byte : ∃ n, x.start ≤ n ∧ n < x.stop ∧ link.start ≤ n ∧ n < link.stop := by
    refine ⟨max x.start link.start,?_⟩
    simp only [Off,Block.stop] at *
    omega
  obtain ⟨n,low,high,low',high'⟩ := byte
  rcases covered n low' high' with ⟨first,second⟩ | ⟨y,on,first,second⟩
  · simp only [Off] at off
    omega
  · have away := offs y on
    simp only [Off] at away
    omega

-- A range that is off everything becomes free.
theorem Layout.release (layout : Layout config c live) (fits : Fits config c b) (off : ∀ l ∈ live, Off b l.block)
    (off' : ∀ x ∈ c.freeBlockList, Off b x) : Layout config (addFreeBlock2 config b.start b.stop c).2 live := by
  have wide := fits.some
  unfold addFreeBlock2
  rw [upAligned fits.start]
  by_cases small : b.stop ≤ b.start + sizeofFreeCacheBlock
  · rw [if_pos small]
    exact layout
  · rw [if_neg small]
    have size : b.stop - b.start = b.size := by
      simp only [Block.stop]
      omega
    have freed : Freed config c b.start b.stop c.freeBlockList (insertBlock c b.start b.stop c.freeBlockList).1
        (insertBlock c b.start b.stop c.freeBlockList).2 := by
      refine insertFreed ?_ ?_ layout.sorted layout.frees fun x on => ?_
      · rw [size]
        exact fits
      · simp only [Block.stop]
        omega
      · exact (off' x on).symm
    have bookkept := bookkeptFreed freed layout.order layout.frees layout.bookkept
    obtain ⟨before,merged,after,split,split',-,covered,-⟩ := freed.split
    set link := (insertBlock c b.start b.stop c.freeBlockList).1
    set blocks := (insertBlock c b.start b.stop c.freeBlockList).2
    have fields := @updateMaxFields config link { c with freeBlockList := blocks }
    show Layout config (updateMaxSizeOfFreeBlocks config link { c with freeBlockList := blocks }) live
    set next := updateMaxSizeOfFreeBlocks config link { c with freeBlockList := blocks }
    have warm : c.warmCodeAlloc = next.warmCodeAlloc := fields.1.symm
    have cold : next.coldCodeAlloc = c.coldCodeAlloc := fields.2.1
    have same : next.freeBlockList = blocks := fields.2.2.1
    have recorded : next.recorded = c.recorded := fields.2.2.2
    have warm' := Nat.le_of_eq warm
    have cold' := Nat.le_of_eq cold
    have origin : ∀ x ∈ next.freeBlockList, x = link ∨ x ∈ c.freeBlockList := by
      intro x on
      rw [same,split',List.mem_append,List.mem_cons] at on
      rw [split]
      rcases on with early | rfl | late
      · simp [early]
      · exact .inl rfl
      · simp [late]
    refine ⟨?_,warm ▸ layout.aligned,fun l on => (layout.lives l on).mono warm' cold',layout.apart,?_,?_,?_,?_,bookkept⟩
    · rw [← warm,cold]
      exact layout.order
    · intro x on
      rcases origin x on with rfl | old
      · exact freed.fits.mono warm' cold'
      · exact (layout.frees x old).mono warm' cold'
    · rw [same]
      exact freed.sorted.imp fun apart => apart.mono warm' cold'
    · intro l on x free
      rcases origin x free with rfl | old
      · refine offCovered (layout.lives l on).some freed.fits.some covered (off l on).symm fun y among => ?_
        exact layout.mixed l on y (by simp [split,among])
      · exact layout.mixed l on x old
    · rw [recorded]
      exact layout.sizes

end

end OmrCompiler.CodeCache
