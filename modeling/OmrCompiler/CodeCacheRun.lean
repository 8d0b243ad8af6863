import OmrCompiler.CodeCacheLayout

/-! Runs of a code cache: allocations, trimming and freeing in any order. -/
namespace OmrCompiler.CodeCache

structure State where
  cache : Cache
  live : List Live

inductive Op where
  | allocate (request : Request)
  | trim (which actualSizeInBytes : Nat)
  | free (which : Nat)

-- Empty parts of a request hold nothing.
def hold (header : Bool) (b : Block) (live : List Live) : List Live := if b.size = 0 then live else ⟨b,header⟩::live

/- One call; the allocation it is about is given by its position among those in
use. Only an allocation with a method header can be trimmed. -/
def step (config : Config) (s : State) : Op → Option State
  | .allocate request => (allocateCodeMemory config request s.cache).map fun r =>
      match r.1 with
      | none => ⟨r.2.1,s.live⟩
      | some (warm,cold) => ⟨r.2.1,hold request.isMethodHeaderNeeded cold (hold request.isMethodHeaderNeeded warm s.live)⟩
  | .trim which actualSizeInBytes =>
      match s.live[which]? with
      | some ⟨b,true⟩ =>
          let r := trimCodeMemoryAllocation config b.start actualSizeInBytes s.cache
          let live := if r.1 then s.live.set which ⟨⟨b.start,config.up (actualSizeInBytes + sizeofMethodHeader)⟩,true⟩ else s.live
          some ⟨r.2.1,live⟩
      | _ => some s
  | .free which =>
      match s.live[which]? with
      | some l =>
          let r := addFreeBlock2 config l.block.start l.block.stop s.cache
          some ⟨r.2,if r.1 then s.live.eraseIdx which else s.live⟩
      | none => some s

def run (config : Config) (s : State) (ops : List Op) : Option State := ops.foldlM (step config) s

-- A code cache after its initialization.
structure Initial (config : Config) (s : State) : Prop where
  order : s.cache.warmCodeAlloc ≤ s.cache.coldCodeAlloc
  aligned : config.alignment ∣ s.cache.warmCodeAlloc
  live : s.live = []
  free : s.cache.freeBlockList = []
  largestWarm : s.cache.sizeOfLargestFreeWarmBlock = 0
  largestCold : s.cache.sizeOfLargestFreeColdBlock = 0

/- A block that a request for size bytes may get: new memory, or the part that is
used of the smallest free block that is large enough. -/
def Candidate (size : Nat) (isCold : Bool) (c : Cache) (b : Block) : Prop :=
  b.size = size ∧ size ≤ c.coldCodeAlloc - c.warmCodeAlloc ∨
    ∃ best ∈ searched isCold c, size ≤ best.size ∧ (∀ x ∈ searched isCold c, size ≤ x.size → best.size ≤ x.size) ∧ b = usedBlock size best

-- The size of one part of a request, with the header and rounded up.
def adjusted (config : Config) (request : Request) (isCold : Bool) : Nat :=
  let sizes := performSizeAdjustments config request.warmCodeSize request.coldCodeSize request.needsToBeContiguous request.isMethodHeaderNeeded
  if isCold then sizes.2 else sizes.1

-- The sizes of the blocks that the call may hand out fit into a method header.
def Narrow (config : Config) (s : State) : Op → Prop
  | .allocate request => request.isMethodHeaderNeeded = true →
      ∀ isCold b, Candidate (adjusted config request isCold) isCold s.cache b → b.size < 2 ^ 32
  | .trim _ _ => True
  | .free _ => True

-- The states of the runs with narrow requests.
inductive Reached (config : Config) (s : State) : State → Prop where
  | start : Reached config s s
  | next {op : Op} {middle last : State} (before : Reached config s middle) (narrow : Narrow config middle op)
      (ran : step config middle op = some last) : Reached config s last

/- The blocks in use and the free ones are disjoint and outside the unused middle;
the free list ascends, and only a warm and a cold block of it touch; the headers
have the sizes of the blocks. -/
structure HandedOutOnce (s : State) : Prop where
  order : s.cache.warmCodeAlloc ≤ s.cache.coldCodeAlloc
  disjoint : (s.live.map Live.block ++ s.cache.freeBlockList).Pairwise Off
  placed : ∀ b ∈ s.live.map Live.block ++ s.cache.freeBlockList, b.stop ≤ s.cache.warmCodeAlloc ∨ s.cache.coldCodeAlloc ≤ b.start
  ascending : s.cache.freeBlockList.Pairwise fun x y => x.start < y.start
  merged : s.cache.freeBlockList.Pairwise fun x y => x.stop = y.start → Border s.cache x.start y.start
  recorded : ∀ l ∈ s.live, l.headed = true → s.cache.recorded l.block.start = l.block.size

section
variable {config : Config} {c c' : Cache} {s s' : State} {size : Nat} {b : Block} {l : Live} {live : List Live} {isCold header : Bool}

theorem downMultiple (n : Nat) : config.alignment ∣ config.down n := Nat.dvd_mul_left _ _

theorem downLe (n : Nat) : config.down n ≤ n := Nat.div_mul_le_self _ _

theorem leDown {m n : Nat} (aligned : config.alignment ∣ m) (below : m ≤ n) : m ≤ config.down n := by
  obtain ⟨k,rfl⟩ := aligned
  have wide := @alignmentWide config
  have quotient : k ≤ n / config.alignment := (Nat.le_div_iff_mul_le (by omega)).mpr (by rwa [Nat.mul_comm])
  rw [Nat.mul_comm]
  exact Nat.mul_le_mul_right _ quotient

theorem leUp (n : Nat) : n ≤ config.up n := by
  have wide := @alignmentWide config
  have parts := Nat.div_add_mod (n + (config.alignment - 1)) config.alignment
  have small := Nat.mod_lt (n + (config.alignment - 1)) (show 0 < config.alignment by omega)
  rw [Nat.mul_comm] at parts
  unfold Config.up
  omega

-- The low 32 bits of an aligned size are aligned.
theorem alignedLow {n : Nat} (aligned : config.alignment ∣ n) : config.alignment ∣ n % 2 ^ 32 := by
  unfold Config.alignment at *
  rcases Nat.le_total config.shift 32 with small | large
  · exact (Nat.dvd_mod_iff (Nat.pow_dvd_pow 2 small)).mpr aligned
  · rw [Nat.mod_eq_zero_of_dvd (Nat.dvd_trans (Nat.pow_dvd_pow 2 large) aligned)]
    exact Nat.dvd_zero _

-- A free block is used only if the bookkeeping says that one is large enough.
theorem searchSucceeds (isCold header : Bool) (layout : Layout config c live) (positive : 0 < size) (aligned : config.alignment ∣ size)
    (enough : size ≤ sizeOfLargestFreeBlock isCold c) : ∃ b c', findFreeBlock size isCold header c = some (b,c') ∧
      Layout config c' (⟨b,header⟩::live) ∧ size ≤ b.size ∧ Candidate size isCold c b ∧ c'.warmCodeAlloc = c.warmCodeAlloc ∧
      c'.coldCodeAlloc = c.coldCodeAlloc ∧ sizeOfLargestFreeBlock (!isCold) c' = sizeOfLargestFreeBlock (!isCold) c ∧
      searched (!isCold) c' = searched (!isCold) c := by
  have recycling : config.recycling = true := by
    by_contra off
    have bookkept := layout.bookkept
    rw [Bookkept,if_neg off] at bookkept
    cases isCold <;> simp only [sizeOfLargestFreeBlock,Bool.false_eq_true,if_true,if_false] at enough <;> omega
  have exact := layout.bookkept
  rw [Bookkept,if_pos recycling] at exact
  rw [exact isCold] at enough
  obtain ⟨best,next,taken,found⟩ := findTaken header layout.sorted layout.frees layout.order positive enough
  obtain ⟨warm,cold,same,largestWarm,largestCold⟩ := writeMethodHeaderFields header (usedBlock size best) next
  have kept : Bookkept config next := by
    rw [Bookkept,if_pos recycling]
    exact taken.exact exact
  have member : best ∈ searched isCold c := by
    obtain ⟨before,after,list,-⟩ := taken.list
    rw [searchedEq]
    exact List.mem_filter.mpr ⟨by simp [list],taken.side⟩
  refine ⟨_,_,found,layout.take header taken positive aligned kept,(usedInside taken.enough).2.2.1,
    .inr ⟨best,member,taken.enough,taken.least,rfl⟩,warm.trans taken.warm,cold.trans taken.cold,?_,?_⟩
  · rw [← taken.other]
    cases isCold
    · exact largestCold
    · exact largestWarm
  · rw [← taken.rest]
    simp only [searched,warm,cold,same]

theorem holdBlock (positive : b.size ≠ 0) : hold header b live = ⟨b,header⟩::live := if_neg positive

-- New memory at the warm end.
theorem Layout.warm (layout : Layout config c live) (positive : 0 < size) (aligned : config.alignment ∣ size)
    (room : c.warmCodeAlloc + size ≤ c.coldCodeAlloc) :
    Layout config (writeMethodHeader header ⟨c.warmCodeAlloc,size⟩ { c with warmCodeAlloc := c.warmCodeAlloc + size })
      (⟨⟨c.warmCodeAlloc,size⟩,header⟩::live) := by
  have grown : Layout config { c with warmCodeAlloc := c.warmCodeAlloc + size } live := by
    refine layout.grow (Nat.le_add_right _ _) (Nat.le_refl _) room (Nat.dvd_add layout.aligned aligned) rfl rfl ?_
    refine bookkeptMoved layout.order room rfl rfl rfl (fun b on => (layout.frees b on).some) (fun b on => ?_) layout.bookkept
    have region := (layout.frees b on).region
    simp only
    omega
  refine grown.add header ⟨layout.aligned,aligned,positive,.inl (Nat.le_refl _)⟩ (fun l on => ?_) fun x on => ?_
  · have region := (layout.lives l on).region
    simp only [Off,Block.stop] at *
    omega
  · have region := (layout.frees x on).region
    simp only [Off,Block.stop] at *
    omega

-- New memory at the cold end.
theorem Layout.cold (layout : Layout config c live) (positive : 0 < size) (aligned : config.alignment ∣ size)
    (room : c.warmCodeAlloc + size ≤ c.coldCodeAlloc) :
    Layout config
      (writeMethodHeader header ⟨config.down (c.coldCodeAlloc - size),size⟩ { c with coldCodeAlloc := config.down (c.coldCodeAlloc - size) })
      (⟨⟨config.down (c.coldCodeAlloc - size),size⟩,header⟩::live) := by
  have below := @downLe config (c.coldCodeAlloc - size)
  have above : c.warmCodeAlloc ≤ config.down (c.coldCodeAlloc - size) := leDown layout.aligned (by omega)
  have grown : Layout config { c with coldCodeAlloc := config.down (c.coldCodeAlloc - size) } live := by
    refine layout.grow (Nat.le_refl _) (show config.down _ ≤ c.coldCodeAlloc by omega) above layout.aligned rfl rfl ?_
    refine bookkeptMoved layout.order above rfl rfl rfl (fun b on => (layout.frees b on).some) (fun b on => ?_) layout.bookkept
    have region := (layout.frees b on).region
    simp only
    omega
  refine grown.add header ⟨downMultiple _,aligned,positive,.inr (Nat.le_refl _)⟩ (fun l on => ?_) fun x on => ?_
  · have region := (layout.lives l on).region
    simp only [Off,Block.stop] at *
    omega
  · have region := (layout.frees x on).region
    simp only [Off,Block.stop] at *
    omega

-- What allocating one part has done: the block is a candidate and is in use now.
structure Part (config : Config) (size : Nat) (isCold header : Bool) (c : Cache) (live : List Live) (b : Block) (c' : Cache) (spent : Int) :
    Prop where
  layout : Layout config c' (hold header b live)
  candidate : b.size = 0 ∨ Candidate size isCold c b
  ends : c.warmCodeAlloc ≤ c'.warmCodeAlloc ∧ c'.coldCodeAlloc ≤ c.coldCodeAlloc
  other : sizeOfLargestFreeBlock (!isCold) c' = sizeOfLargestFreeBlock (!isCold) c
  rest : searched (!isCold) c' = searched (!isCold) c
  spends : (c'.coldCodeAlloc - c'.warmCodeAlloc : Int) = c.coldCodeAlloc - c.warmCodeAlloc + spent

theorem warmPart (isFreeBlock : Bool) (layout : Layout config c live) (aligned : config.alignment ∣ size)
    (enough : isFreeBlock = true → 0 < size ∧ size ≤ c.sizeOfLargestFreeWarmBlock) :
    allocateWarm config size isFreeBlock header c = some (none,c,0) ∨
    ∃ b c' spent, allocateWarm config size isFreeBlock header c = some (some b,c',spent) ∧ Part config size false header c live b c' spent ∧
      c'.warmCodeAlloc + (if isFreeBlock then size else 0) = c.warmCodeAlloc + size ∧ c'.coldCodeAlloc = c.coldCodeAlloc := by
  unfold allocateWarm
  cases isFreeBlock with
  | true =>
      obtain ⟨positive,room⟩ := enough rfl
      obtain ⟨b,c',found,layout',large,candidate,warm,cold,other,rest⟩ := searchSucceeds false header layout positive aligned room
      refine .inr ⟨b,c',0,by simp [found],⟨?_,.inr candidate,by omega,other,rest,by omega⟩,by simp [warm],cold⟩
      rw [holdBlock (by omega)]
      exact layout'
  | false =>
      simp only [Bool.false_eq_true,if_false,upAligned layout.aligned]
      by_cases empty : size = 0
      · rw [if_pos empty]
        exact .inr ⟨⟨c.warmCodeAlloc,0⟩,c,0,rfl,⟨layout,.inl rfl,by omega,rfl,rfl,by omega⟩,by omega,rfl⟩
      · rw [if_neg empty]
        by_cases full : c.coldCodeAlloc < c.warmCodeAlloc + size
        · rw [if_pos full]
          exact .inl rfl
        · rw [if_neg full]
          obtain ⟨warm,cold,same,largestWarm,largestCold⟩ :=
            writeMethodHeaderFields header ⟨c.warmCodeAlloc,size⟩ { c with warmCodeAlloc := c.warmCodeAlloc + size }
          refine .inr ⟨_,_,_,rfl,⟨?_,.inr (.inl ⟨rfl,by omega⟩),?_,largestCold,?_,?_⟩,?_,cold⟩
          · rw [holdBlock empty]
            exact layout.warm (by omega) aligned (by omega)
          · rw [warm,cold]
            simp only
            omega
          · simp [searched,cold,same]
          · rw [warm,cold]
            simp only
            omega
          · rw [warm]
            rfl

theorem coldPart (isFreeBlock warmIsFreeBlock : Bool) (warm : Block) (layout : Layout config c live) (aligned : config.alignment ∣ size)
    (enough : isFreeBlock = true → 0 < size ∧ size ≤ c.sizeOfLargestFreeColdBlock)
    (room : isFreeBlock = false → size ≠ 0 → c.warmCodeAlloc + size ≤ c.coldCodeAlloc) :
    ∃ b c' spent, allocateCold config size isFreeBlock header warmIsFreeBlock warm c = some (some b,c',spent) ∧
      Part config size true header c live b c' spent := by
  unfold allocateCold
  cases isFreeBlock with
  | true =>
      obtain ⟨positive,least⟩ := enough rfl
      obtain ⟨b,c',found,layout',large,candidate,warm,cold,other,rest⟩ := searchSucceeds true header layout positive aligned least
      refine ⟨b,c',0,by simp [found],⟨?_,.inr candidate,by omega,other,rest,by omega⟩⟩
      rw [holdBlock (by omega)]
      exact layout'
  | false =>
      simp only [Bool.false_eq_true,if_false]
      by_cases empty : size = 0
      · rw [if_pos empty]
        exact ⟨⟨c.coldCodeAlloc,0⟩,c,0,rfl,⟨layout,.inl rfl,by omega,rfl,rfl,by omega⟩⟩
      · have space := room rfl empty
        have below := @downLe config (c.coldCodeAlloc - size)
        have above : c.warmCodeAlloc ≤ config.down (c.coldCodeAlloc - size) := leDown layout.aligned (by omega)
        rw [if_neg empty,if_neg (by omega)]
        obtain ⟨warm,cold,same,largestWarm,largestCold⟩ :=
          writeMethodHeaderFields header ⟨config.down (c.coldCodeAlloc - size),size⟩ { c with coldCodeAlloc := config.down (c.coldCodeAlloc - size) }
        refine ⟨_,_,_,rfl,⟨?_,.inr (.inl ⟨rfl,by omega⟩),?_,largestWarm,?_,?_⟩⟩
        · rw [holdBlock empty]
          exact layout.cold (by omega) aligned space
        · rw [warm,cold]
          simp only
          omega
        · simp [searched,warm,same]
        · rw [warm,cold]
          simp only
          omega

theorem adjustedAligned (warmCodeSize coldCodeSize : Nat) (needsToBeContiguous isMethodHeaderNeeded : Bool) :
    config.alignment ∣ (performSizeAdjustments config warmCodeSize coldCodeSize needsToBeContiguous isMethodHeaderNeeded).1 ∧
    config.alignment ∣ (performSizeAdjustments config warmCodeSize coldCodeSize needsToBeContiguous isMethodHeaderNeeded).2 := by
  have multiple : ∀ m n : Nat, config.alignment ∣ if m = 0 then 0 else config.up n := by
    intro m n
    split
    · exact Nat.dvd_zero _
    · exact upMultiple n
  unfold performSizeAdjustments
  cases needsToBeContiguous
  · exact ⟨multiple _ _,multiple _ _⟩
  · exact ⟨multiple _ _,Nat.dvd_zero _⟩

-- A candidate of a cache where the warm part has been allocated was one before.
theorem Candidate.earlier (candidate : Candidate size isCold c' b) (warm : c.warmCodeAlloc ≤ c'.warmCodeAlloc)
    (cold : c'.coldCodeAlloc ≤ c.coldCodeAlloc) (same : searched isCold c' = searched isCold c) : Candidate size isCold c b := by
  rcases candidate with ⟨equal,room⟩ | found
  · exact .inl ⟨equal,by omega⟩
  · rw [same] at found
    exact .inr found

theorem allocateLayout (request : Request) (layout : Layout config c live) :
    allocateCodeMemory config request c = some (none,c,0) ∨
    ∃ warm cold c' spent, allocateCodeMemory config request c = some (some (warm,cold),c',spent) ∧
      Layout config c' (hold request.isMethodHeaderNeeded cold (hold request.isMethodHeaderNeeded warm live)) ∧
      (warm.size = 0 ∨ Candidate (adjusted config request false) false c warm) ∧
      (cold.size = 0 ∨ Candidate (adjusted config request true) true c cold) ∧
      (c'.coldCodeAlloc - c'.warmCodeAlloc : Int) = c.coldCodeAlloc - c.warmCodeAlloc + spent := by
  have alignments := @adjustedAligned config request.warmCodeSize request.coldCodeSize request.needsToBeContiguous request.isMethodHeaderNeeded
  obtain ⟨alignedWarm,alignedCold⟩ := alignments
  have sizeWarm : adjusted config request false = (performSizeAdjustments config request.warmCodeSize request.coldCodeSize
    request.needsToBeContiguous request.isMethodHeaderNeeded).1 := rfl
  have sizeCold : adjusted config request true = (performSizeAdjustments config request.warmCodeSize request.coldCodeSize
    request.needsToBeContiguous request.isMethodHeaderNeeded).2 := rfl
  rw [← sizeWarm] at alignedWarm
  rw [← sizeCold] at alignedCold
  unfold allocateCodeMemory
  simp only [← sizeWarm,← sizeCold]
  set warmSize := adjusted config request false
  set coldSize := adjusted config request true
  set warmIsFreeBlock := !request.needsToBeContiguous && warmSize != 0 && decide (warmSize ≤ c.sizeOfLargestFreeWarmBlock) with warmIs
  set coldIsFreeBlock := !request.needsToBeContiguous && coldSize != 0 && decide (coldSize ≤ c.sizeOfLargestFreeColdBlock) with coldIs
  have warmEnough : warmIsFreeBlock = true → 0 < warmSize ∧ warmSize ≤ c.sizeOfLargestFreeWarmBlock := by
    intro yes
    rw [warmIs] at yes
    simp only [Bool.and_eq_true,bne_iff_ne,decide_eq_true_eq] at yes
    omega
  have coldEnough : coldIsFreeBlock = true → 0 < coldSize ∧ coldSize ≤ c.sizeOfLargestFreeColdBlock := by
    intro yes
    rw [coldIs] at yes
    simp only [Bool.and_eq_true,bne_iff_ne,decide_eq_true_eq] at yes
    omega
  by_cases full : coldSize ≠ 0 ∧ coldIsFreeBlock = false ∧
      c.coldCodeAlloc - c.warmCodeAlloc < coldSize + (if warmIsFreeBlock then 0 else warmSize)
  · rw [if_pos full]
    exact .inl rfl
  · rw [if_neg full]
    rcases @warmPart config c warmSize live request.isMethodHeaderNeeded warmIsFreeBlock layout alignedWarm warmEnough with
      result | ⟨warm,c',spent,result,part,moved,stays⟩
    · rw [result]
      exact .inl rfl
    · have order := layout.order
      have coldSame : c'.sizeOfLargestFreeColdBlock = c.sizeOfLargestFreeColdBlock := part.other
      have room : coldIsFreeBlock = false → coldSize ≠ 0 → c'.warmCodeAlloc + coldSize ≤ c'.coldCodeAlloc := by
        intro heap some
        have space : ¬c.coldCodeAlloc - c.warmCodeAlloc < coldSize + (if warmIsFreeBlock then 0 else warmSize) := fun less => full ⟨some,heap,less⟩
        by_cases free : warmIsFreeBlock = true
        · rw [if_pos free] at space moved
          omega
        · rw [if_neg free] at space moved
          omega
      obtain ⟨cold,last,spent',result',part'⟩ := @coldPart config c' coldSize (hold request.isMethodHeaderNeeded warm live)
        request.isMethodHeaderNeeded coldIsFreeBlock warmIsFreeBlock warm part.layout alignedCold
        (fun free => by rw [coldSame]; exact coldEnough free) room
      refine .inr ⟨warm,cold,last,spent + spent',?_,part'.layout,part.candidate,?_,by have := part.spends; have := part'.spends; omega⟩
      · rw [result]
        simp only [Option.bind_eq_bind,Option.bind_some,result']
        rfl
      · rcases part'.candidate with empty | candidate
        · exact .inl empty
        · exact .inr (candidate.earlier part.ends.1 part.ends.2 part.rest)

-- The allocation has become shorter; its header is written later.
theorem Layout.shorten {n : Nat} (layout : Layout config c (l::live)) (positive : 0 < n) (aligned : config.alignment ∣ n) (less : n ≤ l.block.size) :
    Layout config c (⟨⟨l.block.start,n⟩,false⟩::live) := by
  have fits := layout.lives l (by simp)
  have region := fits.region
  obtain ⟨apart,rest⟩ := List.pairwise_cons.mp layout.apart
  have low : l.block.start ≤ (⟨l.block.start,n⟩ : Block).start := Nat.le_refl _
  have high : (⟨l.block.start,n⟩ : Block).stop ≤ l.block.stop := by
    simp only [Block.stop]
    omega
  refine ⟨layout.order,layout.aligned,fun x on => ?_,List.pairwise_cons.mpr ⟨fun x on => (apart x on).part low high,rest⟩,layout.frees,
    layout.sorted,fun x on y free => ?_,fun x on headed => ?_,layout.bookkept⟩
  · rcases List.mem_cons.mp on with rfl | old
    · refine ⟨fits.start,aligned,positive,?_⟩
      simp only [Block.stop] at *
      omega
    · exact layout.lives x (List.mem_cons_of_mem _ old)
  · rcases List.mem_cons.mp on with rfl | old
    · exact (layout.mixed l (by simp) y free).part low high
    · exact layout.mixed x (List.mem_cons_of_mem _ old) y free
  · rcases List.mem_cons.mp on with rfl | old
    · simp at headed
    · exact layout.sizes x (List.mem_cons_of_mem _ old) headed

theorem Layout.rehead (layout : Layout config c (⟨b,header⟩::live)) : Layout config (setHeaderSize b.start b.size c) (⟨b,true⟩::live) :=
  layout.drop.add true (layout.lives ⟨b,header⟩ List.mem_cons_self) (fun l on => (List.pairwise_cons.mp layout.apart).1 l on)
    fun x on => layout.mixed ⟨b,header⟩ List.mem_cons_self x on

-- The last warm allocation has become shorter, and the warm end has moved back.
theorem Layout.lower {n : Nat} (layout : Layout config c (l::live)) (positive : 0 < n) (aligned : config.alignment ∣ n) (less : n ≤ l.block.size)
    (last : l.block.stop = c.warmCodeAlloc) :
    Layout config { c with warmCodeAlloc := l.block.start + n } (⟨⟨l.block.start,n⟩,false⟩::live) := by
  have short := layout.shorten positive aligned less
  have fits := layout.lives l (by simp)
  have order := layout.order
  obtain ⟨apart,-⟩ := List.pairwise_cons.mp layout.apart
  -- everything else is below the allocation or cold
  have below : ∀ x : Block, Fits config c x → Off l.block x → x.stop ≤ l.block.start ∨ c.coldCodeAlloc ≤ x.start := by
    intro x fits' off
    have region := fits'.region
    have wide := fits'.some
    simp only [Off,Block.stop] at *
    omega
  have back : ∀ x : Block, Fits config c x → Off l.block x → Fits config { c with warmCodeAlloc := l.block.start + n } x := by
    intro x fits' off
    refine ⟨fits'.start,fits'.size,fits'.some,?_⟩
    have region := below x fits' off
    simp only
    omega
  have sides : ∀ x ∈ c.freeBlockList, x.stop ≤ l.block.start ∨ c.coldCodeAlloc ≤ x.start := fun x on =>
    below x (layout.frees x on) (layout.mixed l (by simp) x on)
  have order' : l.block.start + n ≤ c.coldCodeAlloc := by
    simp only [Block.stop] at last
    omega
  refine ⟨order',Nat.dvd_add fits.start aligned,fun x on => ?_,short.apart,fun x on => ?_,?_,short.mixed,short.sizes,?_⟩
  · rcases List.mem_cons.mp on with rfl | old
    · exact ⟨fits.start,aligned,positive,.inl (Nat.le_refl _)⟩
    · exact back _ (layout.lives x (List.mem_cons_of_mem _ old)) (apart x old)
  · exact back _ (layout.frees x on) (layout.mixed l (by simp) x on)
  · refine layout.sorted.imp_of_mem fun {x y} first second separate => ?_
    have wide := (layout.frees x first).some
    have side := sides x first
    simp only [Apart,Border,Block.stop] at *
    omega
  · refine bookkeptMoved layout.order order' rfl rfl rfl (fun b on => (layout.frees b on).some) (fun b on => ?_) layout.bookkept
    have side := sides b on
    have small : l.block.start ≤ c.warmCodeAlloc := by
      simp only [Block.stop] at last
      omega
    simp only
    omega

theorem trimLayout (actualSizeInBytes : Nat) (layout : Layout config c (⟨b,true⟩::live)) :
    let r := trimCodeMemoryAllocation config b.start actualSizeInBytes c
    Layout config r.2.1 (⟨if r.1 then ⟨b.start,config.up (actualSizeInBytes + sizeofMethodHeader)⟩ else b,true⟩::live) := by
  intro r
  unfold r trimCodeMemoryAllocation
  by_cases empty : actualSizeInBytes = 0
  · rw [if_pos empty]
    exact layout
  · rw [if_neg empty]
    have fits : Fits config c b := layout.lives _ List.mem_cons_self
    have size : c.recorded b.start = b.size % 2 ^ 32 := layout.sizes _ List.mem_cons_self rfl
    have atMost : c.recorded b.start ≤ b.size := size ▸ Nat.mod_le _ _
    have upper := @leUp config (actualSizeInBytes + sizeofMethodHeader)
    have alignedSize : config.alignment ∣ c.recorded b.start := size ▸ alignedLow fits.size
    have aligned := @upMultiple config (actualSizeInBytes + sizeofMethodHeader)
    set actual := config.up (actualSizeInBytes + sizeofMethodHeader)
    have positive : 0 < actual := by omega
    by_cases same : c.recorded b.start ≤ actual
    · simp only [if_pos same]
      exact layout
    · simp only [if_neg same]
      by_cases last : b.start + c.recorded b.start = c.warmCodeAlloc
      · simp only [if_pos last,if_true]
        have order := layout.order
        have region := fits.region
        have whole : b.start + b.size = c.warmCodeAlloc := by
          simp only [Block.stop] at region
          omega
        have lowered := layout.lower positive aligned (show actual ≤ b.size by omega) whole
        rw [show c.warmCodeAlloc - (c.recorded b.start - actual) = b.start + actual by omega]
        exact lowered.rehead
      · simp only [if_neg last]
        by_cases enough : minSizeBlock ≤ c.recorded b.start - actual
        · simp only [if_pos enough,if_true]
          have short := layout.shorten positive aligned (show actual ≤ b.size by omega)
          have region := fits.region
          have tail : Fits config c ⟨b.start + actual,c.recorded b.start - actual⟩ := by
            refine ⟨Nat.dvd_add fits.start aligned,Nat.dvd_sub alignedSize aligned,show 0 < c.recorded b.start - actual by omega,?_⟩
            simp only [Block.stop] at *
            omega
          have low : b.start ≤ (⟨b.start + actual,c.recorded b.start - actual⟩ : Block).start := Nat.le_add_right _ _
          have high : (⟨b.start + actual,c.recorded b.start - actual⟩ : Block).stop ≤ b.stop := by
            simp only [Block.stop]
            omega
          have released := short.release tail (fun x on => ?_) fun x on => (layout.mixed _ List.mem_cons_self x on).part low high
          · rw [show (⟨b.start + actual,c.recorded b.start - actual⟩ : Block).stop = b.start + c.recorded b.start by
              simp only [Block.stop]
              omega] at released
            exact released.rehead
          · rcases List.mem_cons.mp on with rfl | old
            · exact .inr (Nat.le_refl _)
            · exact ((List.pairwise_cons.mp layout.apart).1 x old).part low high
        · simp only [if_neg enough]
          exact layout

theorem freeLayout (layout : Layout config c (l::live)) :
    Layout config (addFreeBlock2 config l.block.start l.block.stop c).2 live :=
  layout.drop.release (layout.lives l (by simp)) (fun x on => (List.pairwise_cons.mp layout.apart).1 x on)
    fun x on => layout.mixed l (by simp) x on

theorem notFreed {start stop : Nat} (failed : (addFreeBlock2 config start stop c).1 ≠ true) : (addFreeBlock2 config start stop c).2 = c := by
  unfold addFreeBlock2 at *
  by_cases small : stop ≤ config.up start + sizeofFreeCacheBlock
  · rw [if_pos small]
  · rw [if_neg small] at failed
    simp at failed

theorem initialLayout (initial : Initial config s) : Layout config s.cache s.live := by
  have none := initial.free
  refine ⟨initial.order,initial.aligned,by simp [initial.live],by simp [initial.live],by simp [none],by simp [none],by simp [none],
    by simp [initial.live],?_⟩
  unfold Bookkept
  split
  · intro isCold
    rw [searchedEq,none]
    cases isCold
    · exact initial.largestWarm
    · exact initial.largestCold
  · exact ⟨initial.largestWarm,initial.largestCold⟩

theorem stepLayout (layout : Layout config s.cache s.live) (op : Op) :
    ∃ s', step config s op = some s' ∧ Layout config s'.cache s'.live := by
  cases op with
  | allocate request =>
      rcases allocateLayout request layout with refused | ⟨warm,cold,c',spent,granted,layout',-⟩
      · exact ⟨s,by simp [step,refused],layout⟩
      · refine ⟨⟨c',hold request.isMethodHeaderNeeded cold (hold request.isMethodHeaderNeeded warm s.live)⟩,?_,layout'⟩
        simp only [step,granted,Option.map_some]
  | trim which actualSizeInBytes =>
      cases found : s.live[which]? with
      | none => exact ⟨s,by simp [step,found],layout⟩
      | some l =>
          obtain ⟨b,headed⟩ := l
          cases headed with
          | false => exact ⟨s,by simp [step,found],layout⟩
          | true =>
              obtain ⟨bound,equal⟩ := List.getElem?_eq_some_iff.mp found
              have front := layout.perm (List.getElem_cons_eraseIdx_perm bound).symm
              rw [equal] at front
              have trimmed := trimLayout actualSizeInBytes front
              simp only [step,found]
              refine ⟨_,rfl,?_⟩
              by_cases success : (trimCodeMemoryAllocation config b.start actualSizeInBytes s.cache).1 = true
              · simp only [success,if_true] at trimmed ⊢
                exact trimmed.perm (List.set_perm_cons_eraseIdx bound _).symm
              · simp only [if_neg success] at trimmed ⊢
                refine trimmed.perm ?_
                rw [← equal]
                exact List.getElem_cons_eraseIdx_perm bound
  | free which =>
      cases found : s.live[which]? with
      | none => exact ⟨s,by simp [step,found],layout⟩
      | some l =>
          obtain ⟨bound,equal⟩ := List.getElem?_eq_some_iff.mp found
          have front := layout.perm (List.getElem_cons_eraseIdx_perm bound).symm
          rw [equal] at front
          simp only [step,found]
          refine ⟨_,rfl,?_⟩
          by_cases success : (addFreeBlock2 config l.block.start l.block.stop s.cache).1 = true
          · simp only [if_pos success]
            exact freeLayout front
          · simp only [if_neg success,notFreed success]
            exact layout

theorem runLayout (layout : Layout config s.cache s.live) (ops : List Op) :
    ∃ s', run config s ops = some s' ∧ Layout config s'.cache s'.live := by
  induction ops generalizing s with
  | nil => exact ⟨s,rfl,layout⟩
  | cons op ops ih =>
      obtain ⟨next,first,layout'⟩ := stepLayout layout op
      obtain ⟨last,rest,layout''⟩ := ih layout'
      refine ⟨last,?_,layout''⟩
      unfold run at *
      rw [List.foldlM_cons,first]
      exact rest

-- Trimming succeeds only to less than the recorded size.
theorem trimSmaller {actualSizeInBytes address : Nat} (success : (trimCodeMemoryAllocation config address actualSizeInBytes c).1 = true) :
    config.up (actualSizeInBytes + sizeofMethodHeader) < c.recorded address := by
  unfold trimCodeMemoryAllocation at success
  by_cases empty : actualSizeInBytes = 0
  · simp [empty] at success
  · rw [if_neg empty] at success
    by_contra same
    simp only [if_pos (Nat.not_lt.mp same),Bool.false_eq_true] at success

theorem stepNarrow {op : Op} (layout : Layout config s.cache s.live) (small : ∀ l ∈ s.live, l.headed = true → l.block.size < 2 ^ 32)
    (narrow : Narrow config s op) (ran : step config s op = some s') : ∀ l ∈ s'.live, l.headed = true → l.block.size < 2 ^ 32 := by
  cases op with
  | allocate request =>
      rcases allocateLayout request layout with refused | ⟨warm,cold,c',spent,granted,-,first,second,-⟩
      · simp only [step,refused,Option.map_some] at ran
        cases ran
        exact small
      · simp only [step,granted,Option.map_some] at ran
        cases ran
        have held : ∀ {b : Block} {live : List Live} {isCold : Bool}, (b.size = 0 ∨ Candidate (adjusted config request isCold) isCold s.cache b) →
            (∀ l ∈ live, l.headed = true → l.block.size < 2 ^ 32) →
            ∀ l ∈ hold request.isMethodHeaderNeeded b live, l.headed = true → l.block.size < 2 ^ 32 := by
          intro b live isCold candidate before l on headed
          unfold hold at on
          split at on
          · exact before l on headed
          · rename_i positive
            rcases List.mem_cons.mp on with rfl | old
            · exact narrow headed isCold b (candidate.resolve_left positive)
            · exact before l old headed
        exact held second (held first small)
  | trim which actualSizeInBytes =>
      cases found : s.live[which]? with
      | none =>
          simp only [step,found] at ran
          cases ran
          exact small
      | some l =>
          obtain ⟨b,headed⟩ := l
          cases headed with
          | false =>
              simp only [step,found] at ran
              cases ran
              exact small
          | true =>
              have recorded := layout.sizes _ (List.mem_of_getElem? found) rfl
              simp only [step,found] at ran
              cases ran
              simp only
              intro l on headed
              split at on
              · rename_i success
                have less := trimSmaller success
                have bound := Nat.mod_lt b.size (show 0 < 2 ^ 32 by decide)
                rcases List.mem_or_eq_of_mem_set on with old | rfl
                · exact small l old headed
                · show config.up (actualSizeInBytes + sizeofMethodHeader) < 2 ^ 32
                  simp only at recorded
                  omega
              · exact small l on headed
  | free which =>
      cases found : s.live[which]? with
      | none =>
          simp only [step,found] at ran
          cases ran
          exact small
      | some l =>
          simp only [step,found] at ran
          cases ran
          simp only
          intro l on headed
          split at on
          · exact small l (List.mem_of_mem_eraseIdx on) headed
          · exact small l on headed

theorem reachedLayout (layout : Layout config s.cache s.live) (small : ∀ l ∈ s.live, l.headed = true → l.block.size < 2 ^ 32)
    (reached : Reached config s s') : Layout config s'.cache s'.live ∧ ∀ l ∈ s'.live, l.headed = true → l.block.size < 2 ^ 32 := by
  induction reached with
  | start => exact ⟨layout,small⟩
  | @next op middle last before narrow ran ih =>
      obtain ⟨layout',small'⟩ := ih
      obtain ⟨result,same,layout''⟩ := stepLayout layout' op
      rw [ran] at same
      cases same
      exact ⟨layout'',stepNarrow layout' small' narrow ran⟩

/- No byte is handed out twice: in every state that a run reaches whose requests
are narrow. -/
theorem memoryHandedOutOnce (initial : Initial config s) (reached : Reached config s s') : HandedOutOnce s' := by
  obtain ⟨layout,small⟩ := reachedLayout (initialLayout initial) (by simp [initial.live]) reached
  have ordered : s'.cache.freeBlockList.Pairwise fun x y => x.stop ≤ y.start := layout.sorted.imp fun apart => apart.startBelow
  refine ⟨layout.order,?_,?_,?_,?_,?_⟩
  · refine List.pairwise_append.mpr ⟨List.pairwise_map.mpr layout.apart,ordered.imp fun before => .inl before,fun x on y free => ?_⟩
    obtain ⟨l,among,rfl⟩ := List.mem_map.mp on
    exact layout.mixed l among y free
  · intro b on
    rcases List.mem_append.mp on with live | free
    · obtain ⟨l,among,rfl⟩ := List.mem_map.mp live
      exact (layout.lives l among).region
    · exact (layout.frees b free).region
  · refine layout.sorted.imp_of_mem fun {x y} first _ apart => ?_
    have wide := (layout.frees x first).some
    have below := apart.startBelow
    rw [Block.stop] at below
    omega
  · refine layout.sorted.imp fun apart touch => ?_
    rcases apart with before | ⟨-,border⟩
    · omega
    · exact border
  · intro l on headed
    rw [layout.sizes l on headed,Nat.mod_eq_of_lt (small l on headed)]

end

def sampleConfig : Config := ⟨5,by decide,true⟩

def sampleState : State := ⟨⟨2 ^ 16,2 ^ 16 + 2 ^ 33,[],0,0,fun _ => 0⟩,[]⟩

theorem sampleInitial : Initial sampleConfig sampleState := ⟨by decide,by decide,rfl,rfl,rfl,rfl⟩

theorem sampleNarrow : Narrow sampleConfig sampleState (.allocate ⟨100,50,false,true⟩) := by
  intro _ isCold b candidate
  rcases candidate with ⟨equal,-⟩ | ⟨best,on,-⟩
  · rw [equal]
    cases isCold <;> decide
  · rw [searchedEq] at on
    simp [sampleState] at on

theorem memoryHandedOutOnceSample : ∃ s, step sampleConfig sampleState (.allocate ⟨100,50,false,true⟩) = some s ∧ s.live.length = 2 ∧ HandedOutOnce s :=
  ⟨_,rfl,rfl,memoryHandedOutOnce sampleInitial (.next .start sampleNarrow rfl)⟩

-- 2 ^ 32 - 1 bytes and a header are more than a header can record.
theorem recordedSizeLost : ∃ s, Initial sampleConfig sampleState ∧ run sampleConfig sampleState [.allocate ⟨2 ^ 32 - 1,0,false,true⟩] = some s ∧
    s.live = [⟨⟨2 ^ 16,2 ^ 32 + 32⟩,true⟩] ∧ s.cache.recorded (2 ^ 16) = 32 ∧ ¬HandedOutOnce s := by
  refine ⟨_,sampleInitial,rfl,rfl,rfl,fun once => ?_⟩
  have recorded := once.recorded ⟨⟨2 ^ 16,2 ^ 32 + 32⟩,true⟩ (by decide) rfl
  revert recorded
  decide

section
variable {config : Config} {s : State}

/- The sizes of the largest free blocks are exact after every run, and a free
block that a request decides to use is there. -/
theorem largestFreeBlocksExact (recycling : config.recycling = true) (initial : Initial config s) (ops : List Op) :
    ∃ s', run config s ops = some s' ∧
      s'.cache.sizeOfLargestFreeWarmBlock = largest (s'.cache.freeBlockList.filter fun b => b.start < s'.cache.warmCodeAlloc) ∧
      s'.cache.sizeOfLargestFreeColdBlock = largest (s'.cache.freeBlockList.filter fun b => ¬b.start < s'.cache.warmCodeAlloc) ∧
      (∀ request, ∃ r, allocateCodeMemory config request s'.cache = some r) ∧
      ∀ size isCold header, 0 < size → size ≤ sizeOfLargestFreeBlock isCold s'.cache →
        ∃ b c', findFreeBlock size isCold header s'.cache = some (b,c') ∧ size ≤ b.size := by
  obtain ⟨last,ran,layout⟩ := runLayout (initialLayout initial) ops
  have exact := layout.bookkept
  rw [Bookkept,if_pos recycling] at exact
  refine ⟨last,ran,exact false,?_,fun request => ?_,fun size isCold header positive enough => ?_⟩
  · refine (exact true).trans (congrArg largest (List.filter_congr fun b on => ?_))
    have region := (layout.frees b on).region
    have wide := (layout.frees b on).some
    have order := layout.order
    simp only [Block.stop] at region
    simp
    omega
  · rcases allocateLayout request layout with refused | ⟨warm,cold,c',spent,granted,-⟩
    · exact ⟨_,refused⟩
    · exact ⟨_,granted⟩
  · rw [exact isCold] at enough
    obtain ⟨best,next,taken,found⟩ := findTaken header layout.sorted layout.frees layout.order positive enough
    exact ⟨_,_,found,(usedInside taken.enough).2.2.1⟩

end

theorem largestFreeBlocksExactSample : ∃ s, run sampleConfig sampleState [.allocate ⟨100,50,false,true⟩,.free 1,.free 0] = some s ∧
    s.cache.sizeOfLargestFreeWarmBlock = 128 ∧ s.cache.sizeOfLargestFreeColdBlock = 96 ∧
    s.cache.sizeOfLargestFreeWarmBlock = largest (s.cache.freeBlockList.filter fun b => b.start < s.cache.warmCodeAlloc) := by
  obtain ⟨s,ran,warm,-⟩ := largestFreeBlocksExact rfl sampleInitial [.allocate ⟨100,50,false,true⟩,.free 1,.free 0]
  refine ⟨s,ran,?_,?_,warm⟩
  · cases ran
    rfl
  · cases ran
    rfl

end OmrCompiler.CodeCache
