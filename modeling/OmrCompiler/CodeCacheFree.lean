import Mathlib.Data.List.Pairwise
import OmrCompiler.CodeCache

/-! The list of free blocks: what freeing a range and taking a block do to it. -/
namespace OmrCompiler.CodeCache

-- The blocks do not touch, but for a warm and a cold one.
def Apart (c : Cache) (x y : Block) : Prop := x.stop < y.start ∨ x.stop ≤ y.start ∧ Border c x.start y.start

-- Aligned, not empty and on one side of the border.
structure Fits (config : Config) (c : Cache) (b : Block) : Prop where
  start : config.alignment ∣ b.start
  size : config.alignment ∣ b.size
  some : 0 < b.size
  region : b.stop ≤ c.warmCodeAlloc ∨ c.coldCodeAlloc ≤ b.start

/- Freeing [start, stop) turned blocks into blocks': the blocks in the middle and
the range have become link. -/
structure Freed (config : Config) (c : Cache) (start stop : Nat) (blocks : List Block) (link : Block) (blocks' : List Block) :
    Prop where
  split : ∃ before merged after, blocks = before ++ merged ++ after ∧ blocks' = before ++ link::after ∧
    (∀ b ∈ merged, link.start ≤ b.start ∧ b.stop ≤ link.stop) ∧
    (∀ x, link.start ≤ x → x < link.stop → start ≤ x ∧ x < stop ∨ ∃ b ∈ merged, b.start ≤ x ∧ x < b.stop) ∧
    (link.start = start ∨ ∃ b ∈ merged, link.start = b.start)
  sorted : blocks'.Pairwise (Apart c)
  fits : Fits config c link
  covers : link.start ≤ start ∧ stop ≤ link.stop

section
variable {config : Config} {c : Cache} {start stop : Nat} {curr link : Block} {rest blocks blocks' : List Block}

theorem alignmentWide : 16 ≤ config.alignment := config.wide

theorem nearAligned {above below : Nat} (first : config.alignment ∣ above) (second : config.alignment ∣ below) :
    Near above below ↔ above = below := by
  constructor
  · rintro ⟨order,close⟩
    have multiple : config.alignment ∣ above - below := Nat.dvd_sub first second
    have wide := @alignmentWide config
    have none : above - below = 0 := by
      by_contra positive
      have large := Nat.le_of_dvd (Nat.pos_of_ne_zero positive) multiple
      rw [sizeofFreeCacheBlock] at close
      omega
    omega
  · rintro rfl
    simp [Near,sizeofFreeCacheBlock]

theorem Fits.join {lower upper : Block} (first : Fits config c lower) (second : Fits config c upper)
    (order : lower.stop ≤ upper.start) (inside : ¬Border c lower.start upper.start) :
    Fits config c ⟨lower.start,upper.stop - lower.start⟩ := by
  have widthL := first.some
  have widthU := second.some
  have regionL := first.region
  have regionU := second.region
  simp only [Border,Block.stop] at *
  refine ⟨first.start,?_,?_,?_⟩
  · refine Nat.dvd_sub (Nat.dvd_add second.start second.size) first.start
  · show 0 < upper.start + upper.size - lower.start
    omega
  · show lower.start + (upper.start + upper.size - lower.start) ≤ _ ∨ _ ≤ lower.start
    omega

theorem Apart.startBelow {x y : Block} (apart : Apart c x y) : x.stop ≤ y.start := by
  rcases apart with before | ⟨before,-⟩ <;> omega

-- A block that ends where x ends and starts on the same side.
theorem Apart.grown {x y z : Block} (apart : Apart c x y) (stop : z.stop = x.stop) (start : z.start ≤ x.start) : Apart c z y := by
  simp only [Apart,Border] at *
  omega

-- The range is not merged with the block before it, with the first block or with any.
theorem placeUnmerged (range : Fits config c ⟨start,stop - start⟩) (order : start < stop) (sorted : (curr::rest).Pairwise (Apart c))
    (before : curr.start < start → Apart c curr ⟨start,stop - start⟩)
    (first : ¬curr.start < start → Apart c ⟨start,stop - start⟩ curr)
    (after : ∀ y ∈ rest, Apart c ⟨start,stop - start⟩ y) (other : curr.start ≠ start) (wide : 0 < curr.size) :
    Freed config c start stop (curr::rest) ⟨start,stop - start⟩
      (if start < curr.start then ⟨start,stop - start⟩::curr::rest else curr::⟨start,stop - start⟩::rest) := by
  have whole : ∀ x, start ≤ x → x < start + (stop - start) → start ≤ x ∧ x < stop ∨ ∃ b ∈ ([] : List Block), b.start ≤ x ∧ x < b.stop :=
    fun x low high => .inl ⟨low,by omega⟩
  rw [List.pairwise_cons] at sorted
  by_cases low : start < curr.start
  · rw [if_pos low]
    refine ⟨⟨[],[],curr::rest,rfl,rfl,by simp,whole,.inl rfl⟩,?_,range,?_⟩
    · refine List.pairwise_cons.mpr ⟨fun y on => ?_,List.pairwise_cons.mpr sorted⟩
      rcases List.mem_cons.mp on with rfl | later
      · exact first (by omega)
      · exact after y later
    · simp only [Block.stop]
      omega
  · rw [if_neg low]
    refine ⟨⟨[curr],[],rest,rfl,rfl,by simp,whole,.inl rfl⟩,?_,range,?_⟩
    · refine List.pairwise_cons.mpr ⟨fun y on => ?_,List.pairwise_cons.mpr ⟨after,sorted.2⟩⟩
      rcases List.mem_cons.mp on with rfl | later
      · exact before (by omega)
      · exact sorted.1 y later
    · simp only [Block.stop]
      omega

-- The range and the first block have become one.
theorem mergeFirst (range : Fits config c ⟨start,stop - start⟩) (order : start < stop) (sorted : (curr::rest).Pairwise (Apart c))
    (fits : Fits config c curr) (touch : curr.start = stop) (inside : ¬Border c start curr.start) :
    Freed config c start stop (curr::rest) ⟨start,curr.start + curr.size - start⟩ (⟨start,curr.start + curr.size - start⟩::rest) := by
  have wide := fits.some
  rw [List.pairwise_cons] at sorted
  refine ⟨⟨[],[curr],rest,rfl,rfl,?_,?_,.inl rfl⟩,?_,?_,?_⟩
  · simp only [List.mem_singleton,forall_eq,Block.stop]
    omega
  · intro x low high
    simp only [List.mem_singleton,exists_eq_left,Block.stop] at *
    omega
  · refine List.pairwise_cons.mpr ⟨fun y on => (sorted.1 y on).grown ?_ ?_,sorted.2⟩
    · simp only [Block.stop]
      omega
    · show start ≤ curr.start
      omega
  · refine range.join fits ?_ inside
    simp only [Block.stop]
    omega
  · simp only [Block.stop]
    omega

-- The range and the block before it have become one.
theorem mergePrevious (range : Fits config c ⟨start,stop - start⟩) (order : start < stop) (sorted : (curr::rest).Pairwise (Apart c))
    (fits : Fits config c curr) (touch : start = curr.stop) (inside : ¬Border c curr.start start)
    (after : ∀ y ∈ rest, Apart c ⟨start,stop - start⟩ y) :
    Freed config c start stop (curr::rest) ⟨curr.start,start + (stop - start) - curr.start⟩
      (⟨curr.start,start + (stop - start) - curr.start⟩::rest) := by
  have wide := fits.some
  rw [Block.stop] at touch
  rw [List.pairwise_cons] at sorted
  refine ⟨⟨[],[curr],rest,rfl,rfl,?_,?_,.inr ⟨curr,by simp,rfl⟩⟩,?_,?_,?_⟩
  · simp only [List.mem_singleton,forall_eq,Block.stop]
    omega
  · intro x low high
    simp only [List.mem_singleton,exists_eq_left,Block.stop] at *
    omega
  · refine List.pairwise_cons.mpr ⟨fun y on => (after y on).grown ?_ ?_,sorted.2⟩
    · simp only [Block.stop]
      omega
    · show curr.start ≤ start
      omega
  · refine fits.join range ?_ inside
    simp only [Block.stop]
    omega
  · simp only [Block.stop]
    omega

-- The range and the blocks around it have become one.
theorem mergeBoth {next : Block} (range : Fits config c ⟨start,stop - start⟩) (order : start < stop)
    (sorted : (curr::next::rest).Pairwise (Apart c)) (fits : Fits config c curr) (fits' : Fits config c next) (touch : start = curr.stop)
    (inside : ¬Border c curr.start start) (touch' : next.start = stop) (inside' : ¬Border c start next.start) :
    Freed config c start stop (curr::next::rest) ⟨curr.start,next.start + next.size - curr.start⟩
      (⟨curr.start,next.start + next.size - curr.start⟩::rest) := by
  have wide := fits.some
  have wide' := fits'.some
  rw [Block.stop] at touch
  rw [List.pairwise_cons,List.pairwise_cons] at sorted
  have straight : ¬Border c curr.start next.start := by
    have region := range.region
    simp only [Border,Block.stop] at *
    omega
  refine ⟨⟨[],[curr,next],rest,rfl,rfl,?_,?_,.inr ⟨curr,by simp,rfl⟩⟩,?_,?_,?_⟩
  · simp only [List.mem_cons,List.not_mem_nil,or_false,forall_eq_or_imp,forall_eq,Block.stop]
    omega
  · intro x low high
    simp only [List.mem_cons,List.not_mem_nil,or_false,exists_eq_or_imp,exists_eq_left,Block.stop] at *
    omega
  · refine List.pairwise_cons.mpr ⟨fun y on => (sorted.2.1 y on).grown ?_ ?_,sorted.2.2⟩
    · simp only [Block.stop]
      omega
    · show curr.start ≤ next.start
      omega
  · refine fits.join fits' ?_ straight
    simp only [Block.stop]
    omega
  · simp only [Block.stop]
    omega

-- The range and the block after it have become one, and the block before is left alone.
theorem mergeNext {next : Block} (range : Fits config c ⟨start,stop - start⟩) (order : start < stop)
    (sorted : (curr::next::rest).Pairwise (Apart c)) (fits' : Fits config c next) (before : Apart c curr ⟨start,stop - start⟩)
    (touch' : next.start = stop) (inside' : ¬Border c start next.start) :
    Freed config c start stop (curr::next::rest) ⟨start,next.start + next.size - start⟩
      (curr::⟨start,next.start + next.size - start⟩::rest) := by
  have wide' := fits'.some
  rw [List.pairwise_cons,List.pairwise_cons] at sorted
  refine ⟨⟨[curr],[next],rest,rfl,rfl,?_,?_,.inl rfl⟩,?_,?_,?_⟩
  · simp only [List.mem_singleton,forall_eq,Block.stop]
    omega
  · intro x low high
    simp only [List.mem_singleton,exists_eq_left,Block.stop] at *
    omega
  · refine List.pairwise_cons.mpr ⟨fun y on => ?_,List.pairwise_cons.mpr ⟨fun y on => (sorted.2.1 y on).grown ?_ ?_,sorted.2.2⟩⟩
    · rcases List.mem_cons.mp on with rfl | later
      · exact before
      · exact sorted.1 y (List.mem_cons_of_mem _ later)
    · simp only [Block.stop]
      omega
    · show start ≤ next.start
      omega
  · refine range.join fits' ?_ inside'
    simp only [Block.stop]
    omega
  · simp only [Block.stop]
    omega

-- Nothing after the range touches it, but for a cold block behind a warm range.
theorem restApart {next : Block} (order : start < stop) (sorted : (next::rest).Pairwise (Apart c)) (wide : 0 < next.size)
    (off : stop ≤ next.start) (loose : ¬(next.start = stop ∧ ¬Border c start next.start)) :
    ∀ y ∈ next::rest, Apart c ⟨start,stop - start⟩ y := by
  intro y on
  rw [List.pairwise_cons] at sorted
  rcases List.mem_cons.mp on with rfl | later
  · simp only [Apart,Block.stop]
    by_cases touch : y.start = stop
    · exact .inr ⟨by omega,not_not.mp fun inside => loose ⟨touch,inside⟩⟩
    · exact .inl (by omega)
  · have further := (sorted.1 y later).startBelow
    simp only [Apart,Block.stop] at *
    omega

theorem previousFreed (range : Fits config c ⟨start,stop - start⟩) (order : start < stop) (sorted : (curr::rest).Pairwise (Apart c))
    (fit : Fits config c curr) (off : curr.stop ≤ start ∨ stop ≤ curr.start) (after : ∀ y ∈ rest, Apart c ⟨start,stop - start⟩ y)
    (first : start < curr.start → Apart c ⟨start,stop - start⟩ curr) :
    let unmerged : Block × List Block :=
      if start < curr.start then (⟨start,stop - start⟩,⟨start,stop - start⟩::curr::rest)
      else (⟨start,stop - start⟩,curr::⟨start,stop - start⟩::rest)
    let r : Block × List Block :=
      if curr.start < start ∧ Near start curr.stop then
        if ¬Border c curr.start start then
          (⟨curr.start,start + (stop - start) - curr.start⟩,⟨curr.start,start + (stop - start) - curr.start⟩::rest)
        else unmerged
      else unmerged
    Freed config c start stop (curr::rest) r.1 r.2 := by
  intro unmerged r
  have wide := fit.some
  have near : Near start curr.stop ↔ start = curr.stop := nearAligned range.start (Nat.dvd_add fit.start fit.size)
  have whole : ¬(start = curr.stop ∧ ¬Border c curr.start start) → Freed config c start stop (curr::rest) unmerged.1 unmerged.2 := by
    intro loose
    have placed := placeUnmerged range order sorted (fun below => ?_) (fun above => first ?_) after ?_ wide
    · have shape : unmerged = (⟨start,stop - start⟩,
          if start < curr.start then ⟨start,stop - start⟩::curr::rest else curr::⟨start,stop - start⟩::rest) := by
        unfold unmerged
        split <;> rfl
      rw [shape]
      exact placed
    · by_cases touch : start = curr.stop
      · exact .inr ⟨Nat.le_of_eq touch.symm,not_not.mp fun inside => loose ⟨touch,inside⟩⟩
      · simp only [Apart,Block.stop] at *
        omega
    · simp only [Block.stop] at *
      omega
    · simp only [Block.stop] at *
      omega
  unfold r
  by_cases touch : curr.start < start ∧ Near start curr.stop
  · rw [if_pos touch]
    by_cases inside : ¬Border c curr.start start
    · rw [if_pos inside]
      exact mergePrevious range order sorted fit (near.mp touch.2) inside after
    · rw [if_neg inside]
      exact whole fun both => inside both.2
  · rw [if_neg touch]
    refine whole fun both => touch ⟨?_,near.mpr both.1⟩
    have meets := both.1
    simp only [Block.stop] at meets
    omega

theorem placeFreed (range : Fits config c ⟨start,stop - start⟩) (order : start < stop) (sorted : (curr::rest).Pairwise (Apart c))
    (fits : ∀ b ∈ curr::rest, Fits config c b) (off : ∀ b ∈ curr::rest, b.stop ≤ start ∨ stop ≤ b.start)
    (next : ∀ b ∈ rest, start ≤ b.start) :
    Freed config c start stop (curr::rest) (placeBlock c start stop curr rest).1 (placeBlock c start stop curr rest).2 := by
  have fit := fits curr (by simp)
  have wide := fit.some
  have apart := off curr (by simp)
  have alignedStop : config.alignment ∣ stop := by
    have sum := Nat.dvd_add range.start range.size
    rwa [show start + (stop - start) = stop by omega] at sum
  have nearFirst := nearAligned fit.start alignedStop
  have nearPrevious : Near start curr.stop ↔ start = curr.stop := nearAligned range.start (Nat.dvd_add fit.start fit.size)
  unfold placeBlock
  by_cases leads : start < curr.start ∧ Near curr.start stop
  · simp only [if_pos leads]
    have touch := nearFirst.mp leads.2
    by_cases inside : ¬Border c start curr.start
    · rw [if_pos inside]
      exact mergeFirst range order sorted fit touch inside
    · rw [if_neg inside,if_pos leads.1]
      have border : Border c start curr.start := not_not.mp inside
      have all := restApart order sorted wide (Nat.le_of_eq touch.symm) fun both => both.2 border
      have placed := placeUnmerged range order sorted (fun below => absurd below (by omega)) (fun _ => all curr (by simp))
        (fun y on => all y (List.mem_cons_of_mem _ on)) (by omega) wide
      rwa [if_pos leads.1] at placed
  · simp only [if_neg leads]
    have first : start < curr.start → Apart c ⟨start,stop - start⟩ curr := by
      intro below
      have loose : curr.start ≠ stop := fun touch => leads ⟨below,nearFirst.mpr touch⟩
      simp only [Apart,Block.stop] at *
      omega
    cases rest with
    | nil => exact previousFreed range order sorted fit apart (by simp) first
    | cons following rest =>
        have fit' := fits following (by simp)
        have wide' := fit'.some
        have after : stop ≤ following.start := by
          have later := next following (by simp)
          have off' := off following (by simp)
          simp only [Block.stop] at *
          omega
        have nearNext := nearAligned fit'.start alignedStop
        by_cases meets : Near following.start stop ∧ ¬Border c start following.start
        · simp only [if_pos meets]
          have touch' := nearNext.mp meets.1
          by_cases both : Near start curr.stop ∧ ¬Border c curr.start start
          · rw [if_pos both]
            exact mergeBoth range order sorted fit fit' (nearPrevious.mp both.1) both.2 touch' meets.2
          · rw [if_neg both]
            refine mergeNext range order sorted fit' ?_ touch' meets.2
            have ordered := (List.pairwise_cons.mp sorted).1 following (by simp)
            have below := ordered.startBelow
            by_cases touch : start = curr.stop
            · exact .inr ⟨Nat.le_of_eq touch.symm,not_not.mp fun inside => both ⟨nearPrevious.mpr touch,inside⟩⟩
            · simp only [Apart,Block.stop] at *
              omega
        · simp only [if_neg meets]
          refine previousFreed range order sorted fit apart ?_ first
          refine restApart order (List.pairwise_cons.mp sorted).2 wide' after fun both => meets ⟨nearNext.mpr both.1,both.2⟩

theorem Freed.cons (freed : Freed config c start stop rest link blocks) (sorted : (curr::rest).Pairwise (Apart c))
    (before : curr.stop < start) : Freed config c start stop (curr::rest) link (curr::blocks) := by
  obtain ⟨prior,merged,after,split,split',inside,covered,begins⟩ := freed.split
  rw [List.pairwise_cons] at sorted
  refine ⟨⟨curr::prior,merged,after,by simp [split],by simp [split'],inside,covered,begins⟩,?_,freed.fits,freed.covers⟩
  refine List.pairwise_cons.mpr ⟨fun y on => ?_,freed.sorted⟩
  have old : ∀ b ∈ prior ++ merged ++ after, Apart c curr b := fun b on => sorted.1 b (split ▸ on)
  rw [split',List.mem_append,List.mem_cons] at on
  rcases on with early | rfl | late
  · exact old y (by simp [early])
  · rcases begins with same | ⟨b,on,same⟩
    · left
      rw [same]
      exact before
    · have apart := old b (by simp [on])
      simp only [Apart,← same] at apart
      exact apart
  · exact old y (by simp [late])

theorem insertFreed (range : Fits config c ⟨start,stop - start⟩) (order : start < stop) (sorted : blocks.Pairwise (Apart c))
    (fits : ∀ b ∈ blocks, Fits config c b) (off : ∀ b ∈ blocks, b.stop ≤ start ∨ stop ≤ b.start) :
    Freed config c start stop blocks (insertBlock c start stop blocks).1 (insertBlock c start stop blocks).2 := by
  induction blocks with
  | nil =>
      refine ⟨⟨[],[],[],rfl,rfl,by simp,fun x low high => .inl ⟨low,?_⟩,.inl rfl⟩,by simp [insertBlock],range,?_⟩
      · simp only [insertBlock,Block.stop] at high
        omega
      · simp only [insertBlock,Block.stop]
        omega
  | cons curr rest ih =>
      cases rest with
      | nil => exact placeFreed range order sorted fits off (by simp)
      | cons next rest =>
          unfold insertBlock
          by_cases further : next.start < start
          · simp only [if_pos further]
            have below := ((List.pairwise_cons.mp sorted).1 next (by simp)).startBelow
            refine (ih (List.pairwise_cons.mp sorted).2 (fun b on => fits b (List.mem_cons_of_mem _ on))
              fun b on => off b (List.mem_cons_of_mem _ on)).cons sorted (by omega)
          · simp only [if_neg further]
            refine placeFreed range order sorted fits off fun b on => ?_
            rcases List.mem_cons.mp on with rfl | later
            · omega
            · have beyond := ((List.pairwise_cons.mp (List.pairwise_cons.mp sorted).2).1 b later).startBelow
              simp only [Block.stop] at beyond
              omega

end

end OmrCompiler.CodeCache
