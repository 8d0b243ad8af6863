import OmrCompiler.SparseSegment

/-! The union of two segments, one of them under a mask or not: what has been merged
so far, the values of the segment from i0 on and the values still to come. -/
namespace OmrCompiler.SparseBits

section
variable {s a b done chunk : List Nat} {rest rest' all : Nat → Prop} {i i0 i' v r n first stop limit : Nat} {seg input tmp : Segment}

def slice (list : List Nat) (i j : Nat) : List Nat := (list.drop i).take (j - i)

theorem dropSlice (order : i ≤ i') : s.drop i = slice s i i' ++ s.drop i' := by
  have split := (List.take_append_drop (i' - i) (s.drop i)).symm
  rwa [List.drop_drop,show i + (i' - i) = i' by omega] at split

theorem sliceTake {y : Nat} (on : y ∈ slice s i i') : y ∈ s.take i' := by
  obtain ⟨j,less,at'⟩ := memTake.mp on
  rw [List.getElem?_drop] at at'
  exact memTake.mpr ⟨i + j,by omega,at'⟩

structure Merging (s : List Nat) (rest all : Nat → Prop) (i0 i : Nat) (done : List Nat) : Prop where
  order : i0 ≤ i
  bound : i ≤ s.length
  ascending : Ascending (done ++ s.drop i0)
  passed : ∀ y ∈ done, ∀ z, rest z → y < z
  before : ∀ y ∈ s.take i, ∀ z, rest z → y < z
  members : ∀ y, y ∈ done ∨ y ∈ s.drop i0 ∨ rest y ↔ y ∈ s ∨ all y

-- The next value is in the segment already.
theorem Merging.skip (merging : Merging s rest all i0 i done) (order : i ≤ i') (at' : s[i']? = some v) (below : ∀ y ∈ s.take i', y < v)
    (next : ∀ z, rest z ↔ z = v ∨ rest' z) (later : ∀ z, rest' z → v < z) : Merging s rest' all i0 i' done := by
  have bound := (List.getElem?_eq_some_iff.mp at').1
  have order' := merging.order
  refine ⟨by omega,by omega,merging.ascending,fun y on z more => merging.passed y on z ((next z).mpr (.inr more)),
    fun y on z more => Nat.lt_trans (below y on) (later z more),fun y => ?_⟩
  rw [← merging.members y,next y]
  have there : v ∈ s.drop i0 := memDrop.mpr ⟨i',by omega,at'⟩
  constructor
  · rintro (first | second | third)
    · exact .inl first
    · exact .inr (.inl second)
    · exact .inr (.inr (.inr third))
  · rintro (first | second | rfl | third)
    · exact .inl first
    · exact .inr (.inl second)
    · exact .inr (.inl there)
    · exact .inr (.inr third)

-- The next values go in between.
theorem Merging.insert (merging : Merging s rest all i0 i done) (order : i ≤ i') (bound : i' ≤ s.length) (asc : Ascending chunk)
    (below : ∀ y ∈ s.take i', ∀ z ∈ chunk, y < z) (above : ∀ y ∈ chunk, ∀ z ∈ s.drop i', y < z)
    (next : ∀ z, rest z ↔ z ∈ chunk ∨ rest' z) (later : ∀ y ∈ chunk, ∀ z, rest' z → y < z) (some' : chunk ≠ []) :
    Merging s rest' all i' i' (done ++ slice s i0 i' ++ chunk) := by
  have order' := merging.order
  have split := @dropSlice s i0 i' (by omega)
  have whole := merging.ascending
  rw [split,← List.append_assoc,Ascending,List.pairwise_append] at whole
  obtain ⟨c,onC⟩ := List.exists_mem_of_ne_nil chunk some'
  have doneChunk : ∀ y ∈ done ++ slice s i0 i', ∀ z ∈ chunk, y < z := by
    intro y on z on'
    rcases List.mem_append.mp on with first | second
    · exact merging.passed y first z ((next z).mpr (.inl on'))
    · exact below y (sliceTake second) z on'
  have doneRest : ∀ y ∈ done ++ slice s i0 i', ∀ z, rest' z → y < z := by
    intro y on z more
    exact Nat.lt_trans (doneChunk y on c onC) (later c onC z more)
  refine ⟨Nat.le_refl _,bound,?_,fun y on z more => ?_,fun y on z more => Nat.lt_trans (below y on c onC) (later c onC z more),fun y => ?_⟩
  · rw [Ascending,List.pairwise_append,List.pairwise_append]
    refine ⟨⟨whole.1,asc,doneChunk⟩,whole.2.1,fun y on z on' => ?_⟩
    rcases List.mem_append.mp on with first | second
    · exact whole.2.2 y first z on'
    · exact above y second z on'
  · rcases List.mem_append.mp on with first | second
    · exact doneRest y first z more
    · exact later y second z more
  · rw [← merging.members y,next y,split]
    simp only [List.mem_append]
    constructor
    · rintro (((first | second) | third) | fourth | fifth)
      · exact .inl first
      · exact .inr (.inl (.inl second))
      · exact .inr (.inr (.inl third))
      · exact .inr (.inl (.inr fourth))
      · exact .inr (.inr (.inr fifth))
    · rintro (first | (second | fourth) | third | fifth)
      · exact .inl (.inl (.inl first))
      · exact .inl (.inl (.inr second))
      · exact .inr (.inl fourth)
      · exact .inl (.inr third)
      · exact .inr (.inr fifth)

/- The memory of the union. -/

-- A union that is not full fits into the memory that is allocated for it.
theorem unionFits (asc : Ascending done) (among : ∀ y ∈ done, y ∈ seg.indices ∨ all y) (within : ∀ y, all y → y ∈ input.indices)
    (formed : Formed limit seg) (formed' : Formed limit input) (room : ¬ Full seg.indices all) : done.length ≤ min (toAllocate seg input) kSegmentMask := by
  obtain ⟨k,inRange,missing,missing'⟩ := notFull.mp room
  have unique : done.Nodup := asc.imp fun less => Nat.ne_of_lt less
  have sum : done.length ≤ seg.indices.length + input.indices.length := by
    have sub : done.Subperm (seg.indices ++ input.indices) := by
      refine List.subperm_of_subset unique fun y on => List.mem_append.mpr ?_
      exact (among y on).imp id (within y)
    simpa using sub.length_le
  have short : done.length < halfWord := by
    refine asc.length (fun y on => ?_) (fun on => ?_) inRange
    · rcases among y on with first | second
      · exact formed.small y first
      · exact formed'.small y (within y second)
    · rcases among k on with first | second
      · exact missing first
      · exact missing' second
  have mask : kSegmentMask + 1 = halfWord := rfl
  unfold toAllocate
  split <;> omega

-- The bounds are passed in 16 bits: the end of a full segment is lost.
theorem appendSlice (order : first ≤ stop) (bound : stop ≤ s.length) (short : s.length ≤ halfWord) (part : stop = halfWord → 0 < first ∧ first < stop) :
    append s first stop tmp = if stop < halfWord ∧ (tmp.indices ++ slice s first stop).length ≤ tmp.room then
      some { tmp with indices := tmp.indices ++ slice s first stop } else none := by
  have length : (slice s first stop).length = stop - first := by
    rw [slice,List.length_take,List.length_drop]
    omega
  rw [List.length_append,length]
  unfold append
  rcases Nat.lt_or_ge stop halfWord with less | more
  · simp only [Nat.mod_eq_of_lt (show first < halfWord by omega),Nat.mod_eq_of_lt less]
    by_cases room : tmp.indices.length + (stop - first) ≤ tmp.room
    · rw [if_pos ⟨order,bound,room⟩,if_pos ⟨less,room⟩]
      rfl
    · rw [if_neg fun both => room both.2.2,if_neg fun both => room both.2]
  · have whole : stop = halfWord := by omega
    obtain ⟨positive,before⟩ := part whole
    rw [whole] at before ⊢
    simp only [Nat.mod_self,Nat.mod_eq_of_lt before]
    rw [if_neg fun both => absurd both.1 (by omega),if_neg fun both => absurd both.1 (by omega)]

-- The segment that collects the union: it gets its memory with its first value.
def Work (seg : Segment) (r : Nat) (tmp : Segment) (done : List Nat) : Prop :=
  (done = [] ∧ tmp = noSegment) ∨ (done ≠ [] ∧ tmp = ⟨seg.highBits,r,r,done⟩)

theorem Work.start (grown : growSegment seg.size n noSegment = ⟨0,r,r,[]⟩) (work : Work seg r tmp done) : started seg tmp n = ⟨seg.highBits,r,r,done⟩ := by
  rcases work with ⟨rfl,rfl⟩ | ⟨some',rfl⟩
  · rw [started,if_pos (show noSegment.indices = [] from rfl),grown]
  · rw [started,if_neg some']

theorem Work.isZero (work : Work seg r tmp done) : tmp.indices = [] ↔ done = [] := by
  rcases work with ⟨rfl,rfl⟩ | ⟨-,rfl⟩
  · exact Iff.rfl
  · exact Iff.rfl

theorem unionRoom (formed : Formed limit seg) (formed' : Formed limit input) :
    ∃ r, growSegment seg.size (toAllocate seg input) noSegment = ⟨0,r,r,[]⟩ ∧ min (toAllocate seg input) kSegmentMask ≤ r ∧ r < halfWord := by
  have one := List.length_pos_iff.mpr formed.nonempty
  have two := List.length_pos_iff.mpr formed'.nonempty
  have least : 2 ≤ toAllocate seg input := by
    have mask : kSegmentMask = 0xFFFF := rfl
    unfold toAllocate
    split <;> omega
  obtain ⟨r,grown,enough,less⟩ := @growSegmentRoom noSegment (toAllocate seg input) seg.size least (show 0 < _ by omega)
  exact ⟨r,by rw [grown]; rfl,enough,less⟩

-- Where the next value belongs in the segment.
theorem Merging.spot (merging : Merging s rest all i0 i done) (asc : Ascending s) (some' : s ≠ []) (more : rest v) :
    ∃ i', advanceIndex s v i = some i' ∧ i ≤ i' ∧ i' ≤ s.length ∧ (∀ y ∈ s.take i', y < v) ∧ ∀ y ∈ s.drop i', v ≤ y := by
  obtain ⟨i',ran,spot⟩ := @advanceIndexSpot s i v (asc.from i) some' merging.bound fun ended last at' => by
    refine merging.before last ?_ v more
    exact memTake.mpr ⟨s.length - 1,by have := List.length_pos_iff.mpr some'; omega,at'⟩
  refine ⟨i',ran,spot.low,spot.high,fun y on => ?_,spot.above⟩
  obtain ⟨j,less,at'⟩ := memTake.mp on
  rcases Nat.lt_or_ge j i with before | after
  · exact merging.before y (memTake.mpr ⟨j,before,at'⟩) v more
  · exact spot.before j y after less at'

/- What a segment has become: the values are those of P, and it is well formed unless it
has none. -/
structure Carries (limit : Nat) (s' : Segment) (high : Nat) (P : Nat → Prop) : Prop where
  high : s'.highBits = high
  formed : s'.indices ≠ [] → Formed limit s'
  members : ∀ y, y ∈ s'.indices ↔ P y

theorem Merging.fits (merging : Merging seg.indices rest all i0 i done) (within : ∀ y, all y → y ∈ input.indices) (formed : Formed limit seg)
    (formed' : Formed limit input) (room : ¬ Full seg.indices all) : done.length ≤ min (toAllocate seg input) kSegmentMask := by
  have whole := merging.ascending
  rw [Ascending,List.pairwise_append] at whole
  exact unionFits whole.1 (fun y on => (merging.members y).mp (.inl on)) within formed formed' room

-- The union is complete: what is left are values of the segment.
theorem Merging.finish (merging : Merging seg.indices (fun _ => False) all i0 i done) (work : Work seg r tmp done) (some' : done ≠ [])
    (within : ∀ y, all y → y ∈ input.indices) (formed : Formed limit seg) (formed' : Formed limit input) (new : ∃ y, all y ∧ y ∉ seg.indices)
    (enough : min (toAllocate seg input) kSegmentMask ≤ r) (less : r < halfWord) (large : kSegmentMask ≤ limit) :
    (append seg.indices i0 seg.indices.length tmp = none ∧ Full seg.indices all) ∨
      ∃ s', append seg.indices i0 seg.indices.length tmp = some s' ∧ ¬ Full seg.indices all ∧ Carries limit s' seg.highBits (fun y => y ∈ seg.indices ∨ all y) := by
  obtain ⟨z,inAll,missing⟩ := new
  have short : seg.indices.length < halfWord := formed.ascending.length formed.small missing (formed'.small z (within z inAll))
  have rest' : slice seg.indices i0 seg.indices.length = seg.indices.drop i0 := by
    rw [slice,List.take_of_length_le (by rw [List.length_drop])]
  have among : ∀ y, y ∈ done ++ seg.indices.drop i0 ↔ y ∈ seg.indices ∨ all y := by
    intro y
    rw [List.mem_append,← merging.members y]
    simp
  have order := merging.order
  have bound := merging.bound
  obtain ⟨rfl,-⟩ | ⟨-,rfl⟩ := work
  · exact absurd rfl some'
  · rw [appendSlice (by omega) (Nat.le_refl _) (Nat.le_of_lt short) (by omega),rest']
    by_cases full : Full seg.indices all
    · have long := full.long fun k on => (among k).mpr on
      rw [if_neg (by simp only; omega)]
      exact .inl ⟨rfl,full⟩
    · have fits := unionFits merging.ascending (fun y on => (among y).mp on) within formed formed' full
      have mask : kSegmentMask + 1 = halfWord := rfl
      rw [if_pos ⟨short,by simp only; omega⟩]
      refine .inr ⟨_,rfl,full,rfl,fun some'' => ⟨some'',merging.ascending,fun y on => ?_,by simp only; omega,(Nat.mod_eq_of_lt less).symm,?_,formed.high⟩,among⟩
      · rcases (among y).mp on with first | second
        · exact formed.small y first
        · exact formed'.small y (within y second)
      · show r ≤ limit
        omega

-- The least value of a list from an index on.
theorem Ascending.least {ii z : Nat} (asc : Ascending a) (at' : a[ii]? = some v) (on : z ∈ a.drop ii) : v ≤ z := by
  obtain ⟨j,after,there⟩ := memDrop.mp on
  rcases Nat.lt_or_ge ii j with later | same
  · exact Nat.le_of_lt (asc.from 0 ii j v z (Nat.zero_le _) later at' there)
  · have here : j = ii := by omega
    rw [here,at'] at there
    cases there
    exact Nat.le_refl _

theorem Ascending.later {ii z : Nat} (asc : Ascending a) (at' : a[ii]? = some v) (on : z ∈ a.drop (ii + 1)) : v < z := by
  obtain ⟨j,after,there⟩ := memDrop.mp on
  exact asc.from 0 ii j v z (Nat.zero_le _) (by omega) at' there

-- The values of the input up to the next one of the segment, at least the one at ii.
theorem upToChunk {ii : Nat} (asc : Ascending s) (asc' : Ascending a) (at' : a[ii]? = some v) (bound : i ≤ s.length) (above : ∀ y ∈ s.drop i, v ≤ y)
    (new : ¬ (i < s.length ∧ s[i]? = some v)) :
    ∃ next, upTo s a i ii = some next ∧ ii < next ∧ next ≤ a.length ∧ ∀ y ∈ slice a ii next, ∀ z ∈ s.drop i, y < z := by
  have more := (List.getElem?_eq_some_iff.mp at').1
  unfold upTo
  by_cases last : i = s.length
  · rw [if_pos last]
    refine ⟨_,rfl,more,Nat.le_refl _,fun y _ z on => ?_⟩
    rw [last,List.drop_length] at on
    cases on
  · rw [if_neg last]
    obtain ⟨w,here⟩ : ∃ w, s[i]? = some w := ⟨_,List.getElem?_eq_getElem (by omega)⟩
    obtain ⟨next,ran,spot⟩ := @advanceIndexSpot a ii w (asc'.from ii) (List.ne_nil_of_length_pos (by omega)) (by omega) (by omega)
    have larger : v < w := by
      have least := above w (memDrop.mpr ⟨i,Nat.le_refl _,here⟩)
      have differ : v ≠ w := fun same => new ⟨by omega,by rw [here,same]⟩
      omega
    refine ⟨next,by rw [here]; exact ran,?_,spot.high,fun y on z on' => ?_⟩
    · rcases Nat.lt_or_ge ii next with less | not
      · exact less
      · have contra := spot.after ii v not at'
        omega
    · obtain ⟨j,less,there⟩ := memTake.mp on
      rw [List.getElem?_drop] at there
      exact Nat.lt_of_lt_of_le (spot.before (ii + j) y (by omega) (by omega) there) (asc.least here on')

-- A value that is at the end of the segment or below the one at its spot is not in it.
theorem spotMissing (asc : Ascending s) (below : ∀ y ∈ s.take i, y < v) (above : ∀ y ∈ s.drop i, v ≤ y) (new : ¬ (i < s.length ∧ s[i]? = some v)) : v ∉ s := by
  intro on
  rw [← List.take_append_drop i s,List.mem_append] at on
  rcases on with first | second
  · exact absurd (below v first) (Nat.lt_irrefl v)
  · obtain ⟨j,after,there⟩ := memDrop.mp second
    obtain ⟨w,here⟩ := between there after
    have upper := asc.least here second
    have lower := above w (memDrop.mpr ⟨i,Nat.le_refl _,here⟩)
    have same : w = v := by omega
    exact new ⟨(List.getElem?_eq_some_iff.mp here).1,same ▸ here⟩

theorem orLoopMerges {ii fuel : Nat} (formed : Formed limit seg) (formed' : Formed limit input)
    (grown : growSegment seg.size (toAllocate seg input) noSegment = ⟨0,r,r,[]⟩) (room : min (toAllocate seg input) kSegmentMask ≤ r)
    (merging : Merging seg.indices (· ∈ input.indices.drop ii) (· ∈ input.indices) i0 i done)
    (work : Work seg r tmp done) (first : done = [] → i0 = 0) (new : done ≠ [] → ∃ y, y ∈ input.indices ∧ y ∉ seg.indices) (enough : input.indices.length - ii < fuel) :
    (orLoop seg input fuel i0 i ii tmp = none ∧ Full seg.indices (· ∈ input.indices) ∧ ∃ y, y ∈ input.indices ∧ y ∉ seg.indices) ∨
      ∃ i0' i' tmp' done', orLoop seg input fuel i0 i ii tmp = some (i0',tmp') ∧ Merging seg.indices (fun _ => False) (· ∈ input.indices) i0' i' done' ∧
        Work seg r tmp' done' ∧ (done' = [] → i0' = 0) ∧ (done' ≠ [] → ∃ y, y ∈ input.indices ∧ y ∉ seg.indices) := by
  induction fuel generalizing i0 i ii tmp done with
  | zero => omega
  | succ fuel ih =>
      rw [orLoop]
      by_cases more : ii < input.indices.length
      · obtain ⟨v,at'⟩ : ∃ v, input.indices[ii]? = some v := ⟨_,List.getElem?_eq_getElem more⟩
        have head : v ∈ input.indices.drop ii := memDrop.mpr ⟨ii,Nat.le_refl _,at'⟩
        have on : v ∈ input.indices := List.mem_of_mem_drop head
        obtain ⟨i',ran,order,bound,below,above⟩ := merging.spot formed.ascending formed.nonempty head
        rw [if_pos more,at']
        simp only [Option.bind_eq_bind,Option.bind_some,ran]
        by_cases common : i' < seg.indices.length ∧ seg.indices[i']? = some v
        · rw [if_pos common]
          refine ih (merging.skip order common.2 below (fun z => ?_) fun z later => ?_) work first new (by omega)
          · rw [List.drop_eq_getElem_cons more,List.mem_cons,(List.getElem?_eq_some_iff.mp at').2]
          · exact formed'.ascending.later at' later
        · rw [if_neg common]
          have missing := spotMissing formed.ascending below above common
          have short : seg.indices.length < halfWord := formed.ascending.length formed.small missing (formed'.small v on)
          have short' := formed'.ascending.short formed'.small
          obtain ⟨next,found,low,high,chunkBelow⟩ := upToChunk formed.ascending formed'.ascending at' bound above common
          have split := @dropSlice input.indices ii next (by omega)
          have tail : Ascending (input.indices.drop ii) := formed'.ascending.sublist (List.drop_sublist _ _)
          rw [split,Ascending,List.pairwise_append] at tail
          have chunkAbove : ∀ y ∈ seg.indices.take i', ∀ z ∈ slice input.indices ii next, y < z := by
            intro y on z on'
            have inRest : z ∈ input.indices.drop ii := by
              rw [split,List.mem_append]
              exact .inl on'
            exact Nat.lt_of_lt_of_le (below y on) (formed'.ascending.least at' inRest)
          have after : Merging seg.indices (· ∈ input.indices.drop next) (· ∈ input.indices) i' i' (done ++ slice seg.indices i0 i' ++ slice input.indices ii next) := by
            refine merging.insert order bound tail.1 chunkAbove chunkBelow (fun z => ?_) (fun y on z on' => tail.2.2 y on z on') ?_
            · rw [split,List.mem_append]
            · intro empty
              have size := congrArg List.length empty
              rw [slice,List.length_take,List.length_drop,List.length_nil] at size
              omega
          -- All 65536 values would not be one chunk, which leaves out those of the segment.
          have part : next = halfWord → 0 < ii ∧ ii < next := by
            intro whole
            refine ⟨Nat.pos_of_ne_zero fun zero => ?_,low⟩
            obtain ⟨z,inSeg⟩ := List.exists_mem_of_ne_nil _ formed.nonempty
            have chunk : z ∈ slice input.indices ii next := by
              have all := formed'.ascending.whole formed'.small (by omega) (formed.small z inSeg)
              rwa [zero,slice,List.drop_zero,List.take_of_length_le (by omega)]
            rw [← List.take_append_drop i' seg.indices,List.mem_append] at inSeg
            rcases inSeg with before | behind
            · exact absurd (chunkAbove z before z chunk) (Nat.lt_irrefl z)
            · exact absurd (chunkBelow z chunk z behind) (Nat.lt_irrefl z)
          have order0 := merging.order
          rw [work.start grown,appendSlice (by omega) bound (Nat.le_of_lt short) (by omega)]
          by_cases fits : next < halfWord ∧ (done ++ slice seg.indices i0 i' ++ slice input.indices ii next).length ≤ r
          · have fits' : (done ++ slice seg.indices i0 i').length ≤ r := by
              have length := fits.2
              rw [List.length_append] at length
              omega
            rw [if_pos ⟨by omega,fits'⟩]
            simp only [Option.bind_some]
            rw [found]
            simp only [Option.bind_some]
            rw [appendSlice (by omega) high short' part,if_pos fits]
            simp only [Option.bind_some]
            have some' : done ++ slice seg.indices i0 i' ++ slice input.indices ii next ≠ [] := by
              intro empty
              have size := congrArg List.length empty
              simp only [slice,List.length_append,List.length_take,List.length_drop,List.length_nil] at size
              omega
            exact ih after (.inr ⟨some',rfl⟩) (fun empty => absurd empty some') (fun _ => ⟨v,on,missing⟩) (by omega)
          · have full : Full seg.indices (· ∈ input.indices) := by
              by_contra room'
              obtain ⟨k,inRange,-,missing'⟩ := notFull.mp room'
              have all := after.fits (fun _ => id) formed formed' room'
              have less := formed'.ascending.length formed'.small missing' inRange
              exact fits ⟨by omega,by omega⟩
            refine .inl ⟨?_,full,v,on,missing⟩
            split
            · simp only [Option.bind_some]
              rw [found]
              simp only [Option.bind_some]
              rw [appendSlice (by omega) high short' part,if_neg fits]
              rfl
            · rfl
      · rw [if_neg more]
        refine .inr ⟨i0,i,tmp,done,rfl,?_,work,first,new⟩
        have none' : input.indices.drop ii = [] := List.drop_eq_nil_of_le (by omega)
        rw [none'] at merging
        simpa using merging

theorem Merging.start (asc : Ascending s) (same : ∀ y, rest y ↔ all y) : Merging s rest all 0 0 [] :=
  ⟨Nat.le_refl _,Nat.zero_le _,by simpa using asc,by simp,by simp,fun y => by simp [same y]⟩

theorem Ascending.below (asc : Ascending s) (some' : s ≠ []) {y : Nat} (on : y ∈ s) : y ≤ s.getLast some' := by
  obtain ⟨j,bound,rfl⟩ := List.getElem_of_mem on
  rw [List.getLast_eq_getElem]
  rcases Nat.lt_or_ge j (s.length - 1) with before | here
  · exact Nat.le_of_lt (List.pairwise_iff_getElem.mp asc _ _ _ _ before)
  · have equal : j = s.length - 1 := by omega
    simp [equal]

theorem Ascending.above (asc : Ascending s) (some' : s ≠ []) {y : Nat} (on : y ∈ s) : s.head some' ≤ y := by
  have first : s[0]? = some (s.head some') := by
    rw [← List.head?_eq_getElem?,List.head?_eq_some_head]
  exact asc.least first (by simpa using on)

-- What the union of two segments comes to: it is not made if it has all values and one of them is new.
structure Joined (limit : Nat) (seg : Segment) (all : Nat → Prop) (changed : Bool) (s' : Segment) : Prop where
  flag : changed = true ↔ ∃ y, all y ∧ y ∉ seg.indices
  room : changed = true → ¬ Full seg.indices all
  carries : Carries limit s' seg.highBits (fun y => y ∈ seg.indices ∨ all y)

-- The union from the loop, or what is done when nothing is new.
theorem orLoopUnion (formed : Formed limit seg) (formed' : Formed limit input) (large : kSegmentMask ≤ limit) :
    (orLoop seg input (input.indices.length + 1) 0 0 0 noSegment = none ∧ Full seg.indices (· ∈ input.indices) ∧ ∃ y, y ∈ input.indices ∧ y ∉ seg.indices) ∨
      ∃ i0 tmp, orLoop seg input (input.indices.length + 1) 0 0 0 noSegment = some (i0,tmp) ∧
        ((tmp.indices = [] ∧ ∀ y ∈ input.indices, y ∈ seg.indices) ∨
          tmp.indices ≠ [] ∧ (∃ y, y ∈ input.indices ∧ y ∉ seg.indices) ∧
            ((append seg.indices i0 seg.indices.length tmp = none ∧ Full seg.indices (· ∈ input.indices)) ∨
              ∃ s', append seg.indices i0 seg.indices.length tmp = some s' ∧ ¬ Full seg.indices (· ∈ input.indices) ∧
                Carries limit s' seg.highBits (fun y => y ∈ seg.indices ∨ y ∈ input.indices))) := by
  obtain ⟨r,grown,enough,less⟩ := unionRoom formed formed'
  rcases @orLoopMerges [] 0 0 r limit seg input noSegment 0 (input.indices.length + 1) formed formed' grown enough
    (Merging.start formed.ascending (by simp)) (.inl ⟨rfl,rfl⟩) (fun _ => rfl) (fun some' => absurd rfl some') (by omega) with failed | ⟨i0,i,tmp,done,ran,merging,work,first,new⟩
  · exact .inl failed
  · refine .inr ⟨i0,tmp,ran,?_⟩
    by_cases empty : done = []
    · refine .inl ⟨work.isZero.mpr empty,fun y on => ?_⟩
      have among := (merging.members y).mpr (.inr on)
      rw [empty,first empty] at among
      simpa using among
    · exact .inr ⟨fun zero => empty (work.isZero.mp zero),new empty,merging.finish work empty (fun _ => id) formed formed' (new empty) enough less large⟩

theorem orSegmentUnion (formed : Formed limit seg) (formed' : Formed limit input) (same : seg.highBits = input.highBits) (large : kSegmentMask ≤ limit) :
    (orSegment seg input = none ∧ Full seg.indices (· ∈ input.indices) ∧ ∃ y, y ∈ input.indices ∧ y ∉ seg.indices) ∨
      ∃ changed s', orSegment seg input = some (changed,s') ∧ Joined limit seg (· ∈ input.indices) changed s' := by
  obtain ⟨r,grown,enough,less⟩ := unionRoom formed formed'
  unfold orSegment
  rw [if_neg formed'.nonempty,if_neg formed.nonempty,List.getLast?_eq_some_getLast formed.nonempty,Option.bind_eq_bind,Option.bind_some,
    List.head?_eq_some_head formed'.nonempty,Option.bind_eq_bind,Option.bind_some]
  split
  · -- The input is behind the segment.
    rename_i apart
    rw [same] at apart
    have last : ∀ y ∈ seg.indices, ∀ z ∈ input.indices, y < z := by
      intro y on z on'
      have below := formed.ascending.below formed.nonempty on
      have above := formed'.ascending.above formed'.nonempty on'
      omega
    have asc : Ascending (seg.indices ++ input.indices) := by
      rw [Ascending,List.pairwise_append]
      exact ⟨formed.ascending,formed'.ascending,last⟩
    obtain ⟨y,inSeg⟩ := List.exists_mem_of_ne_nil _ formed.nonempty
    obtain ⟨z,inInput⟩ := List.exists_mem_of_ne_nil _ formed'.nonempty
    have new : z ∉ seg.indices := fun on => absurd (last z on z inInput) (Nat.lt_irrefl z)
    have new' : y ∉ input.indices := fun on => absurd (last y inSeg y on) (Nat.lt_irrefl y)
    have short := formed.ascending.length formed.small new (formed'.small z inInput)
    have short' := formed'.ascending.length formed'.small new' (formed.small y inSeg)
    have whole : ∀ list : List Nat, slice list 0 list.length = list := fun list => by simp [slice]
    have work : Work seg r noSegment [] := .inl ⟨rfl,rfl⟩
    rw [work.start grown,appendSlice (Nat.zero_le _) (Nat.le_refl _) (Nat.le_of_lt short) (by omega)]
    simp only [whole,List.nil_append]
    by_cases full : Full seg.indices (· ∈ input.indices)
    · have long := full.long fun k on => List.mem_append.mpr on
      refine .inl ⟨?_,full,z,inInput,new⟩
      split
      · simp only [Option.bind_some]
        rw [appendSlice (Nat.zero_le _) (Nat.le_refl _) (Nat.le_of_lt short') (by omega),if_neg (by simp only [whole]; omega)]
        rfl
      · rfl
    · have fits := unionFits asc (fun y on => List.mem_append.mp on) (fun _ => id) formed formed' full
      have mask : kSegmentMask + 1 = halfWord := rfl
      have fits' : (seg.indices ++ input.indices).length ≤ r := Nat.le_trans fits enough
      rw [if_pos ⟨short,by rw [List.length_append] at fits'; omega⟩]
      simp only [Option.bind_some]
      rw [appendSlice (Nat.zero_le _) (Nat.le_refl _) (Nat.le_of_lt short') (by omega),if_pos ⟨short',by simpa only [whole] using fits'⟩]
      simp only [Option.bind_some,whole]
      refine .inr ⟨_,_,rfl,⟨fun _ => ⟨z,inInput,new⟩,fun _ => rfl⟩,fun _ => full,rfl,fun some' => ⟨some',asc,fun y on => ?_,fits',(Nat.mod_eq_of_lt less).symm,?_,formed.high⟩,fun y => List.mem_append⟩
      · rcases List.mem_append.mp on with first | second
        · exact formed.small y first
        · exact formed'.small y second
      · show r ≤ limit
        omega
  · rcases orLoopUnion formed formed' large with ⟨ran,failed⟩ | ⟨i0,tmp,ran,⟨zero,within⟩ | ⟨some',new,⟨none',full⟩ | ⟨s',appended,room,carries⟩⟩⟩
    · rw [ran]
      exact .inl ⟨rfl,failed⟩
    · rw [ran]
      simp only [Option.bind_eq_bind,Option.bind_some]
      rw [if_pos zero]
      refine .inr ⟨_,_,rfl,⟨fun no => Bool.noConfusion no,fun some' => ?_⟩,fun no => Bool.noConfusion no,rfl,fun _ => formed,fun y => ?_⟩
      · obtain ⟨y,on,missing⟩ := some'
        exact absurd (within y on) missing
      · exact ⟨.inl,fun either => either.elim id (within y)⟩
    · rw [ran]
      simp only [Option.bind_eq_bind,Option.bind_some]
      rw [if_neg some',none']
      exact .inl ⟨rfl,full,new⟩
    · rw [ran]
      simp only [Option.bind_eq_bind,Option.bind_some]
      rw [if_neg some',appended]
      exact .inr ⟨_,s',rfl,⟨fun _ => new,fun _ => rfl⟩,fun _ => room,carries⟩

/- The first common value of two lists. -/

end

end OmrCompiler.SparseBits
