import OmrCompiler.BitVectorQueries

/-! Dense bit vectors combined with a sparse one, which is read through its
ascending cursor only. The loops walk the cursor and the dense chunks in step. -/
namespace OmrCompiler.BitVector
open MachineInt
open BitChunk

variable {L : Layout}

-- What the cursor yields from SetToFirstOne until it is no longer valid, as uint32_t.
structure SparseVector where
  elements : List Nat
  ascending : elements.Pairwise (· < ·)
  narrow : ∀ e ∈ elements, e < 2 ^ 32

def SparseVector.isZero (sparse : SparseVector) : Bool := sparse.elements.isEmpty

def SparseVector.firstOne (sparse : SparseVector) : Nat := sparse.elements.headD 0

def SparseVector.lastOne (sparse : SparseVector) : Nat := sparse.elements.getLastD 0

def SparseVector.members (sparse : SparseVector) : Finset Nat := sparse.elements.toFinset

def assignSparse (v : TRBitVector L) (sparse : SparseVector) : TRBitVector L :=
  sparse.elements.foldl (fun v (bi : Nat) => set v bi) (empty v)

-- for ( ; bi.Valid() && bi <= highBit; bi.SetToNextOne()) reset(bi, false)
def resetUpTo (highBit : Int) : List Nat → TRBitVector L → TRBitVector L
  | [],v => v
  | bi::rest,v => if bi ≤ highBit then resetUpTo highBit rest (reset v bi false) else v

def subSparse (v : TRBitVector L) (sparse : SparseVector) : TRBitVector L :=
  if isEmpty v || sparse.isZero then v
  else
    let highBit := getHighestBitPosition v % 2 ^ 32
    let v := resetUpTo highBit sparse.elements v
    resetLowAndHighChunks v.chunks v.firstChunkWithNonZero v.lastChunkWithNonZero

-- The loop from chunk to high, count chunks in all, and the chunk at which it stops.
def andChunks : Nat → Int → List Nat → List (Chunk L) → Int × List (Chunk L)
  | 0,chunk,_,cs => (chunk,cs)
  | count+1,chunk,bi,cs =>
    let bi := bi.dropWhile fun (e : Nat) => decide (getChunkIndex L e < chunk)
    if bi.isEmpty then (chunk,cs)
    else
      let c := orBits ((bi.takeWhile fun (e : Nat) => decide (chunk = getChunkIndex L e)).map fun (e : Nat) => (e : Int)) 0#(bitsInChunk L)
      andChunks count (chunk + 1) (bi.dropWhile fun (e : Nat) => decide (chunk = getChunkIndex L e)) (cs.modify chunk.toNat (· &&& c))

def andSparse (v : TRBitVector L) (sparse : SparseVector) : TRBitVector L :=
  if isEmpty v then v
  else if sparse.isZero then empty v
  else
    let low := v.firstChunkWithNonZero
    let high := v.lastChunkWithNonZero
    let stopped := andChunks (high + 1 - low).toNat low sparse.elements v.chunks
    resetLowAndHighChunks (zeroEach (span stopped.1 (high - 1)) stopped.2) low high

def orSparse (v : TRBitVector L) (sparse : SparseVector) : TRBitVector L :=
  if sparse.isZero then v
  else if isEmpty v then assignSparse v sparse
  else
    let first := sparse.firstOne
    let last := sparse.lastOne
    let v := growTo v (getChunkIndex L last)
    let cs := sparse.elements.foldl (fun cs (bi : Nat) => cs.modify (getChunkIndex L bi).toNat (· ||| getBitMask L bi)) v.chunks
    widen v (getChunkIndex L first) (getChunkIndex L last) cs

theorem narrowAddressable (L : Layout) {e : Nat} (narrow : e < 2 ^ 32) : Addressable L e := by
  have top : maxSigned 32 = 2147483647 := rfl
  simp only [Addressable,chunkIndex,top]
  rcases bitsInChunkCases L with w | w <;> simp only [w] <;> omega

theorem narrowIndex (L : Layout) {e : Nat} (narrow : e < 2 ^ 32) : getChunkIndex L e = chunkIndex L e :=
  chunkIndexNat (narrowAddressable L narrow)

@[simp] theorem isZeroIff (sparse : SparseVector) : sparse.isZero = true ↔ sparse.elements = [] := List.isEmpty_iff

theorem setEachRepresents {v : TRBitVector L} {S : Finset Nat} (h : Represents v S) (es : List Nat)
    (narrow : ∀ e ∈ es, e < 2 ^ 32) : Represents (es.foldl (fun v (bi : Nat) => set v bi) v) (S ∪ es.toFinset) := by
  induction es generalizing v S with
  | nil => simpa using h
  | cons e es ih =>
    have step := ih (setRepresents h (narrowAddressable L (narrow e List.mem_cons_self)))
      fun d on => narrow d (List.mem_cons_of_mem e on)
    have union : S ∪ (e :: es).toFinset = insert e S ∪ es.toFinset := by
      rw [List.toFinset_cons,Finset.union_insert,Finset.insert_union]
    rw [union,List.foldl_cons]
    exact step

theorem assignSparseRepresents {v : TRBitVector L} {S : Finset Nat} (h : Represents v S) (sparse : SparseVector) :
    Represents (assignSparse v sparse) sparse.members := by
  have assigned := setEachRepresents (emptyRepresents h) sparse.elements sparse.narrow
  rwa [Finset.empty_union] at assigned

theorem Represents.emptyIff {v : TRBitVector L} {S : Finset Nat} (h : Represents v S) : isEmpty v = true ↔ S = ∅ := by
  rw [isEmpty,decide_eq_true_iff]
  constructor
  · exact h.nil
  · rintro rfl
    rcases h.bounded.tight with ⟨_,last⟩ | ⟨nonneg,_,_,hit,_⟩
    · omega
    · obtain ⟨k,hk⟩ := Int.eq_ofNat_of_zero_le nonneg
      rw [hk] at hit
      obtain ⟨n,_,on⟩ := chunkSome.mp hit
      exact absurd ((h.member n).mpr on) (Finset.notMem_empty n)

theorem lengthOrEach (es : List Nat) (cs : List (Chunk L)) :
    (es.foldl (fun cs (bi : Nat) => cs.modify (getChunkIndex L bi).toNat (· ||| getBitMask L bi)) cs).length = cs.length := by
  induction es generalizing cs with
  | nil => rfl
  | cons e es ih => rw [List.foldl_cons,ih,List.length_modify]

theorem bitAtOrEach (es : List Nat) (cs : List (Chunk L)) (narrow : ∀ e ∈ es, e < 2 ^ 32)
    (inside : ∀ e ∈ es, chunkIndex L e < cs.length) (p : Nat) :
    bitAt (chunkOf (es.foldl (fun cs (bi : Nat) => cs.modify (getChunkIndex L bi).toNat (· ||| getBitMask L bi)) cs)
      (chunkIndex L p)) p = (bitAt (chunkOf cs (chunkIndex L p)) p || decide (p ∈ es)) := by
  induction es generalizing cs with
  | nil => simp
  | cons e es ih =>
    have index := narrowIndex L (narrow e List.mem_cons_self)
    have room := inside e List.mem_cons_self
    rw [List.foldl_cons,ih _ (fun d on => narrow d (List.mem_cons_of_mem e on))
      (fun d on => by rw [List.length_modify]; exact inside d (List.mem_cons_of_mem e on)),index,
      chunkOfModify _ _ (by omega) (by omega)]
    by_cases same : chunkIndex L p = chunkIndex L e
    · have here := sameBit same
      have first : decide ((e : Int) % bitsInChunk L = (p : Int) % bitsInChunk L) = decide (p = e) :=
        decide_eq_decide.mpr here
      rw [if_pos ⟨by omega,by omega⟩,bitAtOr,bitAtMask,same,Bool.or_assoc,first]
      simp
    · have other : p ≠ e := fun equal => same (by rw [equal])
      rw [if_neg fun both => same (by exact_mod_cast both.1)]
      simp [other]

theorem firstLeast {es : List Nat} (ascending : es.Pairwise (· < ·)) (some : es ≠ []) :
    es.headD 0 ∈ es ∧ ∀ e ∈ es, es.headD 0 ≤ e := by
  cases es with
  | nil => exact absurd rfl some
  | cons first rest =>
    refine ⟨List.mem_cons_self,fun e on => ?_⟩
    rcases List.mem_cons.mp on with rfl | later
    · exact Nat.le_refl _
    · exact Nat.le_of_lt ((List.pairwise_cons.mp ascending).1 e later)

theorem lastGreatest {es : List Nat} (ascending : es.Pairwise (· < ·)) (some : es ≠ []) :
    es.getLastD 0 ∈ es ∧ ∀ e ∈ es, e ≤ es.getLastD 0 := by
  induction es with
  | nil => exact absurd rfl some
  | cons first rest ih =>
    obtain ⟨least,tail⟩ := List.pairwise_cons.mp ascending
    cases rest with
    | nil => simp
    | cons second rest =>
      obtain ⟨on,greatest⟩ := ih tail (by simp)
      refine ⟨List.mem_cons_of_mem first on,fun e member => ?_⟩
      rcases List.mem_cons.mp member with rfl | later
      · exact Nat.le_of_lt (least _ on)
      · exact greatest e later

theorem orSparseRepresents {v : TRBitVector L} {S : Finset Nat} (h : Represents v S) (sparse : SparseVector) :
    Represents (orSparse v sparse) (S ∪ sparse.members) := by
  unfold orSparse
  split
  · rename_i zero
    simpa [SparseVector.members,(isZeroIff sparse).mp zero] using h
  split
  · rename_i empty'
    rw [h.emptyIff.mp empty',Finset.empty_union]
    exact assignSparseRepresents h sparse
  · rename_i some _
    have some' : sparse.elements ≠ [] := fun nil => some ((isZeroIff sparse).mpr nil)
    obtain ⟨firstOn,least⟩ := firstLeast sparse.ascending some'
    obtain ⟨lastOn,greatest⟩ := lastGreatest sparse.ascending some'
    have reach := narrowAddressable L (sparse.narrow _ lastOn)
    obtain ⟨grown,room⟩ := growToRepresents h reach
    simp only [SparseVector.firstOne,SparseVector.lastOne]
    rw [narrowIndex L (sparse.narrow _ lastOn),narrowIndex L (sparse.narrow _ firstOn)]
    have room' : (chunkIndex L (sparse.elements.getLastD 0) : Int) <
      (growTo v (chunkIndex L (sparse.elements.getLastD 0))).chunks.length := room
    apply widenRepresents grown (chunkIndexMono (least _ lastOn)) (lengthOrEach _ _) room
      ⟨_,List.mem_toFinset.mpr firstOn,rfl⟩ ⟨_,List.mem_toFinset.mpr lastOn,rfl⟩
    · intro n on
      have listed := List.mem_toFinset.mp on
      exact ⟨chunkIndexMono (least n listed),chunkIndexMono (greatest n listed)⟩
    · intro n
      rw [bitAtOrEach _ _ sparse.narrow,Bool.or_eq_true,decide_eq_true_iff,grown.member,List.mem_toFinset]
      · rfl
      · intro e on
        have := chunkIndexMono (L := L) (greatest e on)
        omega

-- The members lie between the bounds, which need not be tight.
def Enclosed (v : TRBitVector L) : Prop :=
  ∀ n, holds v n = true → v.firstChunkWithNonZero ≤ chunkIndex L n ∧ chunkIndex L n ≤ v.lastChunkWithNonZero

structure SameExtent (v u : TRBitVector L) : Prop where
  first : u.firstChunkWithNonZero = v.firstChunkWithNonZero
  last : u.lastChunkWithNonZero = v.lastChunkWithNonZero
  length : u.chunks.length = v.chunks.length

theorem resetQuiet {v : TRBitVector L} (enclosed : Enclosed v) {e : Nat} (narrow : e < 2 ^ 32) :
    SameExtent v (reset v e false) ∧ ∀ n, holds (reset v e false) n = (holds v n && decide (n ≠ e)) := by
  have keep : holds v e = false → ∀ n, holds v n = (holds v n && decide (n ≠ e)) := by
    intro off n
    by_cases same : n = e
    · rw [same,off,Bool.false_and]
    · simp [same]
  rw [reset,narrowIndex L narrow]
  split
  · rename_i out
    refine ⟨⟨rfl,rfl,rfl⟩,keep (Bool.eq_false_iff.mpr fun on => ?_)⟩
    have := enclosed e on
    omega
  split
  · rename_i nil
    exact ⟨⟨rfl,rfl,rfl⟩,keep (Bool.eq_false_iff.mpr fun on => holdsChunk on nil)⟩
  · rename_i some
    refine ⟨⟨rfl,rfl,List.length_modify _ _ _⟩,fun n => ?_⟩
    have inside : (chunkIndex L e : Int) < v.chunks.length := chunkInside some
    simp only [Bool.false_eq_true,false_and,if_false,holds,chunkAt]
    rw [chunkOfModify _ _ (by omega) (by omega)]
    by_cases same : chunkIndex L n = chunkIndex L e
    · have first : decide ((e : Int) % bitsInChunk L = (n : Int) % bitsInChunk L) = decide (n = e) :=
        decide_eq_decide.mpr (sameBit same)
      rw [if_pos ⟨by omega,inside⟩,bitAtAnd,bitAtNot,bitAtMask,same,first]
      simp
    · have other : n ≠ e := fun equal => same (by rw [equal])
      rw [if_neg fun both => same (by exact_mod_cast both.1)]
      simp [other]

theorem resetUpToClears {v : TRBitVector L} (enclosed : Enclosed v) {es : List Nat} (ascending : es.Pairwise (· < ·))
    (narrow : ∀ e ∈ es, e < 2 ^ 32) (highBit : Int) :
    SameExtent v (resetUpTo highBit es v) ∧
      ∀ n, holds (resetUpTo highBit es v) n = (holds v n && decide (¬ (n ∈ es ∧ n ≤ highBit))) := by
  induction es generalizing v with
  | nil => exact ⟨⟨rfl,rfl,rfl⟩,by simp [resetUpTo]⟩
  | cons e es ih =>
    obtain ⟨least,tail⟩ := List.pairwise_cons.mp ascending
    rw [resetUpTo]
    split
    · rename_i below
      obtain ⟨extent,bits⟩ := resetQuiet enclosed (narrow e List.mem_cons_self)
      have enclosed' : Enclosed (reset v e false) := by
        intro n on
        rw [bits,Bool.and_eq_true] at on
        rw [extent.first,extent.last]
        exact enclosed n on.1
      obtain ⟨extent',bits'⟩ := ih enclosed' tail fun d on => narrow d (List.mem_cons_of_mem e on)
      refine ⟨⟨extent'.first.trans extent.first,extent'.last.trans extent.last,extent'.length.trans extent.length⟩,fun n => ?_⟩
      rw [bits',bits,Bool.and_assoc]
      congr 1
      by_cases same : n = e
      · simp [same,below]
      · simp [same]
    · rename_i above
      refine ⟨⟨rfl,rfl,rfl⟩,fun n => ?_⟩
      have kept : ¬ (n ∈ e :: es ∧ (n : Int) ≤ highBit) := by
        rintro ⟨on,upto⟩
        rcases List.mem_cons.mp on with rfl | later
        · exact above upto
        · have := least n later
          omega
      rw [decide_eq_true kept,Bool.and_true]

theorem subSparseRepresents {v : TRBitVector L} {S : Finset Nat} (h : Represents v S) (sparse : SparseVector) :
    Represents (subSparse v sparse) (S \ sparse.members.filter fun e => e ≤ S.sup id % 2 ^ 32) := by
  unfold subSparse
  split
  · rename_i nothing
    rcases Bool.or_eq_true_iff.mp nothing with none | zero
    · rw [h.emptyIff.mp none,Finset.empty_sdiff,← h.emptyIff.mp none]
      exact h
    · simpa [SparseVector.members,(isZeroIff sparse).mp zero] using h
  · obtain ⟨extent,bits⟩ := resetUpToClears (v := v) (fun n on => h.bounded.holdsInside on) sparse.ascending sparse.narrow
      (getHighestBitPosition v % 2 ^ 32)
    have top : getHighestBitPosition v % 2 ^ 32 = (S.sup id % 2 ^ 32 : Nat) := by
      rw [getHighestBitPositionSup h]
      norm_cast
    rw [top] at extent bits ⊢
    have stop : v.lastChunkWithNonZero < v.chunks.length := by
      rcases h.bounded.tight with ⟨_,last⟩ | ⟨_,_,below,_⟩
      · omega
      · exact below
    apply rescanRepresents
    · rw [extent.first]
      exact h.bounded.firstNonneg
    · rw [extent.last,extent.length]
      exact stop
    · intro n on
      rw [extent.first,extent.last]
      exact h.bounded.holdsInside ((h.member n).mp (Finset.mem_sdiff.mp on).1)
    · intro n
      have bit := bits n
      simp only [holds,chunkAt] at bit
      rw [bit,Bool.and_eq_true,decide_eq_true_iff,Finset.mem_sdiff,h.member,Finset.mem_filter,SparseVector.members,
        List.mem_toFinset]
      simp only [holds,chunkAt,Int.ofNat_le]

-- A predicate on an ascending list that holds up to some point.
theorem memDropWhile {p : Nat → Bool} {es : List Nat} (ascending : es.Pairwise (· < ·))
    (down : ∀ d ∈ es, ∀ e ∈ es, d ≤ e → p e = true → p d = true) (e : Nat) :
    e ∈ es.dropWhile p ↔ e ∈ es ∧ p e = false := by
  induction es with
  | nil => simp
  | cons first rest ih =>
    obtain ⟨least,tail⟩ := List.pairwise_cons.mp ascending
    have step := ih tail fun d on f on' => down d (List.mem_cons_of_mem _ on) f (List.mem_cons_of_mem _ on')
    rw [List.dropWhile_cons]
    split
    · rename_i here
      rw [step,List.mem_cons]
      constructor
      · exact fun ⟨on,off⟩ => ⟨Or.inr on,off⟩
      · rintro ⟨rfl | on,off⟩
        · rw [here] at off
          cases off
        · exact ⟨on,off⟩
    · rename_i off
      refine ⟨fun on => ⟨on,Bool.eq_false_iff.mpr fun holds => off ?_⟩,fun on => on.1⟩
      rcases List.mem_cons.mp on with rfl | later
      · exact holds
      · exact down first List.mem_cons_self e on (Nat.le_of_lt (least e later)) holds

theorem memTakeWhile {p : Nat → Bool} {es : List Nat} (ascending : es.Pairwise (· < ·))
    (down : ∀ d ∈ es, ∀ e ∈ es, d ≤ e → p e = true → p d = true) (e : Nat) :
    e ∈ es.takeWhile p ↔ e ∈ es ∧ p e = true := by
  induction es with
  | nil => simp
  | cons first rest ih =>
    obtain ⟨least,tail⟩ := List.pairwise_cons.mp ascending
    have step := ih tail fun d on f on' => down d (List.mem_cons_of_mem _ on) f (List.mem_cons_of_mem _ on')
    rw [List.takeWhile_cons]
    split
    · rename_i here
      rw [List.mem_cons,List.mem_cons,step]
      constructor
      · rintro (rfl | later)
        · exact ⟨Or.inl rfl,here⟩
        · exact ⟨Or.inr later.1,later.2⟩
      · rintro ⟨rfl | on,holds⟩
        · exact Or.inl rfl
        · exact Or.inr ⟨on,holds⟩
    · rename_i off
      constructor
      · intro none
        cases none
      · rintro ⟨on,holds⟩
        rcases List.mem_cons.mp on with rfl | later
        · exact absurd holds off
        · exact absurd (down first List.mem_cons_self e on (Nat.le_of_lt (least e later)) holds) off

-- The cursor at a chunk: what is skipped before it, taken within it and left after it.
theorem cursorSplit {bi : List Nat} (ascending : bi.Pairwise (· < ·)) (narrow : ∀ e ∈ bi, e < 2 ^ 32) (chunk : Int) :
    let left := bi.dropWhile fun (e : Nat) => decide (getChunkIndex L e < chunk)
    (∀ e, e ∈ left ↔ e ∈ bi ∧ chunk ≤ chunkIndex L e) ∧
      (∀ e, e ∈ left.takeWhile (fun (e : Nat) => decide (chunk = getChunkIndex L e)) ↔ e ∈ bi ∧ chunk = chunkIndex L e) ∧
      ∀ e, e ∈ left.dropWhile (fun (e : Nat) => decide (chunk = getChunkIndex L e)) ↔ e ∈ bi ∧ chunk < chunkIndex L e := by
  intro left
  have index := fun e on => narrowIndex L (narrow e on)
  have beyond : ∀ e, e ∈ left ↔ e ∈ bi ∧ chunk ≤ chunkIndex L e := by
    intro e
    rw [memDropWhile ascending]
    · apply and_congr_right
      intro on
      rw [decide_eq_false_iff_not,index e on]
      omega
    · intro d onD e onE order
      rw [decide_eq_true_iff,decide_eq_true_iff,index d onD,index e onE]
      have := chunkIndexMono (L := L) order
      omega
  have ascending' : left.Pairwise (· < ·) := ascending.sublist (List.dropWhile_sublist _)
  have down : ∀ d ∈ left, ∀ e ∈ left, d ≤ e → decide (chunk = getChunkIndex L e) = true → decide (chunk = getChunkIndex L d) = true := by
    intro d onD e onE order
    have inD := (beyond d).mp onD
    rw [decide_eq_true_iff,decide_eq_true_iff,index d inD.1,index e ((beyond e).mp onE).1]
    have := chunkIndexMono (L := L) order
    omega
  refine ⟨beyond,fun e => ?_,fun e => ?_⟩
  · rw [memTakeWhile ascending' down,beyond,and_assoc]
    apply and_congr_right
    intro on
    rw [decide_eq_true_iff,index e on]
    omega
  · rw [memDropWhile ascending' down,beyond,and_assoc]
    apply and_congr_right
    intro on
    rw [decide_eq_false_iff_not,index e on]
    omega

-- The word gathered for a chunk has the bits of the cursor's elements in it.
theorem gatheredBit {taken bi : List Nat} {chunk : Int} (here : ∀ e, e ∈ taken ↔ e ∈ bi ∧ chunk = chunkIndex L e) {n : Nat}
    (same : (chunkIndex L n : Int) = chunk) :
    bitAt (orBits (taken.map fun (e : Nat) => (e : Int)) 0#(bitsInChunk L)) n = decide (n ∈ bi) := by
  rw [bitAtOrBits,bitAtZero,Bool.false_or,Bool.eq_iff_iff,List.any_eq_true,decide_eq_true_iff]
  constructor
  · rintro ⟨i,member,equal⟩
    obtain ⟨e,on,rfl⟩ := List.mem_map.mp member
    have inChunk := (here e).mp on
    have found := (sameBit (L := L) (m := n) (n := e) (by omega)).mp (beq_iff_eq.mp equal)
    rw [found]
    exact inChunk.1
  · intro on
    exact ⟨n,List.mem_map.mpr ⟨n,(here n).mpr ⟨on,same.symm⟩,rfl⟩,beq_self_eq_true _⟩

-- Where the loop over count chunks stops, and what it leaves.
structure AndStopped (L : Layout) (count : Nat) (chunk : Int) (bi : List Nat) (cs : List (Chunk L)) (stopped : Int × List (Chunk L)) :
    Prop where
  reached : chunk ≤ stopped.1 ∧ stopped.1 ≤ chunk + count
  length : stopped.2.length = cs.length
  bits : ∀ n : Nat, bitAt (chunkOf stopped.2 (chunkIndex L n)) n =
    (bitAt (chunkOf cs (chunkIndex L n)) n && decide (chunk ≤ chunkIndex L n → chunkIndex L n < stopped.1 → n ∈ bi))
  early : stopped.1 < chunk + count → ∀ e ∈ bi, chunkIndex L e < stopped.1
  late : stopped.1 = chunk + count → 0 < count → ∃ e ∈ bi, chunk + count ≤ chunkIndex L e + 1

theorem AndStopped.atOnce {count : Nat} {chunk : Int} {bi : List Nat} {cs : List (Chunk L)}
    (before : 0 < count → ∀ e ∈ bi, chunkIndex L e < chunk) : AndStopped L count chunk bi cs (chunk,cs) := by
  refine ⟨⟨le_refl _,by simp⟩,rfl,fun n => ?_,fun less => before (by simp at less; omega),fun whole more => ?_⟩
  · have vacuous : chunk ≤ chunkIndex L n → chunkIndex L n < chunk → n ∈ bi := fun low high => by omega
    rw [decide_eq_true vacuous,Bool.and_true]
  · simp only at whole
    omega

theorem andChunksStopped (count : Nat) {chunk : Int} (nonneg : 0 ≤ chunk) {bi : List Nat} (ascending : bi.Pairwise (· < ·))
    (narrow : ∀ e ∈ bi, e < 2 ^ 32) {cs : List (Chunk L)} (room : chunk + count ≤ cs.length) :
    AndStopped L count chunk bi cs (andChunks count chunk bi cs) := by
  induction count generalizing chunk bi cs with
  | zero => exact .atOnce fun none => absurd none (Nat.lt_irrefl 0)
  | succ count ih =>
    obtain ⟨beyond,here,rest⟩ := cursorSplit (L := L) ascending narrow chunk
    rw [andChunks]
    set left := bi.dropWhile (fun (e : Nat) => decide (getChunkIndex L e < chunk))
    set taken := left.takeWhile fun (e : Nat) => decide (chunk = getChunkIndex L e)
    set after := left.dropWhile fun (e : Nat) => decide (chunk = getChunkIndex L e) with ha
    split
    · rename_i none
      apply AndStopped.atOnce
      intro _ e on
      by_contra above
      have member := (beyond e).mpr ⟨on,by omega⟩
      rw [List.isEmpty_iff.mp none] at member
      cases member
    · rename_i some
      show AndStopped L (count + 1) chunk bi cs (andChunks count (chunk + 1) after
        (cs.modify chunk.toNat (· &&& orBits (taken.map fun (e : Nat) => (e : Int)) 0#(bitsInChunk L))))
      have sorted : after.Pairwise (· < ·) :=
        (ascending.sublist (List.dropWhile_sublist _)).sublist (List.dropWhile_sublist _)
      obtain ⟨reached,length,bits,early,late⟩ := @ih (chunk + 1) (by omega) after sorted
        (fun e on => narrow e ((rest e).mp on).1)
        (cs.modify chunk.toNat (· &&& orBits (taken.map fun (e : Nat) => (e : Int)) 0#(bitsInChunk L)))
        (by rw [List.length_modify]; omega)
      set stopped := andChunks count (chunk + 1) after
        (cs.modify chunk.toNat (· &&& orBits (taken.map fun (e : Nat) => (e : Int)) 0#(bitsInChunk L)))
      refine ⟨⟨by omega,by omega⟩,by rw [length,List.length_modify],fun n => ?_,fun less e on => ?_,fun whole _ => ?_⟩
      · rw [bits n,chunkOfModify _ _ nonneg (by omega)]
        by_cases same : (chunkIndex L n : Int) = chunk
        · have vacuous : chunk + 1 ≤ chunkIndex L n → chunkIndex L n < stopped.1 → n ∈ after := fun above => by omega
          rw [if_pos ⟨same,by omega⟩,bitAtAnd,decide_eq_true vacuous,Bool.and_true,gatheredBit here same,same]
          congr 1
          rw [decide_eq_decide]
          exact ⟨fun on _ _ => on,fun on => on (le_refl _) (by omega)⟩
        · rw [if_neg fun both => same both.1]
          congr 1
          rw [decide_eq_decide,rest]
          constructor
          · intro inside low high
            exact (inside (by omega) high).1
          · intro inside low high
            exact ⟨inside (by omega) high,by omega⟩
      · by_cases above : chunk < chunkIndex L e
        · exact early (by omega) e ((rest e).mpr ⟨on,above⟩)
        · omega
      · by_cases more : 0 < count
        · obtain ⟨e,on,far⟩ := late (by omega) more
          exact ⟨e,((rest e).mp on).1,by omega⟩
        · obtain ⟨e,on⟩ := List.exists_mem_of_ne_nil left fun nil => some (List.isEmpty_iff.mpr nil)
          have found := (beyond e).mp on
          exact ⟨e,found.1,by omega⟩

theorem Represents.lastChunk {v : TRBitVector L} {S : Finset Nat} (h : Represents v S) (some : S.Nonempty) :
    v.lastChunkWithNonZero = chunkIndex L (S.sup id) := by
  obtain ⟨top,on,same⟩ := S.exists_mem_eq_sup some id
  have within := h.bounded.holdsInside ((h.member top).mp on)
  rw [same]
  rcases h.bounded.tight with ⟨_,last⟩ | ⟨nonneg,order,_,_,hit⟩
  · omega
  · obtain ⟨l,hl⟩ := Int.eq_ofNat_of_zero_le (nonneg.trans order)
    rw [hl] at hit
    obtain ⟨n,index,held⟩ := chunkSome.mp hit
    have below : n ≤ S.sup id := Finset.le_sup (f := id) ((h.member n).mpr held)
    have := chunkIndexMono (L := L) below
    rw [same] at this
    simp only [id_eq] at this ⊢
    omega

theorem Represents.unique {v : TRBitVector L} {S T : Finset Nat} (h : Represents v S) (k : Represents v T) : S = T := by
  ext n
  rw [h.member,k.member]

-- What the tail loop leaves of the last chunk when the cursor ends before it.
def staleMembers (L : Layout) (S T : Finset Nat) : Finset Nat :=
  if T.Nonempty ∧ ∀ e ∈ T, chunkIndex L e < chunkIndex L (S.sup id) then
    S.filter fun n => chunkIndex L n = chunkIndex L (S.sup id)
  else ∅

theorem andSparseRepresents {v : TRBitVector L} {S : Finset Nat} (h : Represents v S) (sparse : SparseVector) :
    Represents (andSparse v sparse) (S ∩ sparse.members ∪ staleMembers L S sparse.members) := by
  unfold andSparse
  split
  · rename_i none
    have nil := h.emptyIff.mp none
    subst nil
    have gone : staleMembers L ∅ sparse.members = ∅ := by
      unfold staleMembers
      split <;> rfl
    rw [gone,Finset.empty_inter,Finset.empty_union]
    exact h
  rename_i some
  split
  · rename_i zero
    have nil : sparse.members = ∅ := by simp [SparseVector.members,(isZeroIff sparse).mp zero]
    rw [nil,staleMembers,if_neg (by simp),Finset.inter_empty,Finset.empty_union]
    exact emptyRepresents h
  · rename_i listed
    have inhabited : S.Nonempty := Finset.nonempty_iff_ne_empty.mpr fun nil => some (h.emptyIff.mpr nil)
    have listed' : sparse.members.Nonempty := by
      rw [SparseVector.members,List.toFinset_nonempty_iff]
      exact fun nil => listed ((isZeroIff sparse).mpr nil)
    obtain ⟨start,order,last,_⟩ := h.nonempty fun none => some (by simp [isEmpty,none])
    have top := h.lastChunk inhabited
    have fits : (v.chunks.length : Int) = numChunks v := rfl
    obtain ⟨reached,length,bits,early,late⟩ := @andChunksStopped _ (v.lastChunkWithNonZero + 1 - v.firstChunkWithNonZero).toNat
      v.firstChunkWithNonZero start _ sparse.ascending sparse.narrow v.chunks (by omega)
    simp only
    set stopped := andChunks (v.lastChunkWithNonZero + 1 - v.firstChunkWithNonZero).toNat v.firstChunkWithNonZero
      sparse.elements v.chunks
    have member : ∀ n, n ∈ S ∩ sparse.members ∪ staleMembers L S sparse.members ↔
        n ∈ S ∧ (n ∈ sparse.elements ∨ stopped.1 ≤ v.lastChunkWithNonZero ∧ chunkIndex L n = v.lastChunkWithNonZero) := by
      intro n
      have ended : (sparse.members.Nonempty ∧ ∀ e ∈ sparse.members, chunkIndex L e < chunkIndex L (S.sup id)) ↔
          stopped.1 ≤ v.lastChunkWithNonZero := by
        simp only [SparseVector.members,List.mem_toFinset]
        constructor
        · rintro ⟨_,before⟩
          by_contra whole
          obtain ⟨e,on,far⟩ := late (by omega) (by omega)
          have := before e on
          omega
        · intro stops
          refine ⟨listed',fun e on => ?_⟩
          have := early (by omega) e on
          omega
      rw [Finset.mem_union,Finset.mem_inter,staleMembers,SparseVector.members] at *
      by_cases stops : stopped.1 ≤ v.lastChunkWithNonZero
      · rw [if_pos (ended.mpr stops),Finset.mem_filter,List.mem_toFinset,← and_or_left]
        apply and_congr_right
        intro _
        apply or_congr_right
        omega
      · rw [if_neg fun both => stops (ended.mp both),List.mem_toFinset]
        simp [stops]
    apply rescanRepresents start
    · rw [zeroEach,lengthStoreEach,length]
      exact last
    · intro n on
      exact h.bounded.holdsInside ((h.member n).mp ((member n).mp on).1)
    · intro n
      rw [zeroEach,chunkOfSpan _ _ (by omega) (by omega),length,member,h.member]
      by_cases held : holds v n = true
      · have within := h.bounded.holdsInside held
        have bit := bits n
        have held' : bitAt (chunkOf v.chunks (chunkIndex L n)) n = true := held
        rw [held',Bool.true_and] at bit
        by_cases cleared : stopped.1 ≤ chunkIndex L n ∧ chunkIndex L n ≤ v.lastChunkWithNonZero - 1
        · rw [if_pos ⟨cleared.1,cleared.2,by omega⟩,bitAtZero]
          simp only [Bool.false_eq_true,false_iff]
          rintro ⟨_,on | ⟨_,here⟩⟩
          · have := early (by omega) n on
            omega
          · omega
        · rw [if_neg fun all => cleared ⟨all.1,all.2.1⟩,bit,decide_eq_true_iff]
          constructor
          · intro inside
            refine ⟨held,?_⟩
            by_cases before : chunkIndex L n < stopped.1
            · exact Or.inl (inside within.1 before)
            · exact Or.inr ⟨by omega,by omega⟩
          · rintro ⟨_,on | ⟨stops,here⟩⟩ _ before
            · exact on
            · omega
      · have off : bitAt (chunkOf v.chunks (chunkIndex L n)) n = false := Bool.eq_false_iff.mpr held
        have bit := bits n
        rw [off,Bool.false_and] at bit
        split
        · simp [held]
        · simp [bit,held]

def OperatorsAgree (v : TRBitVector L) (S : Finset Nat) (sparse : SparseVector) : Prop :=
  Represents (assignSparse v sparse) sparse.members ∧ Represents (orSparse v sparse) (S ∪ sparse.members) ∧
    Represents (andSparse v sparse) (S ∩ sparse.members) ∧ Represents (subSparse v sparse) (S \ sparse.members)

theorem andAgrees {S T : Finset Nat} :
    S ∩ T ∪ staleMembers L S T = S ∩ T ↔
      (S.Nonempty → T.Nonempty → ∃ e ∈ T, chunkIndex L (S.sup id) ≤ chunkIndex L e) := by
  constructor
  · intro same some listed
    by_contra short
    have before : ∀ e ∈ T, chunkIndex L e < chunkIndex L (S.sup id) := fun e on => by
      by_contra far
      exact short ⟨e,on,Nat.le_of_not_lt far⟩
    obtain ⟨top,on,greatest⟩ := S.exists_mem_eq_sup some id
    have greatest' : S.sup id = top := greatest
    have stale : top ∈ S ∩ T ∪ staleMembers L S T := by
      rw [Finset.mem_union,staleMembers,if_pos ⟨listed,before⟩,Finset.mem_filter]
      exact Or.inr ⟨on,by rw [greatest']⟩
    rw [same] at stale
    have := before top (Finset.mem_inter.mp stale).2
    rw [greatest'] at this
    exact Nat.lt_irrefl _ this
  · intro reaches
    have none : staleMembers L S T = ∅ := by
      rw [staleMembers]
      split
      · rename_i stops
        by_cases some : S.Nonempty
        · obtain ⟨e,on,far⟩ := reaches some stops.1
          exact absurd (stops.2 e on) (Nat.not_lt.mpr far)
        · rw [Finset.not_nonempty_iff_eq_empty.mp some]
          rfl
      · rfl
    rw [none,Finset.union_empty]

theorem subAgrees {S T : Finset Nat} (limit : Nat) :
    S \ T.filter (fun e => e ≤ limit) = S \ T ↔ ∀ e ∈ S ∩ T, e ≤ limit := by
  constructor
  · intro same e on
    obtain ⟨left,right⟩ := Finset.mem_inter.mp on
    by_contra above
    have kept : e ∈ S \ T.filter fun e => e ≤ limit := by
      rw [Finset.mem_sdiff,Finset.mem_filter]
      exact ⟨left,fun both => above both.2⟩
    rw [same] at kept
    exact (Finset.mem_sdiff.mp kept).2 right
  · intro below
    ext n
    rw [Finset.mem_sdiff,Finset.mem_sdiff,Finset.mem_filter]
    apply and_congr_right
    intro left
    rw [not_iff_not]
    exact ⟨fun both => both.1,fun right => ⟨right,below n (Finset.mem_inter.mpr ⟨left,right⟩)⟩⟩

theorem sparseOperatorsAgree {v : TRBitVector L} {S : Finset Nat} (h : Represents v S) (sparse : SparseVector) :
    OperatorsAgree v S sparse ↔
      (S.Nonempty → sparse.members.Nonempty → ∃ e ∈ sparse.members, chunkIndex L (S.sup id) ≤ chunkIndex L e) ∧
        ∀ e ∈ S ∩ sparse.members, e ≤ S.sup id % 2 ^ 32 := by
  have both := andSparseRepresents h sparse
  have rest := subSparseRepresents h sparse
  constructor
  · rintro ⟨_,_,inter,diff⟩
    exact ⟨andAgrees.mp (both.unique inter),(subAgrees _).mp (rest.unique diff)⟩
  · rintro ⟨reaches,below⟩
    rw [andAgrees.mpr reaches] at both
    rw [(subAgrees _).mpr below] at rest
    exact ⟨assignSparseRepresents h sparse,orSparseRepresents h sparse,both,rest⟩

-- {1, 70} in 64-bit chunks: its last chunk is chunk 1.
def sampleDense : TRBitVector ⟨true,false⟩ := set (set (construct ⟨true,false⟩ (128 : Nat)) (1 : Nat)) (70 : Nat)

theorem sampleDenseRepresents : Represents sampleDense {70,1} :=
  setRepresents (setRepresents (constructRepresents ⟨true,false⟩ (by decide)) (n := 1) (by unfold Addressable; decide))
    (n := 70) (by unfold Addressable; decide)

theorem sparseOperatorsAgreeSample : OperatorsAgree sampleDense {70,1} ⟨[1,100],by decide,by decide⟩ :=
  (sparseOperatorsAgree sampleDenseRepresents ⟨[1,100],by decide,by decide⟩).mpr
    ⟨fun _ _ => ⟨100,by decide,by decide⟩,by decide⟩

-- The cursor of {1} ends before chunk 1, which &= then leaves as it was.
theorem andSparseStale : Represents sampleDense {70,1} ∧ ¬ OperatorsAgree sampleDense {70,1} ⟨[1],by decide,by decide⟩ := by
  refine ⟨sampleDenseRepresents,?_⟩
  rintro ⟨_,_,inter,_⟩
  have kept : holds (andSparse sampleDense ⟨[1],by decide,by decide⟩) 70 = true := by decide
  have member := (inter.member 70).mpr kept
  revert member
  decide

end OmrCompiler.BitVector
