import OmrCompiler.BitVector

/-! The bounds of a dense bit vector are exact: `firstChunkWithNonZero` and
`lastChunkWithNonZero` are the first and the last non-zero chunk. -/
namespace OmrCompiler.BitVector
open MachineInt
open BitChunk

variable {L : Layout}

theorem memSpan {low high i : Int} : i ∈ span low high ↔ low ≤ i ∧ i ≤ high := by
  simp only [span,List.mem_map,List.mem_range]
  constructor
  · rintro ⟨k,below,rfl⟩
    omega
  · rintro ⟨above,below⟩
    exact ⟨(i - low).toNat,by omega,by omega⟩

theorem nodupSpan (low high : Int) : (span low high).Nodup := by
  apply List.Nodup.map _ List.nodup_range
  intro a b (same : low + (a : Int) = low + (b : Int))
  omega

theorem chunkOfModify (cs : List (Chunk L)) (f : Chunk L → Chunk L) {i j : Int} (hi : 0 ≤ i) (hj : 0 ≤ j) :
    chunkOf (cs.modify i.toNat f) j =
      if j = i ∧ i < cs.length then f (chunkOf cs i) else chunkOf cs j := by
  simp only [chunkOf,List.getD_eq_getElem?_getD,List.getElem?_modify]
  by_cases same : j = i
  · subst j
    by_cases inside : i.toNat < cs.length
    · have below : i < cs.length := by omega
      simp [inside,below]
    · have above : ¬ i < cs.length := by omega
      simp [inside,above]
  · have other : i.toNat ≠ j.toNat := by omega
    simp [same,other]

theorem lengthStoreEach (is : List Int) (f : Int → Chunk L → Chunk L) (cs : List (Chunk L)) :
    (storeEach is f cs).length = cs.length := by
  induction is generalizing cs with
  | nil => rfl
  | cons i is ih =>
    have step := ih (cs.modify i.toNat (f i))
    simpa [storeEach] using step

theorem chunkOfStoreEach (is : List Int) (f : Int → Chunk L → Chunk L) (cs : List (Chunk L))
    (distinct : is.Nodup) (inside : ∀ i ∈ is, 0 ≤ i) {j : Int} (hj : 0 ≤ j) :
    chunkOf (storeEach is f cs) j = if j ∈ is ∧ j < cs.length then f j (chunkOf cs j) else chunkOf cs j := by
  induction is generalizing cs with
  | nil => simp [storeEach]
  | cons i is ih =>
    have fresh := (List.nodup_cons.mp distinct).1
    have step := ih (cs.modify i.toNat (f i)) (List.nodup_cons.mp distinct).2
      fun k member => inside k (List.mem_cons_of_mem i member)
    have hi := inside i List.mem_cons_self
    simp only [storeEach,List.foldl_cons,List.length_modify] at step ⊢
    rw [step,chunkOfModify cs (f i) hi hj]
    by_cases same : j = i
    · subst j
      simp [fresh]
    · simp [same]

theorem chunkOfSpan (f : Int → Chunk L → Chunk L) (cs : List (Chunk L)) {low high j : Int}
    (start : 0 ≤ low) (hj : 0 ≤ j) :
    chunkOf (storeEach (span low high) f cs) j =
      if low ≤ j ∧ j ≤ high ∧ j < cs.length then f j (chunkOf cs j) else chunkOf cs j := by
  rw [chunkOfStoreEach _ f cs (nodupSpan low high) (fun i member => by have := memSpan.mp member; omega) hj]
  simp only [memSpan,and_assoc]

theorem chunkOfSpanDown (f : Int → Chunk L → Chunk L) (cs : List (Chunk L)) {low high j : Int}
    (start : 0 ≤ low) (hj : 0 ≤ j) :
    chunkOf (storeEach (span low high).reverse f cs) j =
      if low ≤ j ∧ j ≤ high ∧ j < cs.length then f j (chunkOf cs j) else chunkOf cs j := by
  have distinct := List.nodup_reverse.mpr (nodupSpan low high)
  rw [chunkOfStoreEach _ f cs distinct (fun i member => by
    have := memSpan.mp (List.mem_reverse.mp member); omega) hj]
  simp only [List.mem_reverse,memSpan,and_assoc]

theorem chunkOfBeyond (cs : List (Chunk L)) {j : Int} (above : (cs.length : Int) ≤ j) :
    chunkOf cs j = 0#(bitsInChunk L) := by
  simp only [chunkOf,List.getD_eq_getElem?_getD]
  rw [List.getElem?_eq_none (by omega)]
  rfl

theorem chunkInside {cs : List (Chunk L)} {j : Int} (some : chunkOf cs j ≠ 0#(bitsInChunk L)) :
    j < cs.length := by
  by_contra above
  exact some (chunkOfBeyond cs (by omega))

structure Bounded (v : TRBitVector L) : Prop where
  inside : ∀ j, 0 ≤ j → chunkAt v j ≠ 0#(bitsInChunk L) →
    v.firstChunkWithNonZero ≤ j ∧ j ≤ v.lastChunkWithNonZero
  tight : (v.firstChunkWithNonZero = numChunks v ∧ v.lastChunkWithNonZero = -1) ∨
    (0 ≤ v.firstChunkWithNonZero ∧ v.firstChunkWithNonZero ≤ v.lastChunkWithNonZero ∧
      v.lastChunkWithNonZero < numChunks v ∧ chunkAt v v.firstChunkWithNonZero ≠ 0#(bitsInChunk L) ∧
      chunkAt v v.lastChunkWithNonZero ≠ 0#(bitsInChunk L))

theorem Bounded.firstNonneg {v : TRBitVector L} (h : Bounded v) : 0 ≤ v.firstChunkWithNonZero := by
  rcases h.tight with ⟨first,_⟩ | ⟨first,_⟩
  · simp only [numChunks] at first
    omega
  · exact first

theorem Bounded.outside {v : TRBitVector L} (h : Bounded v) {j : Int} (hj : 0 ≤ j)
    (out : j < v.firstChunkWithNonZero ∨ v.lastChunkWithNonZero < j) : chunkAt v j = 0#(bitsInChunk L) := by
  by_contra some
  have := h.inside j hj some
  omega

theorem scanDownFinds (cs : List (Chunk L)) (high : Nat) {k : Int} (hk : 0 ≤ k) (below : k ≤ high)
    (some : chunkOf cs k ≠ 0#(bitsInChunk L)) :
    k ≤ scanDown cs high ∧ scanDown cs high ≤ high ∧ chunkOf cs (scanDown cs high) ≠ 0#(bitsInChunk L) ∧
      ∀ j, scanDown cs high < j → j ≤ high → chunkOf cs j = 0#(bitsInChunk L) := by
  induction high with
  | zero =>
    have here : k = 0 := by omega
    subst k
    simp only [scanDown,if_neg some]
    exact ⟨le_refl _,le_refl _,some,fun j above below => by omega⟩
  | succ high ih =>
    by_cases nil : chunkOf cs (high+1 : Nat) = 0#(bitsInChunk L)
    · have lower : k ≤ high := by
        by_contra top
        have here : k = (high+1 : Nat) := by omega
        subst k
        exact some nil
      obtain ⟨least,most,hit,rest⟩ := ih lower
      simp only [scanDown,if_pos nil]
      refine ⟨least,by omega,hit,?_⟩
      intro j above upto
      by_cases top : j = (high+1 : Nat)
      · subst j
        exact nil
      · exact rest j above (by omega)
    · simp only [scanDown,if_neg nil]
      exact ⟨below,le_refl _,nil,fun j above upto => by omega⟩

theorem scanUpFinds (cs : List (Chunk L)) (count : Nat) (low : Int) :
    low ≤ scanUp cs count low ∧ scanUp cs count low ≤ low + count ∧
      (scanUp cs count low < low + count → chunkOf cs (scanUp cs count low) ≠ 0#(bitsInChunk L)) ∧
      ∀ j, low ≤ j → j < scanUp cs count low → chunkOf cs j = 0#(bitsInChunk L) := by
  induction count generalizing low with
  | zero =>
    simp only [scanUp]
    exact ⟨le_refl _,by omega,fun above => by omega,fun j above below => by omega⟩
  | succ count ih =>
    by_cases nil : chunkOf cs low = 0#(bitsInChunk L)
    · obtain ⟨least,most,hit,rest⟩ := ih (low + 1)
      simp only [scanUp,if_pos nil]
      refine ⟨by omega,by omega,fun below => hit (by omega),?_⟩
      intro j above below
      by_cases first : j = low
      · subst j
        exact nil
      · exact rest j (by omega) below
    · simp only [scanUp,if_neg nil]
      exact ⟨le_refl _,by omega,fun _ => nil,fun j above below => by omega⟩

theorem resetBounded {cs : List (Chunk L)} {low high : Int} (start : 0 ≤ low) (stop : high < cs.length)
    (inside : ∀ j, 0 ≤ j → chunkOf cs j ≠ 0#(bitsInChunk L) → low ≤ j ∧ j ≤ high) :
    Bounded (resetLowAndHighChunks cs low high) := by
  obtain ⟨least,most,hit,rest⟩ := scanUpFinds cs (high - low + 1).toNat low
  simp only [resetLowAndHighChunks]
  split
  · rename_i gone
    refine ⟨?_,Or.inl ⟨rfl,rfl⟩⟩
    intro j hj some
    have := inside j hj some
    exact absurd (rest j (by omega) (by omega)) some
  · rename_i found
    have some := hit (by omega)
    obtain ⟨above,below,nonzero,beyond⟩ := scanDownFinds cs high.toNat (by omega) (by omega) some
    have floor := start.trans least
    have top : scanDown cs high.toNat < cs.length := by omega
    refine ⟨?_,Or.inr ⟨floor,above,top,some,nonzero⟩⟩
    intro j hj on
    have within := inside j hj on
    constructor
    · exact le_of_not_gt fun early => on (rest j within.1 early)
    · exact le_of_not_gt fun late => on (beyond j late (by omega))

@[simp] theorem chunksReset (cs : List (Chunk L)) (low high : Int) :
    (resetLowAndHighChunks cs low high).chunks = cs := by
  simp only [resetLowAndHighChunks]
  split <;> rfl

theorem lengthResized (cs : List (Chunk L)) {k : Int} (hk : 0 ≤ k) : ((resized cs k).length : Int) = k := by
  simp only [resized,List.length_append,List.length_take,List.length_replicate]
  omega

theorem chunkOfResized (cs : List (Chunk L)) {k j : Int} (hk : 0 ≤ k) (hj : 0 ≤ j) :
    chunkOf (resized cs k) j = if j < k then chunkOf cs j else 0#(bitsInChunk L) := by
  split
  · rename_i below
    simp only [chunkOf,resized,List.getD_eq_getElem?_getD,List.getElem?_append,List.length_take,
      List.getElem?_take,List.getElem?_replicate]
    by_cases held : j.toNat < cs.length
    · have early : j.toNat < k.toNat := by omega
      simp [held,early]
    · have late : ¬ (j.toNat < k.toNat ∧ j.toNat < cs.length) := by omega
      have short : cs[j.toNat]? = none := List.getElem?_eq_none (by omega)
      simp only [lt_min_iff,if_neg late,short]
      split <;> rfl
  · rename_i above
    apply chunkOfBeyond
    rw [lengthResized cs hk]
    omega

theorem setChunkSizeBounded {v : TRBitVector L} (h : Bounded v) {k : Int} (hk : 0 ≤ k) :
    Bounded (setChunkSize v k) ∧ numChunks (setChunkSize v k) = k ∧
      ∀ j, 0 ≤ j → chunkAt (setChunkSize v k) j = if j < k then chunkAt v j else 0#(bitsInChunk L) := by
  have nonneg := h.firstNonneg
  have size := lengthResized v.chunks hk
  have values := fun j (hj : 0 ≤ j) => chunkOfResized v.chunks hk hj
  have cut : ∀ j, 0 ≤ j → chunkOf (resized v.chunks k) j ≠ 0#(bitsInChunk L) →
      j < k ∧ v.firstChunkWithNonZero ≤ j ∧ j ≤ v.lastChunkWithNonZero := by
    intro j hj some
    rw [values j hj] at some
    split at some
    · exact ⟨by assumption,h.inside j hj some⟩
    · exact absurd rfl some
  unfold setChunkSize
  split
  · rename_i same
    refine ⟨h,same.symm,?_⟩
    intro j hj
    split
    · rfl
    · exact chunkOfBeyond _ (by simp only [numChunks] at same; omega)
  split
  · rename_i zero
    subst k
    refine ⟨⟨?_,Or.inl ⟨rfl,rfl⟩⟩,rfl,?_⟩
    · intro j _ some
      exact absurd (chunkOfBeyond [] (by simpa using by assumption)) some
    · intro j hj
      rw [if_neg (by omega)]
      exact chunkOfBeyond [] (by simpa using hj)
  split
  · rename_i shrink
    split
    · rename_i none
      refine ⟨⟨?_,Or.inl ⟨size.symm,?_⟩⟩,size,values⟩
      · intro j hj some
        have := cut j hj some
        omega
      · rcases h.tight with ⟨_,last⟩ | ⟨_,_,_⟩
        · exact last
        · omega
    split
    · refine ⟨⟨?_,Or.inl ⟨size.symm,rfl⟩⟩,size,values⟩
      intro j hj some
      have := cut j hj some
      omega
    split
    · rename_i some low lost
      rcases h.tight with ⟨_,last⟩ | ⟨_,order,_,hit,_⟩
      · omega
      · obtain ⟨above,below,nonzero,beyond⟩ :=
          scanDownFinds v.chunks (k - 1).toNat h.firstNonneg (by omega) hit
        refine ⟨⟨?_,Or.inr ⟨h.firstNonneg,above,?_,?_,?_⟩⟩,size,values⟩
        · intro j hj on
          have within := cut j hj on
          refine ⟨within.2.1,?_⟩
          by_contra late
          have nil := beyond j (by simp only at late; omega) (by omega)
          rw [chunkAt,values j hj,nil] at on
          exact on (ite_self _)
        · simp only [numChunks,size]
          omega
        · simp only [chunkAt]
          rw [values _ h.firstNonneg,if_pos (by omega)]
          exact hit
        · simp only [chunkAt]
          rw [values _ (by omega),if_pos (by omega)]
          exact nonzero
    · rename_i some low kept
      rcases h.tight with ⟨_,last⟩ | ⟨_,order,_,hit,top⟩
      · omega
      · refine ⟨⟨fun j hj on => (cut j hj on).2,Or.inr ⟨h.firstNonneg,order,?_,?_,?_⟩⟩,size,values⟩
        · simp only [numChunks,size]
          omega
        · simp only [chunkAt]
          rw [values _ h.firstNonneg,if_pos (by omega)]
          exact hit
        · simp only [chunkAt]
          rw [values _ (by omega),if_pos (by omega)]
          exact top
  · rename_i grow
    split
    · rename_i none
      refine ⟨⟨?_,Or.inl ⟨size.symm,?_⟩⟩,size,values⟩
      · intro j hj some
        have := cut j hj some
        omega
      · rcases h.tight with ⟨_,last⟩ | ⟨_,_,_⟩
        · exact last
        · omega
    · rename_i some
      rcases h.tight with ⟨_,last⟩ | ⟨_,order,within,hit,top⟩
      · omega
      · refine ⟨⟨fun j hj on => (cut j hj on).2,Or.inr ⟨h.firstNonneg,order,?_,?_,?_⟩⟩,size,values⟩
        · simp only [numChunks] at within grow ⊢
          omega
        · simp only [chunkAt]
          rw [values _ h.firstNonneg,if_pos (by omega)]
          exact hit
        · simp only [chunkAt]
          rw [values _ (by omega),if_pos (by omega)]
          exact top

end OmrCompiler.BitVector
