import OmrCompiler.BitVectorFill

/-! What the queries of a dense bit vector return, in terms of the set it holds. -/
namespace OmrCompiler.BitVector
open MachineInt
open BitChunk

variable {L : Layout}

theorem isEmptyMember {v : TRBitVector L} {S : Finset Nat} (h : Represents v S) : isEmpty v = decide (S = ∅) := by
  rw [isEmpty,Bool.eq_iff_iff,decide_eq_true_iff,decide_eq_true_iff]
  constructor
  · exact h.nil
  · intro none
    by_contra some
    obtain ⟨first,_,_,hit,_⟩ := h.nonempty some
    obtain ⟨j,hj⟩ := Int.eq_ofNat_of_zero_le first
    rw [hj] at hit
    obtain ⟨n,_,on⟩ := chunkSome.mp hit
    have member := (h.member n).mpr on
    simp [none] at member

theorem chunksSame {v w : TRBitVector L} {S T : Finset Nat} (h : Represents v S) (k : Represents w T) :
    S = T ↔ ∀ j : Nat, chunkAt v j = chunkAt w j := by
  constructor
  · rintro rfl j
    apply chunkExt
    intro i inside
    rw [← holdsAt v j inside,← holdsAt w j inside,Bool.eq_iff_iff,← h.member,← k.member]
  · intro same
    ext n
    rw [h.member,k.member,holds,holds,same]

theorem lastMono {v w : TRBitVector L} (h : Bounded v) (k : Bounded w)
    (same : ∀ j : Nat, chunkAt v j = chunkAt w j) :
    v.lastChunkWithNonZero ≤ w.lastChunkWithNonZero ∧
      (0 ≤ v.lastChunkWithNonZero → w.firstChunkWithNonZero ≤ v.firstChunkWithNonZero) := by
  rcases h.tight with ⟨_,last⟩ | ⟨first,order,_,hit,hit'⟩
  · rcases k.tight with ⟨_,last'⟩ | ⟨first',order',_⟩ <;> exact ⟨by omega,by omega⟩
  · obtain ⟨f,hf⟩ := Int.eq_ofNat_of_zero_le first
    obtain ⟨l,hl⟩ := Int.eq_ofNat_of_zero_le (first.trans order)
    rw [hf,same] at hit
    rw [hl,same] at hit'
    have atFirst := k.inside f (by omega) hit
    have atLast := k.inside l (by omega) hit'
    exact ⟨by omega,by omega⟩

theorem boundsSame {v w : TRBitVector L} (h : Bounded v) (k : Bounded w)
    (same : ∀ j : Nat, chunkAt v j = chunkAt w j) :
    v.lastChunkWithNonZero = w.lastChunkWithNonZero ∧
      (¬ v.lastChunkWithNonZero < 0 → v.firstChunkWithNonZero = w.firstChunkWithNonZero) := by
  have up := lastMono h k same
  have down := lastMono k h fun j => (same j).symm
  exact ⟨by omega,by omega⟩

theorem equalMember {v w : TRBitVector L} {S T : Finset Nat} (h : Represents v S) (k : Represents w T) :
    equal v w = decide (S = T) := by
  rw [equal,Bool.eq_iff_iff,decide_eq_true_iff,chunksSame h k]
  split
  · rename_i differ
    simp only [Bool.false_eq_true,false_iff]
    exact fun all => differ (boundsSame h.bounded k.bounded all).1
  split
  · rename_i same none
    simp only [true_iff]
    intro j
    rw [h.bounded.outside (by omega) (by omega),k.bounded.outside (by omega) (by omega)]
  split
  · rename_i same some differ
    simp only [Bool.false_eq_true,false_iff]
    exact fun all => differ ((boundsSame h.bounded k.bounded all).2 some)
  · rename_i same some first
    rw [List.all_eq_true]
    constructor
    · intro all j
      by_cases within : v.firstChunkWithNonZero ≤ j ∧ j ≤ v.lastChunkWithNonZero
      · exact beq_iff_eq.mp (all j (memSpan.mpr within))
      · rw [h.bounded.outside (by omega) (by omega),k.bounded.outside (by omega) (by omega)]
    · intro all i member
      obtain ⟨j,rfl⟩ := Int.eq_ofNat_of_zero_le
        (h.bounded.firstNonneg.trans (memSpan.mp member).1)
      exact beq_iff_eq.mpr (all j)

theorem intersectsMember {v w : TRBitVector L} {S T : Finset Nat} (h : Represents v S) (k : Represents w T) :
    intersects v w = decide (¬ Disjoint S T) := by
  simp only [intersects]
  split
  · rename_i none
    simp [h.nil none]
  split
  · rename_i some apart
    simp [h.apart k apart]
  · rename_i some near
    have start := h.bounded.firstNonneg
    rw [Bool.eq_iff_iff,List.any_eq_true,decide_eq_true_iff,Finset.not_disjoint_iff]
    constructor
    · rintro ⟨i,member,common⟩
      have within := clipRange.mp (memSpan.mp member)
      obtain ⟨j,rfl⟩ := Int.eq_ofNat_of_zero_le (start.trans within.1.2)
      obtain ⟨b,inside,on⟩ := chunkNonZero.mp (bne_iff_ne.mp common)
      rw [bitAtAnd,Bool.and_eq_true,← holdsAt v j inside,← holdsAt w j inside] at on
      exact ⟨_,(h.member _).mpr on.1,(k.member _).mpr on.2⟩
    · rintro ⟨n,left,right⟩
      have inLeft := (h.member n).mp left
      have inRight := (k.member n).mp right
      have coverLeft := h.bounded.holdsInside inLeft
      have coverRight := k.bounded.holdsInside inRight
      refine ⟨chunkIndex L n,memSpan.mpr (clipRange.mpr ⟨⟨coverRight.1,coverLeft.1⟩,coverRight.2,coverLeft.2⟩),?_⟩
      rw [bne_iff_ne]
      intro nil
      have both : bitAt (chunkAt v (chunkIndex L n) &&& chunkAt w (chunkIndex L n)) n = true := by
        rw [bitAtAnd,Bool.and_eq_true]
        exact ⟨inLeft,inRight⟩
      rw [nil,bitAtZero] at both
      exact absurd both (by decide)

theorem bitsInBytesZero : bitsInBytes (0#(bitsInChunk L)) = 0 := by
  simp [bitsInBytesCount]

theorem countFrom (w : Nat) (cs : List (Chunk L)) (count : Nat) :
    cs.foldl (fun count c => if c = 0#(bitsInChunk L) then count else wrap w (count + bitsInBytes c))
      (wrap w count) = wrap w (count + (cs.map bitsInBytes).sum : Nat) := by
  induction cs generalizing count with
  | nil => simp
  | cons c cs ih =>
    have next : (if c = 0#(bitsInChunk L) then wrap w count else wrap w (wrap w count + bitsInBytes c)) =
        wrap w (count + bitsInBytes c : Nat) := by
      split
      · rename_i nil
        rw [nil,bitsInBytesZero,Nat.add_zero]
      · rw [wrapAdd,Int.natCast_add]
    rw [List.foldl_cons,List.map_cons,List.sum_cons,← Nat.add_assoc,next,ih]

theorem countChunksSum (cs : List (Chunk L)) : countChunks cs = wrap 32 ((cs.map bitsInBytes).sum : Nat) := by
  have whole := countFrom 32 cs 0
  have zero : wrap 32 ((0 : Nat) : Int) = 0 := wrapSelf (by decide) (by decide)
  rw [Nat.zero_add,zero] at whole
  exact whole

-- A finite set counted chunk by chunk over any range that holds all its chunks.
theorem cardByChunks {S : Finset Nat} (f : Int → Chunk L) {low high : Int} (start : 0 ≤ low)
    (range : ∀ j, 0 ≤ j → f j ≠ 0#(bitsInChunk L) → low ≤ j ∧ j ≤ high)
    (member : ∀ n, n ∈ S ↔ bitAt (f (chunkIndex L n)) n = true) :
    S.card = (((span low high).map f).map bitsInBytes).sum := by
  have inside : S ⊆ Finset.range ((high + 1).toNat * bitsInChunk L) := by
    intro n on
    have some : f (chunkIndex L n) ≠ 0#(bitsInChunk L) := by
      intro nil
      have bit := (member n).mp on
      simp [nil] at bit
    have within := range _ (by omega) some
    rw [Finset.mem_range,← Nat.div_lt_iff_lt_mul (bitsInChunkPos L)]
    show chunkIndex L n < _
    omega
  have block : ∀ j : Nat, ∑ i ∈ Finset.range (bitsInChunk L),
      (if j * bitsInChunk L + i ∈ S then 1 else 0) = bitsInBytes (f j) := by
    intro j
    rw [bitsInBytesCount]
    apply Finset.sum_congr rfl
    intro i below
    obtain ⟨quotient,remainder⟩ := natOfChunk L j (Finset.mem_range.mp below)
    have same : bitAt (f j) ((j * bitsInChunk L + i : Nat) : Int) = bitAt (f j) i := by
      rw [← bitAtMod]
      congr 1
      exact_mod_cast remainder
    simp only [member,quotient,same]
    cases bitAt (f j) i <;> rfl
  calc
    S.card = ∑ n ∈ Finset.range ((high + 1).toNat * bitsInChunk L), if n ∈ S then 1 else 0 := by
      rw [Finset.sum_ite_mem,Finset.inter_eq_right.mpr inside,Finset.card_eq_sum_ones]
    _ = ∑ j ∈ Finset.range (high + 1).toNat, bitsInBytes (f j) := by
      rw [sumBlocks]
      exact Finset.sum_congr rfl fun j _ => block j
    _ = ∑ j ∈ (Finset.range (high + 1).toNat).map ⟨Int.ofNat,fun _ _ => Int.ofNat.inj⟩, bitsInBytes (f j) := by
      rw [Finset.sum_map]
      rfl
    _ = ∑ j ∈ (span low high).toFinset, bitsInBytes (f j) := by
      symm
      apply Finset.sum_subset
      · intro i on
        have within := memSpan.mp (List.mem_toFinset.mp on)
        refine Finset.mem_map.mpr ⟨i.toNat,Finset.mem_range.mpr (by omega),?_⟩
        exact Int.toNat_of_nonneg (by omega)
      · intro i on out
        obtain ⟨j,_,rfl⟩ := Finset.mem_map.mp on
        have nil : f (j : Int) = 0#(bitsInChunk L) := by
          by_contra some
          exact out (List.mem_toFinset.mpr (memSpan.mpr (range j (by omega) some)))
        exact (congrArg bitsInBytes nil).trans bitsInBytesZero
    _ = (((span low high).map f).map bitsInBytes).sum := by
      rw [List.sum_toFinset _ (nodupSpan low high),List.map_map]
      rfl

theorem elementCountCard {v : TRBitVector L} {S : Finset Nat} (h : Represents v S) :
    elementCount v = wrap 32 S.card := by
  rw [elementCount,countChunksSum,cardByChunks (chunkAt v) h.bounded.firstNonneg h.bounded.inside h.member]

theorem commonElementCountCard {v w : TRBitVector L} {S T : Finset Nat} (h : Represents v S)
    (k : Represents w T) : commonElementCount v w = wrap 32 (S ∩ T).card := by
  simp only [commonElementCount]
  split
  · rename_i apart
    rw [Finset.disjoint_iff_inter_eq_empty.mp (h.apart k apart)]
    exact (wrapSelf (by decide) (by decide)).symm
  · have start := h.bounded.firstNonneg
    rw [countChunksSum,cardByChunks (fun i => chunkAt v i &&& chunkAt w i)]
    · split <;> omega
    · intro j hj some
      have left : chunkAt v j ≠ 0#(bitsInChunk L) := fun nil => some (by simp [nil])
      have right : chunkAt w j ≠ 0#(bitsInChunk L) := fun nil => some (by simp [nil])
      have inLeft := h.bounded.inside j hj left
      have inRight := k.bounded.inside j hj right
      constructor <;> split <;> omega
    · intro n
      rw [Finset.mem_inter,h.member,k.member,bitAtAnd,Bool.and_eq_true]
      rfl

theorem hasMoreThanOneElementCard {v : TRBitVector L} {S : Finset Nat} (h : Represents v S) :
    hasMoreThanOneElement v = decide (1 < S.card) := by
  rw [hasMoreThanOneElement]
  split
  · rename_i apart
    symm
    rw [decide_eq_true_iff,Finset.one_lt_card]
    have start := h.bounded.firstNonneg
    obtain ⟨_,_,_,hit,hit'⟩ := h.nonempty (by omega)
    obtain ⟨f,hf⟩ := Int.eq_ofNat_of_zero_le start
    obtain ⟨l,hl⟩ := Int.eq_ofNat_of_zero_le (start.trans (le_of_lt apart))
    rw [hf] at hit
    rw [hl] at hit'
    obtain ⟨m,mf,onM⟩ := chunkSome.mp hit
    obtain ⟨n,nl,onN⟩ := chunkSome.mp hit'
    refine ⟨m,(h.member m).mpr onM,n,(h.member n).mpr onN,?_⟩
    rintro rfl
    omega
  split
  · rename_i none
    simp [h.nil none]
  · rename_i together some
    obtain ⟨_,order,_⟩ := h.nonempty some
    have one : v.firstChunkWithNonZero = v.lastChunkWithNonZero := by omega
    have count := cardByChunks (chunkAt v) h.bounded.firstNonneg h.bounded.inside h.member
    have single : span v.firstChunkWithNonZero v.firstChunkWithNonZero = [v.firstChunkWithNonZero] := by
      rw [spanCons (le_refl _)]
      simp [span]
    rw [← one,single] at count
    simp only [List.map_cons,List.map_nil,List.sum_cons,List.sum_nil,Nat.add_zero] at count
    rw [count]

theorem descendingSpan (low high : Int) : (span low high).reverse.Pairwise (· > ·) := by
  rw [List.pairwise_reverse,span,List.pairwise_map]
  exact List.pairwise_lt_range.imp fun {a b} less => by omega

theorem getHighestBitPositionSup {v : TRBitVector L} {S : Finset Nat} (h : Represents v S) :
    getHighestBitPosition v = (S.sup id : Nat) := by
  rw [getHighestBitPosition]
  split
  · rename_i none
    simp [h.nil none]
  · rename_i some
    obtain ⟨start,order,_,_,hit⟩ := h.nonempty some
    obtain ⟨l,hl⟩ := Int.eq_ofNat_of_zero_le (start.trans order)
    rw [hl] at hit ⊢
    split
    · rename_i b found
      obtain ⟨on,before,after,listed,off⟩ := List.find?_eq_some_iff_append.mp found
      have member : b ∈ (span 0 (bitsInChunk L - 1)).reverse := List.mem_of_find?_eq_some found
      have within := memSpan.mp (List.mem_reverse.mp member)
      obtain ⟨i,rfl⟩ := Int.eq_ofNat_of_zero_le within.1
      have inside : i < bitsInChunk L := by omega
      have above : ∀ k : Nat, i < k → k < bitsInChunk L → bitAt (chunkAt v l) k = false := by
        intro k more below
        have listedK : (k : Int) ∈ (span 0 (bitsInChunk L - 1)).reverse :=
          List.mem_reverse.mpr (memSpan.mpr ⟨by omega,by omega⟩)
        rw [listed,List.mem_append,List.mem_cons] at listedK
        have sorted := descendingSpan 0 (bitsInChunk L - 1)
        rw [listed,List.pairwise_append,List.pairwise_cons] at sorted
        rcases listedK with early | same | late
        · simpa [bitAt] using off _ early
        · omega
        · have := sorted.2.1.1 _ late
          omega
      have top : holds v (l * bitsInChunk L + i) = true := by
        rw [holdsAt v l inside]
        exact on
      have greatest : S.sup id = l * bitsInChunk L + i := by
        apply le_antisymm
        · apply Finset.sup_le
          intro n onN
          have held := (h.member n).mp onN
          have upto := h.bounded.holdsInside held
          rw [hl] at upto
          have split := leByChunk L n (l * bitsInChunk L + i)
          obtain ⟨quotient,remainder⟩ := natOfChunk L l inside
          rw [quotient] at split
          have cast : ((l * bitsInChunk L + i : Nat) : Int) % bitsInChunk L = i := by exact_mod_cast remainder
          rw [cast] at split
          apply split.mpr
          by_cases lower : chunkIndex L n < l
          · exact Or.inl lower
          · have same : chunkIndex L n = l := by omega
            refine Or.inr ⟨same,?_⟩
            by_contra more
            have bounds := indexBounds L n
            have rest : ((n % bitsInChunk L : Nat) : Int) = (n : Int) % bitsInChunk L := by simp
            have clear := above (n % bitsInChunk L) (by omega) (Nat.mod_lt n (bitsInChunkPos L))
            rw [rest,bitAtMod] at clear
            rw [holds,same,clear] at held
            exact absurd held (by decide)
        · exact Finset.le_sup (f := id) ((h.member _).mpr top)
      rw [greatest]
      simp only [getIndexInChunk,getBitIndex]
      rw [Int.emod_eq_of_lt within.1 (by omega)]
      push_cast
      exact Int.add_comm _ _
    · rename_i missing
      obtain ⟨i,inside,on⟩ := chunkNonZero.mp hit
      rw [List.find?_eq_none] at missing
      exact absurd on (missing i (List.mem_reverse.mpr (memSpan.mpr ⟨by omega,by omega⟩)))

end OmrCompiler.BitVector
