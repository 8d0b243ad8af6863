import OmrCompiler.BitVectorCombine

/-! Filling a range of a dense bit vector: `setAll(n)` and `setAll(m, n)`. The
loop of `setAll(n)` counts in 32 bits towards a 64-bit limit. -/
namespace OmrCompiler.BitVector
open MachineInt
open BitChunk

variable {L : Layout}

theorem bitAtFill (c : Chunk L) {a b : Int} (start : 0 ≤ a) (stop : b < bitsInChunk L) (p : Int) :
    bitAt (orBits (span a b) c) p = (bitAt c p || decide (a ≤ p % bitsInChunk L ∧ p % bitsInChunk L ≤ b)) := by
  rw [bitAtOrBits]
  congr 1
  rw [Bool.eq_iff_iff,List.any_eq_true,decide_eq_true_iff]
  constructor
  · rintro ⟨i,member,same⟩
    have inside := memSpan.mp member
    have small := Int.emod_eq_of_lt (a := i) (b := bitsInChunk L) (by omega) (by omega)
    rw [beq_iff_eq,small] at same
    omega
  · intro inside
    refine ⟨p % bitsInChunk L,memSpan.mpr inside,?_⟩
    rw [beq_iff_eq,Int.emod_emod_of_dvd p (dvd_refl _)]

theorem bitAtFillDown (c : Chunk L) {a b : Int} (start : 0 ≤ a) (stop : b < bitsInChunk L) (p : Int) :
    bitAt (orBits (span a b).reverse c) p =
      (bitAt c p || decide (a ≤ p % bitsInChunk L ∧ p % bitsInChunk L ≤ b)) := by
  rw [bitAtOrBits,List.any_reverse,← bitAtOrBits,bitAtFill c start stop]

theorem indexBounds (L : Layout) (p : Int) : 0 ≤ p % bitsInChunk L ∧ p % bitsInChunk L < bitsInChunk L := by
  have pos := bitsInChunkPos L
  exact ⟨Int.emod_nonneg p (by omega),Int.emod_lt_of_pos p (by omega)⟩

theorem bitAtFirstPart (c : Chunk L) (m p : Int) :
    bitAt (if 0 < getIndexInChunk L m then orBits (span (getIndexInChunk L m) (bitsInChunk L - 1)) c
      else c ||| BitVec.allOnes (bitsInChunk L)) p =
        (bitAt c p || decide (m % bitsInChunk L ≤ p % bitsInChunk L)) := by
  have hm := indexBounds L m
  have hp := indexBounds L p
  have index : getIndexInChunk L m = m % bitsInChunk L := rfl
  by_cases part : 0 < getIndexInChunk L m
  · rw [if_pos part,bitAtFill c (by omega) (by omega)]
    congr 2
    rw [eq_iff_iff]
    omega
  · rw [if_neg part,bitAtOr,bitAtOnes,decide_eq_true (by omega)]

theorem bitAtLastPart (c : Chunk L) (n p : Int) :
    bitAt (if getIndexInChunk L n < bitsInChunk L - 1 then orBits (span 0 (getIndexInChunk L n)).reverse c
      else c ||| BitVec.allOnes (bitsInChunk L)) p =
        (bitAt c p || decide (p % bitsInChunk L ≤ n % bitsInChunk L)) := by
  have hn := indexBounds L n
  have hp := indexBounds L p
  have index : getIndexInChunk L n = n % bitsInChunk L := rfl
  by_cases part : getIndexInChunk L n < bitsInChunk L - 1
  · rw [if_pos part,bitAtFillDown c (by omega) (by omega)]
    congr 2
    rw [eq_iff_iff]
    omega
  · rw [if_neg part,bitAtOr,bitAtOnes,decide_eq_true (by omega)]

theorem chunkIndexMono {m n : Nat} (order : m ≤ n) : chunkIndex L m ≤ chunkIndex L n := Nat.div_le_div_right order

-- Comparing two naturals chunk first, then within the chunk.
theorem leByChunk (L : Layout) (a b : Nat) :
    a ≤ b ↔ chunkIndex L a < chunkIndex L b ∨
      chunkIndex L a = chunkIndex L b ∧ (a : Int) % bitsInChunk L ≤ (b : Int) % bitsInChunk L := by
  simp only [chunkIndex]
  rcases bitsInChunkCases L with h | h <;> rw [h] <;> omega

theorem setAllBetweenRepresents {v : TRBitVector L} {S : Finset Nat} (h : Represents v S) {m n : Nat}
    (order : m ≤ n) (reach : Addressable L n) : Represents (setAllBetween v m n) (S ∪ Finset.Icc m n) := by
  obtain ⟨grown,room⟩ := growToRepresents h reach
  have chunks := chunkIndexMono (L := L) order
  have reachFirst : Addressable L m := by
    simp only [Addressable] at reach ⊢
    omega
  have inside : (chunkIndex L n : Int) < (growTo v (chunkIndex L n)).chunks.length := room
  have range : ∀ p ∈ Finset.Icc m n, chunkIndex L m ≤ chunkIndex L p ∧ chunkIndex L p ≤ chunkIndex L n := by
    intro p member
    exact ⟨chunkIndexMono (Finset.mem_Icc.mp member).1,chunkIndexMono (Finset.mem_Icc.mp member).2⟩
  have first : ∃ p ∈ Finset.Icc m n, chunkIndex L p = chunkIndex L m := ⟨m,by simp [order],rfl⟩
  have last : ∃ p ∈ Finset.Icc m n, chunkIndex L p = chunkIndex L n := ⟨n,by simp [order],rfl⟩
  simp only [setAllBetween]
  rw [chunkIndexNat reach,chunkIndexNat reachFirst]
  set u := growTo v (chunkIndex L n)
  have old : ∀ p : Nat, p ∈ S ↔ bitAt (chunkOf u.chunks (chunkIndex L p)) p = true := grown.member
  split
  · rename_i same
    apply widenRepresents grown chunks (List.length_modify _ _ _) room first last range
    intro p
    have am := leByChunk L m p
    have an := leByChunk L p n
    have hn := indexBounds L n
    have hm := indexBounds L m
    rw [chunkOfModify _ _ (by omega) (by omega),Finset.mem_Icc,old]
    by_cases here : (chunkIndex L p : Int) = chunkIndex L m
    · rw [if_pos ⟨here,by omega⟩,here]
      simp only [getIndexInChunk]
      rw [bitAtFill _ hm.1 hn.2,Bool.or_eq_true,decide_eq_true_iff]
      apply or_congr_right
      omega
    · rw [if_neg fun both => here both.1]
      have out : ¬ (m ≤ p ∧ p ≤ n) := by omega
      simp [out]
  · rename_i different
    have between : chunkIndex L m < chunkIndex L n := by omega
    apply widenRepresents grown chunks _ room first last range
    · intro p
      have am := leByChunk L m p
      have an := leByChunk L p n
      rw [chunkOfSpan _ _ (by omega) (by omega)]
      simp only [List.length_modify]
      rw [Finset.mem_Icc,old]
      by_cases atFirst : (chunkIndex L p : Int) = chunkIndex L m
      · rw [if_neg (by omega),chunkOfModify _ _ (by omega) (by omega),if_neg (by omega),
          chunkOfModify _ _ (by omega) (by omega),if_pos ⟨atFirst,by omega⟩,atFirst,bitAtFirstPart,
          Bool.or_eq_true,decide_eq_true_iff]
        apply or_congr_right
        omega
      · by_cases atLast : (chunkIndex L p : Int) = chunkIndex L n
        · rw [if_neg (by omega),chunkOfModify _ _ (by omega) (by omega),
            if_pos ⟨atLast,by simp only [List.length_modify]; omega⟩,bitAtLastPart,
            chunkOfModify _ _ (by omega) (by omega),if_neg fun both => different both.1.symm,atLast,
            Bool.or_eq_true,decide_eq_true_iff]
          apply or_congr_right
          omega
        · by_cases middle : chunkIndex L m < chunkIndex L p ∧ chunkIndex L p < chunkIndex L n
          · rw [if_pos ⟨by omega,by omega,by omega⟩,bitAtOnes]
            have covered : m ≤ p ∧ p ≤ n := by omega
            simp [covered]
          · rw [if_neg (by omega),chunkOfModify _ _ (by omega) (by omega),if_neg (by omega),
              chunkOfModify _ _ (by omega) (by omega),if_neg (by omega)]
            have out : ¬ (m ≤ p ∧ p ≤ n) := by omega
            simp [out]
    · simp [lengthStoreEach]

theorem spanCons {low high : Int} (below : low ≤ high) : span low high = low :: span (low + 1) high := by
  obtain ⟨k,hk⟩ : ∃ k, (high - low + 1).toNat = k + 1 := ⟨(high - low).toNat,by omega⟩
  have rest : (high - (low + 1) + 1).toNat = k := by omega
  simp only [span,hk,rest,List.range_succ_eq_map,List.map_cons,List.map_map]
  congr 1
  · simp
  · apply List.map_congr_left
    intro i _
    simp only [Function.comp]
    omega

theorem setBelowReaches {fuel : Nat} {i n : Int} (c : Chunk L) (start : minSigned 32 ≤ i) (order : i ≤ n)
    (limit : n ≤ maxSigned 32) (enough : n - i ≤ fuel) :
    setBelow fuel i n c = some (orBits (span i (n - 1)) c) := by
  have done : ∀ (j : Int) (d : Chunk L), n ≤ j → orBits (span j (n - 1)) d = d := by
    intro j d past
    have nil : (n - 1 - j + 1).toNat = 0 := by omega
    simp [span,nil,orBits]
  induction fuel generalizing i c with
  | zero => rw [setBelow,if_neg (by omega),done i c (by omega)]
  | succ fuel ih =>
    rw [setBelow]
    split
    · rename_i more
      rw [wrapSelf (by decide) ⟨by omega,by omega⟩,ih _ (by omega) (by omega) (by omega),
        spanCons (show i ≤ n - 1 by omega)]
      rfl
    · rw [done i c (by omega)]

theorem setBelowStuck {n : Int} (beyond : maxSigned 32 < n) (fuel : Nat) {i : Int} (c : Chunk L)
    (inside : InRange 32 i) : setBelow fuel i n c = none := by
  induction fuel generalizing i c with
  | zero => rw [setBelow,if_pos (lt_of_le_of_lt inside.2 beyond)]
  | succ fuel ih =>
    rw [setBelow,if_pos (lt_of_le_of_lt inside.2 beyond)]
    exact ih _ (wrapRange (by decide) _)

theorem setAllRepresents {v : TRBitVector L} {S : Finset Nat} (h : Represents v S) {n fuel : Nat}
    (limit : (n : Int) ≤ maxSigned 32) (enough : 64 ≤ fuel) :
    ∃ u, setAll fuel v n = some u ∧ Represents u (S ∪ Finset.range n) := by
  by_cases none : n = 0
  · subst n
    exact ⟨v,by simp [setAll],by simpa using h⟩
  have max : maxSigned 32 = 2147483647 := rfl
  have low : minSigned 32 = -2147483648 := rfl
  have pred : (n : Int) - 1 = (n - 1 : Nat) := by omega
  have small := bitsInChunkCases L
  have whole : chunkIndex L (n - 1) * bitsInChunk L ≤ n - 1 := Nat.div_mul_le_self _ _
  have next : n - 1 < chunkIndex L (n - 1) * bitsInChunk L + bitsInChunk L := by
    have split := Nat.div_add_mod' (n - 1) (bitsInChunk L)
    have rest := Nat.mod_lt (n - 1) (bitsInChunkPos L)
    simp only [chunkIndex]
    omega
  have few : chunkIndex L (n - 1) ≤ n - 1 := Nat.div_le_self _ _
  have reach : Addressable L (n - 1) := by
    have half : 2 * chunkIndex L (n - 1) ≤ chunkIndex L (n - 1) * bitsInChunk L := by
      rcases small with w | w <;> rw [w] <;> omega
    simp only [Addressable]
    omega
  obtain ⟨grown,room⟩ := growToRepresents h reach
  have cast : (getBitIndex L (chunkIndex L (n - 1)) : Int) = (chunkIndex L (n - 1) * bitsInChunk L : Nat) := by
    simp [getBitIndex]
  unfold setAll
  rw [if_neg (by omega)]
  simp only [pred]
  rw [chunkIndexNat reach]
  set u := growTo v (chunkIndex L (n - 1))
  have fits : (u.chunks.length : Int) = numChunks u := rfl
  rw [cast,wrapSelf (by decide) ⟨by omega,by omega⟩,
    setBelowReaches _ (by omega) (by omega) limit (by omega)]
  refine ⟨_,rfl,?_⟩
  have first : (if (0 : Int) < u.firstChunkWithNonZero then 0 else u.firstChunkWithNonZero) = 0 := by
    have := grown.bounded.firstNonneg
    split <;> omega
  have shape : ∀ cs : List (Chunk L), (⟨cs,0,if u.lastChunkWithNonZero < chunkIndex L (n - 1) then
      chunkIndex L (n - 1) else u.lastChunkWithNonZero⟩ : TRBitVector L) =
        widen u (0 : Nat) (chunkIndex L (n - 1)) cs := by
    intro cs
    exact congrArg (fun low => (⟨cs,low,_⟩ : TRBitVector L)) first.symm
  rw [shape]
  apply widenRepresents grown (Nat.zero_le _) _ room ⟨0,by simp; omega,by simp [chunkIndex]⟩
    ⟨n - 1,by simp; omega,rfl⟩
  · intro p member
    exact ⟨Nat.zero_le _,chunkIndexMono (by have := Finset.mem_range.mp member; omega)⟩
  · intro p
    have old : p ∈ S ↔ bitAt (chunkOf u.chunks (chunkIndex L p)) p = true := grown.member p
    have ap := leByChunk L p (n - 1)
    rw [chunkOfModify _ _ (by omega) (by omega),lengthStoreEach,Finset.mem_range,old]
    by_cases here : (chunkIndex L p : Int) = chunkIndex L (n - 1)
    · rw [if_pos ⟨here,by omega⟩,bitAtOrBits,Bool.or_eq_true,chunkOfSpanDown _ _ (le_refl 0) (by omega),
        if_neg (by omega),here]
      apply or_congr_right
      rw [List.any_eq_true]
      constructor
      · rintro ⟨i,member,same⟩
        obtain ⟨q,rfl⟩ := Int.eq_ofNat_of_zero_le (a := i) (by have := memSpan.mp member; omega)
        have within := memSpan.mp member
        have chunk : chunkIndex L q = chunkIndex L p := by
          have up := chunkIndexMono (L := L) (m := q) (n := n - 1) (by omega)
          have down := chunkIndexMono (L := L) (m := chunkIndex L (n - 1) * bitsInChunk L) (n := q) (by omega)
          have base : chunkIndex L (chunkIndex L (n - 1) * bitsInChunk L) = chunkIndex L (n - 1) :=
            Nat.mul_div_cancel _ (bitsInChunkPos L)
          omega
        have found := (sameBit chunk).mp (beq_iff_eq.mp same).symm
        omega
      · intro below
        have start : chunkIndex L (n - 1) * bitsInChunk L ≤ p := by
          have own : chunkIndex L p * bitsInChunk L ≤ p := Nat.div_mul_le_self _ _
          have index : chunkIndex L p = chunkIndex L (n - 1) := by exact_mod_cast here
          rwa [index] at own
        exact ⟨p,memSpan.mpr ⟨by omega,by omega⟩,beq_self_eq_true _⟩
    · rw [if_neg fun both => here both.1,chunkOfSpanDown _ _ (le_refl 0) (by omega)]
      by_cases below : chunkIndex L p < chunkIndex L (n - 1)
      · rw [if_pos ⟨by omega,by omega,by omega⟩,bitAtOnes]
        have covered : p < n := by omega
        simp [covered]
      · rw [if_neg (by omega)]
        have out : ¬ p < n := by omega
        simp [out]
  · simp [lengthStoreEach]

end OmrCompiler.BitVector
