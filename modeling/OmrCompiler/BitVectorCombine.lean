import OmrCompiler.BitVectorSets

/-! Assignment, union, intersection and difference of two dense bit vectors, and
the filling of a range. -/
namespace OmrCompiler.BitVector
open MachineInt
open BitChunk

variable {L : Layout}

theorem growToFit {v : TRBitVector L} {S : Finset Nat} (h : Represents v S) (w : TRBitVector L) :
    Represents (if numChunks v < numChunks w then setChunkSize v (numChunks w) else v) S ∧
      numChunks w ≤ numChunks (if numChunks v < numChunks w then setChunkSize v (numChunks w) else v) := by
  split
  · rename_i short
    obtain ⟨grown,size⟩ := growRepresents h (le_of_lt short)
    exact ⟨grown,size.ge⟩
  · exact ⟨h,by omega⟩

theorem Represents.nonempty {v : TRBitVector L} {S : Finset Nat} (h : Represents v S)
    (some : ¬ v.lastChunkWithNonZero < 0) :
    0 ≤ v.firstChunkWithNonZero ∧ v.firstChunkWithNonZero ≤ v.lastChunkWithNonZero ∧
      v.lastChunkWithNonZero < numChunks v ∧
      chunkAt v v.firstChunkWithNonZero ≠ 0#(bitsInChunk L) ∧ chunkAt v v.lastChunkWithNonZero ≠ 0#(bitsInChunk L) := by
  rcases h.bounded.tight with ⟨_,last⟩ | tight
  · omega
  · exact tight

theorem Represents.nil {v : TRBitVector L} {S : Finset Nat} (h : Represents v S)
    (none : v.lastChunkWithNonZero < 0) : S = ∅ := by
  apply Finset.eq_empty_of_forall_notMem
  intro n on
  have := h.bounded.holdsInside ((h.member n).mp on)
  omega

theorem assignRepresents {v w : TRBitVector L} {S T : Finset Nat} (h : Represents v S) (k : Represents w T) :
    Represents (assign v w) T := by
  obtain ⟨grown,room⟩ := growToFit h w
  simp only [assign]
  set u := if numChunks v < numChunks w then setChunkSize v (numChunks w) else v
  split
  · rename_i none
    rw [k.nil none]
    exact emptyRepresents grown
  · rename_i some
    obtain ⟨first,order,last,hit,hit'⟩ := k.nonempty some
    have size : ((zeroEach (span (w.lastChunkWithNonZero + 1) u.lastChunkWithNonZero)
        (storeEach (span w.firstChunkWithNonZero w.lastChunkWithNonZero) (fun i _ => chunkAt w i)
          (zeroEach (span u.firstChunkWithNonZero (w.firstChunkWithNonZero - 1)) u.chunks))).length : Int) =
        numChunks u := by
      simp only [zeroEach,lengthStoreEach,numChunks]
    have value : ∀ j, 0 ≤ j → chunkOf (zeroEach (span (w.lastChunkWithNonZero + 1) u.lastChunkWithNonZero)
        (storeEach (span w.firstChunkWithNonZero w.lastChunkWithNonZero) (fun i _ => chunkAt w i)
          (zeroEach (span u.firstChunkWithNonZero (w.firstChunkWithNonZero - 1)) u.chunks))) j = chunkAt w j := by
      intro j hj
      simp only [zeroEach]
      rw [chunkOfSpan _ _ (by omega) hj,chunkOfSpan _ _ first hj,
        chunkOfSpan _ _ grown.bounded.firstNonneg hj]
      simp only [lengthStoreEach]
      have fits : (u.chunks.length : Int) = numChunks u := rfl
      rw [fits]
      by_cases within : w.firstChunkWithNonZero ≤ j ∧ j ≤ w.lastChunkWithNonZero
      · rw [if_neg (by omega),if_pos (by omega)]
      · have nil := k.bounded.outside hj (by omega)
        rw [nil]
        by_cases old : u.firstChunkWithNonZero ≤ j ∧ j ≤ u.lastChunkWithNonZero
        · by_cases held : j < numChunks u
          · by_cases late : w.lastChunkWithNonZero < j
            · rw [if_pos (by omega)]
            · rw [if_neg (by omega),if_neg (by omega),if_pos (by omega)]
          · rw [if_neg (by omega),if_neg (by omega),if_neg (by omega)]
            exact chunkOfBeyond _ (by omega)
        · have gone := grown.bounded.outside hj (by omega)
          split_ifs with late same early
          · rfl
          · omega
          · rfl
          · exact gone
    refine ⟨⟨?_,Or.inr ⟨first,order,?_,?_,?_⟩⟩,?_⟩
    · intro j hj on
      rw [chunkAt,value j hj] at on
      exact k.bounded.inside j hj on
    · simp only [numChunks] at size ⊢
      rw [size]
      exact lt_of_lt_of_le last room
    · rw [chunkAt,value _ first]
      exact hit
    · rw [chunkAt,value _ (first.trans order)]
      exact hit'
    · intro n
      rw [k.member,holds,holds,← value _ (by omega)]
      rfl

theorem orRepresents {v w : TRBitVector L} {S T : Finset Nat} (h : Represents v S) (k : Represents w T) :
    Represents (orAssign v w) (S ∪ T) := by
  obtain ⟨grown,room⟩ := growToFit h w
  simp only [orAssign]
  set u := if numChunks v < numChunks w then setChunkSize v (numChunks w) else v
  split
  · rename_i none
    rw [k.nil none,Finset.union_empty]
    exact h
  · rename_i some
    obtain ⟨first,order,last,hit,hit'⟩ := k.nonempty some
    obtain ⟨low,hl⟩ := Int.eq_ofNat_of_zero_le first
    obtain ⟨high,hh⟩ := Int.eq_ofNat_of_zero_le (first.trans order)
    have range : ∀ n ∈ T, low ≤ chunkIndex L n ∧ chunkIndex L n ≤ high := by
      intro n on
      have := k.bounded.holdsInside ((k.member n).mp on)
      omega
    have ends : ∀ j : Nat, chunkAt w j ≠ 0#(bitsInChunk L) → ∃ n ∈ T, chunkIndex L n = j := by
      intro j some
      obtain ⟨n,index,on⟩ := chunkSome.mp some
      exact ⟨n,(k.member n).mpr on,index⟩
    rw [hl] at hit first order
    rw [hh] at hit' order last
    rw [hl,hh]
    apply widenRepresents grown (by omega) (lengthStoreEach _ _ _) (lt_of_lt_of_le last room)
      (ends low hit) (ends high hit') range
    intro n
    rw [chunkOfSpan _ _ first (by omega),grown.member,holds]
    by_cases within : low ≤ chunkIndex L n ∧ chunkIndex L n ≤ high
    · rw [if_pos ⟨by omega,by omega,by simp only [numChunks] at last room; omega⟩]
      rw [bitAtOr,Bool.or_eq_true,k.member,holds]
      rfl
    · rw [if_neg fun all => within ⟨by omega,by omega⟩]
      have out : n ∉ T := fun on => within (range n on)
      simp only [out,or_false]
      rfl

theorem Represents.apart {v w : TRBitVector L} {S T : Finset Nat} (h : Represents v S) (k : Represents w T)
    (apart : w.lastChunkWithNonZero < v.firstChunkWithNonZero ∨ v.lastChunkWithNonZero < w.firstChunkWithNonZero) :
    Disjoint S T := by
  rw [Finset.disjoint_left]
  intro n left right
  have := h.bounded.holdsInside ((h.member n).mp left)
  have := k.bounded.holdsInside ((k.member n).mp right)
  omega

-- The range both vectors cover.
theorem clipRange {a b c d j : Int} :
    ((if a < b then b else a) ≤ j ∧ j ≤ if d < c then d else c) ↔ (a ≤ j ∧ b ≤ j) ∧ j ≤ c ∧ j ≤ d := by
  split <;> split <;> omega

theorem subRepresents {v w : TRBitVector L} {S T : Finset Nat} (h : Represents v S) (k : Represents w T) :
    Represents (subAssign v w) (S \ T) := by
  simp only [subAssign]
  split
  · rename_i none
    rw [h.nil none,Finset.empty_sdiff,← h.nil none]
    exact h
  split
  · rename_i some apart
    rw [Finset.sdiff_eq_self_of_disjoint (h.apart k apart)]
    exact h
  · rename_i some near
    obtain ⟨first,order,last,_⟩ := h.nonempty some
    have start := k.bounded.firstNonneg
    apply rescanRepresents first
    · rw [lengthStoreEach]
      exact last
    · intro n on
      exact h.bounded.holdsInside ((h.member n).mp (Finset.mem_sdiff.mp on).1)
    · intro n
      have fits : (v.chunks.length : Int) = numChunks v := rfl
      rw [chunkOfSpan _ _ (by split <;> omega) (by omega),fits,Finset.mem_sdiff,h.member,k.member]
      by_cases within : (w.firstChunkWithNonZero ≤ chunkIndex L n ∧ v.firstChunkWithNonZero ≤ chunkIndex L n) ∧
          chunkIndex L n ≤ w.lastChunkWithNonZero ∧ chunkIndex L n ≤ v.lastChunkWithNonZero
      · obtain ⟨low,high⟩ := clipRange.mpr within
        rw [if_pos ⟨low,high,by omega⟩,bitAtAnd,bitAtNot,Bool.and_eq_true,Bool.not_eq_true',← Bool.not_eq_true]
        rfl
      · rw [if_neg fun all => within (clipRange.mp ⟨all.1,all.2.1⟩)]
        constructor
        · intro on
          refine ⟨on,fun other => within ?_⟩
          have left := h.bounded.holdsInside (n := n) on
          have right := k.bounded.holdsInside other
          exact ⟨⟨right.1,left.1⟩,right.2,left.2⟩
        · exact fun on => on.1

-- The chunks of v outside the bounds of w are cleared, or are zero already.
theorem clearBefore {v : TRBitVector L} {S : Finset Nat} (h : Represents v S) (low : Int) {j : Int} (hj : 0 ≤ j) :
    chunkOf (if low < v.firstChunkWithNonZero then v.chunks
      else zeroEach (span v.firstChunkWithNonZero (low - 1)) v.chunks) j =
        if low ≤ j then chunkAt v j else 0#(bitsInChunk L) := by
  have first := h.bounded.firstNonneg
  split
  · split
    · rfl
    · exact h.bounded.outside hj (by omega)
  · rw [zeroEach,chunkOfSpan _ _ first hj]
    split_ifs with cleared keep kept
    · omega
    · rfl
    · rfl
    · by_contra some
      have := h.bounded.inside j hj some
      have := chunkInside some
      omega

theorem clearAfter {v : TRBitVector L} {S : Finset Nat} (h : Represents v S) {cs : List (Chunk L)} (high : Int)
    (start : 0 ≤ high + 1) (size : cs.length = v.chunks.length)
    (sub : ∀ j, 0 ≤ j → chunkOf cs j ≠ 0#(bitsInChunk L) → chunkAt v j ≠ 0#(bitsInChunk L)) {j : Int} (hj : 0 ≤ j) :
    chunkOf (if v.lastChunkWithNonZero < high then cs
      else zeroEach (span (high + 1) v.lastChunkWithNonZero).reverse cs) j =
        if j ≤ high then chunkOf cs j else 0#(bitsInChunk L) := by
  have gone : v.lastChunkWithNonZero < j → chunkOf cs j = 0#(bitsInChunk L) := by
    intro late
    by_contra some
    exact sub j hj some (h.bounded.outside hj (Or.inr late))
  split
  · split
    · rfl
    · exact gone (by omega)
  · rw [zeroEach,chunkOfSpanDown _ _ start hj]
    split_ifs with cleared keep kept
    · omega
    · rfl
    · rfl
    · by_contra some
      have := h.bounded.inside j hj (sub j hj some)
      have := chunkInside some
      omega

theorem andRepresents {v w : TRBitVector L} {S T : Finset Nat} (h : Represents v S) (k : Represents w T) :
    Represents (andAssign v w) (S ∩ T) := by
  simp only [andAssign]
  split
  · rename_i none
    rw [h.nil none,Finset.empty_inter,← h.nil none]
    exact h
  split
  · rename_i some apart
    rw [Finset.disjoint_iff_inter_eq_empty.mp (h.apart k apart)]
    exact emptyRepresents h
  · rename_i some near
    obtain ⟨first,order,last,_⟩ := h.nonempty some
    have start := k.bounded.firstNonneg
    set before := if w.firstChunkWithNonZero < v.firstChunkWithNonZero then v.chunks
      else zeroEach (span v.firstChunkWithNonZero (w.firstChunkWithNonZero - 1)) v.chunks with hb
    set after := if v.lastChunkWithNonZero < w.lastChunkWithNonZero then before
      else zeroEach (span (w.lastChunkWithNonZero + 1) v.lastChunkWithNonZero).reverse before with ha
    have sizeBefore : before.length = v.chunks.length := by
      rw [hb]
      split
      · rfl
      · exact lengthStoreEach _ _ _
    have sizeAfter : (after.length : Int) = numChunks v := by
      rw [numChunks,← sizeBefore,ha]
      split
      · rfl
      · rw [zeroEach,lengthStoreEach]
    have valueBefore := fun j (hj : 0 ≤ j) => clearBefore h w.firstChunkWithNonZero hj
    rw [← hb] at valueBefore
    have value : ∀ j, 0 ≤ j → chunkOf after j = if j ≤ w.lastChunkWithNonZero then
        (if w.firstChunkWithNonZero ≤ j then chunkAt v j else 0#(bitsInChunk L)) else 0#(bitsInChunk L) := by
      intro j hj
      rw [ha,clearAfter h _ (by omega) sizeBefore _ hj,valueBefore j hj]
      intro i hi some
      rw [valueBefore i hi] at some
      split at some
      · exact some
      · exact absurd rfl some
    apply rescanRepresents
    · split <;> omega
    · rw [lengthStoreEach,sizeAfter]
      split <;> omega
    · intro n on
      have left := h.bounded.holdsInside ((h.member n).mp (Finset.mem_inter.mp on).1)
      have right := k.bounded.holdsInside ((k.member n).mp (Finset.mem_inter.mp on).2)
      constructor <;> split <;> omega
    · intro n
      rw [chunkOfSpan _ _ (by split <;> omega) (by omega),sizeAfter,value _ (by omega),Finset.mem_inter,
        h.member,k.member]
      by_cases within : w.firstChunkWithNonZero ≤ chunkIndex L n ∧ chunkIndex L n ≤ w.lastChunkWithNonZero
      · rw [if_pos within.2,if_pos within.1]
        by_cases held : v.firstChunkWithNonZero ≤ chunkIndex L n ∧ chunkIndex L n ≤ v.lastChunkWithNonZero
        · obtain ⟨low,high⟩ := clipRange.mpr ⟨⟨within.1,held.1⟩,within.2,held.2⟩
          rw [if_pos ⟨low,high,by omega⟩,bitAtAnd,Bool.and_eq_true]
          rfl
        · have off : chunkAt v (chunkIndex L n) = 0#(bitsInChunk L) :=
            h.bounded.outside (by omega) (by omega)
          simp [holds,off]
      · have off : holds w n = false := Bool.eq_false_iff.mpr fun on => within (k.bounded.holdsInside on)
        have nil : (if chunkIndex L n ≤ w.lastChunkWithNonZero then
            (if w.firstChunkWithNonZero ≤ chunkIndex L n then chunkAt v (chunkIndex L n) else 0#(bitsInChunk L))
            else 0#(bitsInChunk L)) = 0#(bitsInChunk L) := by
          split_ifs with late early
          · exact absurd ⟨early,late⟩ within
          · rfl
          · rfl
        rw [nil]
        simp [off]

end OmrCompiler.BitVector
