import Mathlib.Order.Lattice.Nat
import OmrCompiler.BitVectorBounds

/-! What each operation of a dense bit vector does to the set of naturals it holds. -/
namespace OmrCompiler.BitVector
open MachineInt
open BitChunk

variable {L : Layout}

def chunkIndex (L : Layout) (n : Nat) : Nat := n / bitsInChunk L

-- The number of chunks that hold the first n bits.
def chunksFor (L : Layout) (n : Nat) : Nat := (n + bitsInChunk L - 1) / bitsInChunk L

def holds (v : TRBitVector L) (n : Nat) : Bool := bitAt (chunkAt v (chunkIndex L n)) n

structure Represents (v : TRBitVector L) (S : Finset Nat) : Prop where
  bounded : Bounded v
  member : ∀ n, n ∈ S ↔ holds v n = true

-- The chunk of the bit and the one after it have an int32_t index.
def Addressable (L : Layout) (n : Nat) : Prop := (chunkIndex L n : Int) + 1 ≤ maxSigned 32

theorem chunkIndexNat {n : Nat} (reach : Addressable L n) : getChunkIndex L n = chunkIndex L n := by
  have quotient : (n : Int) / bitsInChunk L = chunkIndex L n := rfl
  have low : minSigned 32 = -2147483648 := rfl
  simp only [Addressable] at reach
  simp only [getChunkIndex,quotient]
  exact wrapSelf (by decide) ⟨by omega,by omega⟩

theorem nextChunk {n : Nat} (reach : Addressable L n) :
    wrap 32 (chunkIndex L n + 1) = chunkIndex L n + 1 := by
  have low : minSigned 32 = -2147483648 := rfl
  simp only [Addressable] at reach
  exact wrapSelf (by decide) ⟨by omega,reach⟩

theorem chunksForPred (L : Layout) (n : Nat) :
    ((n : Int) - 1) / bitsInChunk L + 1 = chunksFor L n := by
  have pos := bitsInChunkPos L
  have cast : ((n + bitsInChunk L - 1 : Nat) : Int) = (n : Int) - 1 + bitsInChunk L := by omega
  simp only [chunksFor]
  rw [Int.natCast_ediv,cast,Int.add_ediv_of_dvd_right (dvd_refl _),Int.ediv_self (by omega)]

theorem chunkIndexPred {n : Nat} (reach : (chunksFor L n : Int) ≤ maxSigned 32) :
    getChunkIndex L (n - 1) + 1 = chunksFor L n := by
  have exact := chunksForPred L n
  have low : minSigned 32 = -2147483648 := rfl
  simp only [getChunkIndex]
  rw [wrapSelf (by decide) ⟨by omega,by omega⟩]
  exact exact

-- A natural by its chunk and its index in the chunk.
theorem natOfChunk (L : Layout) (j : Nat) {i : Nat} (inside : i < bitsInChunk L) :
    chunkIndex L (j * bitsInChunk L + i) = j ∧ (j * bitsInChunk L + i) % bitsInChunk L = i := by
  have pos := bitsInChunkPos L
  constructor
  · rw [chunkIndex,Nat.add_comm,Nat.add_mul_div_right _ _ pos,Nat.div_eq_of_lt inside,Nat.zero_add]
  · rw [Nat.mul_comm,Nat.mul_add_mod,Nat.mod_eq_of_lt inside]

theorem holdsAt (v : TRBitVector L) (j : Nat) {i : Nat} (inside : i < bitsInChunk L) :
    holds v (j * bitsInChunk L + i) = bitAt (chunkAt v j) i := by
  obtain ⟨quotient,remainder⟩ := natOfChunk L j inside
  rw [holds,quotient,← bitAtMod]
  congr 1
  exact_mod_cast remainder

theorem chunkSome {v : TRBitVector L} {j : Nat} :
    chunkAt v j ≠ 0#(bitsInChunk L) ↔ ∃ n, chunkIndex L n = j ∧ holds v n = true := by
  rw [chunkNonZero]
  constructor
  · rintro ⟨i,inside,on⟩
    exact ⟨j * bitsInChunk L + i,(natOfChunk L j inside).1,by rwa [holdsAt v _ inside]⟩
  · rintro ⟨n,rfl,on⟩
    have below := Nat.mod_lt n (bitsInChunkPos L)
    have whole : chunkIndex L n * bitsInChunk L + n % bitsInChunk L = n := Nat.div_add_mod' n _
    refine ⟨n % bitsInChunk L,below,?_⟩
    rwa [← holdsAt v _ below,whole]

theorem holdsChunk {v : TRBitVector L} {n : Nat} (on : holds v n = true) :
    chunkAt v (chunkIndex L n) ≠ 0#(bitsInChunk L) := chunkSome.mpr ⟨n,rfl,on⟩

theorem Bounded.holdsInside {v : TRBitVector L} (h : Bounded v) {n : Nat} (on : holds v n = true) :
    v.firstChunkWithNonZero ≤ chunkIndex L n ∧ chunkIndex L n ≤ v.lastChunkWithNonZero :=
  h.inside _ (by omega) (holdsChunk on)

theorem constructRepresents (L : Layout) {initBits : Nat} (reach : (chunksFor L initBits : Int) ≤ maxSigned 32) :
    Represents (construct L initBits) ∅ := by
  have nil : ∀ j, chunkAt (construct L initBits) j = 0#(bitsInChunk L) := by
    intro j
    simp only [chunkAt,chunkOf,construct,List.getD_eq_getElem?_getD,List.getElem?_replicate]
    split <;> rfl
  refine ⟨⟨fun j _ some => absurd (nil j) some,Or.inl ⟨?_,rfl⟩⟩,?_⟩
  · simp only [construct,numChunks,List.length_replicate,chunkIndexPred reach]
    omega
  · intro n
    simp [holds,nil]

theorem setChunkSizeRepresents {v : TRBitVector L} {S : Finset Nat} (h : Represents v S) (k : Nat) :
    Represents (setChunkSize v k) (S.filter (chunkIndex L · < k)) := by
  obtain ⟨bounded,_,values⟩ := setChunkSizeBounded h.bounded (k := k) (by omega)
  refine ⟨bounded,?_⟩
  intro n
  rw [Finset.mem_filter,h.member,holds,holds,values _ (by omega)]
  by_cases below : chunkIndex L n < k <;> simp [below]

theorem growRepresents {v : TRBitVector L} {S : Finset Nat} (h : Represents v S) {k : Int}
    (grow : numChunks v ≤ k) : Represents (setChunkSize v k) S ∧ numChunks (setChunkSize v k) = k := by
  have nonneg : 0 ≤ numChunks v := by simp [numChunks]
  obtain ⟨bounded,size,values⟩ := setChunkSizeBounded h.bounded (k := k) (by omega)
  refine ⟨⟨bounded,?_⟩,size⟩
  intro n
  rw [h.member,holds,holds,values _ (by omega)]
  split
  · rfl
  · rw [chunkAt,chunkOfBeyond _ (by simp only [numChunks] at grow; omega)]

theorem growToRepresents {v : TRBitVector L} {S : Finset Nat} (h : Represents v S) {n : Nat}
    (reach : Addressable L n) :
    Represents (growTo v (chunkIndex L n)) S ∧ (chunkIndex L n : Int) < numChunks (growTo v (chunkIndex L n)) := by
  unfold growTo
  split
  · rw [nextChunk reach]
    obtain ⟨grown,size⟩ := growRepresents h (k := chunkIndex L n + 1) (by omega)
    exact ⟨grown,by omega⟩
  · exact ⟨h,by omega⟩

/- The step of every operation that only adds bits: the stored chunks take in the
old ones, and the chunks at both ends of the new range are set. -/
theorem widenRepresents {v : TRBitVector L} {S T : Finset Nat} (h : Represents v S) {cs : List (Chunk L)}
    {low high : Nat} (order : low ≤ high) (size : cs.length = v.chunks.length) (room : (high : Int) < numChunks v)
    (first : ∃ n ∈ T, chunkIndex L n = low) (last : ∃ n ∈ T, chunkIndex L n = high)
    (range : ∀ n ∈ T, low ≤ chunkIndex L n ∧ chunkIndex L n ≤ high)
    (bits : ∀ n : Nat, bitAt (chunkOf cs (chunkIndex L n)) n = true ↔ n ∈ S ∨ n ∈ T) :
    Represents (widen v low high cs) (S ∪ T) := by
  have member : ∀ n, n ∈ S ∪ T ↔ holds (widen v low high cs) n = true := by
    intro n
    rw [Finset.mem_union,← bits n]
    rfl
  refine ⟨⟨?_,?_⟩,member⟩
  · intro j hj some
    obtain ⟨k,rfl⟩ := Int.eq_ofNat_of_zero_le hj
    obtain ⟨n,rfl,on⟩ := chunkSome.mp some
    simp only [widen]
    rcases Finset.mem_union.mp ((member n).mpr on) with old | new
    · have within := h.bounded.holdsInside ((h.member n).mp old)
      split <;> split <;> omega
    · have within := range n new
      split <;> split <;> omega
  · have both : ∀ n, n ∈ S ∨ n ∈ T → chunkOf cs (chunkIndex L n) ≠ 0#(bitsInChunk L) := fun n on =>
      holdsChunk (v := widen v low high cs) ((member n).mp (Finset.mem_union.mpr on))
    have lowSet : chunkOf cs (low : Nat) ≠ 0#(bitsInChunk L) := by
      obtain ⟨n,on,rfl⟩ := first
      exact both n (Or.inr on)
    have highSet : chunkOf cs (high : Nat) ≠ 0#(bitsInChunk L) := by
      obtain ⟨n,on,rfl⟩ := last
      exact both n (Or.inr on)
    have old : ∀ j : Nat, chunkAt v j ≠ 0#(bitsInChunk L) → chunkOf cs j ≠ 0#(bitsInChunk L) := by
      intro j some
      obtain ⟨n,rfl,on⟩ := chunkSome.mp some
      exact both n (Or.inl ((h.member n).mpr on))
    right
    have nonneg := h.bounded.firstNonneg
    simp only [numChunks] at room
    rcases h.bounded.tight with ⟨top,bottom⟩ | ⟨_,between,fits,hit,hit'⟩
    · simp only [numChunks] at top
      simp only [widen,chunkAt,numChunks,size]
      rw [if_pos (by omega),if_pos (by omega)]
      exact ⟨by omega,by omega,room,lowSet,highSet⟩
    · simp only [numChunks] at fits
      obtain ⟨f,hf⟩ := Int.eq_ofNat_of_zero_le nonneg
      obtain ⟨l,hl⟩ := Int.eq_ofNat_of_zero_le (nonneg.trans between)
      rw [hf] at hit
      rw [hl] at hit'
      simp only [widen,chunkAt,numChunks,size,hf,hl] at *
      refine ⟨by split <;> omega,by split <;> split <;> omega,by split <;> omega,?_,?_⟩
      · split
        · exact lowSet
        · exact old f hit
      · split
        · exact highSet
        · exact old l hit'

theorem rescanRepresents {cs : List (Chunk L)} {T : Finset Nat} {low high : Int} (start : 0 ≤ low)
    (stop : high < cs.length) (range : ∀ n ∈ T, low ≤ chunkIndex L n ∧ chunkIndex L n ≤ high)
    (bits : ∀ n : Nat, bitAt (chunkOf cs (chunkIndex L n)) n = true ↔ n ∈ T) :
    Represents (resetLowAndHighChunks cs low high) T := by
  have same : ∀ j, chunkAt (resetLowAndHighChunks cs low high) j = chunkOf cs j := by
    intro j
    rw [chunkAt,chunksReset]
  refine ⟨resetBounded start stop ?_,?_⟩
  · intro j hj some
    obtain ⟨k,rfl⟩ := Int.eq_ofNat_of_zero_le hj
    have here : chunkAt (⟨cs,0,0⟩ : TRBitVector L) k ≠ 0#(bitsInChunk L) := some
    obtain ⟨n,rfl,on⟩ := chunkSome.mp here
    exact range n ((bits n).mp on)
  · intro n
    rw [← bits n,holds,same]

theorem emptyRepresents {v : TRBitVector L} {S : Finset Nat} (h : Represents v S) :
    Represents (empty v) ∅ := by
  have nil : ∀ j, 0 ≤ j → chunkAt (empty v) j = 0#(bitsInChunk L) := by
    intro j hj
    simp only [chunkAt,empty,zeroEach]
    rw [chunkOfSpan _ _ h.bounded.firstNonneg hj]
    split
    · rfl
    · rename_i out
      by_contra some
      exact out ⟨(h.bounded.inside j hj some).1,(h.bounded.inside j hj some).2,chunkInside some⟩
  refine ⟨⟨fun j hj some => absurd (nil j hj) some,Or.inl ⟨?_,rfl⟩⟩,?_⟩
  · simp only [empty,numChunks,zeroEach,lengthStoreEach]
  · intro n
    simp [holds,nil]

theorem setSizeRepresents {v : TRBitVector L} {S : Finset Nat} (h : Represents v S) {n : Nat}
    (reach : (chunksFor L n : Int) ≤ maxSigned 32) :
    Represents (setSize v n) (S.filter (chunkIndex L · < chunksFor L n)) := by
  have low : minSigned 32 = -2147483648 := rfl
  rw [setSize,chunkIndexPred reach,wrapSelf (by decide) ⟨by omega,reach⟩]
  exact setChunkSizeRepresents h _

theorem packRepresents {v : TRBitVector L} {S : Finset Nat} (h : Represents v S) : Represents (pack v) S := by
  have used : 0 ≤ numUsedChunks v := by
    simp only [numUsedChunks]
    rcases h.bounded.tight with ⟨_,last⟩ | ⟨first,order,_⟩ <;> omega
  obtain ⟨k,hk⟩ := Int.eq_ofNat_of_zero_le used
  have all : S.filter (chunkIndex L · < k) = S := by
    apply Finset.filter_true_of_mem
    intro n on
    have := h.bounded.holdsInside ((h.member n).mp on)
    simp only [numUsedChunks] at hk
    omega
  have packed := setChunkSizeRepresents h k
  rwa [all,← hk] at packed

theorem getMember {v : TRBitVector L} {S : Finset Nat} (h : Represents v S) {n : Nat} (reach : Addressable L n) :
    get v n = decide (n ∈ S) := by
  rw [get,chunkIndexNat reach,Bool.eq_iff_iff,decide_eq_true_iff,h.member]
  split
  · rename_i above
    simp only [Bool.false_eq_true,false_iff]
    intro on
    have := h.bounded.holdsInside on
    omega
  · rfl

theorem sameBit {m n : Nat} (same : chunkIndex L m = chunkIndex L n) :
    (n : Int) % bitsInChunk L = (m : Int) % bitsInChunk L ↔ m = n := by
  constructor
  · intro rest
    have rest' : n % bitsInChunk L = m % bitsInChunk L := by exact_mod_cast rest
    simp only [chunkIndex] at same
    rw [← Nat.div_add_mod m (bitsInChunk L),← Nat.div_add_mod n (bitsInChunk L),rest',same]
  · rintro rfl
    rfl

theorem setRepresents {v : TRBitVector L} {S : Finset Nat} (h : Represents v S) {n : Nat}
    (reach : Addressable L n) : Represents (set v n) (insert n S) := by
  obtain ⟨grown,room⟩ := growToRepresents h reach
  have union : insert n S = S ∪ {n} := by rw [Finset.union_comm]; rfl
  rw [union,set,chunkIndexNat reach]
  have inside : (chunkIndex L n : Int) < (growTo v (chunkIndex L n)).chunks.length := room
  apply widenRepresents grown (le_refl _) (List.length_modify _ _ _) room ⟨n,by simp,rfl⟩ ⟨n,by simp,rfl⟩
  · intro m on
    rw [Finset.mem_singleton.mp on]
    omega
  · intro m
    rw [chunkOfModify _ _ (by omega) (by omega)]
    have old := grown.member m
    simp only [holds,chunkAt] at old
    by_cases same : chunkIndex L m = chunkIndex L n
    · have here := sameBit same
      rw [same] at old
      simp [same,inside,here,old]
    · have other : m ≠ n := fun e => same (by rw [e])
      rw [if_neg fun both => same (by exact_mod_cast both.1)]
      simp [old,other]

theorem resetRepresents {v : TRBitVector L} {S : Finset Nat} (h : Represents v S) {n : Nat}
    (reach : Addressable L n) : Represents (reset v n true) (S.erase n) := by
  have keep : n ∉ S → Represents v (S.erase n) := fun off => by rwa [Finset.erase_eq_of_notMem off]
  rw [reset,chunkIndexNat reach]
  split
  · rename_i out
    apply keep
    intro on
    have := h.bounded.holdsInside ((h.member n).mp on)
    omega
  split
  · rename_i nil
    apply keep
    intro on
    exact holdsChunk ((h.member n).mp on) nil
  rename_i within some
  have inside : (chunkIndex L n : Int) < v.chunks.length := chunkInside some
  set cs := v.chunks.modify (chunkIndex L n : Int).toNat (· &&& ~~~getBitMask L n) with stored
  have size : cs.length = v.chunks.length := List.length_modify _ _ _
  have value : ∀ j, 0 ≤ j → chunkOf cs j =
      if j = chunkIndex L n then chunkAt v (chunkIndex L n) &&& ~~~getBitMask L n else chunkAt v j := by
    intro j hj
    rw [stored,chunkOfModify _ _ (by omega) hj]
    simp only [inside,and_true]
    rfl
  have bits : ∀ m : Nat, bitAt (chunkOf cs (chunkIndex L m)) m = true ↔ m ∈ S.erase n := by
    intro m
    rw [value _ (by omega),Finset.mem_erase,h.member,holds]
    by_cases same : chunkIndex L m = chunkIndex L n
    · have here := sameBit same
      simp [same,here,and_comm]
    · have other : m ≠ n := fun e => same (by rw [e])
      rw [if_neg fun both => same (by exact_mod_cast both)]
      simp [other]
  show Represents (if true = true ∧ chunkOf cs (chunkIndex L n) = 0#(bitsInChunk L) then
      resetLowAndHighChunks cs v.firstChunkWithNonZero v.lastChunkWithNonZero
    else ⟨cs,v.firstChunkWithNonZero,v.lastChunkWithNonZero⟩) _
  split
  · apply rescanRepresents h.bounded.firstNonneg _ _ bits
    · rw [size]
      rcases h.bounded.tight with ⟨_,last⟩ | ⟨_,_,fits,_⟩
      · omega
      · exact fits
    · intro m on
      exact h.bounded.holdsInside ((h.member m).mp (Finset.mem_of_mem_erase on))
  · rename_i still
    have here : chunkOf cs (chunkIndex L n) ≠ 0#(bitsInChunk L) := fun nil => still ⟨rfl,nil⟩
    have kept : ∀ j, 0 ≤ j → (chunkOf cs j ≠ 0#(bitsInChunk L) ↔ chunkAt v j ≠ 0#(bitsInChunk L)) := by
      intro j hj
      by_cases same : j = chunkIndex L n
      · subst j
        simp only [here,some,ne_eq,not_false_eq_true]
      · rw [value j hj,if_neg same]
    refine ⟨⟨fun j hj on => h.bounded.inside j hj ((kept j hj).mp on),?_⟩,?_⟩
    · rcases h.bounded.tight with ⟨_,last⟩ | ⟨first,order,fits,hit,hit'⟩
      · omega
      · refine Or.inr ⟨first,order,?_,(kept _ first).mpr hit,(kept _ (first.trans order)).mpr hit'⟩
        simpa only [numChunks,size] using fits
    · intro m
      rw [← bits m]
      rfl

end OmrCompiler.BitVector
