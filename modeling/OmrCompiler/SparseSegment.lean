import Mathlib.Data.List.Perm.Subperm
import OmrCompiler.SparseSearch

/-! Segments as sets: the values are ascending and fit into the memory. -/
namespace OmrCompiler.SparseBits

def Ascending (list : List Nat) : Prop := list.Pairwise (· < ·)

/- A segment whose memory may have all 65536 values, more than fSize can tell, or a
smaller limit of them. -/
structure Formed (limit : Nat) (s : Segment) : Prop where
  nonempty : s.indices ≠ []
  ascending : Ascending s.indices
  small : ∀ y ∈ s.indices, y < halfWord
  fits : s.indices.length ≤ s.room
  size : s.size = s.room % halfWord
  bounded : s.room ≤ limit
  high : s.highBits < halfWord

section
variable {list a b : List Nat} {s input tmp : Segment} {bit i i0 t x y k n fuel limit : Nat}

theorem memDrop : y ∈ list.drop t ↔ ∃ j, t ≤ j ∧ list[j]? = some y := by
  rw [List.mem_iff_getElem?]
  constructor
  · rintro ⟨j,at'⟩
    rw [List.getElem?_drop] at at'
    exact ⟨t + j,Nat.le_add_right _ _,at'⟩
  · rintro ⟨j,after,at'⟩
    refine ⟨j - t,?_⟩
    rw [List.getElem?_drop,show t + (j - t) = j by omega]
    exact at'

theorem memTake : y ∈ list.take t ↔ ∃ j, j < t ∧ list[j]? = some y := by
  rw [List.mem_iff_getElem?]
  constructor
  · rintro ⟨j,at'⟩
    rw [List.getElem?_take] at at'
    split at at'
    · rename_i less
      exact ⟨j,less,at'⟩
    · cases at'
  · rintro ⟨j,before,at'⟩
    exact ⟨j,by rw [List.getElem?_take,if_pos before]; exact at'⟩

theorem Ascending.from (asc : Ascending list) (start : Nat) : AscendingFrom list start := by
  intro i j u v _ less atI atJ
  obtain ⟨boundI,rfl⟩ := List.getElem?_eq_some_iff.mp atI
  obtain ⟨boundJ,rfl⟩ := List.getElem?_eq_some_iff.mp atJ
  exact List.pairwise_iff_getElem.mp asc i j boundI boundJ less

theorem Ascending.headLeast (asc : Ascending (x::a)) : ∀ z ∈ x::a, x ≤ z := by
  intro z on
  rcases List.mem_cons.mp on with rfl | later
  · exact Nat.le_refl _
  · exact Nat.le_of_lt ((List.pairwise_cons.mp asc).1 z later)

theorem Spot.above {start : Nat} (spot : Spot list start x t) : ∀ y ∈ list.drop t, x ≤ y := by
  intro y on
  obtain ⟨j,after,at'⟩ := memDrop.mp on
  exact spot.after j y after at'

-- An ascending list of values of 16 bits is shorter than a half word, unless it has them all.
theorem Ascending.length (asc : Ascending list) (small : ∀ y ∈ list, y < halfWord) (missing : k ∉ list) (inRange : k < halfWord) : list.length < halfWord := by
  have unique : (k::list).Nodup := List.nodup_cons.mpr ⟨missing,asc.imp fun less => Nat.ne_of_lt less⟩
  have sub : (k::list).Subperm (List.range halfWord) := by
    refine List.subperm_of_subset unique fun y on => List.mem_range.mpr ?_
    rcases List.mem_cons.mp on with rfl | on
    · exact inRange
    · exact small y on
  have length := sub.length_le
  rw [List.length_range,List.length_cons] at length
  omega

theorem Ascending.short (asc : Ascending list) (small : ∀ y ∈ list, y < halfWord) : list.length ≤ halfWord := by
  have sub : list.Subperm (List.range halfWord) :=
    List.subperm_of_subset (asc.imp fun less => Nat.ne_of_lt less) fun y on => List.mem_range.mpr (small y on)
  have length := sub.length_le
  rwa [List.length_range] at length

theorem Ascending.whole (asc : Ascending list) (small : ∀ y ∈ list, y < halfWord) (long : list.length = halfWord) (inRange : k < halfWord) : k ∈ list := by
  by_contra missing
  exact absurd long (Nat.ne_of_lt (asc.length small missing inRange))

-- With the values added, a segment has all 65536.
def Full (a : List Nat) (all : Nat → Prop) : Prop := ∀ k, k < halfWord → k ∈ a ∨ all k

theorem notFull {all : Nat → Prop} : ¬ Full a all ↔ ∃ k, k < halfWord ∧ k ∉ a ∧ ¬ all k := by
  simp only [Full,not_forall,not_or,exists_prop]

theorem Full.long {all : Nat → Prop} (full : Full a all) (among : ∀ k, k ∈ a ∨ all k → k ∈ list) : halfWord ≤ list.length := by
  have sub : (List.range halfWord).Subperm list :=
    List.subperm_of_subset List.nodup_range fun k on => among k (full k (List.mem_range.mp on))
  have length := sub.length_le
  rwa [List.length_range] at length

/- Growing. -/

theorem growSizeEnough (size : Nat) (two : 2 ≤ n) : n ≤ growSize size n := by
  unfold growSize
  rw [if_pos (by omega)]
  split
  · have less : n - 1 < 2 ^ ((n - 1).log2 + 1) := Nat.lt_log2_self
    rw [Nat.pow_succ] at less
    omega
  · omega

theorem growSegmentRoom (size : Nat) (two : 2 ≤ n) (less : s.size < n) :
    ∃ r, growSegment size n s = { s with size := r, room := r, indices := if s.size = 0 then [] else s.indices.take r } ∧ min n kSegmentMask ≤ r ∧ r < halfWord := by
  have enough := growSizeEnough size two
  unfold growSegment
  simp only
  rw [if_neg (by omega)]
  generalize growSize size n = g at enough
  have mask : kSegmentMask + 1 = halfWord := rfl
  refine ⟨if g > kSegmentMask then kSegmentMask else g,?_,by split <;> omega,by split <;> omega⟩
  have small : (if g > kSegmentMask then kSegmentMask else g) % halfWord = if g > kSegmentMask then kSegmentMask else g :=
    Nat.mod_eq_of_lt (by split <;> omega)
  by_cases zero : s.size = 0
  · rw [if_pos zero,if_pos zero,allocate,small]
  · rw [if_neg zero,if_neg zero,reallocate,small]

end

end OmrCompiler.SparseBits
