import OmrCompiler.SparseJoin
import OmrCompiler.SparseOutput

/-! The union with the common values of two other vectors in place. -/
namespace OmrCompiler.SparseBits

/- The segment that is there already; one whose memory is for 65536 values has a size of
zero, so that it gets new memory and its values are lost. -/
def kept (v : List Segment) (t : Segment) : Option Segment := (findSegment t.index v).filter (fun s => decide (s.size ≠ 0))

section
variable {v inputVector maskVector rest : List Segment} {s t mask blank : Segment} {changed : Bool} {limit x h n index : Nat} {P Q : Nat → Prop}

theorem Formed.grown (formed : Formed limit s) (small : limit ≤ halfWord) (sized : s.size ≠ 0) (large : kSegmentMask ≤ limit) (n : Nat) :
    Formed limit (growSegment n 0 s) ∧ (growSegment n 0 s).indices = s.indices ∧ (growSegment n 0 s).highBits = s.highBits := by
  have mask : kSegmentMask + 1 = halfWord := rfl
  have fits := formed.fits
  have size := formed.size
  have bounded := formed.bounded
  have narrow : s.room < halfWord := by
    rcases Nat.lt_or_ge s.room halfWord with less | more
    · exact less
    · have same : s.room = halfWord := by omega
      rw [same,Nat.mod_self] at size
      exact absurd size sized
  rw [Nat.mod_eq_of_lt narrow] at size
  have zero : growSize n 0 = n := rfl
  simp only [growSegment,zero]
  split
  · exact ⟨formed,rfl,rfl⟩
  · generalize grown : (if n > kSegmentMask then kSegmentMask else n) = k
    have enough : s.room ≤ k ∧ k ≤ kSegmentMask := by
      rw [← grown]
      split <;> omega
    have whole : (reallocate k s).indices = s.indices := List.take_of_length_le (by omega)
    refine ⟨⟨?_,?_,?_,?_,rfl,by simp only [reallocate]; omega,formed.high⟩,whole,rfl⟩
    · exact whole.symm ▸ formed.nonempty
    · exact whole.symm ▸ formed.ascending
    · exact whole.symm ▸ formed.small
    · rw [whole]
      simp only [reallocate]
      omega

end

end OmrCompiler.SparseBits
