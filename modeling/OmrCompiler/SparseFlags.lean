import OmrCompiler.SparseAgreement
import OmrCompiler.SparseMasked

/-! Whether the flags of the operations in place tell that the vector has changed. -/
namespace OmrCompiler.SparseBits

def Truthful (ran : Option (Bool × List Segment)) (a : List Segment) : Prop :=
  ∃ changed o, ran = some (changed,o) ∧ (changed = true ↔ ∃ x, ¬ (Member o x ↔ Member a x))

section
variable {a b m : List Segment} {t mask : Segment} {x limit : Nat}

end

end OmrCompiler.SparseBits
