import OmrCompiler.SparseVectors

/-! The operations of a vector with another one in place. -/
namespace OmrCompiler.SparseBits

section
variable {v inputVector maskVector done rest : List Segment} {s t : Segment} {changed drop : Bool} {limit fuel x : Nat}

/- Intersection and difference. -/

end

end OmrCompiler.SparseBits
