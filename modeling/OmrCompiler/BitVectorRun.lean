import OmrCompiler.BitVectorQueries

/-! Runs of operations over any number of dense bit vectors, against the same
operations on finite sets of naturals. -/
namespace OmrCompiler.BitVector
open MachineInt
open BitChunk

variable {L : Layout}

inductive Op where
  | set (v n : Nat)
  | reset (v n : Nat)
  | clear (v n : Nat)
  | assign (v w : Nat)
  | orAssign (v w : Nat)
  | andAssign (v w : Nat)
  | subAssign (v w : Nat)
  | setAll (v n : Nat)
  | setAllBetween (v m n : Nat)
  | empty (v : Nat)
  | pack (v : Nat)
  | setSize (v n : Nat)
  deriving DecidableEq, Repr

/- The vectors of a run by number. An operation on one vector twice reads what it
has stored, chunk by chunk; this changes no stored value. -/
def step (fuel : Nat) (vectors : Nat → TRBitVector L) : Op → Option (Nat → TRBitVector L)
  | .set v n => some (Function.update vectors v (set (vectors v) n))
  | .reset v n => some (Function.update vectors v (reset (vectors v) n true))
  | .clear v n => some (Function.update vectors v (clear (vectors v) n).2)
  | .assign v w => some (Function.update vectors v (assign (vectors v) (vectors w)))
  | .orAssign v w => some (Function.update vectors v (orAssign (vectors v) (vectors w)))
  | .andAssign v w => some (Function.update vectors v (andAssign (vectors v) (vectors w)))
  | .subAssign v w => some (Function.update vectors v (subAssign (vectors v) (vectors w)))
  | .setAll v n => (setAll fuel (vectors v) n).map (Function.update vectors v)
  | .setAllBetween v m n => some (Function.update vectors v (setAllBetween (vectors v) m n))
  | .empty v => some (Function.update vectors v (empty (vectors v)))
  | .pack v => some (Function.update vectors v (pack (vectors v)))
  | .setSize v n => some (Function.update vectors v (setSize (vectors v) n))

def run (fuel : Nat) (vectors : Nat → TRBitVector L) : List Op → Option (Nat → TRBitVector L)
  | [] => some vectors
  | op::ops => do
      let next ← step fuel vectors op
      run fuel next ops

def stepSets (L : Layout) (sets : Nat → Finset Nat) : Op → Nat → Finset Nat
  | .set v n => Function.update sets v (insert n (sets v))
  | .reset v n => Function.update sets v ((sets v).erase n)
  | .clear v n => Function.update sets v ((sets v).erase n)
  | .assign v w => Function.update sets v (sets w)
  | .orAssign v w => Function.update sets v (sets v ∪ sets w)
  | .andAssign v w => Function.update sets v (sets v ∩ sets w)
  | .subAssign v w => Function.update sets v (sets v \ sets w)
  | .setAll v n => Function.update sets v (sets v ∪ Finset.range n)
  | .setAllBetween v m n => Function.update sets v (sets v ∪ Finset.Icc m n)
  | .empty v => Function.update sets v ∅
  | .pack _ => sets
  | .setSize v n => Function.update sets v ((sets v).filter (· < chunksFor L n * bitsInChunk L))

def runSets (L : Layout) (sets : Nat → Finset Nat) (ops : List Op) : Nat → Finset Nat :=
  ops.foldl (stepSets L) sets

-- setAll(n) counts to n in 32 bits; elsewhere only the chunk index must be an int32_t.
def Countable (L : Layout) : Op → Prop
  | .set _ n | .reset _ n | .clear _ n => Addressable L n
  | .setAll _ n => (n : Int) ≤ maxSigned 32
  | .setAllBetween _ m n => m ≤ n ∧ Addressable L n
  | .setSize _ n => (chunksFor L n : Int) ≤ maxSigned 32
  | _ => True

theorem updateRepresents {vectors : Nat → TRBitVector L} {sets : Nat → Finset Nat}
    (h : ∀ i, Represents (vectors i) (sets i)) {v : Nat} {u : TRBitVector L} {S : Finset Nat} (new : Represents u S)
    (i : Nat) : Represents (Function.update vectors v u i) (Function.update sets v S i) := by
  by_cases here : i = v
  · subst i
    simpa using new
  · simpa [here] using h i

theorem stepRepresents {vectors : Nat → TRBitVector L} {sets : Nat → Finset Nat}
    (h : ∀ i, Represents (vectors i) (sets i)) {fuel : Nat} (enough : 64 ≤ fuel) {op : Op} (meets : Countable L op) :
    ∃ next, step fuel vectors op = some next ∧ ∀ i, Represents (next i) (stepSets L sets op i) := by
  cases op with
  | set v n => exact ⟨_,rfl,updateRepresents h (setRepresents (h v) meets)⟩
  | reset v n => exact ⟨_,rfl,updateRepresents h (resetRepresents (h v) meets)⟩
  | clear v n =>
    refine ⟨_,rfl,updateRepresents h ?_⟩
    simp only [clear,getMember (h v) meets]
    by_cases on : n ∈ sets v
    · simpa [on] using resetRepresents (h v) meets
    · simpa [on] using h v
  | assign v w => exact ⟨_,rfl,updateRepresents h (assignRepresents (h v) (h w))⟩
  | orAssign v w => exact ⟨_,rfl,updateRepresents h (orRepresents (h v) (h w))⟩
  | andAssign v w => exact ⟨_,rfl,updateRepresents h (andRepresents (h v) (h w))⟩
  | subAssign v w => exact ⟨_,rfl,updateRepresents h (subRepresents (h v) (h w))⟩
  | setAll v n =>
    obtain ⟨u,result,new⟩ := setAllRepresents (h v) meets enough
    exact ⟨_,by simp only [step,result,Option.map_some],updateRepresents h new⟩
  | setAllBetween v m n => exact ⟨_,rfl,updateRepresents h (setAllBetweenRepresents (h v) meets.1 meets.2)⟩
  | empty v => exact ⟨_,rfl,updateRepresents h (emptyRepresents (h v))⟩
  | pack v =>
    refine ⟨_,rfl,fun i => ?_⟩
    have packed := updateRepresents h (v := v) (packRepresents (h v)) i
    rwa [Function.update_eq_self] at packed
  | setSize v n =>
    have cut : (sets v).filter (chunkIndex L · < chunksFor L n) =
        (sets v).filter (· < chunksFor L n * bitsInChunk L) := by
      apply Finset.filter_congr
      intro m _
      exact Nat.div_lt_iff_lt_mul (bitsInChunkPos L)
    refine ⟨_,rfl,updateRepresents h ?_⟩
    rw [← cut]
    exact setSizeRepresents (h v) meets

theorem runRepresents {vectors : Nat → TRBitVector L} {sets : Nat → Finset Nat}
    (h : ∀ i, Represents (vectors i) (sets i)) {fuel : Nat} (enough : 64 ≤ fuel) {ops : List Op}
    (meets : ∀ op ∈ ops, Countable L op) :
    ∃ final, run fuel vectors ops = some final ∧ ∀ i, Represents (final i) (runSets L sets ops i) := by
  induction ops generalizing vectors sets with
  | nil => exact ⟨vectors,rfl,h⟩
  | cons op ops ih =>
    obtain ⟨next,stepped,agrees⟩ := stepRepresents h enough (meets op List.mem_cons_self)
    obtain ⟨final,rest,same⟩ := ih agrees fun later member => meets later (List.mem_cons_of_mem op member)
    exact ⟨final,by simp only [run,stepped,bind,Option.bind,rest],same⟩

def nonZeroChunks (v : TRBitVector L) : Set Int :=
  {j | 0 ≤ j ∧ j < numChunks v ∧ chunkAt v j ≠ 0#(bitsInChunk L)}

def ExactBounds (v : TRBitVector L) : Prop :=
  (nonZeroChunks v = ∅ ∧ v.firstChunkWithNonZero = numChunks v ∧ v.lastChunkWithNonZero = -1) ∨
    (IsLeast (nonZeroChunks v) v.firstChunkWithNonZero ∧ IsGreatest (nonZeroChunks v) v.lastChunkWithNonZero)

theorem Bounded.exact {v : TRBitVector L} (h : Bounded v) : ExactBounds v := by
  rcases h.tight with ⟨first,last⟩ | ⟨start,order,fits,hit,hit'⟩
  · refine Or.inl ⟨?_,first,last⟩
    apply Set.eq_empty_of_forall_notMem
    rintro j ⟨hj,_,some⟩
    have := h.inside j hj some
    omega
  · refine Or.inr ⟨⟨⟨start,by omega,hit⟩,?_⟩,⟨⟨start.trans order,fits,hit'⟩,?_⟩⟩
    · rintro j ⟨hj,_,some⟩
      exact (h.inside j hj some).1
    · rintro j ⟨hj,_,some⟩
      exact (h.inside j hj some).2

-- Everything a caller sees of the vectors is what the sets give.
structure Agrees (vectors : Nat → TRBitVector L) (sets : Nat → Finset Nat) : Prop where
  bounds : ∀ i, ExactBounds (vectors i)
  get : ∀ i n, Addressable L n → get (vectors i) n = decide (n ∈ sets i)
  clear : ∀ i n, Addressable L n → (clear (vectors i) n).1 = decide (n ∈ sets i)
  isEmpty : ∀ i, isEmpty (vectors i) = decide (sets i = ∅)
  equal : ∀ i j, equal (vectors i) (vectors j) = decide (sets i = sets j)
  intersects : ∀ i j, intersects (vectors i) (vectors j) = decide (sets i ∩ sets j ≠ ∅)
  elementCount : ∀ i, elementCount (vectors i) = (sets i).card ↔ (sets i).card < 2 ^ 31
  commonElementCount : ∀ i j, commonElementCount (vectors i) (vectors j) = (sets i ∩ sets j).card ↔
    (sets i ∩ sets j).card < 2 ^ 31
  hasMoreThanOneElement : ∀ i, hasMoreThanOneElement (vectors i) = decide (1 < (sets i).card)
  getHighestBitPosition : ∀ i, getHighestBitPosition (vectors i) = ((sets i).sup id : Nat)

theorem wrapCount (count : Nat) : wrap 32 count = count ↔ count < 2 ^ 31 := by
  have max : maxSigned 32 = 2147483647 := rfl
  have min : minSigned 32 = -2147483648 := rfl
  constructor
  · intro same
    have range := wrapRange (w := 32) (by decide) count
    simp only [InRange,same] at range
    omega
  · intro below
    exact wrapSelf (by decide) ⟨by omega,by omega⟩

theorem representedAgrees {vectors : Nat → TRBitVector L} {sets : Nat → Finset Nat}
    (h : ∀ i, Represents (vectors i) (sets i)) : Agrees vectors sets := by
  constructor
  · exact fun i => (h i).bounded.exact
  · exact fun i n reach => getMember (h i) reach
  · intro i n reach
    rw [clear,getMember (h i) reach]
  · exact fun i => isEmptyMember (h i)
  · exact fun i j => equalMember (h i) (h j)
  · intro i j
    rw [intersectsMember (h i) (h j)]
    simp only [Finset.disjoint_iff_inter_eq_empty,ne_eq]
  · intro i
    rw [elementCountCard (h i),wrapCount]
  · intro i j
    rw [commonElementCountCard (h i) (h j),wrapCount]
  · exact fun i => hasMoreThanOneElementCard (h i)
  · exact fun i => getHighestBitPositionSup (h i)

/- Vectors constructed empty with any number of bits stay exact and agree with
sets through every run of countable operations. -/
theorem bitVectorsAreSets {L : Layout} {fuel : Nat} (enough : 64 ≤ fuel) {initBits : Nat → Nat}
    (sized : ∀ i, (chunksFor L (initBits i) : Int) ≤ maxSigned 32) {ops : List Op}
    (meets : ∀ op ∈ ops, Countable L op) :
    ∃ final, run fuel (fun i => construct L (initBits i)) ops = some final ∧
      Agrees final (runSets L (fun _ => ∅) ops) := by
  obtain ⟨final,ran,agrees⟩ := runRepresents (fun i => constructRepresents L (sized i)) enough meets
  exact ⟨final,ran,representedAgrees agrees⟩

theorem bitVectorsAreSetsSample :
    ∃ final, run 64 (fun _ => construct ⟨true,false⟩ 8) [.set 0 3,.set 1 70,.orAssign 0 1,.reset 0 3,.setAll 1 5] =
        some final ∧
      Agrees final (runSets ⟨true,false⟩ (fun _ => ∅) [.set 0 3,.set 1 70,.orAssign 0 1,.reset 0 3,.setAll 1 5]) := by
  apply bitVectorsAreSets (le_refl 64)
  · intro i
    decide
  · intro op member
    simp only [List.mem_cons,List.not_mem_nil,or_false] at member
    rcases member with rfl | rfl | rfl | rfl | rfl
    · show (chunkIndex ⟨true,false⟩ 3 : Int) + 1 ≤ maxSigned 32
      decide
    · show (chunkIndex ⟨true,false⟩ 70 : Int) + 1 ≤ maxSigned 32
      decide
    · trivial
    · show (chunkIndex ⟨true,false⟩ 3 : Int) + 1 ≤ maxSigned 32
      decide
    · show ((5 : Nat) : Int) ≤ maxSigned 32
      decide

/- With 2^31 bits, the loop of setAll(n) never reaches its limit, and the count
of the elements is negative. -/
theorem bitVectorsOverflow :
    (∀ fuel, run fuel (fun _ => construct ⟨true,false⟩ 0) [.setAll 0 2147483648] = none) ∧
      ∃ final, run 64 (fun _ => construct ⟨true,false⟩ 0) [.setAllBetween 0 0 2147483647] = some final ∧
        elementCount (final 0) = -2147483648 ∧
        (runSets ⟨true,false⟩ (fun _ => ∅) [.setAllBetween 0 0 2147483647] 0).card = 2147483648 := by
  have empty : Nat → Represents (construct ⟨true,false⟩ (0 : Nat)) ∅ := fun _ =>
    constructRepresents _ (by decide)
  constructor
  · intro fuel
    have stuck : ∀ c : Chunk ⟨true,false⟩, setBelow fuel (wrap 32 (getBitIndex ⟨true,false⟩
        (getChunkIndex ⟨true,false⟩ (((2147483648 : Nat) : Int) - 1)))) ((2147483648 : Nat) : Int) c = none :=
      fun c => setBelowStuck (by decide) fuel c (wrapRange (by decide) _)
    simp only [run,step,setAll,stuck,bind,Option.bind]
    rfl
  · have meets : ∀ op ∈ [Op.setAllBetween 0 0 2147483647], Countable ⟨true,false⟩ op := by
      intro op member
      rw [List.mem_singleton.mp member]
      exact ⟨Nat.zero_le _,by unfold Addressable; decide⟩
    obtain ⟨final,ran,agrees⟩ := runRepresents empty (le_refl 64) meets
    have card : (runSets ⟨true,false⟩ (fun _ => ∅) [.setAllBetween 0 0 2147483647] 0).card = 2147483648 := by
      simp [runSets,stepSets]
    refine ⟨final,ran,?_,card⟩
    rw [elementCountCard (agrees 0),card]
    decide

end OmrCompiler.BitVector
