import Mathlib.Tactic.Ring
import OmrCompiler.InterferenceGraph
import OmrCompiler.BitVectorSets

/-! The three records of an edge: a bit of the triangular matrix and an entry in
each of two adjacency lists, kept in step with the degrees. -/
namespace OmrCompiler.Interference
open MachineInt
open BitChunk (Layout)
open BitVector (TRBitVector Represents Addressable)

variable {L : Layout}

-- The pairs of n nodes, which is also the first bit of the pairs of node n.
def pairs (n : Nat) : Nat := (n - 1) * n / 2

theorem highIndices : ∀ high < 64, highIndexTable.getD high 0 = pairs high := by decide

theorem pairIndex (a b : Nat) : getNodePairToBVIndex a b = pairs (max a b) + min a b := by
  have table := highIndices
  simp only [getNodePairToBVIndex]
  split
  · rw [max_eq_right (by omega),min_eq_left (by omega)]
    split
    · rw [table _ (by assumption),Nat.add_comm]
    · rfl
  · rw [max_eq_left (by omega),min_eq_right (by omega)]
    split
    · rw [table _ (by assumption),Nat.add_comm]
    · rfl

theorem pairsSucc (n : Nat) : pairs (n + 1) = pairs n + n := by
  cases n with
  | zero => rfl
  | succ n =>
    have double : (n + 1) * (n + 1 + 1) = n * (n + 1) + (n + 1) * 2 := by ring
    simp only [pairs,Nat.add_sub_cancel]
    rw [double,Nat.add_mul_div_right _ _ (by decide)]

theorem pairsMono {m n : Nat} (order : m ≤ n) : pairs m ≤ pairs n := by
  induction order with
  | refl => exact le_refl _
  | step _ ih => exact ih.trans (by rw [Nat.succ_eq_add_one,pairsSucc]; omega)

theorem pairIndexComm (a b : Nat) : getNodePairToBVIndex a b = getNodePairToBVIndex b a := by
  rw [pairIndex,pairIndex,max_comm,min_comm]

theorem pairIndexBounds {a b : Nat} (apart : a ≠ b) :
    pairs (max a b) ≤ getNodePairToBVIndex a b ∧ getNodePairToBVIndex a b < pairs (max a b + 1) := by
  rw [pairIndex,pairsSucc]
  omega

theorem pairIndexBelow {a b n : Nat} (apart : a ≠ b) (left : a < n) (right : b < n) :
    getNodePairToBVIndex a b < pairs n :=
  lt_of_lt_of_le (pairIndexBounds apart).2 (pairsMono (by omega))

theorem pairIndexInjective {a b c d : Nat} (left : a ≠ b) (right : c ≠ d)
    (same : getNodePairToBVIndex a b = getNodePairToBVIndex c d) : (a = c ∧ b = d) ∨ (a = d ∧ b = c) := by
  have lb := pairIndexBounds left
  have rb := pairIndexBounds right
  have high : max a b = max c d := by
    rcases lt_trichotomy (max a b) (max c d) with less | equal | more
    · have := pairsMono (Nat.succ_le_of_lt less)
      simp only [Nat.succ_eq_add_one] at this
      omega
    · exact equal
    · have := pairsMono (Nat.succ_le_of_lt more)
      simp only [Nat.succ_eq_add_one] at this
      omega
  rw [pairIndex,pairIndex,high] at same
  omega

-- What the numbering of pairs owes to one pair of nodes.
structure PairNumbered (i j : Nat) : Prop where
  symmetric : getNodePairToBVIndex i j = getNodePairToBVIndex j i
  unique : ∀ k l, k ≠ l → getNodePairToBVIndex i j = getNodePairToBVIndex k l → (i = k ∧ j = l) ∨ (i = l ∧ j = k)
  ordered : getOrderedNodePairToBVIndex (min i j) (max i j) = getNodePairToBVIndex (min i j) (max i j)

-- The closed formula of the ordered numbering is one row short.
theorem orderedIndexShort {low high : Nat} (large : 64 ≤ high) (order : low < high) :
    getOrderedNodePairToBVIndex low high < getNodePairToBVIndex low high := by
  obtain ⟨k,rfl⟩ : ∃ k, high = k + 1 := ⟨high - 1,by omega⟩
  have row : (k + 1 - 2) * (k + 1 - 1) / 2 = pairs k := rfl
  rw [pairIndex,max_eq_right (by omega),min_eq_left (by omega),getOrderedNodePairToBVIndex,if_neg (by omega),row,pairsSucc]
  omega

theorem orderedIndexTable {low high : Nat} (small : high < 64) (order : low < high) :
    getOrderedNodePairToBVIndex low high = getNodePairToBVIndex low high := by
  rw [pairIndex,max_eq_right (by omega),min_eq_left (by omega),getOrderedNodePairToBVIndex,if_pos small,highIndices _ small,
    Nat.add_comm]

theorem pairNumbering {i j : Nat} (apart : i ≠ j) : PairNumbered i j ↔ max i j < 64 := by
  refine ⟨fun numbered => ?_,fun small => ⟨pairIndexComm i j,fun k l other => pairIndexInjective apart other,
    orderedIndexTable small (by omega)⟩⟩
  by_contra large
  exact absurd numbered.ordered (Nat.ne_of_lt (orderedIndexShort (by omega) (by omega)))

theorem pairNumberingSample : PairNumbered 3 63 := (pairNumbering (by decide)).mpr (by decide)

theorem pairNumberingSplit : ¬ ∀ i j : Nat, i < j → getOrderedNodePairToBVIndex i j = getNodePairToBVIndex i j := by
  intro agree
  exact absurd (agree 0 64 (by decide)) (by decide)

structure Hashed (g : InterferenceGraph L) : Prop where
  known : ∀ bucket, ∀ i ∈ g.buckets bucket, i < g.numNodes

structure Consistent (g : InterferenceGraph L) : Prop where
  nodup : ∀ a, (g.nodeTable a).adjList.Nodup
  irrefl : ∀ a, a ∉ (g.nodeTable a).adjList
  symm : ∀ a b, b ∈ (g.nodeTable a).adjList → a ∈ (g.nodeTable b).adjList
  bound : ∀ a b, b ∈ (g.nodeTable a).adjList → b < g.numNodes
  degree : ∀ a, (g.nodeTable a).degree = (g.nodeTable a).adjList.length
  matrix : ∃ S, Represents g.interferenceMatrix S ∧ (∀ m ∈ S, m < pairs g.numNodes) ∧
    ∀ a b, a ≠ b → a < g.numNodes → b < g.numNodes →
      (getNodePairToBVIndex a b ∈ S ↔ b ∈ (g.nodeTable a).adjList)
  room : Addressable L (pairs g.numNodes)

theorem addressableMono {m n : Nat} (order : m ≤ n) (reach : Addressable L n) : Addressable L m := by
  have : BitVector.chunkIndex L m ≤ BitVector.chunkIndex L n := Nat.div_le_div_right order
  simp only [Addressable] at reach ⊢
  omega

theorem fewNodes {n : Nat} (reach : Addressable L (pairs n)) : n < 2 ^ 21 := by
  by_contra many
  have max : maxSigned 32 = 2147483647 := rfl
  have grown := pairsMono (Nat.le_of_not_lt many)
  have base : pairs (2 ^ 21) = 2199022206976 := by decide
  have split : pairs n ≤ BitChunk.bitsInChunk L * BitVector.chunkIndex L (pairs n) + BitChunk.bitsInChunk L := by
    have whole := Nat.div_add_mod (pairs n) (BitChunk.bitsInChunk L)
    have rest := Nat.mod_lt (pairs n) (BitChunk.bitsInChunkPos L)
    simp only [BitVector.chunkIndex]
    omega
  simp only [Addressable] at reach
  rcases BitChunk.bitsInChunkCases L with w | w <;> rw [w] at split <;> omega

theorem Consistent.shortList {g : InterferenceGraph L} (h : Consistent g) (a : Nat) :
    (g.nodeTable a).adjList.length ≤ g.numNodes := by
  have inside : (g.nodeTable a).adjList ⊆ List.range g.numNodes := fun b member =>
    List.mem_range.mpr (h.bound a b member)
  have shorter := ((h.nodup a).subperm inside).length_le
  rwa [List.length_range] at shorter

theorem getIGNodeKnown {g : InterferenceGraph L} (h : Hashed g) {entity i : Nat}
    (found : getIGNodeForEntity g entity = some i) : i < g.numNodes ∧ (g.nodeTable i).entity = entity := by
  refine ⟨h.known _ i (List.mem_of_find?_eq_some found),?_⟩
  have test := List.find?_some found
  simpa using test

theorem Consistent.freshEmpty {g : InterferenceGraph L} (h : Consistent g) {a : Nat} (beyond : g.numNodes ≤ a) :
    (g.nodeTable a).adjList = [] := by
  apply List.eq_nil_iff_forall_not_mem.mpr
  intro b member
  have := h.bound b a (h.symm a b member)
  omega

theorem addNodeConsistent {g : InterferenceGraph L} (h : Consistent g) (entity : Nat)
    (room : Addressable L (pairs (g.numNodes + 1))) : Consistent (addNode g entity) := by
  have fresh := h.freshEmpty (le_refl _)
  have same : ∀ a, ((addNode g entity).nodeTable a).adjList = (g.nodeTable a).adjList := by
    intro a
    simp only [addNode,Function.update_apply]
    split
    · subst a
      exact fresh.symm
    · rfl
  obtain ⟨S,represents,small,bits⟩ := h.matrix
  constructor
  · intro a
    rw [same]
    exact h.nodup a
  · intro a
    rw [same]
    exact h.irrefl a
  · intro a b
    rw [same,same]
    exact h.symm a b
  · intro a b member
    rw [same] at member
    exact lt_trans (h.bound a b member) (Nat.lt_succ_self _)
  · intro a
    rw [same]
    simp only [addNode,Function.update_apply]
    split
    · subst a
      rw [fresh]
      rfl
    · exact h.degree a
  · refine ⟨S,represents,fun m on => lt_of_lt_of_le (small m on) (pairsMono (Nat.le_succ _)),?_⟩
    intro a b apart left right
    rw [same]
    by_cases old : a < g.numNodes ∧ b < g.numNodes
    · exact bits a b apart old.1 old.2
    · have last : max a b = g.numNodes := by
        simp only [addNode] at left right
        omega
      have above := (pairIndexBounds apart).1
      rw [last] at above
      constructor
      · intro on
        have := small _ on
        omega
      · intro member
        have := h.bound a b member
        have := h.bound b a (h.symm a b member)
        omega
  · exact room

theorem addInterferenceNodes (g : InterferenceGraph L) {i j : Nat} (apart : i ≠ j)
    (clear : BitVector.get g.interferenceMatrix (getNodePairToBVIndex i j) = false) (a : Nat) :
    (addInterferenceBetween g i j).nodeTable a =
      if a = i then { g.nodeTable i with
        adjList := j::(g.nodeTable i).adjList, degree := incDegree (g.nodeTable i).degree }
      else if a = j then { g.nodeTable j with
        adjList := i::(g.nodeTable j).adjList, degree := incDegree (g.nodeTable j).degree }
      else g.nodeTable a := by
  simp only [addInterferenceBetween,if_pos (And.intro apart clear),update,Function.update_apply]
  by_cases first : a = i
  · subst a
    simp [apart]
  · by_cases second : a = j
    · subst a
      simp [first]
    · simp [first,second]

theorem incDegreeLess {degree : Nat} (below : degree < 2 ^ 21) : incDegree degree = degree + 1 :=
  Nat.mod_eq_of_lt (by omega)

theorem addInterferenceConsistent {g : InterferenceGraph L} (h : Consistent g) {i j : Nat} (apart : i ≠ j)
    (left : i < g.numNodes) (right : j < g.numNodes) : Consistent (addInterferenceBetween g i j) := by
  obtain ⟨S,represents,small,bits⟩ := h.matrix
  have below := pairIndexBelow apart left right
  have reach := addressableMono (le_of_lt below) h.room
  have got := BitVector.getMember represents reach
  by_cases clear : BitVector.get g.interferenceMatrix (getNodePairToBVIndex i j) = false
  · have nodes := addInterferenceNodes g apart clear
    have off : getNodePairToBVIndex i j ∉ S := by simpa [got] using clear
    have notIn : j ∉ (g.nodeTable i).adjList := fun member => off ((bits i j apart left right).mpr member)
    have notIn' : i ∉ (g.nodeTable j).adjList := fun member => notIn (h.symm j i member)
    have few := fewNodes h.room
    have adj : ∀ a b, b ∈ ((addInterferenceBetween g i j).nodeTable a).adjList ↔
        (a = i ∧ b = j) ∨ (a = j ∧ b = i) ∨ b ∈ (g.nodeTable a).adjList := by
      intro a b
      rw [nodes]
      by_cases first : a = i
      · subst a
        simp [apart]
      · by_cases second : a = j
        · subst a
          simp [apart.symm]
        · simp [first,second]
    have matrix : (addInterferenceBetween g i j).interferenceMatrix =
        BitVector.set g.interferenceMatrix (getNodePairToBVIndex i j) := by
      simp only [addInterferenceBetween,if_pos (And.intro apart clear),update]
    have count : (addInterferenceBetween g i j).numNodes = g.numNodes := by
      simp only [addInterferenceBetween,if_pos (And.intro apart clear),update]
    constructor
    · intro a
      rw [nodes]
      split
      · exact List.nodup_cons.mpr ⟨notIn,h.nodup i⟩
      split
      · exact List.nodup_cons.mpr ⟨notIn',h.nodup j⟩
      · exact h.nodup a
    · intro a member
      rcases (adj a a).mp member with ⟨rfl,same⟩ | ⟨rfl,same⟩ | old
      · exact apart same
      · exact apart same.symm
      · exact h.irrefl a old
    · intro a b member
      rw [adj] at member ⊢
      rcases member with ⟨rfl,rfl⟩ | ⟨rfl,rfl⟩ | old
      · exact Or.inr (Or.inl ⟨rfl,rfl⟩)
      · exact Or.inl ⟨rfl,rfl⟩
      · exact Or.inr (Or.inr (h.symm a b old))
    · intro a b member
      rw [count]
      rcases (adj a b).mp member with ⟨rfl,rfl⟩ | ⟨rfl,rfl⟩ | old
      · exact right
      · exact left
      · exact h.bound a b old
    · intro a
      rw [nodes]
      split
      · have := h.shortList i
        simp only [List.length_cons,h.degree]
        exact incDegreeLess (by omega)
      split
      · have := h.shortList j
        simp only [List.length_cons,h.degree]
        exact incDegreeLess (by omega)
      · exact h.degree a
    · rw [matrix,count]
      refine ⟨insert (getNodePairToBVIndex i j) S,BitVector.setRepresents represents reach,?_,?_⟩
      · intro m on
        rcases Finset.mem_insert.mp on with rfl | old
        · exact below
        · exact small m old
      · intro a b other one two
        rw [Finset.mem_insert,bits a b other one two,adj]
        constructor
        · rintro (same | old)
          · rcases pairIndexInjective other apart same with ⟨rfl,rfl⟩ | ⟨rfl,rfl⟩
            · exact Or.inl ⟨rfl,rfl⟩
            · exact Or.inr (Or.inl ⟨rfl,rfl⟩)
          · exact Or.inr (Or.inr old)
        · rintro (⟨rfl,rfl⟩ | ⟨rfl,rfl⟩ | old)
          · exact Or.inl rfl
          · exact Or.inl (pairIndexComm _ _)
          · exact Or.inr old
    · rw [count]
      exact h.room
  · have same : addInterferenceBetween g i j = g := by
      simp only [addInterferenceBetween]
      rw [if_neg fun both => clear both.2]
    rw [same]
    exact h

theorem decDegreePred {degree : Nat} (positive : 0 < degree) (below : degree < 2 ^ 32) :
    decDegree degree = degree - 1 := by
  simp only [decDegree]
  omega

theorem removeInterferenceNodes (g : InterferenceGraph L) {i j : Nat} (apart : i ≠ j) (a : Nat) :
    (removeInterferenceBetween g i j).nodeTable a =
      if a = i then { g.nodeTable i with
        adjList := (g.nodeTable i).adjList.erase j, degree := decDegree (g.nodeTable i).degree }
      else if a = j then { g.nodeTable j with
        adjList := (g.nodeTable j).adjList.erase i, degree := decDegree (g.nodeTable j).degree }
      else g.nodeTable a := by
  simp only [removeInterferenceBetween,update,Function.update_apply]
  by_cases first : a = i
  · subst a
    simp [apart]
  · by_cases second : a = j
    · subst a
      simp [first]
    · simp [first,second]

/- Taking one edge out of both lists, both degrees and the matrix. Stated of any
graph that differs so from a consistent one. -/
theorem removeEdgeConsistent {g g' : InterferenceGraph L} (h : Consistent g) {i j : Nat}
    (edge : j ∈ (g.nodeTable i).adjList) (count : g'.numNodes = g.numNodes)
    (matrix : g'.interferenceMatrix = BitVector.reset g.interferenceMatrix (getNodePairToBVIndex i j) true)
    (first : (g'.nodeTable i).adjList = (g.nodeTable i).adjList.erase j)
    (second : (g'.nodeTable j).adjList = (g.nodeTable j).adjList.erase i)
    (others : ∀ a, a ≠ i → a ≠ j → (g'.nodeTable a).adjList = (g.nodeTable a).adjList)
    (degree : ∀ a, (g'.nodeTable a).degree = (g'.nodeTable a).adjList.length) : Consistent g' := by
  obtain ⟨S,represents,small,bits⟩ := h.matrix
  have back := h.symm i j edge
  have apart : i ≠ j := by
    rintro rfl
    exact h.irrefl i edge
  have left := h.bound j i back
  have right := h.bound i j edge
  have reach := addressableMono (le_of_lt (pairIndexBelow apart left right)) h.room
  have adj : ∀ a b, b ∈ (g'.nodeTable a).adjList ↔
      b ∈ (g.nodeTable a).adjList ∧ ¬ (a = i ∧ b = j) ∧ ¬ (a = j ∧ b = i) := by
    intro a b
    by_cases atFirst : a = i
    · subst a
      rw [first,(h.nodup i).mem_erase_iff]
      simp [apart,and_comm]
    · by_cases atSecond : a = j
      · subst a
        rw [second,(h.nodup j).mem_erase_iff]
        simp [atFirst,and_comm]
      · rw [others a atFirst atSecond]
        simp [atFirst,atSecond]
  constructor
  · intro a
    by_cases atFirst : a = i
    · subst a
      rw [first]
      exact (h.nodup i).erase j
    · by_cases atSecond : a = j
      · subst a
        rw [second]
        exact (h.nodup j).erase i
      · rw [others a atFirst atSecond]
        exact h.nodup a
  · intro a member
    exact h.irrefl a ((adj a a).mp member).1
  · intro a b member
    rw [adj] at member ⊢
    exact ⟨h.symm a b member.1,fun both => member.2.2 ⟨both.2,both.1⟩,fun both => member.2.1 ⟨both.2,both.1⟩⟩
  · intro a b member
    rw [count]
    exact h.bound a b ((adj a b).mp member).1
  · exact degree
  · rw [matrix,count]
    refine ⟨S.erase (getNodePairToBVIndex i j),BitVector.resetRepresents represents reach,?_,?_⟩
    · intro m on
      exact small m (Finset.mem_of_mem_erase on)
    · intro a b other one two
      rw [Finset.mem_erase,bits a b other one two,adj,and_comm]
      apply and_congr_right
      intro _
      constructor
      · intro differ
        refine ⟨?_,?_⟩
        · rintro ⟨rfl,rfl⟩
          exact differ rfl
        · rintro ⟨rfl,rfl⟩
          exact differ (pairIndexComm _ _)
      · rintro ⟨one,two⟩ same
        rcases pairIndexInjective other apart same with both | both
        · exact one both
        · exact two both
  · rw [count]
    exact h.room

theorem erasedDegree {g : InterferenceGraph L} (h : Consistent g) {i j : Nat} (edge : j ∈ (g.nodeTable i).adjList) :
    decDegree (g.nodeTable i).degree = ((g.nodeTable i).adjList.erase j).length := by
  have few := fewNodes h.room
  have short := h.shortList i
  have positive := List.length_pos_of_mem edge
  rw [h.degree,List.length_erase_of_mem edge]
  exact decDegreePred positive (by omega)

theorem removeInterferenceConsistent {g : InterferenceGraph L} (h : Consistent g) {i j : Nat}
    (edge : j ∈ (g.nodeTable i).adjList) : Consistent (removeInterferenceBetween g i j) := by
  have apart : i ≠ j := by
    rintro rfl
    exact h.irrefl i edge
  have nodes := removeInterferenceNodes g apart
  apply removeEdgeConsistent h edge (by simp only [removeInterferenceBetween,update])
    (by simp only [removeInterferenceBetween,update])
  · rw [nodes,if_pos rfl]
  · rw [nodes,if_neg apart.symm,if_pos rfl]
  · intro a first second
    rw [nodes,if_neg first,if_neg second]
  · intro a
    rw [nodes]
    split
    · exact erasedDegree h edge
    split
    · exact erasedDegree h (h.symm i j edge)
    · exact h.degree a

theorem updateSelf {g : InterferenceGraph L} {i : Nat} {f : IGNode → IGNode}
    (same : f (g.nodeTable i) = g.nodeTable i) : update g i f = g := by
  rw [update,same,Function.update_eq_self]

theorem removeNothingConsistent {g : InterferenceGraph L} (h : Consistent g) {i : Nat}
    (none : (g.nodeTable i).adjList = []) : Consistent (removeAllInterferences g i) := by
  have same : removeAllInterferences g i = g := by
    have zero : (g.nodeTable i).degree = 0 := by rw [h.degree,none]; rfl
    simp only [removeAllInterferences,none,List.foldl_nil]
    have inner : update g i (fun n => { n with degree := 0 }) = g := updateSelf (by rw [← zero])
    have outer : update g i (fun n => { n with adjList := [] }) = g := updateSelf (by rw [← none])
    rw [inner,outer]
  rw [same]
  exact h

-- Only for the first two nodes is the bit of a node with itself that of the edge.
theorem removeFirstConsistent {g : InterferenceGraph L} (h : Consistent g)
    (one : (g.nodeTable 0).adjList = [1]) : Consistent (removeAllInterferences g 0) := by
  have edge : 1 ∈ (g.nodeTable 0).adjList := by simp [one]
  apply removeEdgeConsistent h edge
  · simp only [removeAllInterferences,one,List.foldl_cons,List.foldl_nil,removeNeighbour,update]
  · simp only [removeAllInterferences,one,List.foldl_cons,List.foldl_nil,removeNeighbour,update]
    rfl
  · simp [removeAllInterferences,update,one]
  · simp [removeAllInterferences,removeNeighbour,update,one]
  · intro a first second
    simp [removeAllInterferences,removeNeighbour,update,one,first,second]
  · intro a
    simp only [removeAllInterferences,one,List.foldl_cons,List.foldl_nil,removeNeighbour,update,
      Function.update_apply]
    by_cases first : a = 0
    · subst a
      simp
    · by_cases second : a = 1
      · subst a
        simpa using erasedDegree h (h.symm 0 1 edge)
      · simpa [first,second] using h.degree a

theorem constructConsistent (L : Layout) {estimatedNodes : Nat} (some : 0 < estimatedNodes)
    (sized : (estimatedNodes : Int) * (estimatedNodes - 1) ≤ maxSigned 32) :
    Consistent (construct L estimatedNodes) := by
  have max : maxSigned 32 = 2147483647 := rfl
  have min : minSigned 32 = -2147483648 := rfl
  have nonneg : 0 ≤ (estimatedNodes : Int) * (estimatedNodes - 1) := Int.mul_nonneg (by omega) (by omega)
  have bits : wrap 32 ((estimatedNodes : Int) * (estimatedNodes - 1)) / 2 =
      (((estimatedNodes : Int) * (estimatedNodes - 1) / 2).toNat : Int) := by
    rw [wrapSelf (by decide) ⟨by omega,sized⟩]
    omega
  have few : (BitVector.chunksFor L ((estimatedNodes : Int) * (estimatedNodes - 1) / 2).toNat : Int) ≤ maxSigned 32 := by
    have less : BitVector.chunksFor L ((estimatedNodes : Int) * (estimatedNodes - 1) / 2).toNat ≤
        ((estimatedNodes : Int) * (estimatedNodes - 1) / 2).toNat + 1 := by
      simp only [BitVector.chunksFor]
      rcases BitChunk.bitsInChunkCases L with w | w <;> rw [w] <;> omega
    omega
  have empty := BitVector.constructRepresents L few
  have none : ∀ a, ((construct L estimatedNodes).nodeTable a).adjList = [] := fun _ => rfl
  constructor
  · intro a
    rw [none]
    exact List.nodup_nil
  · intro a
    simp [none]
  · intro a b
    simp [none]
  · intro a b
    simp [none]
  · intro a
    rfl
  · refine ⟨∅,?_,by simp,?_⟩
    · simp only [construct,bits]
      exact empty
    · intro a b _ impossible
      exact absurd impossible (Nat.not_lt_zero a)
  · show (BitVector.chunkIndex L (pairs 0) : Int) + 1 ≤ maxSigned 32
    have zero : BitVector.chunkIndex L (pairs 0) = 0 := Nat.zero_div _
    rw [zero,max]
    decide

/- The condition on the graph before an operation: an interference that is
removed exists, and all interferences of a node are removed at once only from a
node without any, or from node 0 when its one neighbour is node 1. -/
def Meets (g : InterferenceGraph L) : Op → Prop
  | .add _ _ => Addressable L (pairs (g.numNodes + 1))
  | .addInterferenceBetween entity1 entity2 => entity1 ≠ entity2
  | .removeInterferenceBetween entity1 entity2 => ∀ igNode1 ∈ getIGNodeForEntity g entity1,
      ∀ igNode2 ∈ getIGNodeForEntity g entity2, igNode2 ∈ (g.nodeTable igNode1).adjList
  | .removeAllInterferences entity => ∀ igNode ∈ getIGNodeForEntity g entity,
      (g.nodeTable igNode).adjList = [] ∨ igNode = 0 ∧ (g.nodeTable igNode).adjList = [1]

inductive Reached (L : Layout) : InterferenceGraph L → Prop where
  | start {estimatedNodes : Nat} (some : 0 < estimatedNodes)
      (sized : (estimatedNodes : Int) * (estimatedNodes - 1) ≤ maxSigned 32) : Reached L (construct L estimatedNodes)
  | step {g op g'} (before : Reached L g) (meets : Meets g op) (did : step g op = some g') : Reached L g'

theorem enterBucketMem {i j : Nat} {bucket : List Nat} : j ∈ enterBucket i bucket ↔ j = i ∨ j ∈ bucket := by
  cases bucket with
  | nil => simp [enterBucket]
  | cons newest older =>
    simp only [enterBucket,List.mem_cons,List.mem_append,List.not_mem_nil,or_false]
    tauto

theorem addHashed {g : InterferenceGraph L} (h : Hashed g) (entity : Nat) : Hashed (addNode g entity) := by
  constructor
  intro bucket i member
  simp only [addNode,Function.update_apply] at member ⊢
  split at member
  · rcases enterBucketMem.mp member with rfl | old
    · exact Nat.lt_succ_self _
    · exact lt_trans (h.known _ i old) (Nat.lt_succ_self _)
  · exact lt_trans (h.known _ i member) (Nat.lt_succ_self _)

theorem foldHashed (igNode : Nat) (cursors : List Nat) (g : InterferenceGraph L) :
    (cursors.foldl (removeNeighbour igNode) g).buckets = g.buckets ∧
      (cursors.foldl (removeNeighbour igNode) g).numNodes = g.numNodes := by
  induction cursors generalizing g with
  | nil => exact ⟨rfl,rfl⟩
  | cons cursor cursors ih =>
    have rest := ih (removeNeighbour igNode g cursor)
    simpa [removeNeighbour,update] using rest

theorem stepHashed {g g' : InterferenceGraph L} (h : Hashed g) {op : Op} (did : step g op = some g') : Hashed g' := by
  cases op with
  | add entity ignoreDuplicates =>
    cases did
    simp only [add]
    split
    · exact h
    · exact addHashed h entity
  | addInterferenceBetween entity1 entity2 =>
    simp only [step,bind,Option.bind_eq_some_iff] at did
    obtain ⟨i,_,j,_,last⟩ := did
    cases Option.some.inj last
    simp only [addInterferenceBetween]
    split
    · exact ⟨h.known⟩
    · exact h
  | removeInterferenceBetween entity1 entity2 =>
    simp only [step,bind,Option.bind_eq_some_iff] at did
    obtain ⟨i,_,j,_,last⟩ := did
    cases Option.some.inj last
    exact ⟨h.known⟩
  | removeAllInterferences entity =>
    simp only [step,bind,Option.bind_eq_some_iff] at did
    obtain ⟨i,_,last⟩ := did
    cases Option.some.inj last
    obtain ⟨buckets,count⟩ := foldHashed i (g.nodeTable i).adjList g
    constructor
    intro bucket k member
    simp only [removeAllInterferences,update,buckets,count] at member ⊢
    exact h.known bucket k member

theorem stepConsistent {g g' : InterferenceGraph L} (hashed : Hashed g) (h : Consistent g) {op : Op}
    (meets : Meets g op) (did : step g op = some g') : Consistent g' := by
  cases op with
  | add entity ignoreDuplicates =>
    cases did
    simp only [add]
    split
    · exact h
    · exact addNodeConsistent h entity meets
  | addInterferenceBetween entity1 entity2 =>
    simp only [step,bind,Option.bind_eq_some_iff] at did
    obtain ⟨i,found,j,found',last⟩ := did
    cases Option.some.inj last
    have one := getIGNodeKnown hashed found
    have two := getIGNodeKnown hashed found'
    apply addInterferenceConsistent h _ one.1 two.1
    rintro rfl
    exact meets (one.2.symm.trans two.2)
  | removeInterferenceBetween entity1 entity2 =>
    simp only [step,bind,Option.bind_eq_some_iff] at did
    obtain ⟨i,found,j,found',last⟩ := did
    cases Option.some.inj last
    exact removeInterferenceConsistent h (meets i found j found')
  | removeAllInterferences entity =>
    simp only [step,bind,Option.bind_eq_some_iff] at did
    obtain ⟨i,found,last⟩ := did
    cases Option.some.inj last
    rcases meets i found with none | ⟨rfl,one⟩
    · exact removeNothingConsistent h none
    · exact removeFirstConsistent h one

theorem reachedConsistent {g : InterferenceGraph L} (reached : Reached L g) : Hashed g ∧ Consistent g := by
  induction reached with
  | start some sized => exact ⟨⟨fun _ _ => nofun⟩,constructConsistent L some sized⟩
  | step before meets did ih => exact ⟨stepHashed ih.1 did,stepConsistent ih.1 ih.2 meets did⟩

structure Agrees (g : InterferenceGraph L) : Prop where
  edges : ∀ a b, a < g.numNodes → b < g.numNodes → a ≠ b → (hasInterference g a b = true ↔
    (g.nodeTable a).adjList.count b = 1 ∧ (g.nodeTable b).adjList.count a = 1)
  degrees : ∀ a, a < g.numNodes → (g.nodeTable a).degree = (g.nodeTable a).adjList.length

theorem Consistent.agrees {g : InterferenceGraph L} (h : Consistent g) : Agrees g := by
  obtain ⟨S,represents,small,bits⟩ := h.matrix
  refine ⟨?_,fun a _ => h.degree a⟩
  intro a b left right apart
  have reach := addressableMono (le_of_lt (pairIndexBelow apart left right)) h.room
  have once : ∀ c d, (g.nodeTable c).adjList.count d = 1 ↔ d ∈ (g.nodeTable c).adjList := by
    intro c d
    constructor
    · intro one
      exact List.count_pos_iff.mp (by omega)
    · exact List.count_eq_one_of_mem (h.nodup c)
  rw [hasInterference,BitVector.getMember represents reach,decide_eq_true_iff,bits a b apart left right,once,once]
  exact ⟨fun member => ⟨member,h.symm a b member⟩,fun both => both.1⟩

theorem interferencesAgree {L : Layout} {g : InterferenceGraph L} (reached : Reached L g) : Agrees g :=
  (reachedConsistent reached).2.agrees

theorem interferencesAgreeSample :
    ∃ g : InterferenceGraph ⟨true,false⟩, g.numNodes = 2 ∧ hasInterference g 0 1 = true ∧ Agrees g := by
  let start := construct ⟨true,false⟩ 4
  have first : Reached ⟨true,false⟩ (addNode start 8) :=
    @Reached.step _ _ (.add 8 false) _ (.start (by decide) (by decide)) (by
      show (BitVector.chunkIndex ⟨true,false⟩ (pairs 1) : Int) + 1 ≤ maxSigned 32
      decide) rfl
  have second : Reached ⟨true,false⟩ (addNode (addNode start 8) 16) :=
    @Reached.step _ _ (.add 16 false) _ first (by
      show (BitVector.chunkIndex ⟨true,false⟩ (pairs 2) : Int) + 1 ≤ maxSigned 32
      decide) rfl
  have third : Reached ⟨true,false⟩ (addInterferenceBetween (addNode (addNode start 8) 16) 0 1) :=
    @Reached.step _ _ (.addInterferenceBetween 8 16) _ second (by show 8 ≠ 16; decide) rfl
  exact ⟨_,by decide,by decide +kernel,interferencesAgree third⟩

-- The bit of nodes 1 and 2 outlives the edge; the bit of nodes 0 and 2 is the one that is reset.
theorem interferencesStale :
    ∃ g : InterferenceGraph ⟨true,false⟩,
      [Op.add 8 false,.add 16 false,.add 24 false,.addInterferenceBetween 16 24,.removeAllInterferences 16].foldlM step
        (construct ⟨true,false⟩ 4) = some g ∧ 2 < g.numNodes ∧ hasInterference g 1 2 = true ∧
      (g.nodeTable 1).adjList.count 2 = 0 ∧ (g.nodeTable 2).adjList.count 1 = 0 := by
  have ran : ([Op.add 8 false,.add 16 false,.add 24 false,.addInterferenceBetween 16 24,
      .removeAllInterferences 16].foldlM step (construct ⟨true,false⟩ 4)).map (fun g => (g.numNodes,hasInterference g 1 2,
        (g.nodeTable 1).adjList.count 2,(g.nodeTable 2).adjList.count 1)) = some (3,true,0,0) := by
    decide
  obtain ⟨g,reached,seen⟩ := Option.map_eq_some_iff.mp ran
  simp only [Prod.mk.injEq] at seen
  obtain ⟨count,bit,left,right⟩ := seen
  exact ⟨g,reached,by omega,bit,left,right⟩

end OmrCompiler.Interference
