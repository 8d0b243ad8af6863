import OmrCompiler.GraphColouring
import OmrCompiler.InterferenceEdges

/-! Colouring of consistent interference graphs: what simplify leaves on the
stack, and why select then always finds a colour. -/
namespace OmrCompiler.Interference
open MachineInt
open BitChunk (Layout)

variable {L : Layout}

def neighbours (g : InterferenceGraph L) (a : Nat) : List Nat := (g.nodeTable a).adjList

-- The number of neighbours of a node in a set of nodes.
def inside (g : InterferenceGraph L) (W : Finset Nat) (a : Nat) : Nat := (neighbours g a).countP (· ∈ W)

structure SameEdges (g g' : InterferenceGraph L) : Prop where
  numNodes : g'.numNodes = g.numNodes
  matrix : g'.interferenceMatrix = g.interferenceMatrix
  adjList : ∀ a, neighbours g' a = neighbours g a
  degree : ∀ a, (g'.nodeTable a).degree = (g.nodeTable a).degree

theorem SameEdges.trans {g g' g'' : InterferenceGraph L} (h : SameEdges g g') (k : SameEdges g' g'') : SameEdges g g'' :=
  ⟨k.numNodes.trans h.numNodes,k.matrix.trans h.matrix,fun a => (k.adjList a).trans (h.adjList a),
    fun a => (k.degree a).trans (h.degree a)⟩

theorem SameEdges.consistent {g g' : InterferenceGraph L} (same : SameEdges g g') (h : Consistent g) : Consistent g' := by
  have adj : ∀ a, (g'.nodeTable a).adjList = (g.nodeTable a).adjList := same.adjList
  constructor
  · intro a
    rw [adj]
    exact h.nodup a
  · intro a
    rw [adj]
    exact h.irrefl a
  · intro a b
    rw [adj,adj]
    exact h.symm a b
  · intro a b
    rw [adj,same.numNodes]
    exact h.bound a b
  · intro a
    rw [adj,same.degree]
    exact h.degree a
  · rw [same.matrix,same.numNodes]
    simp only [adj]
    exact h.matrix
  · rw [same.numNodes]
    exact h.room

theorem foldDecNodes {cursors : List Nat} (distinct : cursors.Nodup) (g : InterferenceGraph L) (a : Nat) :
    (cursors.foldl decWorkingDegree g).nodeTable a =
      if a ∈ cursors ∧ (g.nodeTable a).isRemovedFromIG = false then
        { g.nodeTable a with workingDegree := decDegree (g.nodeTable a).workingDegree }
      else g.nodeTable a := by
  induction cursors generalizing g with
  | nil => simp
  | cons cursor cursors ih =>
    obtain ⟨fresh,rest⟩ := List.nodup_cons.mp distinct
    rw [List.foldl_cons,ih rest]
    by_cases here : a = cursor
    · subst a
      cases gone : (g.nodeTable cursor).isRemovedFromIG <;>
        simp [fresh,decWorkingDegree,gone,update]
    · have kept : (decWorkingDegree g cursor).nodeTable a = g.nodeTable a := by
        simp only [decWorkingDegree]
        split
        · rfl
        · simp [update,here]
      simp [kept,here]

theorem foldDecFields (cursors : List Nat) (g : InterferenceGraph L) :
    (cursors.foldl decWorkingDegree g).numNodes = g.numNodes ∧
      (cursors.foldl decWorkingDegree g).interferenceMatrix = g.interferenceMatrix ∧
      (cursors.foldl decWorkingDegree g).nodeStack = g.nodeStack ∧
      (cursors.foldl decWorkingDegree g).numColours = g.numColours := by
  induction cursors generalizing g with
  | nil => exact ⟨rfl,rfl,rfl,rfl⟩
  | cons cursor cursors ih =>
    have rest := ih (decWorkingDegree g cursor)
    have one : (decWorkingDegree g cursor).numNodes = g.numNodes ∧
        (decWorkingDegree g cursor).interferenceMatrix = g.interferenceMatrix ∧
        (decWorkingDegree g cursor).nodeStack = g.nodeStack ∧ (decWorkingDegree g cursor).numColours = g.numColours := by
      simp only [decWorkingDegree]
      split <;> exact ⟨rfl,rfl,rfl,rfl⟩
    rw [List.foldl_cons]
    exact ⟨rest.1.trans one.1,rest.2.1.trans one.2.1,rest.2.2.1.trans one.2.2.1,rest.2.2.2.trans one.2.2.2⟩

theorem removeAndPushNodes {g : InterferenceGraph L} {i : Nat} (distinct : (neighbours g i).Nodup)
    (loopless : i ∉ neighbours g i) (a : Nat) :
    (removeAndPush g i).nodeTable a =
      if a = i then { g.nodeTable i with workingDegree := 0, isRemovedFromIG := true }
      else if a ∈ neighbours g i ∧ (g.nodeTable a).isRemovedFromIG = false then
        { g.nodeTable a with workingDegree := decDegree (g.nodeTable a).workingDegree }
      else g.nodeTable a := by
  have fold := foldDecNodes distinct g
  simp only [neighbours] at loopless fold
  by_cases here : a = i
  · subst a
    simp [removeAndPush,virtualRemoveNodeFromIG,decWorkingDegreeOfNeighbours,update,fold,loopless]
  · simp [removeAndPush,virtualRemoveNodeFromIG,decWorkingDegreeOfNeighbours,update,here,fold,neighbours]

theorem removeAndPushSame {g : InterferenceGraph L} {i : Nat} (distinct : (neighbours g i).Nodup)
    (loopless : i ∉ neighbours g i) : SameEdges g (removeAndPush g i) := by
  have nodes := removeAndPushNodes distinct loopless
  obtain ⟨count,matrix,_,_⟩ := foldDecFields (g.nodeTable i).adjList g
  refine ⟨count,matrix,?_,?_⟩
  · intro a
    rw [neighbours,nodes]
    split
    · subst a
      rfl
    split <;> rfl
  · intro a
    rw [nodes]
    split
    · subst a
      rfl
    split <;> rfl

/- A stack of nodes, the top first, each of which had few neighbours besides
those pushed before it. -/
inductive Sparse (g : InterferenceGraph L) (k : Nat) : List Nat → Prop where
  | nil : Sparse g k []
  | cons {i pushed} (few : (neighbours g i).countP (· ∉ pushed) < k) (rest : Sparse g k pushed) : Sparse g k (i::pushed)

-- The state of simplify when the nodes of W remain and those of `pushed` are stacked on `old`.
structure Simplifying (g : InterferenceGraph L) (k : Nat) (old : List Nat) (W : Finset Nat) (pushed : List Nat)
    (now : InterferenceGraph L) : Prop where
  same : SameEdges g now
  colours : now.numColours = k
  range : ∀ a ∈ W, a < g.numNodes
  removed : ∀ a, a < g.numNodes → (now.nodeTable a).isRemovedFromIG = decide (a ∉ W)
  working : ∀ a ∈ W, (now.nodeTable a).workingDegree = inside g W a
  blank : ∀ a, a < g.numNodes → (now.nodeTable a).colour = none
  stack : now.nodeStack = pushed ++ old
  members : ∀ a, a ∈ pushed ↔ a < g.numNodes ∧ a ∉ W
  nodup : pushed.Nodup
  sparse : Sparse g k pushed

theorem countErase {W : Finset Nat} {i : Nat} (member : i ∈ W) (bs : List Nat) :
    bs.countP (· ∈ W) = bs.countP (· ∈ W.erase i) + bs.count i := by
  induction bs with
  | nil => rfl
  | cons b bs ih =>
    rw [List.countP_cons,List.countP_cons,List.count_cons,ih]
    by_cases same : b = i
    · subst b
      simp [member]
      omega
    · simp [same]
      omega

theorem insideErase {g : InterferenceGraph L} {W : Finset Nat} {i : Nat} (member : i ∈ W) (a : Nat) :
    inside g W a = inside g (W.erase i) a + (neighbours g a).count i := countErase member _

theorem Simplifying.step {g now : InterferenceGraph L} {k : Nat} {old : List Nat} {W : Finset Nat} {pushed : List Nat}
    (h : Consistent g) (state : Simplifying g k old W pushed now) {i : Nat} (member : i ∈ W)
    (few : inside g W i < k) : Simplifying g k old (W.erase i) (i::pushed) (removeAndPush now i) := by
  have consistent := state.same.consistent h
  have distinct : (neighbours now i).Nodup := consistent.nodup i
  have loopless : i ∉ neighbours now i := consistent.irrefl i
  have nodes := removeAndPushNodes distinct loopless
  have adj := state.same.adjList i
  have small := state.range i member
  obtain ⟨count,matrix,stack,colours⟩ := foldDecFields (now.nodeTable i).adjList now
  have outside : i ∉ pushed := fun on => ((state.members i).mp on).2 member
  constructor
  · exact state.same.trans (removeAndPushSame distinct loopless)
  · exact colours.trans state.colours
  · exact fun a on => state.range a (Finset.mem_of_mem_erase on)
  · intro a below
    rw [nodes]
    split
    · rename_i here
      simp [here]
    · rename_i other
      have before := state.removed a below
      have stays : decide (a ∉ W.erase i) = decide (a ∉ W) := by simp [other]
      rw [stays]
      split <;> exact before
  · intro a on
    obtain ⟨other,inW⟩ := Finset.mem_erase.mp on
    have total := insideErase (g := g) member a
    have before := state.working a inW
    have present : (now.nodeTable a).isRemovedFromIG = false := by
      rw [state.removed a (state.range a inW)]
      simpa using inW
    rw [nodes,if_neg other]
    have fewNode := fewNodes h.room
    have short := h.shortList a
    have bound : inside g W a ≤ (g.nodeTable a).adjList.length := List.countP_le_length
    split
    · rename_i near
      have back : i ∈ neighbours g a := by
        have here := near.1
        rw [adj] at here
        exact h.symm i a here
      have once : (neighbours g a).count i = 1 := List.count_eq_one_of_mem (h.nodup a) back
      simp only [before]
      rw [decDegreePred (by omega) (by omega)]
      omega
    · rename_i far
      have apart : i ∉ neighbours g a := fun on' => far ⟨by rw [adj]; exact h.symm a i on',present⟩
      have never : (neighbours g a).count i = 0 := List.count_eq_zero_of_not_mem apart
      omega
  · intro a below
    rw [nodes]
    have before := state.blank a below
    split
    · rename_i here
      subst a
      exact before
    split <;> exact before
  · show i::_ = i::pushed ++ old
    rw [List.cons_append,← state.stack]
    exact congrArg (i::·) stack
  · intro a
    rw [List.mem_cons,state.members,Finset.mem_erase]
    constructor
    · rintro (rfl | ⟨below,out⟩)
      · exact ⟨small,by simp⟩
      · exact ⟨below,fun both => out both.2⟩
    · rintro ⟨below,out⟩
      by_cases here : a = i
      · exact Or.inl here
      · exact Or.inr ⟨below,fun inW => out ⟨here,inW⟩⟩
  · exact List.nodup_cons.mpr ⟨outside,state.nodup⟩
  · refine .cons (lt_of_le_of_lt (List.countP_mono_left ?_) few) state.sparse
    intro b near out
    simp only [decide_eq_true_eq] at out ⊢
    by_contra gone
    exact out ((state.members b).mpr ⟨h.bound i b near,gone⟩)

theorem insideMono (g : InterferenceGraph L) {V W : Finset Nat} (sub : V ⊆ W) (a : Nat) : inside g V a ≤ inside g W a := by
  apply List.countP_mono_left
  intro b _ member
  simp only [decide_eq_true_eq] at member ⊢
  exact sub member

theorem Simplifying.fold {g now : InterferenceGraph L} {k : Nat} {old : List Nat} {W : Finset Nat} {pushed cs : List Nat}
    (h : Consistent g) (distinct : cs.Nodup) (state : Simplifying g k old W pushed now)
    (few : ∀ c ∈ cs, c ∈ W ∧ inside g W c < k) :
    Simplifying g k old (W \ cs.toFinset) (cs.reverse ++ pushed) (cs.foldl removeAndPush now) := by
  induction cs generalizing W pushed now with
  | nil => simpa using state
  | cons c cs ih =>
    obtain ⟨fresh,rest⟩ := List.nodup_cons.mp distinct
    obtain ⟨member,low⟩ := few c List.mem_cons_self
    have later : ∀ d ∈ cs, d ∈ W.erase c ∧ inside g (W.erase c) d < k := by
      intro d on
      obtain ⟨inW,fewer⟩ := few d (List.mem_cons_of_mem _ on)
      have other : d ≠ c := fun same => fresh (same ▸ on)
      exact ⟨Finset.mem_erase.mpr ⟨other,inW⟩,lt_of_le_of_lt (insideMono g (Finset.erase_subset c W) d) fewer⟩
    have done := ih rest (state.step h member low) later
    have sets : W.erase c \ cs.toFinset = W \ (c::cs).toFinset := by
      ext d
      simp only [Finset.mem_sdiff,Finset.mem_erase,List.mem_toFinset,List.mem_cons]
      tauto
    rw [sets] at done
    simpa using done

theorem Simplifying.colourable {g now : InterferenceGraph L} {k : Nat} {old : List Nat} {W : Finset Nat}
    {pushed ws : List Nat} (state : Simplifying g k old W pushed now) (all : ∀ a, a ∈ ws ↔ a ∈ W) (a : Nat) :
    a ∈ colourableDegreeSet now ws ↔ a ∈ W ∧ inside g W a < k := by
  simp only [colourableDegreeSet,List.mem_filter,all,decide_eq_true_eq,state.colours]
  constructor
  · rintro ⟨member,low⟩
    rw [state.working a member] at low
    exact ⟨member,low⟩
  · rintro ⟨member,low⟩
    rw [state.working a member]
    exact ⟨member,low⟩

-- The round of simplify that takes all colourable nodes off the graph.
theorem Simplifying.round {g now : InterferenceGraph L} {k : Nat} {old : List Nat} {W : Finset Nat}
    {pushed ws : List Nat} (h : Consistent g) (state : Simplifying g k old W pushed now) (distinct : ws.Nodup)
    (all : ∀ a, a ∈ ws ↔ a ∈ W) :
    Simplifying g k old (W \ (colourableDegreeSet now ws).toFinset) ((colourableDegreeSet now ws).reverse ++ pushed)
      ((colourableDegreeSet now ws).foldl removeAndPush now) :=
  state.fold h (distinct.filter _) fun c on => (state.colourable all c).mp on

theorem restMembers {ws cs : List Nat} {W : Finset Nat} (all : ∀ a, a ∈ ws ↔ a ∈ W) (a : Nat) :
    a ∈ ws.filter (· ∉ cs) ↔ a ∈ W \ cs.toFinset := by
  simp [all]

def Degenerate (g : InterferenceGraph L) (k : Nat) : Prop :=
  ∀ W : Finset Nat, W.Nonempty → (∀ a ∈ W, a < g.numNodes) → ∃ a ∈ W, inside g W a < k

theorem simplifyLoopFinishes {g : InterferenceGraph L} {k : Nat} {old : List Nat} (h : Consistent g)
    (degenerate : Degenerate g k) {fuel : Nat} {W : Finset Nat} {pushed ws : List Nat} {now : InterferenceGraph L}
    (state : Simplifying g k old W pushed now) (distinct : ws.Nodup) (all : ∀ a, a ∈ ws ↔ a ∈ W)
    (enough : ws.length ≤ fuel) :
    ∃ pushed' done, simplifyLoop fuel ws now = .ok done ∧ Simplifying g k old ∅ pushed' done := by
  induction fuel generalizing W pushed ws now with
  | zero =>
    obtain rfl : ws = [] := List.length_eq_zero_iff.mp (by omega)
    obtain rfl : W = ∅ := Finset.eq_empty_of_forall_notMem fun a member => by simpa using (all a).mpr member
    exact ⟨pushed,now,rfl,state⟩
  | succ fuel ih =>
    cases ws with
    | nil =>
      obtain rfl : W = ∅ := Finset.eq_empty_of_forall_notMem fun a member => by simpa using (all a).mpr member
      exact ⟨pushed,now,rfl,state⟩
    | cons i rest =>
      obtain ⟨a,member,low⟩ := degenerate W ⟨i,(all i).mp List.mem_cons_self⟩ state.range
      have chosen : a ∈ colourableDegreeSet now (i::rest) := (state.colourable all a).mpr ⟨member,low⟩
      have shorter : ((i::rest).filter (· ∉ colourableDegreeSet now (i::rest))).length < (i::rest).length :=
        List.length_filter_lt_length_iff_exists.mpr ⟨a,(all a).mpr member,by simpa using chosen⟩
      have some : (colourableDegreeSet now (i::rest)).isEmpty = false := by
        simpa using List.ne_nil_of_mem chosen
      obtain ⟨pushed',done,ran,final⟩ := ih (state.round h distinct all) (distinct.filter _)
        (restMembers all) (by omega)
      refine ⟨pushed',done,?_,final⟩
      rw [simplifyLoop,some]
      exact ran

theorem betterSpillNever {g : InterferenceGraph L} {i : Nat} (small : (g.nodeTable i).degree < 2 ^ 32) :
    betterSpill g (-1,none) i = (-1,none) := by
  have largest : toUnsigned 32 (-1) = 2 ^ 32 - 1 := by decide
  apply if_neg
  simp only [largest]
  omega

theorem bestSpillNone {g : InterferenceGraph L} (small : ∀ i, (g.nodeTable i).degree < 2 ^ 32) (candidates : List Nat) :
    bestSpillNode g candidates = none := by
  have stays : candidates.foldl (betterSpill g) (-1,none) = (-1,none) := by
    induction candidates with
    | nil => rfl
    | cons i rest ih => rw [List.foldl_cons,betterSpillNever (small i),ih]
  rw [bestSpillNode,stays]

theorem simplifyLoopStuck {g : InterferenceGraph L} {k : Nat} {old : List Nat} (h : Consistent g)
    {core : Finset Nat} (nonempty : core.Nonempty) (dense : ∀ a ∈ core, k ≤ inside g core a)
    {fuel : Nat} {W : Finset Nat} {pushed ws : List Nat} {now : InterferenceGraph L}
    (state : Simplifying g k old W pushed now) (sub : core ⊆ W) (distinct : ws.Nodup) (all : ∀ a, a ∈ ws ↔ a ∈ W)
    (enough : ws.length ≤ fuel) : simplifyLoop fuel ws now = .error .nullSpillNode := by
  have few : ∀ i, (now.nodeTable i).degree < 2 ^ 32 := by
    intro i
    have consistent := state.same.consistent h
    have short := consistent.shortList i
    have nodes := fewNodes consistent.room
    rw [consistent.degree i]
    omega
  obtain ⟨a,inCore⟩ := nonempty
  induction fuel generalizing W pushed ws now with
  | zero =>
    obtain rfl : ws = [] := List.length_eq_zero_iff.mp (by omega)
    simpa using (all a).mpr (sub inCore)
  | succ fuel ih =>
    cases ws with
    | nil => simpa using (all a).mpr (sub inCore)
    | cons i rest =>
      rw [simplifyLoop]
      cases chosen : colourableDegreeSet now (i::rest) with
      | nil => simp [bestSpillNone few]
      | cons c cs =>
        have keeps : core ⊆ W \ (colourableDegreeSet now (i::rest)).toFinset := by
          intro b member
          rw [Finset.mem_sdiff,List.mem_toFinset]
          refine ⟨sub member,fun taken => ?_⟩
          have low := ((state.colourable all b).mp taken).2
          have high := (dense b member).trans (insideMono g sub b)
          omega
        have shorter : ((i::rest).filter (· ∉ colourableDegreeSet now (i::rest))).length < (i::rest).length := by
          have on : c ∈ colourableDegreeSet now (i::rest) := by rw [chosen]; exact List.mem_cons_self
          exact List.length_filter_lt_length_iff_exists.mpr
            ⟨c,(all c).mpr ((state.colourable all c).mp on).1,by simpa using on⟩
        have next := state.round h distinct all
        have stuck := ih next keeps (distinct.filter _) (restMembers all) (by omega) (by
          intro j
          rw [next.same.degree,← state.same.degree]
          exact few j)
        rw [chosen] at stuck
        exact stuck

theorem simplifyStart {g : InterferenceGraph L} (h : Consistent g) (k : Nat) :
    Simplifying g k g.nodeStack (Finset.range g.numNodes) [] (resetNodes { g with numColours := k }) := by
  have table : ∀ a, a < g.numNodes → (resetNodes { g with numColours := k }).nodeTable a =
      { g.nodeTable a with workingDegree := (g.nodeTable a).degree, isRemovedFromIG := false, colour := none } :=
    fun a below => if_pos below
  have kept : ∀ a, ((resetNodes { g with numColours := k }).nodeTable a).adjList = (g.nodeTable a).adjList ∧
      ((resetNodes { g with numColours := k }).nodeTable a).degree = (g.nodeTable a).degree := by
    intro a
    simp only [resetNodes]
    split <;> exact ⟨rfl,rfl⟩
  constructor
  · exact ⟨rfl,rfl,fun a => (kept a).1,fun a => (kept a).2⟩
  · rfl
  · exact fun a member => Finset.mem_range.mp member
  · intro a below
    rw [table a below]
    simp [below]
  · intro a member
    rw [table a (Finset.mem_range.mp member)]
    have every : ∀ b ∈ neighbours g a, decide (b ∈ Finset.range g.numNodes) = true := by
      intro b near
      simpa using h.bound a b near
    exact (h.degree a).trans (List.countP_eq_length.mpr every).symm
  · intro a below
    rw [table a below]
  · rfl
  · intro a
    simp
  · exact List.nodup_nil
  · exact .nil

-- Every node below the stack has a colour, and no two adjacent nodes have the same one.
structure Selecting (g : InterferenceGraph L) (k : Nat) (stack : List Nat) (now : InterferenceGraph L) : Prop where
  same : SameEdges g now
  colours : now.numColours = k
  small : ∀ a c, a < g.numNodes → (now.nodeTable a).colour = some c → c < k
  proper : ∀ a b, b ∈ neighbours g a → ∀ c, (now.nodeTable a).colour = some c → (now.nodeTable b).colour ≠ some c
  coloured : ∀ a, a < g.numNodes → a ∉ stack → (now.nodeTable a).colour ≠ none

theorem availableMember {g : InterferenceGraph L} {i c : Nat} : c ∈ availableColours g i ↔
    c < g.numColours ∧ ∀ b ∈ neighbours g i, (g.nodeTable b).colour ≠ some c := by
  simp [availableColours,neighbours]

theorem Selecting.step {g now : InterferenceGraph L} {k : Nat} {i : Nat} {stack : List Nat} (h : Consistent g)
    (state : Selecting g k (i::stack) now) {c : Nat} (free : c ∈ availableColours now i) :
    Selecting g k stack (update now i fun n => { n with colour := some c }) := by
  obtain ⟨low,unused⟩ := availableMember.mp free
  rw [state.colours] at low
  rw [state.same.adjList i] at unused
  have table : ∀ a, ((update now i fun n => { n with colour := some c }).nodeTable a).colour =
      if a = i then some c else (now.nodeTable a).colour := by
    intro a
    by_cases here : a = i
    · subst a
      simp [update]
    · simp [update,here]
  have kept : ∀ a, neighbours (update now i fun n => { n with colour := some c }) a = neighbours now a ∧
      ((update now i fun n => { n with colour := some c }).nodeTable a).degree = (now.nodeTable a).degree := by
    intro a
    by_cases here : a = i
    · subst a
      simp [update,neighbours]
    · simp [update,here,neighbours]
  constructor
  · exact state.same.trans ⟨rfl,rfl,fun a => (kept a).1,fun a => (kept a).2⟩
  · exact state.colours
  · intro a d below
    rw [table]
    split
    · intro same
      simp only [Option.some.injEq] at same
      omega
    · exact state.small a d below
  · intro a b near d
    rw [table,table]
    split
    · rename_i here
      subst a
      have other : b ≠ i := fun same => h.irrefl i (same ▸ near)
      rw [if_neg other]
      intro same
      rw [← same]
      exact unused b near
    · intro was
      split
      · rename_i here
        subst b
        intro same
        rw [← same] at was
        exact unused a (h.symm a i near) was
      · exact state.proper a b near d was
  · intro a below out
    rw [table]
    split
    · simp
    · rename_i other
      exact state.coloured a below (by simp [other,out])

-- Fewer coloured neighbours than colours leave a colour over.
theorem colourLeft {g now : InterferenceGraph L} {k : Nat} {i : Nat} {pushed : List Nat} (same : SameEdges g now)
    (colours : now.numColours = k) (few : (neighbours g i).countP (· ∉ pushed) < k)
    (blank : ∀ a ∈ pushed, (now.nodeTable a).colour = none) : availableColours now i ≠ [] := by
  intro none
  have used : List.range k ⊆ ((neighbours g i).filter (· ∉ pushed)).filterMap fun b => (now.nodeTable b).colour := by
    intro c below
    have taken : c ∉ availableColours now i := by simp [none]
    rw [availableMember,same.adjList i,colours] at taken
    push Not at taken
    obtain ⟨b,near,here⟩ := taken (List.mem_range.mp below)
    refine List.mem_filterMap.mpr ⟨b,List.mem_filter.mpr ⟨near,?_⟩,here⟩
    simp only [decide_eq_true_eq]
    intro on
    rw [blank b on] at here
    cases here
  have count := (List.nodup_range.subperm used).length_le
  have fewer := List.length_filterMap_le (fun b => (now.nodeTable b).colour) ((neighbours g i).filter (· ∉ pushed))
  rw [List.length_range] at count
  rw [← List.countP_eq_length_filter] at fewer
  omega

-- The colours of `done` are a colouring of `g`.
structure Coloured (g : InterferenceGraph L) (k : Nat) (done : InterferenceGraph L) : Prop where
  colour : ∀ a, a < g.numNodes → ∃ c < k, (done.nodeTable a).colour = some c
  differ : ∀ a b, a < g.numNodes → b ∈ (g.nodeTable a).adjList → (done.nodeTable a).colour ≠ (done.nodeTable b).colour

theorem Selecting.finished {g now : InterferenceGraph L} {k : Nat} (state : Selecting g k [] now) {a : Nat}
    (below : a < g.numNodes) : ∃ c < k, (now.nodeTable a).colour = some c := by
  obtain ⟨c,here⟩ := Option.ne_none_iff_exists'.mp (state.coloured a below (by simp))
  exact ⟨c,state.small a c below here,here⟩

theorem selectAgain {g : InterferenceGraph L} {k : Nat} (h : Consistent g) {old : List Nat}
    (known : ∀ a ∈ old, a < g.numNodes) {assigned : List Nat} {now : InterferenceGraph L} (state : Selecting g k [] now) :
    ∃ done, selectLoop old assigned now = (true,done) ∧ Selecting g k [] done ∧ done.nodeStack = [] := by
  induction old generalizing assigned now with
  | nil =>
    refine ⟨_,rfl,?_,rfl⟩
    exact ⟨⟨state.same.numNodes,state.same.matrix,state.same.adjList,state.same.degree⟩,state.colours,state.small,
      state.proper,state.coloured⟩
  | cons i old ih =>
    have below := known i List.mem_cons_self
    obtain ⟨own,low,here⟩ := state.finished below
    have free : own ∈ availableColours now i := by
      rw [availableMember,state.colours,state.same.adjList i]
      exact ⟨low,fun b near => state.proper i b near own here⟩
    rw [selectLoop]
    cases left : availableColours now i with
    | nil => simp [left] at free
    | cons c rest =>
      have first : c ∈ availableColours now i := by rw [left]; exact List.mem_cons_self
      have above : Selecting g k [i] now :=
        ⟨state.same,state.colours,state.small,state.proper,fun a reach _ => state.coloured a reach (by simp)⟩
      exact ih (fun a on => known a (List.mem_cons_of_mem _ on)) (above.step h first)

theorem selectFinishes {g : InterferenceGraph L} {k : Nat} (h : Consistent g) {old pushed : List Nat}
    (known : ∀ a ∈ old, a < g.numNodes) (sparse : Sparse g k pushed) (distinct : pushed.Nodup) {assigned : List Nat}
    {now : InterferenceGraph L} (blank : ∀ a ∈ pushed, (now.nodeTable a).colour = none)
    (state : Selecting g k pushed now) :
    ∃ done, selectLoop (pushed ++ old) assigned now = (true,done) ∧ Selecting g k [] done ∧ done.nodeStack = [] := by
  induction sparse generalizing assigned now with
  | nil => exact selectAgain h known state
  | @cons i pushed few rest ih =>
    obtain ⟨fresh,distinct⟩ := List.nodup_cons.mp distinct
    have below := fun a on => blank a (List.mem_cons_of_mem i on)
    rw [List.cons_append,selectLoop]
    cases left : availableColours now i with
    | nil => exact absurd left (colourLeft state.same state.colours few below)
    | cons c cs =>
      have first : c ∈ availableColours now i := by rw [left]; exact List.mem_cons_self
      have stays : ∀ a ∈ pushed, ((update now i fun n => { n with colour := some c }).nodeTable a).colour = none := by
        intro a on
        have other : a ≠ i := fun same => fresh (same ▸ on)
        simpa [update,other] using below a on
      exact ih distinct stays (state.step h first)

-- The stack that is left by earlier calls holds nodes of the graph.
structure Ready (g : InterferenceGraph L) : Prop where
  consistent : Consistent g
  stacked : ∀ a ∈ g.nodeStack, a < g.numNodes

theorem Selecting.result {g done : InterferenceGraph L} {k : Nat} (h : Consistent g) (state : Selecting g k [] done)
    (popped : done.nodeStack = []) : Coloured g k done ∧ SameEdges g done ∧ Ready done := by
  refine ⟨⟨?_,?_⟩,state.same,state.same.consistent h,by simp [popped]⟩
  · intro a below
    exact state.finished below
  · intro a b below near
    obtain ⟨c,_,here⟩ := state.finished below
    rw [here]
    exact fun same => state.proper a b near c here same.symm

theorem selectStacked {g : InterferenceGraph L} {stack : List Nat} (stacked : g.nodeStack = stack) :
    select g = selectLoop stack [] { g with numberOfColoursUsedToColour := 0 } := by
  subst stack
  rfl

theorem doColouringSelect {g done : InterferenceGraph L} {fuel k : Nat}
    (ran : simplify fuel { g with numColours := k } = .ok done) : doColouring fuel g k = .ok (select done) := by
  simp only [doColouring,ran,bind,Except.bind]

theorem colouringFinishes {g : InterferenceGraph L} (ready : Ready g) {k fuel : Nat} (enough : g.numNodes < fuel)
    (degenerate : Degenerate g k) :
    ∃ done, doColouring fuel g k = .ok (true,done) ∧ Coloured g k done ∧ SameEdges g done ∧ Ready done := by
  have h := ready.consistent
  by_cases empty : g.numNodes = 0
  · have cleared : g.nodeStack = [] := List.eq_nil_iff_forall_not_mem.mpr fun a on => by
      have := ready.stacked a on
      omega
    have blank : Selecting g k [] { g with numColours := k, numberOfColoursUsedToColour := 0 } := by
      refine ⟨⟨rfl,rfl,fun _ => rfl,fun _ => rfl⟩,rfl,?_,?_,?_⟩
      · intro a c below
        omega
      · intro a b near
        have := h.bound a b near
        omega
      · intro a below
        omega
    obtain ⟨done,ran,state,popped⟩ := @selectAgain L g k h [] (by simp) [] _ blank
    refine ⟨done,?_,state.result h popped⟩
    have simplified : simplify fuel { g with numColours := k } = .ok { g with numColours := k } := if_pos empty
    rw [doColouringSelect simplified,@selectStacked L { g with numColours := k } [] cleared]
    exact congrArg Except.ok ran
  · obtain ⟨pushed,done,ran,state⟩ := simplifyLoopFinishes h degenerate (simplifyStart h k) List.nodup_range
      (by simp) (le_of_lt (List.length_range.trans_lt enough))
    have start : Selecting g k pushed { done with numberOfColoursUsedToColour := 0 } := by
      refine ⟨⟨state.same.numNodes,state.same.matrix,state.same.adjList,state.same.degree⟩,state.colours,?_,?_,?_⟩
      · intro a c below colour
        have := (state.blank a below).symm.trans colour
        cases this
      · intro a b near c colour
        have := (state.blank a (h.bound b a (h.symm a b near))).symm.trans colour
        cases this
      · intro a below out
        exact absurd ((state.members a).mpr ⟨below,by simp⟩) out
    have blank : ∀ a ∈ pushed, (({ done with numberOfColoursUsedToColour := 0 } : InterferenceGraph L).nodeTable a).colour =
        none := fun a on => state.blank a ((state.members a).mp on).1
    obtain ⟨final,chose,selecting,popped⟩ := selectFinishes h ready.stacked state.sparse state.nodup blank start
    refine ⟨final,?_,selecting.result h popped⟩
    have simplified : simplify fuel { g with numColours := k } = .ok done := by
      rw [simplify,if_neg empty]
      exact ran
    rw [doColouringSelect simplified,selectStacked state.stack,chose]

theorem colouringStuck {g : InterferenceGraph L} (h : Consistent g) {k fuel : Nat} (enough : g.numNodes < fuel)
    (dense : ¬ Degenerate g k) : doColouring fuel g k = .error .nullSpillNode := by
  simp only [Degenerate] at dense
  push Not at dense
  obtain ⟨core,⟨a,member⟩,range,crowded⟩ := dense
  have some : g.numNodes ≠ 0 := by
    have := range a member
    omega
  have stuck := simplifyLoopStuck h ⟨a,member⟩ crowded (simplifyStart h k) (fun b on => Finset.mem_range.mpr (range b on))
    List.nodup_range (by simp) (le_of_lt (List.length_range.trans_lt enough))
  have failed : simplify fuel { g with numColours := k } = .error .nullSpillNode := by
    rw [simplify,if_neg some]
    exact stuck
  simp only [doColouring,failed,bind,Except.bind]

-- The graph after some calls of doColouring, whatever they returned.
inductive Recoloured (fuel : Nat) (g : InterferenceGraph L) : InterferenceGraph L → Prop where
  | start : Recoloured fuel g g
  | call {before after k success} (earlier : Recoloured fuel g before)
      (ran : doColouring fuel before k = .ok (success,after)) : Recoloured fuel g after

-- doColouring returns, and what it calls a success is a colouring.
def Colours (fuel : Nat) (g : InterferenceGraph L) (k : Nat) : Prop :=
  ∃ success done, doColouring fuel g k = .ok (success,done) ∧ (success = true → Coloured g k done)

theorem recolouredReady {fuel : Nat} {g now : InterferenceGraph L} (ready : Ready g) (enough : g.numNodes < fuel)
    (calls : Recoloured fuel g now) : Ready now ∧ now.numNodes < fuel := by
  induction calls with
  | start => exact ⟨ready,enough⟩
  | @call before after k success _ ran ih =>
    obtain ⟨known,few⟩ := ih
    by_cases degenerate : Degenerate before k
    · obtain ⟨done,finished,_,same,still⟩ := colouringFinishes known few degenerate
      rw [ran] at finished
      simp only [Except.ok.injEq,Prod.mk.injEq] at finished
      rw [finished.2]
      exact ⟨still,same.numNodes ▸ few⟩
    · rw [colouringStuck known.consistent few degenerate] at ran
      cases ran

theorem colouringCorrect {L : Layout} {fuel : Nat} {g now : InterferenceGraph L} (ready : Ready g)
    (enough : g.numNodes < fuel) (calls : Recoloured fuel g now) (k : Nat) : Colours fuel now k ↔ Degenerate now k := by
  obtain ⟨known,few⟩ := recolouredReady ready enough calls
  constructor
  · rintro ⟨success,done,ran,_⟩
    by_contra dense
    rw [colouringStuck known.consistent few dense] at ran
    cases ran
  · intro degenerate
    obtain ⟨done,ran,coloured,_⟩ := colouringFinishes known few degenerate
    exact ⟨true,done,ran,fun _ => coloured⟩

-- What CompactLocals makes sure of: more colours than the largest degree.
theorem degreesDegenerate {g : InterferenceGraph L} {k : Nat}
    (enough : ∀ a, a < g.numNodes → (g.nodeTable a).adjList.length < k) : Degenerate g k := by
  rintro W ⟨a,member⟩ range
  exact ⟨a,member,lt_of_le_of_lt List.countP_le_length (enough a (range a member))⟩

def twoNodes : InterferenceGraph ⟨true,false⟩ :=
  addInterferenceBetween (addNode (addNode (construct ⟨true,false⟩ 4) 8) 16) 0 1

theorem twoNodesReady : Ready twoNodes := by
  let start := construct ⟨true,false⟩ 4
  have first : Reached ⟨true,false⟩ (addNode start 8) :=
    @Reached.step _ _ (.add 8 false) _ (.start (by decide) (by decide)) (by
      show (BitVector.chunkIndex ⟨true,false⟩ (pairs 1) : Int) + 1 ≤ maxSigned 32
      decide) rfl
  have second : Reached ⟨true,false⟩ (addNode (addNode start 8) 16) :=
    @Reached.step _ _ (.add 16 false) _ first (by
      show (BitVector.chunkIndex ⟨true,false⟩ (pairs 2) : Int) + 1 ≤ maxSigned 32
      decide) rfl
  have third : Reached ⟨true,false⟩ twoNodes :=
    @Reached.step _ _ (.addInterferenceBetween 8 16) _ second (by show 8 ≠ 16; decide) rfl
  have stack : twoNodes.nodeStack = [] := by decide
  exact ⟨(reachedConsistent third).2,by simp [stack]⟩

theorem colouringCorrectSample : hasInterference twoNodes 0 1 = true ∧ Colours 3 twoNodes 2 := by
  have few : twoNodes.numNodes < 3 := by decide
  have degrees : ∀ a, a < twoNodes.numNodes → (twoNodes.nodeTable a).adjList.length < 2 := by decide
  exact ⟨by decide,(colouringCorrect twoNodesReady few .start 2).mpr (degreesDegenerate degrees)⟩

-- With one colour neither node is colourable, and no degree exceeds -1 taken as unsigned.
theorem colouringCrashes : Ready twoNodes ∧ twoNodes.numNodes < 3 ∧ doColouring 3 twoNodes 1 = .error .nullSpillNode ∧
    ¬ Colours 3 twoNodes 1 := by
  have few : twoNodes.numNodes < 3 := by decide
  have crowded : ∀ a ∈ ({0,1} : Finset Nat), 1 ≤ inside twoNodes {0,1} a := by decide
  have known : ∀ a ∈ ({0,1} : Finset Nat), a < twoNodes.numNodes := by decide
  have dense : ¬ Degenerate twoNodes 1 := by
    intro degenerate
    obtain ⟨a,member,low⟩ := degenerate {0,1} ⟨0,by decide⟩ known
    have := crowded a member
    omega
  have stuck := colouringStuck twoNodesReady.consistent few dense
  refine ⟨twoNodesReady,few,stuck,?_⟩
  rintro ⟨success,done,ran,_⟩
  rw [stuck] at ran
  cases ran

end OmrCompiler.Interference
