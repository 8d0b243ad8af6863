import Mathlib.Algebra.BigOperators.Intervals
import Mathlib.Algebra.Order.BigOperators.Group.Finset

/-! Expression graphs whose vertices are shared and count their uses: evaluation, the edits of
a vertex in place, and what an edit leaves unchanged. -/
namespace OmrCompiler.SharedGraph

structure Vertex (P : Type) where
  payload : P
  children : List Nat
  referenceCount : Nat

-- Vertices are numbered in the order in which they are made.
structure NodeGraph (P : Type) where
  vertex : Nat → Vertex P
  size : Nat

namespace NodeGraph
variable {P : Type}

def payload (g : NodeGraph P) (n : Nat) : P := (g.vertex n).payload

def children (g : NodeGraph P) (n : Nat) : List Nat := (g.vertex n).children

def referenceCount (g : NodeGraph P) (n : Nat) : Nat := (g.vertex n).referenceCount

def modify (g : NodeGraph P) (n : Nat) (change : Vertex P → Vertex P) : NodeGraph P :=
  {g with vertex := Function.update g.vertex n (change (g.vertex n))}

def setPayload (g : NodeGraph P) (n : Nat) (p : P) : NodeGraph P := g.modify n fun v => {v with payload := p}

-- The children of a new vertex are filled in from the left.
def setAt (children : List Nat) (i c : Nat) : List Nat := if i < children.length then children.set i c else children ++ [c]

def setChild (g : NodeGraph P) (n i c : Nat) : NodeGraph P := g.modify n fun v => {v with children := setAt v.children i c}

def setNumChildren (g : NodeGraph P) (n count : Nat) : NodeGraph P := g.modify n fun v => {v with children := v.children.take count}

def clearChildren (g : NodeGraph P) (n : Nat) : NodeGraph P := g.modify n fun v => {v with children := []}

def incReferenceCount (g : NodeGraph P) (n : Nat) : NodeGraph P := g.modify n fun v => {v with referenceCount := v.referenceCount + 1}

def decReferenceCount (g : NodeGraph P) (n : Nat) : NodeGraph P := g.modify n fun v => {v with referenceCount := v.referenceCount - 1}

def setReferenceCount (g : NodeGraph P) (n count : Nat) : NodeGraph P := g.modify n fun v => {v with referenceCount := count}

def setAndIncChild (g : NodeGraph P) (n i c : Nat) : NodeGraph P := (g.incReferenceCount c).setChild n i c

-- The depth is bounded by the number of vertices.
def decUpTo : Nat → NodeGraph P → Nat → NodeGraph P
  | 0,g,_ => g
  | depth + 1,g,n =>
      let g := g.decReferenceCount n
      if g.referenceCount n = 0 then (g.children n).reverse.foldl (decUpTo depth) g else g

def recursivelyDecReferenceCount (g : NodeGraph P) (n : Nat) : NodeGraph P := decUpTo g.size g n

def create (g : NodeGraph P) (p : P) : NodeGraph P := ⟨Function.update g.vertex g.size ⟨p,[],0⟩,g.size + 1⟩

@[simp] theorem setAtFirst (a b c : Nat) : setAt [a,b] 0 c = [c,b] := rfl

@[simp] theorem setAtSecond (a b c : Nat) : setAt [a,b] 1 c = [a,c] := rfl

@[simp] theorem setAtOnly (a c : Nat) : setAt [a] 0 c = [c] := rfl

end NodeGraph

section Edits
variable {P : Type} (g : NodeGraph P) (n m i c : Nat) (p : P)

@[simp] theorem setPayloadPayload : (g.setPayload n p).payload m = if m = n then p else g.payload m := by
  simp only [NodeGraph.payload,NodeGraph.setPayload,NodeGraph.modify,Function.update_apply]
  split <;> rfl

@[simp] theorem setPayloadChildren : (g.setPayload n p).children m = g.children m := by
  simp only [NodeGraph.children,NodeGraph.setPayload,NodeGraph.modify,Function.update_apply]
  split <;> simp [*]

@[simp] theorem setPayloadSize : (g.setPayload n p).size = g.size := rfl

@[simp] theorem setChildPayload : (g.setChild n i c).payload m = g.payload m := by
  simp only [NodeGraph.payload,NodeGraph.setChild,NodeGraph.modify,Function.update_apply]
  split <;> simp [*]

@[simp] theorem setChildChildren : (g.setChild n i c).children m = if m = n then NodeGraph.setAt (g.children n) i c else g.children m := by
  simp only [NodeGraph.children,NodeGraph.setChild,NodeGraph.modify,Function.update_apply]
  split <;> rfl

@[simp] theorem setChildSize : (g.setChild n i c).size = g.size := rfl

@[simp] theorem setNumChildrenPayload : (g.setNumChildren n i).payload m = g.payload m := by
  simp only [NodeGraph.payload,NodeGraph.setNumChildren,NodeGraph.modify,Function.update_apply]
  split <;> simp [*]

@[simp] theorem setNumChildrenChildren : (g.setNumChildren n i).children m = if m = n then (g.children n).take i else g.children m := by
  simp only [NodeGraph.children,NodeGraph.setNumChildren,NodeGraph.modify,Function.update_apply]
  split <;> rfl

@[simp] theorem setNumChildrenSize : (g.setNumChildren n i).size = g.size := rfl

@[simp] theorem clearChildrenPayload : (g.clearChildren n).payload m = g.payload m := by
  simp only [NodeGraph.payload,NodeGraph.clearChildren,NodeGraph.modify,Function.update_apply]
  split <;> simp [*]

@[simp] theorem clearChildrenChildren : (g.clearChildren n).children m = if m = n then [] else g.children m := by
  simp only [NodeGraph.children,NodeGraph.clearChildren,NodeGraph.modify,Function.update_apply]
  split <;> rfl

@[simp] theorem clearChildrenSize : (g.clearChildren n).size = g.size := rfl

-- An edit of the counts alone.
def SameShape (g g' : NodeGraph P) : Prop := g'.size = g.size ∧ ∀ m, g'.payload m = g.payload m ∧ g'.children m = g.children m

theorem sameShapeTrans {g g' g'' : NodeGraph P} (first : SameShape g g') (second : SameShape g' g'') : SameShape g g'' :=
  ⟨second.1.trans first.1,fun m => ⟨(second.2 m).1.trans (first.2 m).1,(second.2 m).2.trans (first.2 m).2⟩⟩

theorem countsOnly (count : Vertex P → Nat) : SameShape g (g.modify n fun v => {v with referenceCount := count v}) := by
  refine ⟨rfl,fun m => ?_⟩
  simp only [NodeGraph.payload,NodeGraph.children,NodeGraph.modify,Function.update_apply]
  split <;> simp [*]

theorem decUpToShape (depth : Nat) : ∀ (g : NodeGraph P) (n : Nat), SameShape g (NodeGraph.decUpTo depth g n) := by
  induction depth with
  | zero => exact fun g n => ⟨rfl,fun m => ⟨rfl,rfl⟩⟩
  | succ depth ih =>
      intro g n
      have folded : ∀ (list : List Nat) (g : NodeGraph P), SameShape g (list.foldl (NodeGraph.decUpTo depth) g) := by
        intro list
        induction list with
        | nil => exact fun g => ⟨rfl,fun m => ⟨rfl,rfl⟩⟩
        | cons head rest more => exact fun g => sameShapeTrans (ih g head) (more _)
      have less : SameShape g (g.decReferenceCount n) := countsOnly g n _
      simp only [NodeGraph.decUpTo]
      split
      · exact sameShapeTrans less (folded _ _)
      · exact less

@[simp] theorem incPayload : (g.incReferenceCount n).payload m = g.payload m := ((countsOnly g n _).2 m).1

@[simp] theorem incChildren : (g.incReferenceCount n).children m = g.children m := ((countsOnly g n _).2 m).2

@[simp] theorem incSize : (g.incReferenceCount n).size = g.size := rfl

@[simp] theorem decPayload : (g.decReferenceCount n).payload m = g.payload m := ((countsOnly g n _).2 m).1

@[simp] theorem decChildren : (g.decReferenceCount n).children m = g.children m := ((countsOnly g n _).2 m).2

@[simp] theorem decSize : (g.decReferenceCount n).size = g.size := rfl

@[simp] theorem setCountPayload : (g.setReferenceCount n i).payload m = g.payload m := ((countsOnly g n _).2 m).1

@[simp] theorem setCountChildren : (g.setReferenceCount n i).children m = g.children m := ((countsOnly g n _).2 m).2

@[simp] theorem setCountSize : (g.setReferenceCount n i).size = g.size := rfl

@[simp] theorem recursivelyDecPayload : (g.recursivelyDecReferenceCount n).payload m = g.payload m := ((decUpToShape _ g n).2 m).1

@[simp] theorem recursivelyDecChildren : (g.recursivelyDecReferenceCount n).children m = g.children m := ((decUpToShape _ g n).2 m).2

@[simp] theorem recursivelyDecSize : (g.recursivelyDecReferenceCount n).size = g.size := (decUpToShape _ g n).1

@[simp] theorem setAndIncPayload : (g.setAndIncChild n i c).payload m = g.payload m := by simp [NodeGraph.setAndIncChild]

@[simp] theorem setAndIncChildren : (g.setAndIncChild n i c).children m = if m = n then NodeGraph.setAt (g.children n) i c else g.children m := by
  simp [NodeGraph.setAndIncChild]

@[simp] theorem setAndIncSize : (g.setAndIncChild n i c).size = g.size := rfl

@[simp] theorem createPayload : (g.create p).payload m = if m = g.size then p else g.payload m := by
  simp only [NodeGraph.payload,NodeGraph.create,Function.update_apply]
  split <;> rfl

@[simp] theorem createChildren : (g.create p).children m = if m = g.size then [] else g.children m := by
  simp only [NodeGraph.children,NodeGraph.create,Function.update_apply]
  split <;> rfl

@[simp] theorem createSize : (g.create p).size = g.size + 1 := rfl

@[simp] theorem setPayloadCount : (g.setPayload n p).referenceCount m = g.referenceCount m := by
  simp only [NodeGraph.referenceCount,NodeGraph.setPayload,NodeGraph.modify,Function.update_apply]
  split <;> simp [*]

@[simp] theorem setChildCount : (g.setChild n i c).referenceCount m = g.referenceCount m := by
  simp only [NodeGraph.referenceCount,NodeGraph.setChild,NodeGraph.modify,Function.update_apply]
  split <;> simp [*]

@[simp] theorem setNumChildrenCount : (g.setNumChildren n i).referenceCount m = g.referenceCount m := by
  simp only [NodeGraph.referenceCount,NodeGraph.setNumChildren,NodeGraph.modify,Function.update_apply]
  split <;> simp [*]

@[simp] theorem clearChildrenCount : (g.clearChildren n).referenceCount m = g.referenceCount m := by
  simp only [NodeGraph.referenceCount,NodeGraph.clearChildren,NodeGraph.modify,Function.update_apply]
  split <;> simp [*]

@[simp] theorem incCount : (g.incReferenceCount n).referenceCount m = if m = n then g.referenceCount n + 1 else g.referenceCount m := by
  simp only [NodeGraph.referenceCount,NodeGraph.incReferenceCount,NodeGraph.modify,Function.update_apply]
  split <;> rfl

@[simp] theorem decCount : (g.decReferenceCount n).referenceCount m = if m = n then g.referenceCount n - 1 else g.referenceCount m := by
  simp only [NodeGraph.referenceCount,NodeGraph.decReferenceCount,NodeGraph.modify,Function.update_apply]
  split <;> rfl

@[simp] theorem setAndIncCount : (g.setAndIncChild n i c).referenceCount m = if m = c then g.referenceCount c + 1 else g.referenceCount m := by
  simp [NodeGraph.setAndIncChild]

@[simp] theorem createCount : (g.create p).referenceCount m = if m = g.size then 0 else g.referenceCount m := by
  simp only [NodeGraph.referenceCount,NodeGraph.create,Function.update_apply]
  split <;> rfl

end Edits

section Evaluation
variable {P V : Type} {meaning : P → List V → V} {g g' : NodeGraph P} {n m c : Nat} {v w : V}

-- The value of a vertex; there is none when it lies on a cycle.
inductive Evaluates (meaning : P → List V → V) (g : NodeGraph P) : Nat → V → Prop where
  | vertex {n : Nat} (value : Nat → V) (operands : ∀ c ∈ g.children n, Evaluates meaning g c (value c)) :
      Evaluates meaning g n (meaning (g.payload n) ((g.children n).map value))

theorem Evaluates.unique (one : Evaluates meaning g n v) (two : Evaluates meaning g n w) : v = w := by
  induction one generalizing w with
  | vertex value operands ih =>
      obtain ⟨value',operands'⟩ := two
      rw [List.map_congr_left fun c on => ih c on (operands' c on)]

theorem Evaluates.operand (evaluates : Evaluates meaning g n v) (on : c ∈ g.children n) : ∃ w, Evaluates meaning g c w := by
  obtain ⟨value,operands⟩ := evaluates
  exact ⟨value c,operands c on⟩

theorem Evaluates.leaf (none : g.children n = []) : Evaluates meaning g n (meaning (g.payload n) []) := by
  have evaluates : Evaluates meaning g n (meaning (g.payload n) ((g.children n).map fun _ => meaning (g.payload n) [])) :=
    .vertex _ fun c on => absurd (none ▸ on) (List.not_mem_nil)
  rw [none] at evaluates
  exact evaluates

theorem Evaluates.unary (one : g.children n = [c]) (evaluates : Evaluates meaning g c v) : Evaluates meaning g n (meaning (g.payload n) [v]) := by
  have made : Evaluates meaning g n (meaning (g.payload n) ((g.children n).map fun _ => v)) := by
    refine .vertex _ fun d on => ?_
    rw [one] at on
    rw [List.mem_singleton.mp on]
    exact evaluates
  rw [one] at made
  exact made

theorem Evaluates.binary (two : g.children n = [c,m]) (first : Evaluates meaning g c v) (second : Evaluates meaning g m w) :
    Evaluates meaning g n (meaning (g.payload n) [v,w]) := by
  have made : Evaluates meaning g n (meaning (g.payload n) ((g.children n).map fun d => if d = c then v else w)) := by
    refine .vertex _ fun d on => ?_
    rw [two] at on
    split
    · rename_i same
      exact same ▸ first
    · rename_i other
      rcases List.mem_cons.mp on with same | on
      · exact absurd same other
      · rw [List.mem_singleton.mp on]
        exact second
  rw [two] at made
  by_cases same : m = c
  · subst same
    rw [first.unique second] at made ⊢
    simpa using made
  · simpa [same] using made

theorem Evaluates.ofBinary (evaluates : Evaluates meaning g n v) (two : g.children n = [c,m]) :
    ∃ x y, Evaluates meaning g c x ∧ Evaluates meaning g m y ∧ v = meaning (g.payload n) [x,y] := by
  obtain ⟨value,operands⟩ := evaluates
  rw [two] at operands ⊢
  exact ⟨value c,value m,operands c (by simp),operands m (by simp),rfl⟩

theorem Evaluates.ofUnary (evaluates : Evaluates meaning g n v) (one : g.children n = [c]) :
    ∃ x, Evaluates meaning g c x ∧ v = meaning (g.payload n) [x] := by
  obtain ⟨value,operands⟩ := evaluates
  rw [one] at operands ⊢
  exact ⟨value c,operands c (by simp),rfl⟩

theorem Evaluates.ofLeaf (evaluates : Evaluates meaning g n v) (none : g.children n = []) : v = meaning (g.payload n) [] := by
  obtain ⟨value,operands⟩ := evaluates
  rw [none]
  rfl

-- c lies below n, by one child or more.
def Below (g : NodeGraph P) : Nat → Nat → Prop := Relation.TransGen fun c n => c ∈ g.children n

theorem Evaluates.grounded (evaluates : Evaluates meaning g n v) : Acc (fun c n => c ∈ g.children n) n := by
  induction evaluates with
  | vertex value operands ih => exact .intro _ ih

theorem acyclicOf (grounded : Acc (fun c n => c ∈ g.children n) n) : ¬ Below g n n := by
  have below : Acc (Below g) n := grounded.transGen
  clear grounded
  induction below with
  | intro n _ ih => exact fun loop => ih n loop loop

theorem Evaluates.acyclic (evaluates : Evaluates meaning g n v) : ¬ Below g n n := acyclicOf evaluates.grounded

end Evaluation

section Sharing
variable {P V : Type} {meaning : P → List V → V} {g g' : NodeGraph P} {roots : Nat → Nat} {n m c : Nat} {v : V}

-- The uses of a vertex by the live vertices; uses from outside are counted apart, as roots.
def uses (g : NodeGraph P) (n : Nat) : Nat := ∑ p ∈ Finset.range g.size, if 0 < g.referenceCount p then (g.children p).count n else 0

structure Counted (g : NodeGraph P) (roots : Nat → Nat) : Prop where
  counts : ∀ n, uses g n + roots n ≤ g.referenceCount n
  fresh : ∀ n, g.size ≤ n → g.referenceCount n = 0
  closed : ∀ n < g.size, ∀ c ∈ g.children n, c < g.size

theorem Counted.allocated (counted : Counted g roots) (live : 0 < g.referenceCount n) : n < g.size := by
  by_contra outside
  have := counted.fresh n (by omega)
  omega

theorem useCounted {p : Nat} (inside : p < g.size) (live : 0 < g.referenceCount p) (n : Nat) : (g.children p).count n ≤ uses g n := by
  have term := Finset.single_le_sum (f := fun p => if 0 < g.referenceCount p then (g.children p).count n else 0) (fun _ _ => Nat.zero_le _)
    (Finset.mem_range.mpr inside)
  unfold uses
  simpa only [if_pos live] using term

theorem Counted.live (counted : Counted g roots) (live : 0 < g.referenceCount n) (on : c ∈ g.children n) : 0 < g.referenceCount c := by
  have used := useCounted (counted.allocated live) live c
  have := counted.counts c
  have := List.count_pos_iff.mpr on
  omega

-- Below a vertex that no cycle is below, all have a value.
theorem Counted.evaluates (counted : Counted g roots) (inside : n < g.size) (acyclic : ∀ m, m = n ∨ Below g m n → ¬ Below g m m) :
    ∃ v, Evaluates meaning g n v := by
  let under : Fin g.size → Fin g.size → Prop := fun c m => Below g c m ∧ (m.val = n ∨ Below g m n)
  have transitive : IsTrans (Fin g.size) under := ⟨fun _ _ _ low high => ⟨low.1.trans high.1,high.2⟩⟩
  have irreflexive : Std.Irrefl under := ⟨fun m loop => acyclic m loop.2 loop.1⟩
  have founded : WellFounded under := Finite.wellFounded_of_trans_of_irrefl under
  have every : ∀ m : Fin g.size, m.val = n ∨ Below g m n → ∃ v, Evaluates meaning g m v := by
    intro m
    induction m using founded.induction with
    | h m ih =>
        intro here
        have operands : ∀ c, ∃ v, c ∈ g.children m → Evaluates meaning g c v := by
          intro c
          by_cases on : c ∈ g.children m
          · have below : Below g c m := .single on
            obtain ⟨v,evaluates⟩ := ih ⟨c,counted.closed m m.isLt c on⟩ ⟨below,here⟩
              (.inr (here.elim (fun same => same ▸ below) fun lower => below.trans lower))
            exact ⟨v,fun _ => evaluates⟩
          · exact ⟨meaning (g.payload m) [],fun h => absurd h on⟩
        choose value evaluates using operands
        exact ⟨_,.vertex value fun c on => evaluates c on⟩
  exact every ⟨n,inside⟩ (.inl rfl)

-- A vertex used from outside, or by a live vertex other than n.
def UsedElsewhere (g : NodeGraph P) (roots : Nat → Nat) (n m : Nat) : Prop :=
  0 < roots m ∨ ∃ p, p ≠ n ∧ 0 < g.referenceCount p ∧ m ∈ g.children p

-- A child whose only use is that by n.
def Consumed (g : NodeGraph P) (n m : Nat) : Prop := m ∈ g.children n ∧ g.referenceCount m = 1

theorem Counted.consumedOnly (counted : Counted g roots) (live : 0 < g.referenceCount n) (consumed : Consumed g n m) :
    ¬ UsedElsewhere g roots n m := by
  obtain ⟨on,once⟩ := consumed
  have counts := counted.counts m
  have here := List.count_pos_iff.mpr on
  rintro (rooted | ⟨p,other,liveP,onP⟩)
  · have := useCounted (counted.allocated live) live m
    omega
  · have there := List.count_pos_iff.mpr onP
    have both : (g.children n).count m + (g.children p).count m ≤ uses g m := by
      have pair := Finset.add_le_sum (f := fun p => if 0 < g.referenceCount p then (g.children p).count m else 0) (fun _ _ => Nat.zero_le _)
        (Finset.mem_range.mpr (counted.allocated live)) (Finset.mem_range.mpr (counted.allocated liveP)) (Ne.symm other)
      unfold uses
      simpa only [if_pos live,if_pos liveP] using pair
    omega

-- All vertices mean what they did, but for n and some children that only n uses.
structure Frame (meaning : P → List V → V) (g g' : NodeGraph P) (n : Nat) (mutated : List Nat) : Prop where
  same : ∀ m < g.size, m ≠ n → m ∉ mutated → (∀ values, meaning (g'.payload m) values = meaning (g.payload m) values) ∧ g'.children m = g.children m
  consumed : ∀ m ∈ mutated, Consumed g n m

theorem Frame.step {mutated : List Nat} (frame : Frame meaning g g' n mutated) (inside : m < g.size) (other : m ≠ n) (fixed : m ∉ mutated)
    (value : Nat → V) (operands : ∀ c ∈ g.children m, Evaluates meaning g' c (value c)) :
    Evaluates meaning g' m (meaning (g.payload m) ((g.children m).map value)) := by
  obtain ⟨means,children⟩ := frame.same m inside other fixed
  rw [← means,← children]
  exact .vertex value fun c on => operands c (children ▸ on)

-- What lies below n keeps its value, unless it is itself changed.
theorem Frame.operandKept {mutated : List Nat} (frame : Frame meaning g g' n mutated) (counted : Counted g roots) (live : 0 < g.referenceCount n)
    (acyclic : ¬ Below g n n) (below : Below g m n) (liveM : 0 < g.referenceCount m) (fixed : m ∉ mutated) (evaluates : Evaluates meaning g m v) :
    Evaluates meaning g' m v := by
  induction evaluates with
  | @vertex m value operands ih =>
      have other : m ≠ n := fun same => acyclic (same ▸ below)
      refine frame.step (counted.allocated liveM) other fixed value fun c on => ?_
      refine ih c on (Relation.TransGen.head on below) (counted.live liveM on) fun changed => ?_
      exact counted.consumedOnly live (frame.consumed c changed) (.inr ⟨m,other,liveM,on⟩)

theorem UsedElsewhere.isLive (counted : Counted g roots) (used : UsedElsewhere g roots n m) : 0 < g.referenceCount m := by
  rcases used with rooted | ⟨p,_,live,on⟩
  · have := counted.counts m
    omega
  · exact counted.live live on

theorem Frame.kept {mutated : List Nat} (frame : Frame meaning g g' n mutated) (counted : Counted g roots) (live : 0 < g.referenceCount n)
    (preserved : ∀ v, Evaluates meaning g n v → Evaluates meaning g' n v) (used : UsedElsewhere g roots n m) (evaluates : Evaluates meaning g m v) :
    Evaluates meaning g' m v := by
  induction evaluates with
  | @vertex m value operands ih =>
      by_cases here : m = n
      · subst here
        exact preserved _ (.vertex value operands)
      · have liveM := used.isLive counted
        refine frame.step (counted.allocated liveM) here (fun changed => ?_) value fun c on => ih c on (.inr ⟨m,here,liveM,on⟩)
        exact counted.consumedOnly live (frame.consumed m changed) used

-- A vertex that is reached from outside without passing through n.
inductive Elsewhere (g : NodeGraph P) (roots : Nat → Nat) (n : Nat) : Nat → Prop where
  | root {m : Nat} (rooted : 0 < roots m) (other : m ≠ n) : Elsewhere g roots n m
  | child {p m : Nat} (above : Elsewhere g roots n p) (on : m ∈ g.children p) (other : m ≠ n) : Elsewhere g roots n m

theorem Elsewhere.notHere (elsewhere : Elsewhere g roots n m) : m ≠ n := by
  cases elsewhere with
  | root _ other => exact other
  | child _ _ other => exact other

theorem Elsewhere.used (counted : Counted g roots) (elsewhere : Elsewhere g roots n m) : UsedElsewhere g roots n m := by
  induction elsewhere with
  | root rooted _ => exact .inl rooted
  | child above on _ ih => exact .inr ⟨_,above.notHere,ih.isLive counted,on⟩

theorem Frame.elsewhere {mutated : List Nat} (frame : Frame meaning g g' n mutated) (counted : Counted g roots) (live : 0 < g.referenceCount n)
    (elsewhere : Elsewhere g roots n m) : Elsewhere g' roots n m := by
  induction elsewhere with
  | root rooted other => exact .root rooted other
  | @child p m above on other ih =>
      have used := above.used counted
      have fixed : p ∉ mutated := fun changed => counted.consumedOnly live (frame.consumed p changed) used
      obtain ⟨_,children⟩ := frame.same p (counted.allocated (used.isLive counted)) above.notHere fixed
      exact .child ih (children ▸ on) other

-- A value that the changed vertices below it keep.
theorem keptUnder {changed : Nat → Prop} (same : ∀ m, ¬ changed m → g'.payload m = g.payload m ∧ g'.children m = g.children m)
    (evaluates : Evaluates meaning g m v)
    (fixed : ∀ c, c = m ∨ Below g c m → changed c → ∀ w, Evaluates meaning g c w → Evaluates meaning g' c w) : Evaluates meaning g' m v := by
  induction evaluates with
  | @vertex m value operands ih =>
      by_cases here : changed m
      · exact fixed m (.inl rfl) here _ (.vertex value operands)
      · obtain ⟨payload,children⟩ := same m here
        rw [← payload,← children]
        refine .vertex value fun c on => ih c (children ▸ on) fun d which => fixed d (.inr ?_)
        have above : Below g c m := .single (children ▸ on)
        exact which.elim (fun equal => equal ▸ above) fun below => below.trans above

theorem keptElsewhere {changed : Nat → Prop} (same : ∀ m, ¬ changed m → g'.payload m = g.payload m ∧ g'.children m = g.children m)
    (preserved : ∀ v, Evaluates meaning g n v → Evaluates meaning g' n v)
    (fixed : ∀ c, changed c → Elsewhere g roots n c → ∀ w, Evaluates meaning g c w → Evaluates meaning g' c w)
    (elsewhere : Elsewhere g roots n m) (evaluates : Evaluates meaning g m v) : Evaluates meaning g' m v := by
  induction evaluates with
  | @vertex m value operands ih =>
      by_cases here : changed m
      · exact fixed m here elsewhere _ (.vertex value operands)
      · obtain ⟨payload,children⟩ := same m here
        rw [← payload,← children]
        refine .vertex value fun c on => ?_
        by_cases root : c = n
        · exact root ▸ preserved _ (root ▸ operands c (children ▸ on))
        · exact ih c (children ▸ on) (.child elsewhere (children ▸ on) root)

-- n' has the value that n had, and so have n and what is used elsewhere.
structure Preserved (meaning : P → List V → V) (g : NodeGraph P) (roots : Nat → Nat) (n : Nat) (g' : NodeGraph P) (n' : Nat) : Prop where
  value : ∀ v, Evaluates meaning g n v → Evaluates meaning g' n' v
  shared : ∀ m v, m = n ∨ Elsewhere g roots n m → Evaluates meaning g m v → Evaluates meaning g' m v

theorem Frame.preserved {mutated : List Nat} (frame : Frame meaning g g' n mutated) (counted : Counted g roots) (live : 0 < g.referenceCount n)
    (value : ∀ v, Evaluates meaning g n v → Evaluates meaning g' n v) : Preserved meaning g roots n g' n := by
  refine ⟨value,fun m v which evaluates => ?_⟩
  rcases which with rfl | elsewhere
  · exact value v evaluates
  · exact frame.kept counted live value (elsewhere.used counted) evaluates

theorem Preserved.refl (meaning : P → List V → V) (g : NodeGraph P) (roots : Nat → Nat) (n : Nat) : Preserved meaning g roots n g n :=
  ⟨fun _ evaluates => evaluates,fun _ _ _ evaluates => evaluates⟩

theorem Frame.andThen {mutated : List Nat} {g'' : NodeGraph P} {n' : Nat} (frame : Frame meaning g g' n mutated) (counted : Counted g roots)
    (live : 0 < g.referenceCount n) (first : Preserved meaning g roots n g' n) (second : Preserved meaning g' roots n g'' n') :
    Preserved meaning g roots n g'' n' := by
  refine ⟨fun v evaluates => second.value v (first.value v evaluates),fun m v which evaluates => ?_⟩
  refine second.shared m v ?_ (first.shared m v which evaluates)
  exact which.imp_right (frame.elsewhere counted live)

-- An edit that moves uses about without making or dropping any.
theorem Counted.regrouped (counted : Counted g roots) (size : g'.size = g.size) (counts : ∀ m, g'.referenceCount m = g.referenceCount m)
    (closed : ∀ m < g.size, ∀ c ∈ g'.children m, c < g.size) {p q : Nat} (liveP : 0 < g.referenceCount p) (liveQ : 0 < g.referenceCount q) (apart : p ≠ q)
    (elsewhere : ∀ m, m ≠ p → m ≠ q → g'.children m = g.children m)
    (moved : ∀ m, (g'.children p).count m + (g'.children q).count m = (g.children p).count m + (g.children q).count m) : Counted g' roots := by
  have same : ∀ m, uses g' m = uses g m := by
    intro m
    have inP : p ∈ Finset.range g.size := Finset.mem_range.mpr (counted.allocated liveP)
    have inQ : q ∈ (Finset.range g.size).erase p := Finset.mem_erase.mpr ⟨Ne.symm apart,Finset.mem_range.mpr (counted.allocated liveQ)⟩
    unfold uses
    rw [size,← Finset.add_sum_erase _ _ inP,← Finset.add_sum_erase _ _ inQ,← Finset.add_sum_erase (Finset.range g.size) _ inP,
      ← Finset.add_sum_erase ((Finset.range g.size).erase p) _ inQ]
    have rest : ∀ k ∈ ((Finset.range g.size).erase p).erase q,
        (if 0 < g'.referenceCount k then (g'.children k).count m else 0) = if 0 < g.referenceCount k then (g.children k).count m else 0 := by
      intro k on
      rw [counts,elsewhere k (Finset.ne_of_mem_erase (Finset.mem_of_mem_erase on)) (Finset.ne_of_mem_erase on)]
    rw [Finset.sum_congr rfl rest,counts,counts,if_pos liveP,if_pos liveQ,if_pos liveP,if_pos liveQ]
    have := moved m
    omega
  refine ⟨fun m => ?_,fun m outside => ?_,fun m inside c on => ?_⟩
  · rw [same,counts]
    exact counted.counts m
  · rw [counts]
    exact counted.fresh m (size ▸ outside)
  · rw [size] at inside ⊢
    exact closed m inside c on

theorem Counted.reordered (counted : Counted g roots) (size : g'.size = g.size) (counts : ∀ m, g'.referenceCount m = g.referenceCount m)
    (order : ∀ m, (g'.children m).Perm (g.children m)) : Counted g' roots := by
  have same : ∀ m, uses g' m = uses g m := by
    intro m
    unfold uses
    rw [size]
    refine Finset.sum_congr rfl fun k _ => ?_
    rw [counts,(order k).count_eq]
  refine ⟨fun m => ?_,fun m outside => ?_,fun m inside c on => ?_⟩
  · rw [same,counts]
    exact counted.counts m
  · rw [counts]
    exact counted.fresh m (size ▸ outside)
  · rw [size] at inside ⊢
    exact counted.closed m inside c ((order m).mem_iff.mp on)

end Sharing

end OmrCompiler.SharedGraph
