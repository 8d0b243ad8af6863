import Mathlib.Order.Lattice.Nat
import OmrCompiler.PostDominance

/-! Vertices numbered in the order of a depth-first search from vertex 1, their spanning
tree, their semidominators, and dominance in terms of these. An edge leads from a vertex
to one before it, so that the paths end in vertex 1. -/
namespace OmrCompiler.Semidominators
open PostDominance Relation

section Ancestors
variable {parent : Nat → Nat} {a b c : Nat}

-- a is b or above b in the tree; a vertex without a parent has parent 0.
inductive Above (parent : Nat → Nat) (a : Nat) : Nat → Prop where
  | here : Above parent a a
  | up {b : Nat} (some : 0 < parent b) (less : parent b < b) (rest : Above parent a (parent b)) : Above parent a b

theorem Above.le (above : Above parent a b) : a ≤ b := by
  induction above with
  | here => exact Nat.le_refl _
  | up _ less _ ih => omega

theorem Above.trans (first : Above parent a b) (second : Above parent b c) : Above parent a c := by
  induction second with
  | here => exact first
  | up some less _ ih => exact .up some less ih

theorem Above.before (above : Above parent a b) (other : a ≠ b) : 0 < parent b ∧ parent b < b ∧ Above parent a (parent b) := by
  cases above with
  | here => exact absurd rfl other
  | up some less rest => exact ⟨some,less,rest⟩

theorem Above.congr {parent' : Nat → Nat} (above : Above parent a b) (same : ∀ k, k ≤ b → parent' k = parent k) : Above parent' a b := by
  induction above with
  | here => exact .here
  | @up b some less _ ih =>
      have here := same b (Nat.le_refl b)
      refine .up (by rw [here]; exact some) (by rw [here]; exact less) ?_
      rw [here]
      exact ih fun k upTo => same k (by omega)

-- The vertices above one are above each other.
theorem Above.linear (first : Above parent a c) (second : Above parent b c) (order : a ≤ b) : Above parent a b := by
  induction first with
  | here =>
      rw [Nat.le_antisymm order second.le]
      exact .here
  | @up c some less rest ih =>
      by_cases here : b = c
      · rw [here]
        exact .up some less rest
      · exact ih (second.before here).2.2

-- The first vertex on the way down.
theorem Above.child (above : Above parent a b) (other : a ≠ b) : ∃ c, parent c = a ∧ a < c ∧ Above parent c b := by
  induction above with
  | here => exact absurd rfl other
  | @up b some less rest ih =>
      by_cases here : a = parent b
      · exact ⟨b,here.symm,by omega,.here⟩
      · obtain ⟨c,from',below,down⟩ := ih here
        exact ⟨c,from',below,.up some less down⟩

end Ancestors

-- A depth-first numbering of the vertices from 1 to n.
structure SpanningTree (edge : Nat → Nat → Prop) (parent : Nat → Nat) (n : Nat) : Prop where
  inside : ∀ b a, edge b a → 0 < b ∧ b ≤ n ∧ 0 < a ∧ a ≤ n
  up : ∀ b, 1 < b → b ≤ n → 0 < parent b ∧ parent b < b ∧ edge b (parent b)
  forward : ∀ b a, edge b a → a < b → Above parent a b
  between : ∀ a b c, Above parent a c → 0 < a → c ≤ n → a ≤ b → b ≤ c → Above parent a b

-- From a to b over vertices after c.
def Over (edge : Nat → Nat → Prop) (c : Nat) : Nat → Nat → Prop := ReflTransGen fun x y => edge y x ∧ c < y

-- From a to b over vertices after b.
def Semi (edge : Nat → Nat → Prop) (a b : Nat) : Prop := ∃ x, Over edge b a x ∧ edge b x

noncomputable def semidominator (edge : Nat → Nat → Prop) (b : Nat) : Nat := sInf {a | Semi edge a b}

section Paths
variable {edge : Nat → Nat → Prop} {parent : Nat → Nat} {n a b c d x y z : Nat} (tree : SpanningTree edge parent n)

theorem Over.less (upon : Over edge c a b) (less : d ≤ c) : Over edge d a b :=
  ReflTransGen.mono (fun _ _ step => ⟨step.1,Nat.lt_of_le_of_lt less step.2⟩) _ _ upon

theorem Over.or (upon : Over edge c a b) {P : Nat → Nat → Prop} (steps : ∀ x y, edge y x → c < y → P x y) : ReflTransGen P a b :=
  ReflTransGen.mono (fun x y step => steps x y step.1 step.2) _ _ upon

include tree

theorem SpanningTree.down (above : Above parent a b) (last : b ≤ n) : ReflTransGen (fun x y => edge y x ∧ a < y ∧ y ≤ b) a b := by
  induction above with
  | here => exact .refl
  | @up b some less rest ih =>
      have from' := rest.le
      have before : ReflTransGen (fun x y => edge y x ∧ a < y ∧ y ≤ b) a (parent b) :=
        ReflTransGen.mono (fun x y step => ⟨step.1,step.2.1,by omega⟩) _ _ (ih (by omega))
      exact before.tail ⟨(tree.up b (by omega) last).2.2,by omega,Nat.le_refl _⟩

theorem SpanningTree.over (above : Above parent a b) (last : b ≤ n) (less : c ≤ a) : Over edge c a b :=
  ReflTransGen.mono (fun _ _ step => ⟨step.1,Nat.lt_of_le_of_lt less step.2.1⟩) _ _ (tree.down above last)

theorem SpanningTree.parentSemi (less : 1 < b) (last : b ≤ n) : Semi edge (parent b) b := ⟨parent b,.refl,(tree.up b less last).2.2⟩

-- A way over later vertices goes on down the tree and along one more edge.
theorem SpanningTree.semiOn (semi : Semi edge a b) (above : Above parent b x) (on : edge y x) (before : y < b) : Semi edge a y := by
  obtain ⟨z,upon,last⟩ := semi
  obtain ⟨_,_,_,inside⟩ := tree.inside y x on
  refine ⟨x,?_,on⟩
  have down := tree.over above inside (Nat.le_of_lt before)
  exact ((upon.less (Nat.le_of_lt before)).tail ⟨last,before⟩).trans down

/- The step of both arguments about paths: from a vertex that is reached from one before d
in this way, an edge leads to another such vertex or to one before d. -/
theorem SpanningTree.onward (semi : Semi edge a y) (after : d < y) (above : Above parent y x) (on : edge z x) (later : d < z) :
    ∃ y', Semi edge a y' ∧ d < y' ∧ Above parent y' z := by
  obtain ⟨pos,_,posX,lastX⟩ := tree.inside z x on
  by_cases forward : x < z
  · exact ⟨y,semi,after,above.trans (tree.forward z x on forward)⟩
  · by_cases under : y ≤ z
    · exact ⟨y,semi,after,tree.between y z x above (by omega) lastX under (by omega)⟩
    · exact ⟨z,tree.semiOn semi above on (by omega),later,.here⟩

-- A vertex reached over vertices after a has one above it that a is a candidate for.
theorem SpanningTree.firstOver (upon : Over edge b a x) (less : b < x) (start : a ≤ b) : ∃ y, Semi edge a y ∧ b < y ∧ Above parent y x := by
  induction upon with
  | refl => omega
  | @tail x z upon step ih =>
      by_cases again : b < x
      · obtain ⟨y,semi,after,above⟩ := ih again
        exact tree.onward semi after above step.1 step.2
      · rcases ReflTransGen.cases_tail upon with same | ⟨_,_,last⟩
        · exact ⟨z,⟨x,by rw [same]; exact .refl,step.1⟩,step.2,.here⟩
        · exact absurd last.2 again

end Paths

section Semidominator
variable {edge : Nat → Nat → Prop} {parent : Nat → Nat} {n a b u x : Nat} (tree : SpanningTree edge parent n)

theorem semidominatorLeast (semi : Semi edge a b) : semidominator edge b ≤ a := Nat.sInf_le semi

include tree

theorem SpanningTree.semidominatorSemi (less : 1 < b) (last : b ≤ n) : Semi edge (semidominator edge b) b :=
  Nat.sInf_mem (s := {a | Semi edge a b}) ⟨parent b,tree.parentSemi less last⟩

theorem SpanningTree.semidominatorLe (less : 1 < b) (last : b ≤ n) : semidominator edge b ≤ parent b :=
  semidominatorLeast (tree.parentSemi less last)

theorem SpanningTree.semiPos (semi : Semi edge a b) : 0 < a := by
  obtain ⟨x,upon,on⟩ := semi
  rcases ReflTransGen.cases_head upon with here | ⟨y,step,_⟩
  · rw [here]
    exact (tree.inside b x on).2.2.1
  · exact (tree.inside y a step.1).2.2.1

-- A way from a over vertices after b, which is after a, stays below a in the tree.
theorem SpanningTree.semiAbove (semi : Semi edge a b) (less : a < b) : Above parent a b := by
  have pos := tree.semiPos semi
  obtain ⟨x,upon,on⟩ := semi
  have onward : ∀ y z, Above parent a y → edge z y → a < z → Above parent a z := by
    intro y z above step after
    by_cases forward : y < z
    · exact above.trans (tree.forward z y step forward)
    · exact tree.between a z y above pos (tree.inside z y step).2.2.2 (by omega) (by omega)
  have each : ∀ y, Over edge b a y → Above parent a y := by
    intro y upon
    induction upon with
    | refl => exact .here
    | @tail y z _ step ih => exact onward y z ih step.1 (Nat.lt_trans less step.2)
  exact onward x b (each x upon) on less

theorem SpanningTree.semidominatorAbove (less : 1 < b) (last : b ≤ n) : Above parent (semidominator edge b) b :=
  tree.semiAbove (tree.semidominatorSemi less last) (Nat.lt_of_le_of_lt (tree.semidominatorLe less last) (tree.up b less last).2.1)

theorem SpanningTree.semidominatorBelow (less : 1 < b) (last : b ≤ n) : semidominator edge b < b :=
  Nat.lt_of_le_of_lt (tree.semidominatorLe less last) (tree.up b less last).2.1

-- A later vertex above one with an edge to b.
theorem SpanningTree.semidominatorThrough (on : edge b x) (above : Above parent u x) (later : b < u) : semidominator edge b ≤ semidominator edge u := by
  have last := above.le
  obtain ⟨pos,_,_,inside⟩ := tree.inside b x on
  exact semidominatorLeast (tree.semiOn (tree.semidominatorSemi (b := u) (by omega) (by omega)) above on later)

-- A semidominator has an edge to its vertex or is one of a later vertex as before.
theorem SpanningTree.semidominatorFrom (less : 1 < b) (last : b ≤ n) :
    edge b (semidominator edge b) ∨ ∃ x u, edge b x ∧ Above parent u x ∧ b < u ∧ semidominator edge u ≤ semidominator edge b := by
  have below := tree.semidominatorBelow less last
  obtain ⟨x,upon,on⟩ := tree.semidominatorSemi less last
  by_cases later : b < x
  · obtain ⟨u,semi,after,above⟩ := tree.firstOver upon later (Nat.le_of_lt below)
    exact .inr ⟨x,u,on,above,after,semidominatorLeast semi⟩
  · rcases ReflTransGen.cases_tail upon with same | ⟨_,_,step⟩
    · exact .inl (same ▸ on)
    · exact absurd step.2 later

end Semidominator

section Dominance
variable {edge : Nat → Nat → Prop} {parent : Nat → Nat} {n a b d e s u w x y : Nat} (tree : SpanningTree edge parent n)

theorem pathOn {path : List Nat} (run : ExitPath edge 1 a path) (avoids : d ∉ path) (on : ReflTransGen (fun x y => edge y x ∧ y ≠ d) a b) :
    ∃ path', ExitPath edge 1 b path' ∧ d ∉ path' := by
  induction on with
  | refl => exact ⟨path,run,avoids⟩
  | @tail x y _ step ih =>
      obtain ⟨path',run',avoids'⟩ := ih
      exact ⟨y::path',.step step.1 run',List.not_mem_cons_of_ne_of_not_mem (Ne.symm step.2) avoids'⟩

include tree

theorem SpanningTree.reaches (w : Nat) (pos : 0 < w) (last : w ≤ n) : ∃ path, ExitPath edge 1 w path ∧ ∀ x ∈ path, 0 < x ∧ Above parent x w := by
  induction w using Nat.strongRecOn with
  | ind w ih =>
      by_cases first : w = 1
      · rw [first]
        exact ⟨[1],.stop,fun x on => by rw [List.mem_singleton.mp on]; exact ⟨Nat.one_pos,.here⟩⟩
      · obtain ⟨some,less,on⟩ := tree.up w (by omega) last
        obtain ⟨path,run,inside⟩ := ih (parent w) less some (by omega)
        refine ⟨w::path,.step on run,fun x member => ?_⟩
        rcases List.mem_cons.mp member with here | later
        · rw [here]
          exact ⟨pos,.here⟩
        · exact ⟨(inside x later).1,.up some less (inside x later).2⟩

theorem SpanningTree.dominatorAbove (pos : 0 < w) (last : w ≤ n) (dominates : PostDominates edge 1 d w) : 0 < d ∧ Above parent d w := by
  obtain ⟨path,run,inside⟩ := tree.reaches w pos last
  exact inside d (dominates path run)

/- A vertex above w dominates w exactly if no vertex strictly below it and down to w has a
semidominator before it. -/
theorem SpanningTree.dominatesIff (above : Above parent d w) (pos : 0 < d) (last : w ≤ n) :
    PostDominates edge 1 d w ↔ ∀ y, Above parent d y → d ≠ y → Above parent y w → d ≤ semidominator edge y := by
  constructor
  · intro dominates y upon apart under
    by_contra before
    have after := upon.le
    have upTo := under.le
    have semi := tree.semidominatorSemi (b := y) (by omega) (by omega)
    have first := tree.semiPos semi
    obtain ⟨x,ways,on⟩ := semi
    have lastS : semidominator edge y ≤ n := by omega
    obtain ⟨path,run,avoids⟩ : ∃ path, ExitPath edge 1 (semidominator edge y) path ∧ d ∉ path := by
      obtain ⟨path,run,inside⟩ := tree.reaches (semidominator edge y) first lastS
      exact ⟨path,run,fun member => before (inside d member).2.le⟩
    have toX : ReflTransGen (fun x y => edge y x ∧ y ≠ d) (semidominator edge y) x := ways.or fun a b on later => ⟨on,by omega⟩
    have toY : ReflTransGen (fun x y => edge y x ∧ y ≠ d) (semidominator edge y) y := toX.tail ⟨on,Ne.symm apart⟩
    have toW := toY.trans ((tree.over under last (Nat.le_refl y)).or (P := fun x y => edge y x ∧ y ≠ d) fun a b on later => ⟨on,by omega⟩)
    obtain ⟨path',run',avoids'⟩ := pathOn run avoids toW
    exact avoids' (dominates path' run')
  · intro least path run
    by_contra avoids
    have each : ∀ z path, ExitPath edge 1 z path → d ∉ path → z < d ∨ ∃ x y, Semi edge x y ∧ x < d ∧ d < y ∧ Above parent y z := by
      intro z path run
      induction run with
      | stop =>
          intro avoids
          have notRoot : d ≠ 1 := fun same => avoids (same ▸ List.mem_singleton_self _)
          exact .inl (by omega)
      | @step z s path on _ ih =>
          intro avoids
          have notHere : d ≠ z := fun same => avoids (same ▸ List.mem_cons_self)
          by_cases before : z < d
          · exact .inl before
          · rcases ih fun member => avoids (List.mem_cons_of_mem _ member) with less | ⟨x,y,semi,less,after,upon⟩
            · exact .inr ⟨s,z,⟨s,.refl,on⟩,less,by omega,.here⟩
            · obtain ⟨y',semi',after',upon'⟩ := tree.onward semi after upon on (by omega)
              exact .inr ⟨x,y',semi',less,after',upon'⟩
    have order := above.le
    rcases each w path run avoids with less | ⟨x,y,semi,less,after,upon⟩
    · omega
    · have between := least y (above.linear upon (Nat.le_of_lt after)) (Nat.ne_of_lt after) upon
      have := semidominatorLeast semi
      omega

-- The greatest strict dominator is the immediate one.
theorem SpanningTree.immediate (pos : 0 < d) (last : w ≤ n) (above : Above parent d w) (other : d ≠ w) (dominates : PostDominates edge 1 d w)
    (greatest : ∀ e, Strictly edge 1 e w → e ≤ d) : Immediate edge 1 d w := by
  refine ⟨⟨dominates,other⟩,fun e strictly => ?_⟩
  have order := above.le
  obtain ⟨posE,aboveE⟩ := tree.dominatorAbove (by omega) last strictly.1
  have upon := aboveE.linear above (greatest e strictly)
  have all := (tree.dominatesIff aboveE posE last).mp strictly.1
  exact (tree.dominatesIff upon posE (by omega)).mpr fun y up apart down => all y up apart (down.trans above)

theorem SpanningTree.strictAbove (less : 1 < w) (last : w ≤ n) (strictly : Strictly edge 1 e w) : 0 < e ∧ Above parent e (semidominator edge w) := by
  obtain ⟨pos,above⟩ := tree.dominatorAbove (by omega) last strictly.1
  have before := (tree.dominatesIff above pos last).mp strictly.1 w above strictly.2 .here
  exact ⟨pos,above.linear (tree.semidominatorAbove less last) before⟩

-- No vertex between has a lower semidominator: this one dominates.
theorem SpanningTree.immediateSemidominator (less : 1 < w) (last : w ≤ n)
    (least : ∀ y, Above parent (semidominator edge w) y → semidominator edge w ≠ y → Above parent y w → semidominator edge w ≤ semidominator edge y) :
    Immediate edge 1 (semidominator edge w) w := by
  have above := tree.semidominatorAbove less last
  have below := tree.semidominatorLe less last
  have parentLess := (tree.up w less last).2.1
  have pos := tree.semiPos (tree.semidominatorSemi less last)
  exact tree.immediate pos last above (by omega) ((tree.dominatesIff above pos last).mpr least) fun e strictly => (tree.strictAbove less last strictly).2.le

-- Otherwise the vertex with the lowest one has the same immediate dominator.
theorem SpanningTree.immediateShared (less : 1 < w) (last : w ≤ n) (above : Above parent (semidominator edge w) u) (apart : semidominator edge w ≠ u)
    (under : Above parent u w) (lower : semidominator edge u < semidominator edge w)
    (least : ∀ y, Above parent (semidominator edge w) y → semidominator edge w ≠ y → Above parent y w → semidominator edge u ≤ semidominator edge y)
    (immediate : Immediate edge 1 d u) : Immediate edge 1 d w := by
  have lastU := under.le
  have fromU := above.le
  have posW := tree.semiPos (tree.semidominatorSemi less last)
  have lessU : 1 < u := by omega
  obtain ⟨pos,strictU⟩ := tree.strictAbove lessU (by omega) immediate.1
  have beforeU := strictU.le
  have aboveU := (tree.dominatorAbove (by omega) (by omega) immediate.1.1).2
  have aboveW := aboveU.trans under
  have overSemi : Above parent d (semidominator edge w) := aboveW.linear (tree.semidominatorAbove less last) (by omega)
  have allU := (tree.dominatesIff aboveU pos (by omega)).mp immediate.1.1
  refine tree.immediate pos last aboveW (by have := tree.semidominatorLe less last; have := tree.up w less last; omega) ?_ fun e strictly => ?_
  · refine (tree.dominatesIff aboveW pos last).mpr fun y up other down => ?_
    rcases Nat.lt_or_ge (semidominator edge w) y with after | before
    · have := least y ((tree.semidominatorAbove less last).linear down (Nat.le_of_lt after)) (Nat.ne_of_lt after) down
      omega
    · exact allU y up other ((down.linear (tree.semidominatorAbove less last) before).trans above)
  · obtain ⟨posE,strictE⟩ := tree.strictAbove less last strictly
    have aboveE := strictE.trans above
    have beforeE := strictE.le
    have allW := (tree.dominatesIff (aboveE.trans under) posE last).mp strictly.1
    have dominates := (tree.dominatesIff aboveE posE (by omega)).mpr fun y up other down => allW y up other (down.trans under)
    exact (tree.dominatorAbove pos (by omega) (immediate.2 e ⟨dominates,by omega⟩)).2.le

end Dominance

end OmrCompiler.Semidominators
