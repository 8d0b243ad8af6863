import Mathlib.Data.Finset.Sort
import Mathlib.Data.Set.Card
import OmrCompiler.PostDominance

/-! Control dependence: findControlDependents and numberOfBlocksControlled of
TR_PostDominators (Dominators.cpp). -/
namespace OmrCompiler.ControlDependents
open PostDominance

-- The blocks are those that getNextBlock() reaches from the start block.
structure FlowGraph where
  successors : Nat → List Nat
  exceptionSuccessors : Nat → List Nat
  blocks : List Nat
  exit : Nat

def FlowGraph.edge (g : FlowGraph) (a s : Nat) : Prop := s ∈ g.successors a ∨ s ∈ g.exceptionSuccessors a

section Model
variable (getDominator : Nat → Option Nat) (g : FlowGraph)

-- while (p != getDominator(block)); a null p has no number.
def climb (stop : Option Nat) : Nat → Option Nat → Finset Nat → Option (Finset Nat)
  | 0,_,_ => none
  | fuel + 1,p,bv =>
      if p = stop then some bv
      else do
        let block ← p
        climb stop fuel (getDominator block) (insert block bv)

def addDependents (fuel : Nat) (block : Nat) (bv : Finset Nat) : Option (Finset Nat) :=
  (g.successors block).foldlM (fun bv to' => climb getDominator (getDominator block) fuel (some to') bv) bv

def findControlDependents (fuel : Nat) : Option (Nat → Finset Nat) :=
  g.blocks.foldlM (fun table block => do
    let bv ← addDependents getDominator g fuel block (table block)
    some (Function.update table block bv)) fun _ => ∅

end Model

section Counts
variable (directControlDependents : Nat → Finset Nat)

def countBlocksControlled : Nat → Nat → Finset Nat → Option (Nat × Finset Nat)
  | 0,_,_ => none
  | fuel + 1,block,seen =>
      ((directControlDependents block).sort).foldlM (fun found i =>
        if i ∈ found.2 then some found
        else do
          let counted ← countBlocksControlled fuel i (insert i found.2)
          some (found.1 + 1 + counted.1,counted.2)) (0,seen)

def numberOfBlocksControlled (fuel block : Nat) : Option Nat := (countBlocksControlled directControlDependents fuel block ∅).map Prod.fst

end Counts

-- A valid flow graph and its immediate post-dominators; the exit block has no trees and is not in the chain of blocks.
structure Valid (g : FlowGraph) (getDominator : Nat → Option Nat) : Prop where
  exitLast : ∀ s, ¬ g.edge g.exit s
  exitApart : g.exit ∉ g.blocks
  closed : ∀ a ∈ g.blocks, ∀ s, g.edge a s → s ∈ g.blocks ∨ s = g.exit
  reaches : ∀ a ∈ g.blocks, Reaches g.edge g.exit a
  tree : Tree g.edge g.exit getDominator

-- A normal successor of a has to pass b, and a itself need not.
def Controls (g : FlowGraph) (a b : Nat) : Prop := ∃ s ∈ g.successors a, PostDominates g.edge g.exit b s ∧ ¬ Strictly g.edge g.exit b a

section Climbs
variable {g : FlowGraph} {getDominator : Nat → Option Nat} (valid : Valid g getDominator)
include valid

theorem climbMembers {stop : Option Nat} : ∀ (fuel a : Nat) (path : List Nat) (bv : Finset Nat), ExitPath g.edge g.exit a path → path.length < fuel →
    (∀ d, stop = some d → PostDominates g.edge g.exit d a) → ∃ bv', climb getDominator stop fuel (some a) bv = some bv' ∧
      ∀ b, b ∈ bv' ↔ b ∈ bv ∨ PostDominates g.edge g.exit b a ∧ ∀ d, stop = some d → ¬ PostDominates g.edge g.exit b d := by
  intro fuel
  induction fuel with
  | zero => intro a path bv _ more; omega
  | succ fuel ih =>
      intro a path bv run more above
      by_cases here : some a = stop
      · refine ⟨bv,by rw [climb,if_pos here],fun b => ⟨.inl,fun which => ?_⟩⟩
        rcases which with on | ⟨dominates,off⟩
        · exact on
        · exact absurd dominates (off a here.symm)
      · have other : ∀ d, stop = some d → ¬ PostDominates g.edge g.exit a d := by
          intro d same back
          have equal := PostDominates.antisymm (above d same) back ⟨path,run⟩
          exact here (equal ▸ same.symm)
        rw [climb,if_neg here]
        simp only [Option.bind_eq_bind,Option.bind_some]
        by_cases isExit : a = g.exit
        · subst isExit
          have noStop : stop = none := by
            cases stop with
            | none => rfl
            | some d =>
                have same := (onlyExit valid.exitLast).mp (above d rfl)
                exact absurd (congrArg some same.symm) here
          obtain ⟨fuel,rfl⟩ : ∃ k, fuel = k + 1 := ⟨fuel - 1,by have := List.length_pos_of_mem run.head; omega⟩
          refine ⟨insert g.exit bv,by rw [valid.tree.root,climb,if_pos noStop.symm],fun b => ?_⟩
          rw [Finset.mem_insert,onlyExit valid.exitLast,noStop]
          simp [or_comm]
        · obtain ⟨d,found,immediate⟩ := valid.tree.immediate a ⟨path,run⟩ isExit
          obtain ⟨tail,runs,_,_,less⟩ := run.rest (immediate.1.1 path run)
          have shorter := less immediate.1.2
          have aboveD : ∀ c, stop = some c → PostDominates g.edge g.exit c d := by
            intro c same
            refine immediate.2 c ⟨above c same,?_⟩
            rintro rfl
            exact other c same (.refl c)
          obtain ⟨bv',ran,members⟩ := ih d tail (insert a bv) runs (by omega) aboveD
          refine ⟨bv',by rw [found,ran],fun b => ?_⟩
          rw [members,Finset.mem_insert,immediate.least]
          constructor
          · rintro ((rfl | on) | ⟨up,off⟩)
            · exact .inr ⟨.inl rfl,other⟩
            · exact .inl on
            · exact .inr ⟨.inr up,off⟩
          · rintro (on | ⟨rfl | up,off⟩)
            · exact .inl (.inr on)
            · exact .inl (.inl rfl)
            · exact .inr ⟨up,off⟩

theorem dependentsMembers {a fuel : Nat} (start : Finset Nat) (block : a ∈ g.blocks) (near : ∀ s, g.edge a s → ∃ path, ExitPath g.edge g.exit s path ∧ path.length < fuel) :
    ∃ bv, addDependents getDominator g fuel a start = some bv ∧ ∀ b, b ∈ bv ↔ b ∈ start ∨ Controls g a b := by
  have isBlock : a ≠ g.exit := fun same => valid.exitApart (same ▸ block)
  obtain ⟨d,found,immediate⟩ := valid.tree.immediate a (valid.reaches a block) isBlock
  have each : ∀ (list : List Nat) (bv : Finset Nat), (∀ s ∈ list, s ∈ g.successors a) → ∃ bv',
      list.foldlM (fun bv to' => climb getDominator (getDominator a) fuel (some to') bv) bv = some bv' ∧
      ∀ b, b ∈ bv' ↔ b ∈ bv ∨ ∃ s ∈ list, PostDominates g.edge g.exit b s ∧ ¬ Strictly g.edge g.exit b a := by
    intro list
    induction list with
    | nil => exact fun bv _ => ⟨bv,rfl,fun b => by simp⟩
    | cons s rest ih =>
        intro bv inside
        have on : g.edge a s := .inl (inside s List.mem_cons_self)
        obtain ⟨path,run,short⟩ := near s on
        have above : ∀ c, getDominator a = some c → PostDominates g.edge g.exit c s := by
          intro c same
          rw [found] at same
          exact Option.some.inj same ▸ immediate.1.next on
        obtain ⟨middle,ran,members⟩ := climbMembers valid fuel s path bv run short above
        obtain ⟨bv',runs,all⟩ := ih middle fun t onRest => inside t (List.mem_cons_of_mem _ onRest)
        refine ⟨bv',?_,fun b => ?_⟩
        · rw [List.foldlM_cons,ran]
          exact runs
        · have strict : (∀ c, getDominator a = some c → ¬ PostDominates g.edge g.exit b c) ↔ ¬ Strictly g.edge g.exit b a := by
            rw [immediate.strict (valid.reaches a block),found]
            simp
          rw [all,members,strict]
          simp only [List.mem_cons,exists_eq_or_imp]
          rw [or_assoc]
  exact each (g.successors a) start fun _ on => on

theorem nearSuccessors : ∃ n, ∀ a ∈ g.blocks, ∀ s, g.edge a s → ∃ path, ExitPath g.edge g.exit s path ∧ path.length < n := by
  obtain ⟨n,near⟩ := @nearExit _ g.edge g.exit (g.exit::g.blocks) fun a on => by
    rcases List.mem_cons.mp on with rfl | on
    · exact ⟨[g.exit],.stop⟩
    · exact valid.reaches a on
  refine ⟨n,fun a block s on => near s ?_⟩
  rcases valid.closed a block s on with inside | rfl
  · exact List.mem_cons_of_mem _ inside
  · exact List.mem_cons_self

-- The table that findControlDependents leaves, with enough fuel.
theorem tableMembers : ∃ enough, ∀ fuel, enough ≤ fuel → ∃ table, findControlDependents getDominator g fuel = some table ∧
    (∀ a ∈ g.blocks, ∀ b, b ∈ table a ↔ Controls g a b) ∧ ∀ a, a ∉ g.blocks → table a = ∅ := by
  obtain ⟨n,near⟩ := nearSuccessors valid
  refine ⟨n,fun fuel more => ?_⟩
  have each : ∀ (list : List Nat) (table : Nat → Finset Nat), (∀ a ∈ list, a ∈ g.blocks) → ∃ table',
      list.foldlM (fun table block => do
        let bv ← addDependents getDominator g fuel block (table block)
        some (Function.update table block bv)) table = some table' ∧ ∀ a b, b ∈ table' a ↔ b ∈ table a ∨ a ∈ list ∧ Controls g a b := by
    intro list
    induction list with
    | nil => exact fun table _ => ⟨table,rfl,fun a b => by simp⟩
    | cons block rest ih =>
        intro table inside
        have onBlock := inside block List.mem_cons_self
        obtain ⟨bv,ran,members⟩ := dependentsMembers valid (table block) onBlock fun s on => by
          obtain ⟨path,run,short⟩ := near block onBlock s on
          exact ⟨path,run,Nat.lt_of_lt_of_le short more⟩
        obtain ⟨table',runs,all⟩ := ih (Function.update table block bv) fun a on => inside a (List.mem_cons_of_mem _ on)
        refine ⟨table',?_,fun a b => ?_⟩
        · rw [List.foldlM_cons]
          simp only [ran,Option.bind_eq_bind,Option.bind_some]
          exact runs
        · rw [all,Function.update_apply,List.mem_cons]
          by_cases here : a = block
          · subst here
            rw [if_pos rfl,members]
            tauto
          · simp [here]
  obtain ⟨table,ran,members⟩ := each g.blocks (fun _ => ∅) fun _ on => on
  refine ⟨table,ran,fun a block b => ?_,fun a outside => Finset.eq_empty_of_forall_notMem fun b on => ?_⟩
  · rw [members]
    simp [block]
  · rcases (members a b).mp on with on | ⟨inside,_⟩
    · exact absurd on (Finset.notMem_empty b)
    · exact outside inside

theorem controlsInside {a b : Nat} (block : a ∈ g.blocks) (controls : Controls g a b) : b ∈ g.blocks := by
  obtain ⟨s,on,dominates,notStrict⟩ := controls
  have isExit : ∀ c path, ExitPath g.edge g.exit c path → (c ∈ g.blocks ∨ c = g.exit) → ∀ d ∈ path, d ∈ g.blocks ∨ d = g.exit := by
    intro c path run
    induction run with
    | stop => exact fun which d onPath => .inr (List.mem_singleton.mp onPath)
    | @step c t path edgeOn run ih =>
        intro which d onPath
        rcases List.mem_cons.mp onPath with rfl | onPath
        · exact which
        · refine ih ?_ d onPath
          rcases which with inside | rfl
          · exact valid.closed c inside t edgeOn
          · exact absurd edgeOn (valid.exitLast t)
  have inside := valid.closed a block s (.inl on)
  have reaches : Reaches g.edge g.exit s := by
    rcases inside with inside | rfl
    · exact valid.reaches s inside
    · exact ⟨[g.exit],.stop⟩
  obtain ⟨path,run⟩ := reaches
  refine (isExit s path run inside b (dominates path run)).resolve_right ?_
  rintro rfl
  exact notStrict ⟨.exitAbove a,fun same => valid.exitApart (same ▸ block)⟩

end Climbs

section Search
variable {table : Nat → Finset Nat} {universe_ : Finset Nat}

-- What a search from the given vertices adds to what was seen.
structure Searched (table : Nat → Finset Nat) (from_ : Nat → Prop) (seen : Finset Nat) (number : Nat) (seen' : Finset Nat) : Prop where
  grows : seen ⊆ seen'
  counted : number + seen.card = seen'.card
  reached : ∀ x ∈ seen', x ∉ seen → ∃ i, from_ i ∧ Relation.ReflTransGen (fun a b => b ∈ table a) i x
  start : ∀ i, from_ i → i ∈ seen'
  closed : ∀ x ∈ seen', x ∉ seen → table x ⊆ seen'

theorem searchMembers (inside : ∀ i, table i ⊆ universe_) : ∀ (fuel block : Nat) (seen : Finset Nat), (universe_ \ seen).card < fuel →
    ∃ number seen', countBlocksControlled table fuel block seen = some (number,seen') ∧ Searched table (· ∈ table block) seen number seen' := by
  intro fuel
  induction fuel with
  | zero => intro block seen more; omega
  | succ fuel ih =>
      intro block seen more
      have each : ∀ (list : List Nat) (number : Nat) (seen : Finset Nat), (∀ i ∈ list, i ∈ universe_) → (universe_ \ seen).card < fuel + 1 →
          ∃ number' seen', list.foldlM (fun found i =>
            if i ∈ found.2 then some found
            else do
              let counted ← countBlocksControlled table fuel i (insert i found.2)
              some (found.1 + 1 + counted.1,counted.2)) (number,seen) = some (number + number',seen') ∧ Searched table (· ∈ list) seen number' seen' := by
        intro list
        induction list with
        | nil => exact fun number seen _ _ => ⟨0,seen,rfl,fun _ on => on,Nat.zero_add _,fun x on off => absurd on off,fun i on => absurd on List.not_mem_nil,fun x on off => absurd on off⟩
        | cons i rest next =>
            intro number seen within more
            by_cases old : i ∈ seen
            · obtain ⟨number',seen',ran,searched⟩ := next number seen (fun j on => within j (List.mem_cons_of_mem _ on)) more
              refine ⟨number',seen',by rw [List.foldlM_cons]; simpa [old] using ran,searched.grows,searched.counted,fun x on off => ?_,fun j on => ?_,searched.closed⟩
              · obtain ⟨j,onRest,path⟩ := searched.reached x on off
                exact ⟨j,List.mem_cons_of_mem _ onRest,path⟩
              · rcases List.mem_cons.mp on with rfl | on
                · exact searched.grows old
                · exact searched.start j on
            · have less : (universe_ \ insert i seen).card < (universe_ \ seen).card := by
                refine Finset.card_lt_card ⟨Finset.sdiff_subset_sdiff (Finset.Subset.refl _) (Finset.subset_insert i seen),fun back => ?_⟩
                have on : i ∈ universe_ \ seen := Finset.mem_sdiff.mpr ⟨within i List.mem_cons_self,old⟩
                exact (Finset.mem_sdiff.mp (back on)).2 (Finset.mem_insert_self i seen)
              obtain ⟨below,middle,counted,inner⟩ := ih i (insert i seen) (by omega)
              have shrinks : (universe_ \ middle).card ≤ (universe_ \ seen).card :=
                Finset.card_le_card (Finset.sdiff_subset_sdiff (Finset.Subset.refl _) ((Finset.subset_insert i seen).trans inner.grows))
              obtain ⟨number',seen',ran,outer⟩ := next (number + 1 + below) middle (fun j on => within j (List.mem_cons_of_mem _ on)) (by omega)
              have added := Finset.card_insert_of_notMem old
              have first := inner.counted
              have second := outer.counted
              refine ⟨1 + below + number',seen',?_,?_,by omega,fun x on off => ?_,fun j on => ?_,fun x on off => ?_⟩
              · have sum : number + 1 + below + number' = number + (1 + below + number') := by omega
                rw [sum] at ran
                rw [List.foldlM_cons]
                simp only [old,↓reduceIte,counted,Option.bind_eq_bind,Option.bind_some]
                exact ran
              · exact (Finset.subset_insert i seen).trans (inner.grows.trans outer.grows)
              · by_cases onMiddle : x ∈ middle
                · by_cases same : x = i
                  · exact ⟨i,List.mem_cons_self,same ▸ .refl⟩
                  · obtain ⟨j,onTable,path⟩ := inner.reached x onMiddle (by simp [same,off])
                    exact ⟨i,List.mem_cons_self,.head onTable path⟩
                · obtain ⟨j,onRest,path⟩ := outer.reached x on onMiddle
                  exact ⟨j,List.mem_cons_of_mem _ onRest,path⟩
              · rcases List.mem_cons.mp on with rfl | on
                · exact outer.grows (inner.grows (Finset.mem_insert_self _ _))
                · exact outer.start j on
              · by_cases onMiddle : x ∈ middle
                · by_cases same : x = i
                  · exact same ▸ fun y onY => outer.grows (inner.start y onY)
                  · exact (inner.closed x onMiddle (by simp [same,off])).trans outer.grows
                · exact outer.closed x on onMiddle
      obtain ⟨number,seen',ran,searched⟩ := each (table block).sort 0 seen (fun i on => inside block ((Finset.mem_sort _).mp on)) more
      rw [Nat.zero_add] at ran
      refine ⟨number,seen',ran,searched.grows,searched.counted,fun x on off => ?_,fun i on => searched.start i ((Finset.mem_sort _).mpr on),searched.closed⟩
      obtain ⟨i,onSort,path⟩ := searched.reached x on off
      exact ⟨i,(Finset.mem_sort _).mp onSort,path⟩

-- The number of blocks is the size of the transitive closure.
theorem numberCounts (inside : ∀ i, table i ⊆ universe_) {fuel : Nat} (more : universe_.card < fuel) (block : Nat) :
    numberOfBlocksControlled table fuel block = some (Set.ncard {b | Relation.TransGen (fun a b => b ∈ table a) block b}) := by
  obtain ⟨number,seen,ran,searched⟩ := searchMembers inside fuel block ∅ (by rwa [Finset.sdiff_empty])
  have members : ∀ b, b ∈ seen ↔ Relation.TransGen (fun a b => b ∈ table a) block b := by
    intro b
    refine ⟨fun on => ?_,fun path => ?_⟩
    · obtain ⟨i,onTable,path⟩ := searched.reached b on (Finset.notMem_empty b)
      exact .head' onTable path
    · induction path with
      | single on => exact searched.start _ on
      | tail _ on ih => exact searched.closed _ ih (Finset.notMem_empty _) on
  have set : {b | Relation.TransGen (fun a b => b ∈ table a) block b} = (seen : Set Nat) := by
    ext b
    exact (members b).symm
  rw [numberOfBlocksControlled,ran,set,Set.ncard_coe_finset,← searched.counted]
  rfl

end Search

section Dependence
variable {g : FlowGraph} {getDominator : Nat → Option Nat}

-- The sets of findControlDependents are the control dependents, and the counts those of the transitive closure.
theorem controlDependence (valid : Valid g getDominator) : ∃ enough, ∀ fuel, enough ≤ fuel → ∃ table, findControlDependents getDominator g fuel = some table ∧
    (∀ a ∈ g.blocks, ∀ b, b ∈ table a ↔ Controls g a b) ∧
    ∀ a ∈ g.blocks, numberOfBlocksControlled table fuel a = some (Set.ncard {b | Relation.TransGen (Controls g) a b}) := by
  obtain ⟨enough,tables⟩ := tableMembers valid
  refine ⟨max enough (g.blocks.toFinset.card + 1),fun fuel more => ?_⟩
  obtain ⟨table,ran,members,none⟩ := tables fuel (by omega)
  refine ⟨table,ran,members,fun a block => ?_⟩
  have inside : ∀ i, table i ⊆ g.blocks.toFinset := by
    intro i b on
    by_cases isBlock : i ∈ g.blocks
    · exact List.mem_toFinset.mpr (controlsInside valid isBlock ((members i isBlock b).mp on))
    · rw [none i isBlock] at on
      exact absurd on (Finset.notMem_empty b)
  rw [numberCounts inside (by omega) a]
  congr 2
  ext b
  refine ⟨fun path => ?_,fun path => ?_⟩
  · have both : Relation.TransGen (Controls g) a b ∧ b ∈ g.blocks := by
      induction path with
      | single on => exact ⟨.single ((members a block _).mp on),controlsInside valid block ((members a block _).mp on)⟩
      | @tail c d _ on ih =>
          have controls := (members c ih.2 d).mp on
          exact ⟨ih.1.tail controls,controlsInside valid ih.2 controls⟩
    exact both.1
  · have both : Relation.TransGen (fun a b => b ∈ table a) a b ∧ b ∈ g.blocks := by
      induction path with
      | single controls => exact ⟨.single ((members a block _).mpr controls),controlsInside valid block controls⟩
      | @tail c d _ controls ih => exact ⟨ih.1.tail ((members c ih.2 d).mpr controls),controlsInside valid ih.2 controls⟩
    exact both.1

-- A block that may branch to itself, followed by one that returns.
def sampleGraph : FlowGraph := ⟨fun a => if a = 2 then [2,3] else if a = 3 then [1] else [],fun _ => [],[2,3],1⟩

def sampleDominator (a : Nat) : Option Nat := if a = 2 then some 3 else if a = 3 then some 1 else none

theorem sampleEdge {a s : Nat} (on : sampleGraph.edge a s) : a = 2 ∧ (s = 2 ∨ s = 3) ∨ a = 3 ∧ s = 1 := by
  simp only [FlowGraph.edge,sampleGraph,List.not_mem_nil,or_false] at on
  split at on
  · exact .inl ⟨‹_›,by simpa using on⟩
  · split at on
    · exact .inr ⟨‹_›,by simpa using on⟩
    · cases on

theorem samplePath : ExitPath sampleGraph.edge 1 2 [2,3,1] ∧ ExitPath sampleGraph.edge 1 3 [3,1] :=
  ⟨.step (.inl (by decide)) (.step (.inl (by decide)) .stop),.step (.inl (by decide)) .stop⟩

theorem sampleAbove : PostDominates sampleGraph.edge 1 3 2 := by
  have onward : ∀ a path, ExitPath sampleGraph.edge 1 a path → a = 2 → 3 ∈ path := by
    intro a path run
    induction run with
    | stop => exact fun same => absurd same (by decide)
    | step on run ih =>
        rintro rfl
        rcases sampleEdge on with ⟨_,rfl | rfl⟩ | ⟨same,_⟩
        · exact List.mem_cons_of_mem _ (ih rfl)
        · exact List.mem_cons_of_mem _ run.head
        · exact absurd same (by decide)
  exact fun path run => onward 2 path run rfl

theorem sampleValid : Valid sampleGraph sampleDominator := by
  refine ⟨fun s on => ?_,by decide,fun a _ s on => ?_,fun a on => ?_,rfl,fun a reaches other => ?_⟩
  · rcases sampleEdge on with ⟨same,_⟩ | ⟨same,_⟩ <;> exact absurd same (by decide)
  · rcases sampleEdge on with ⟨_,rfl | rfl⟩ | ⟨_,rfl⟩ <;> decide
  · have which : a = 2 ∨ a = 3 := by simpa [sampleGraph] using on
    rcases which with rfl | rfl
    · exact ⟨_,samplePath.1⟩
    · exact ⟨_,samplePath.2⟩
  · obtain ⟨path,run⟩ := reaches
    cases run with
    | stop => exact absurd rfl other
    | step on run =>
        rcases sampleEdge on with ⟨rfl,_⟩ | ⟨rfl,_⟩
        · refine ⟨3,rfl,⟨sampleAbove,by decide⟩,fun c strictly => ?_⟩
          have member := strictly.1 _ samplePath.1
          have apart := strictly.2
          have which : c = 3 ∨ c = 1 := by
            simp only [List.mem_cons,List.not_mem_nil,or_false] at member
            omega
          rcases which with rfl | rfl
          · exact .refl 3
          · exact .exitAbove 3
        · refine ⟨1,rfl,⟨.exitAbove 3,by decide⟩,fun c strictly => ?_⟩
          have member := strictly.1 _ samplePath.2
          have apart := strictly.2
          have which : c = 1 := by
            simp only [List.mem_cons,List.not_mem_nil,or_false] at member
            omega
          subst which
          exact .refl 1

-- The loop controls itself.
theorem controlDependenceSample : ∃ enough, ∀ fuel, enough ≤ fuel → ∃ table, findControlDependents sampleDominator sampleGraph fuel = some table ∧ 2 ∈ table 2 := by
  obtain ⟨enough,tables⟩ := controlDependence sampleValid
  refine ⟨enough,fun fuel more => ?_⟩
  obtain ⟨table,ran,members,_⟩ := tables fuel more
  exact ⟨table,ran,(members 2 (by decide) 2).mpr ⟨2,by decide,.refl 2,fun strictly => strictly.2 rfl⟩⟩

end Dependence

end OmrCompiler.ControlDependents
