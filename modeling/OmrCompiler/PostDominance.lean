import Mathlib.Tactic.ByContra

/-! Post-dominance in a graph with one exit: paths to the exit, the order of the post-dominators
of a vertex, and the tree of immediate post-dominators climbed from a vertex. -/
namespace OmrCompiler.PostDominance

variable {α : Type} {edge : α → α → Prop} {exit a b c d s : α} {path : List α}

inductive ExitPath (edge : α → α → Prop) (exit : α) : α → List α → Prop where
  | stop : ExitPath edge exit exit [exit]
  | step {a s : α} {path : List α} (on : edge a s) (rest : ExitPath edge exit s path) : ExitPath edge exit a (a::path)

def Reaches (edge : α → α → Prop) (exit a : α) : Prop := ∃ path, ExitPath edge exit a path

def PostDominates (edge : α → α → Prop) (exit b a : α) : Prop := ∀ path, ExitPath edge exit a path → b ∈ path

def Strictly (edge : α → α → Prop) (exit b a : α) : Prop := PostDominates edge exit b a ∧ b ≠ a

-- d is the least strict post-dominator of a.
def Immediate (edge : α → α → Prop) (exit d a : α) : Prop := Strictly edge exit d a ∧ ∀ c, Strictly edge exit c a → PostDominates edge exit c d

theorem ExitPath.head (run : ExitPath edge exit a path) : a ∈ path := by
  cases run with
  | stop => exact List.mem_cons_self
  | step _ _ => exact List.mem_cons_self

theorem ExitPath.last (run : ExitPath edge exit a path) : exit ∈ path := by
  induction run with
  | stop => exact List.mem_cons_self
  | step _ _ ih => exact List.mem_cons_of_mem _ ih

-- From any vertex of a path, what is left of it.
theorem ExitPath.rest (run : ExitPath edge exit a path) (on : b ∈ path) :
    ∃ tail, ExitPath edge exit b tail ∧ (∀ c ∈ tail, c ∈ path) ∧ tail.length ≤ path.length ∧ (b ≠ a → tail.length < path.length) := by
  induction run with
  | stop =>
      obtain rfl := List.mem_singleton.mp on
      exact ⟨[b],.stop,fun _ h => h,Nat.le_refl _,fun other => absurd rfl other⟩
  | @step a s path edgeOn run ih =>
      rcases List.mem_cons.mp on with rfl | on
      · exact ⟨b::path,.step edgeOn run,fun _ h => h,Nat.le_refl _,fun other => absurd rfl other⟩
      · obtain ⟨tail,runs,inside,short,_⟩ := ih on
        have less : tail.length < (a::path).length := by
          rw [List.length_cons]
          omega
        exact ⟨tail,runs,fun c onTail => List.mem_cons_of_mem _ (inside c onTail),Nat.le_of_lt less,fun _ => less⟩

theorem PostDominates.refl (a : α) : PostDominates edge exit a a := fun _ run => run.head

theorem PostDominates.trans (first : PostDominates edge exit c b) (second : PostDominates edge exit b a) : PostDominates edge exit c a := by
  intro path run
  obtain ⟨tail,runs,inside,_⟩ := run.rest (second path run)
  exact inside c (first tail runs)

theorem PostDominates.exitAbove (a : α) : PostDominates edge exit exit a := fun _ run => run.last

theorem PostDominates.reaches (dominates : PostDominates edge exit b a) (reaches : Reaches edge exit a) : Reaches edge exit b := by
  obtain ⟨path,run⟩ := reaches
  obtain ⟨tail,runs,_⟩ := run.rest (dominates path run)
  exact ⟨tail,runs⟩

-- Two vertices on each other's paths shorten these without end.
theorem PostDominates.antisymm (first : PostDominates edge exit b a) (second : PostDominates edge exit a b) (reaches : Reaches edge exit a) : a = b := by
  obtain ⟨path,run⟩ := reaches
  by_contra other
  have shorten : ∀ n, ∀ path, path.length ≤ n → ¬ ExitPath edge exit a path := by
    intro n
    induction n with
    | zero =>
        intro path none run
        have on := run.head
        rw [List.length_eq_zero_iff.mp (Nat.le_zero.mp none)] at on
        cases on
    | succ n ih =>
        intro path short run
        obtain ⟨middle,runs,_,_,less⟩ := run.rest (first path run)
        obtain ⟨tail,again,_,_,lesser⟩ := runs.rest (second middle runs)
        have := less (Ne.symm other)
        have := lesser other
        exact ih tail (by omega) again
  exact shorten path.length path (Nat.le_refl _) run

theorem Immediate.least (immediate : Immediate edge exit d a) : PostDominates edge exit b a ↔ b = a ∨ PostDominates edge exit b d := by
  refine ⟨fun dominates => ?_,?_⟩
  · by_cases same : b = a
    · exact .inl same
    · exact .inr (immediate.2 b ⟨dominates,same⟩)
  · rintro (rfl | above)
    · exact .refl b
    · exact above.trans immediate.1.1

theorem Immediate.strict (immediate : Immediate edge exit d a) (reaches : Reaches edge exit a) : Strictly edge exit b a ↔ PostDominates edge exit b d := by
  refine ⟨immediate.2 b,fun above => ⟨above.trans immediate.1.1,?_⟩⟩
  rintro rfl
  exact immediate.1.2 (PostDominates.antisymm above immediate.1.1 (immediate.1.1.reaches reaches))

theorem onlyExit (last : ∀ s, ¬ edge exit s) : PostDominates edge exit b exit ↔ b = exit := by
  refine ⟨fun dominates => List.mem_singleton.mp (dominates [exit] .stop),?_⟩
  rintro rfl
  exact .refl b

-- What strictly post-dominates a vertex is met on every way on from it.
theorem Strictly.next (strictly : Strictly edge exit b a) (on : edge a s) : PostDominates edge exit b s := by
  intro path run
  exact (List.mem_cons.mp (strictly.1 (a::path) (.step on run))).resolve_left strictly.2

-- The immediate post-dominators, with none for the exit.
structure Tree (edge : α → α → Prop) (exit : α) (dominator : α → Option α) : Prop where
  root : dominator exit = none
  immediate : ∀ a, Reaches edge exit a → a ≠ exit → ∃ d, dominator a = some d ∧ Immediate edge exit d a

-- All vertices of the list are near the exit.
theorem nearExit (list : List α) (reaches : ∀ a ∈ list, Reaches edge exit a) : ∃ n, ∀ a ∈ list, ∃ path, ExitPath edge exit a path ∧ path.length < n := by
  induction list with
  | nil => exact ⟨0,fun a on => absurd on List.not_mem_nil⟩
  | cons head rest ih =>
      obtain ⟨n,near⟩ := ih fun a on => reaches a (List.mem_cons_of_mem _ on)
      obtain ⟨path,run⟩ := reaches head List.mem_cons_self
      refine ⟨max n (path.length + 1),fun a on => ?_⟩
      rcases List.mem_cons.mp on with rfl | on
      · exact ⟨path,run,by omega⟩
      · obtain ⟨path',run',short⟩ := near a on
        exact ⟨path',run',by omega⟩

end OmrCompiler.PostDominance
