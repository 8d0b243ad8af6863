import Mathlib.Data.List.Nodup

/-! Singly linked lists over an array of indices, where index 0 ends a list. -/
namespace OmrCompiler.IndexChain

def Linked (next : Nat → Nat) : Nat → List Nat → Prop
  | a,[] => a = 0
  | a,x::rest => a = x ∧ x ≠ 0 ∧ Linked next (next x) rest

section
variable {next next' : Nat → Nat} {a p x y : Nat} {list list' front back : List Nat}

theorem Linked.congr (linked : Linked next a list) (same : ∀ x ∈ list, next' x = next x) : Linked next' a list := by
  induction list generalizing a with
  | nil => exact linked
  | cons x rest ih =>
      obtain ⟨here,positive,later⟩ := linked
      refine ⟨here,positive,?_⟩
      rw [same x (by simp)]
      exact ih later fun y on => same y (by simp [on])

-- A list is given by where it starts.
theorem Linked.unique (linked : Linked next a list) (linked' : Linked next a list') : list = list' := by
  induction list generalizing a list' with
  | nil =>
      cases list' with
      | nil => rfl
      | cons y rest => exact absurd (linked'.1.symm.trans linked) linked'.2.1
  | cons x rest ih =>
      cases list' with
      | nil => exact absurd (linked.1.symm.trans linked') linked.2.1
      | cons y rest' =>
          have same : x = y := linked.1.symm.trans linked'.1
          subst same
          rw [ih linked.2.2 linked'.2.2]

theorem Linked.suffix (linked : Linked next a (front ++ x::back)) : Linked next x (x::back) := by
  induction front generalizing a with
  | nil =>
      have start : a = x := linked.1
      exact start ▸ linked
  | cons y rest ih => exact ih linked.2.2

-- A list that ends has no index twice: the rest from there would be two lists.
theorem Linked.nodup (linked : Linked next a list) : list.Nodup := by
  induction list generalizing a with
  | nil => exact List.nodup_nil
  | cons x rest ih =>
      refine List.nodup_cons.mpr ⟨fun again => ?_,ih linked.2.2⟩
      obtain ⟨front,back,split⟩ := List.append_of_mem again
      have later : Linked next x (x::back) := by
        have whole := linked.2.2
        rw [split] at whole
        exact whole.suffix
      have start : a = x := linked.1
      subst start
      have same := List.cons.inj (linked.unique later)
      have size := congrArg List.length (same.2.symm.trans split)
      simp only [List.length_append,List.length_cons] at size
      omega

theorem Linked.nonempty (linked : Linked next a list) : list ≠ [] ↔ a ≠ 0 := by
  cases list with
  | nil =>
      have ended : a = 0 := linked
      simp [ended]
  | cons x rest =>
      have start : a = x := linked.1
      simp only [ne_eq,reduceCtorEq,not_false_eq_true,true_iff]
      rw [start]
      exact linked.2.1

-- The last index of a list points to a new one.
theorem Linked.snoc (linked : Linked next a (front ++ [p])) (positive : y ≠ 0) (hit : next' p = y) (stop : next' y = 0)
    (same : ∀ x ∈ front, next' x = next x) : Linked next' a (front ++ [p,y]) := by
  induction front generalizing a with
  | nil =>
      refine ⟨linked.1,linked.2.1,?_⟩
      rw [hit]
      exact ⟨rfl,positive,stop⟩
  | cons x rest ih =>
      refine ⟨linked.1,linked.2.1,?_⟩
      rw [same x (by simp)]
      exact ih linked.2.2 fun z on => same z (by simp [on])

-- An index is taken out: the one before it points to the one after it.
theorem Linked.skip (linked : Linked next a (front ++ p::x::back)) (hit : next' p = next x) (same : ∀ y ∈ front ++ back, next' y = next y) :
    Linked next' a (front ++ p::back) := by
  induction front generalizing a with
  | nil =>
      refine ⟨linked.1,linked.2.1,?_⟩
      rw [hit]
      have rest : Linked next (next x) back := linked.2.2.2.2
      exact rest.congr fun y on => same y (by simp [on])
  | cons z rest ih =>
      refine ⟨linked.1,linked.2.1,?_⟩
      rw [same z (by simp)]
      exact ih linked.2.2 fun y on => same y (by simp only [List.cons_append,List.mem_cons]; exact .inr on)

end

end OmrCompiler.IndexChain
