import Mathlib.Data.List.Induction

/-! A binary search tree that keeps the first of equal items. An item finds its place by
one comparison and is looked for by another; the two need only agree on the items there. -/
namespace OmrCompiler.SearchTree

inductive Tree (α : Type) where
  | empty
  | node (item : α) (left right : Tree α)

def insert {α : Type} (order : α → α → Int) (x : α) : Tree α → Tree α
  | .empty => .node x .empty .empty
  | .node y left right =>
      if order x y = 0 then .node y left right
      else if order x y < 0 then .node y (insert order x left) right
      else .node y left (insert order x right)

-- The position says where the key lies from an item.
def find {α : Type} (position : α → Int) : Tree α → Option α
  | .empty => none
  | .node y left right =>
      if position y = 0 then some y
      else if position y < 0 then find position left
      else find position right

def insertAll {α : Type} (order : α → α → Int) (xs : List α) : Tree α := xs.foldl (fun t x => insert order x t) .empty

def SameSign (a b : Int) : Prop := (a = 0 ↔ b = 0) ∧ (a < 0 ↔ b < 0)

inductive Mem {α : Type} (x : α) : Tree α → Prop
  | root {left right} : Mem x (.node x left right)
  | left {y left right} : Mem x left → Mem x (.node y left right)
  | right {y left right} : Mem x right → Mem x (.node y left right)

section
variable {α : Type} {order : α → α → Int} {position : α → Int} {x : α}

-- An item with the key is placed where the key is looked for, and an equal one has the key too.
structure Agrees (order : α → α → Int) (position : α → Int) (x y : α) : Prop where
  along : position x = 0 → SameSign (order x y) (position y)
  equal : order x y = 0 → position x = 0 → position y = 0

theorem memInsert {y : α} {t : Tree α} (inside : Mem y (insert order x t)) : y = x ∨ Mem y t := by
  induction t with
  | empty =>
      cases inside with
      | root => exact .inl rfl
      | left none => cases none
      | right none => cases none
  | node z left right ihLeft ihRight =>
      unfold insert at inside
      split at inside
      · exact .inr inside
      · split at inside
        · cases inside with
          | root => exact .inr .root
          | left deeper => exact (ihLeft deeper).imp_right .left
          | right other => exact .inr (.right other)
        · cases inside with
          | root => exact .inr .root
          | left other => exact .inr (.left other)
          | right deeper => exact (ihRight deeper).imp_right .right

theorem findInsert (t : Tree α) (agrees : ∀ y, Mem y t → Agrees order position x y) :
    find position (insert order x t) = (find position t).or (if position x = 0 then some x else none) := by
  induction t with
  | empty =>
      unfold insert find
      split
      · rfl
      · unfold find
        split <;> rfl
  | node y left right ihLeft ihRight =>
      have here := agrees y .root
      unfold insert
      split
      · rename_i equal
        by_cases keyed : position x = 0
        · have found : find position (.node y left right) = some y := if_pos (here.equal equal keyed)
          rw [found]
          rfl
        · rw [if_neg keyed,Option.or_none]
      · split
        · rename_i below
          unfold find
          split
          · rfl
          · split
            · exact ihLeft fun z inside => agrees z (.left inside)
            · rename_i above
              have other : position x ≠ 0 := fun keyed => above ((here.along keyed).2.mp below)
              rw [if_neg other,Option.or_none]
        · rename_i above
          unfold find
          split
          · rfl
          · split
            · rename_i below
              have other : position x ≠ 0 := fun keyed => above ((here.along keyed).2.mpr below)
              rw [if_neg other,Option.or_none]
            · exact ihRight fun z inside => agrees z (.right inside)

theorem insertAllSnoc (xs : List α) (x : α) : insertAll order (xs ++ [x]) = insert order x (insertAll order xs) := by
  unfold insertAll
  rw [List.foldl_append]
  rfl

theorem memInsertAll (xs : List α) {y : α} (inside : Mem y (insertAll order xs)) : y ∈ xs := by
  induction xs using List.reverseRecOn with
  | nil => cases inside
  | append_singleton xs x ih =>
      rw [insertAllSnoc] at inside
      rcases memInsert inside with rfl | earlier
      · exact List.mem_append_right _ List.mem_cons_self
      · exact List.mem_append_left _ (ih earlier)

-- The search finds the first item added that has the key.
theorem findFirst (xs : List α) (agrees : ∀ x ∈ xs, ∀ y ∈ xs, Agrees order position x y) :
    find position (insertAll order xs) = xs.find? fun x => decide (position x = 0) := by
  induction xs using List.reverseRecOn with
  | nil => rfl
  | append_singleton xs x ih =>
      have older : ∀ y ∈ xs, y ∈ xs ++ [x] := fun y on => List.mem_append_left _ on
      have place := findInsert (insertAll order xs) fun y inside =>
        agrees x (List.mem_append_right _ List.mem_cons_self) y (older y (memInsertAll xs inside))
      rw [insertAllSnoc,place,ih fun a on b on' => agrees a (older a on) b (older b on'),List.find?_append]
      congr 1
      simp only [List.find?_singleton,decide_eq_true_eq]

end

end OmrCompiler.SearchTree
