import Mathlib.Data.List.Nodup
import OmrCompiler.HedgeTree

/-! The trees that hedge tree memory holds: their order and balance, and what it
means that the memory holds one. -/
namespace OmrCompiler.Hedge

inductive Tree where
  | nil
  | node (a : Nat) (k : Int) (l : Tree) (ls : Bool) (r : Tree) (rs : Bool)
  deriving DecidableEq, Repr

namespace Tree

def ptr : Tree → Option Nat
  | .nil => none
  | .node a _ _ _ _ _ => some a

-- The addresses and keys of the nodes, from left to right.
def inorder : Tree → List (Nat × Int)
  | .nil => []
  | .node a k l _ r _ => l.inorder ++ (a,k) :: r.inorder

def addrs (t : Tree) : List Nat := t.inorder.map Prod.fst

def keys (t : Tree) : List Int := t.inorder.map Prod.snd

def height : Tree → Nat
  | .nil => 0
  | .node _ _ l _ r _ => max l.height r.height + 1

def sib (d : Side) : Tree → Bool
  | .nil => false
  | .node _ _ _ ls _ rs =>
      match d with
      | .left => ls
      | .right => rs

-- The node with one subtree on side d and the other opposite.
def join (d : Side) (a : Nat) (k : Int) (near : Tree) (ns : Bool) (far : Tree) (fs : Bool) : Tree :=
  match d with
  | .left => .node a k near ns far fs
  | .right => .node a k far fs near ns

-- No sibling links.
def Plain (t : Tree) : Prop := t.sib .left = false ∧ t.sib .right = false

/- All paths have n levels: a child link leads to the next level, a sibling link
to a node of the same level that has no sibling links itself. -/
def Balanced : Tree → Nat → Prop
  | .nil,n => n = 0
  | .node _ _ l ls r rs,n => ∃ m, n = m + 1 ∧
      (if ls then Balanced l n ∧ l.Plain else Balanced l m) ∧ (if rs then Balanced r n ∧ r.Plain else Balanced r m)

def Ordered (t : Tree) : Prop := t.keys.Pairwise (· < ·)

-- A link of a node whose child level is n.
def Linked (t : Tree) (sibling : Bool) (n : Nat) : Prop :=
  if sibling then t.Balanced (n + 1) ∧ t.Plain else t.Balanced n

@[simp] theorem ptrNode {a k l ls r rs} : (node a k l ls r rs).ptr = some a := rfl

@[simp] theorem ptrNone {t : Tree} : t.ptr = none ↔ t = .nil := by cases t <;> simp [ptr]

@[simp] theorem ptrJoin {d a k near ns far fs} : (join d a k near ns far fs).ptr = some a := by cases d <;> rfl

@[simp] theorem addrsNil : addrs .nil = [] := rfl

@[simp] theorem addrsNode {a k l ls r rs} : (node a k l ls r rs).addrs = l.addrs ++ a :: r.addrs := by
  simp [addrs,inorder]

@[simp] theorem keysNil : keys .nil = [] := rfl

@[simp] theorem keysNode {a k l ls r rs} : (node a k l ls r rs).keys = l.keys ++ k :: r.keys := by
  simp [keys,inorder]

@[grind →] theorem ptrMem {t : Tree} {a : Nat} (here : t.ptr = some a) : a ∈ t.addrs := by
  cases t with
  | nil => cases here
  | node b k l ls r rs =>
    cases here
    simp

theorem addrsJoin {d a k near ns far fs x} : x ∈ (join d a k near ns far fs).addrs ↔ x ∈ near.addrs ∨ x = a ∨ x ∈ far.addrs := by
  cases d
  · simp [join]
  · simp only [join,addrsNode,List.mem_append,List.mem_cons]
    tauto

theorem addrsPerm {d a k near ns far fs} : (join d a k near ns far fs).addrs.Perm (near.addrs ++ a :: far.addrs) := by
  cases d with
  | left => rw [join,addrsNode]
  | right =>
    rw [join,addrsNode]
    exact List.perm_append_comm.trans List.perm_middle.symm

theorem balancedJoin {d a k near ns far fs n} :
    (join d a k near ns far fs).Balanced n ↔ ∃ m, n = m + 1 ∧ near.Linked ns m ∧ far.Linked fs m := by
  cases d <;> simp only [join,Balanced,Linked]
  · constructor <;> rintro ⟨m,rfl,left,right⟩ <;> exact ⟨m,rfl,left,right⟩
  · constructor <;> rintro ⟨m,rfl,left,right⟩ <;> exact ⟨m,rfl,right,left⟩

theorem balancedSucc {d a k near ns far fs n} :
    (join d a k near ns far fs).Balanced (n + 1) ↔ near.Linked ns n ∧ far.Linked fs n := by
  rw [balancedJoin]
  constructor
  · rintro ⟨m,same,both⟩
    obtain rfl : n = m := by omega
    exact both
  · exact fun both => ⟨n,rfl,both⟩

@[simp] theorem sibNear {d a k near ns far fs} : (join d a k near ns far fs).sib d = ns := by cases d <;> rfl

@[simp] theorem sibFar {d a k near ns far fs} : (join d a k near ns far fs).sib d.other = fs := by cases d <;> rfl

theorem plainSides {t : Tree} (d : Side) : t.Plain ↔ t.sib d = false ∧ t.sib d.other = false := by
  cases d
  · rfl
  · exact and_comm

theorem plainJoin {d a k near ns far fs} : (join d a k near ns far fs).Plain ↔ ns = false ∧ fs = false := by
  rw [plainSides d,sibNear,sibFar]

theorem linkedFalse {t : Tree} {n : Nat} : t.Linked false n ↔ t.Balanced n := Iff.rfl

-- A tree of positive level is a node, seen from either side.
theorem balancedNode {t : Tree} {n : Nat} (d : Side) (balanced : t.Balanced (n + 1)) :
    ∃ a k near ns far fs, t = join d a k near ns far fs ∧ near.Linked ns n ∧ far.Linked fs n := by
  cases t with
  | nil => simp [Balanced] at balanced
  | node a k l ls r rs =>
    cases d with
    | left => exact ⟨a,k,l,ls,r,rs,rfl,balancedSucc (d := .left).mp balanced⟩
    | right => exact ⟨a,k,r,rs,l,ls,rfl,balancedSucc (d := .right).mp balanced⟩

theorem inorderJoin {d a k near ns far fs near' ns' far' fs'} (left : near'.inorder = near.inorder)
    (right : far'.inorder = far.inorder) :
    (join d a k near' ns' far' fs').inorder = (join d a k near ns far fs).inorder := by
  cases d <;> simp [join,inorder,left,right]

end Tree

-- The memory holds the tree, with p as the parent of its root.
def Rep (m : Memory) (p : Option Nat) : Tree → Prop
  | .nil => True
  | .node a k l ls r rs => (m.key a = k ∧ m.child .left a = l.ptr ∧ m.child .right a = r.ptr ∧ m.sibling .left a = ls ∧
      m.sibling .right a = rs ∧ m.parent a = p) ∧ Rep m (some a) l ∧ Rep m (some a) r

theorem repJoin {m : Memory} {p : Option Nat} {d a k near ns far fs} : Rep m p (.join d a k near ns far fs) ↔
    (m.key a = k ∧ m.child d a = near.ptr ∧ m.child d.other a = far.ptr ∧ m.sibling d a = ns ∧
      m.sibling d.other a = fs ∧ m.parent a = p) ∧ Rep m (some a) near ∧ Rep m (some a) far := by
  cases d with
  | left => exact Iff.rfl
  | right =>
    simp only [Tree.join,Rep,Side.other]
    tauto

-- The same fields, but for the parent.
def SameNode (m m' : Memory) (x : Nat) : Prop :=
  m'.key x = m.key x ∧ (∀ e, m'.child e x = m.child e x) ∧ ∀ e, m'.sibling e x = m.sibling e x

theorem Rep.congr {m m' : Memory} {t : Tree} {p : Option Nat} (rep : Rep m p t)
    (same : ∀ x ∈ t.addrs, SameNode m m' x ∧ m'.parent x = m.parent x) : Rep m' p t := by
  induction t generalizing p with
  | nil => trivial
  | node a k l ls r rs ihl ihr =>
    obtain ⟨cell,left,right⟩ := rep
    refine ⟨?_,ihl left fun x on => same x (by simp [on]),ihr right fun x on => same x (by simp [on])⟩
    obtain ⟨⟨key,child,sibling⟩,parent⟩ := same a (by simp)
    rw [key,child,child,sibling,sibling,parent]
    exact cell

theorem Rep.moved {m m' : Memory} {t : Tree} {p q : Option Nat} (rep : Rep m p t) (distinct : t.addrs.Nodup)
    (same : ∀ x ∈ t.addrs, SameNode m m' x ∧ m'.parent x = if t.ptr = some x then q else m.parent x) : Rep m' q t := by
  cases t with
  | nil => trivial
  | node a k l ls r rs =>
    obtain ⟨cell,left,right⟩ := rep
    rw [Tree.addrsNode,List.nodup_append,List.nodup_cons] at distinct
    obtain ⟨_,⟨fresh,_⟩,apart⟩ := distinct
    obtain ⟨⟨key,child,sibling⟩,parent⟩ := same a (by simp)
    refine ⟨?_,left.congr fun x on => ?_,right.congr fun x on => ?_⟩
    · rw [key,child,child,sibling,sibling,parent]
      simp [cell]
    · have other : a ≠ x := fun same => apart x on x (by simp [same]) rfl
      simpa [other] using same x (by simp [on])
    · have other : a ≠ x := fun same => fresh (same ▸ on)
      simpa [other] using same x (by simp [on])

end OmrCompiler.Hedge
