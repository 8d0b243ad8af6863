import Mathlib.Data.Bool.Basic
import OmrCompiler.HedgeShape

/-! The link changes of insertion and removal on a tree in memory: each turns one
tree into another and leaves everything else as it was. -/
namespace OmrCompiler.Hedge

section
variable (d e : Side) (a x : Nat) (p : Option Nat) (b : Bool) (m : Memory) (slot : Slot)

@[simp,grind =] theorem setChildKey : (setChild d a p m).key = m.key := rfl
@[simp,grind =] theorem setChildChild : (setChild d a p m).child e x = if e = d ∧ x = a then p else m.child e x := rfl
@[simp,grind =] theorem setChildSibling : (setChild d a p m).sibling = m.sibling := rfl
@[simp,grind =] theorem setChildParent : (setChild d a p m).parent x = if p = some x then some a else m.parent x := rfl
@[simp,grind =] theorem setChildRoot : (setChild d a p m).root = m.root := rfl
@[simp,grind =] theorem setSiblingKey : (setSibling d a b m).key = m.key := rfl
@[simp,grind =] theorem setSiblingChild : (setSibling d a b m).child = m.child := rfl
@[simp,grind =] theorem setSiblingSibling : (setSibling d a b m).sibling e x = if e = d ∧ x = a then b else m.sibling e x := rfl
@[simp,grind =] theorem setSiblingParent : (setSibling d a b m).parent = m.parent := rfl
@[simp,grind =] theorem setSiblingRoot : (setSibling d a b m).root = m.root := rfl
@[simp,grind =] theorem setParentKey : (setParent a p m).key = m.key := rfl
@[simp,grind =] theorem setParentChild : (setParent a p m).child = m.child := rfl
@[simp,grind =] theorem setParentSibling : (setParent a p m).sibling = m.sibling := rfl
@[simp,grind =] theorem setParentParent : (setParent a p m).parent x = if x = a then p else m.parent x := rfl
@[simp,grind =] theorem setParentRoot : (setParent a p m).root = m.root := rfl
@[simp,grind =] theorem writeKey : (write slot p m).key = m.key := by cases slot <;> rfl
@[simp,grind =] theorem writeSibling : (write slot p m).sibling = m.sibling := by cases slot <;> rfl
@[simp,grind =] theorem writeParent : (write slot p m).parent = m.parent := by cases slot <;> rfl

@[simp,grind =] theorem writeChild : (write slot p m).child e x = if slot = .link e x then p else m.child e x := by
  cases slot with
  | root => rfl
  | link d a => simp [write,eq_comm]

@[simp,grind =] theorem writeRoot : (write slot p m).root = if slot = .root then p else m.root := by
  cases slot <;> rfl

end

theorem Side.otherNe (d : Side) : d ≠ d.other ∧ d.other ≠ d := by cases d <;> decide

def Outside (slot : Slot) (t : Tree) : Prop := ∀ e x, slot = .link e x → x ∉ t.addrs

-- Only the nodes of the trees and the slot have changed.
structure Frame (slot : Slot) (t t' : Tree) (m m' : Memory) : Prop where
  other : ∀ x, x ∉ t.addrs → x ∉ t'.addrs → m'.key x = m.key x ∧
    (∀ e, m'.child e x = if slot = .link e x then t'.ptr else m.child e x) ∧ (∀ e, m'.sibling e x = m.sibling e x) ∧
    m'.parent x = m.parent x
  root : m'.root = if slot = .root then t'.ptr else m.root

structure Turned (slot : Slot) (p : Option Nat) (t t' : Tree) (m m' : Memory) : Prop where
  rep : Rep m' p t'
  frame : Frame slot t t' m m'

-- Pieces of a list without duplicates: every address belongs to one of them.
theorem owners (pieces : List (List Nat)) (distinct : pieces.flatten.Nodup) :
    ∃ owner : Nat → Nat, ∀ i a, a ∈ pieces.getD i [] → owner a = i := by
  refine ⟨fun a => pieces.findIdx (a ∈ ·),fun i a on => ?_⟩
  induction pieces generalizing i with
  | nil => simp at on
  | cons piece pieces ih =>
    rw [List.flatten_cons,List.nodup_append] at distinct
    show (piece::pieces).findIdx (a ∈ ·) = i
    rw [List.findIdx_cons]
    cases i with
    | zero =>
      have here : a ∈ piece := by simpa using on
      simp [here]
    | succ i =>
      have later : a ∈ pieces.getD i [] := by simpa using on
      have flat : a ∈ pieces.flatten := by
        rw [List.getD_eq_getElem?_getD] at later
        cases found : pieces[i]? with
        | none => simp [found] at later
        | some piece' =>
          rw [found] at later
          exact List.mem_flatten.mpr ⟨piece',List.mem_of_getElem? found,later⟩
      have out : a ∉ piece := fun here => distinct.2.2 a here a flat rfl
      have rest : pieces.findIdx (a ∈ ·) = i := ih distinct.2.1 i later
      simp [out,rest]

section
variable {d : Side} {m : Memory} {p : Option Nat} {slot : Slot} {a b c f : Nat} {i j k n : Int} {u v x y z w : Tree}
  {s s' s₁ s₂ s₃ s₄ s₅ s₆ : Bool}

theorem permNear : (Tree.join d a i (.join d b j x s₁ y s₂) s z s').addrs.Perm
    [x.addrs,[b],y.addrs,[a],z.addrs].flatten := by
  refine Tree.addrsPerm.trans ((Tree.addrsPerm.append_right _).trans ?_)
  simp

theorem permFar : (Tree.join d a i x s (.join d b j y s₁ z s₂) s').addrs.Perm
    [x.addrs,[a],y.addrs,[b],z.addrs].flatten := by
  refine Tree.addrsPerm.trans ((Tree.addrsPerm.cons a |>.append_left _).trans ?_)
  simp

theorem liftNearTurned (rep : Rep m p (.join d a i (.join d b j x s₁ y s₂) s z s'))
    (distinct : (Tree.join d a i (.join d b j x s₁ y s₂) s z s').addrs.Nodup)
    (outside : Outside slot (Tree.join d a i (.join d b j x s₁ y s₂) s z s')) :
    Turned slot p (Tree.join d a i (.join d b j x s₁ y s₂) s z s') (.join d b j x false (.join d a i y s z s') s₂)
      m (liftNear d slot a b m) := by
  have pieces := permNear.nodup_iff.mp distinct
  obtain ⟨owner,own⟩ := owners _ pieces
  have ownX : ∀ n ∈ x.addrs, owner n = 0 := own 0
  have ownB : owner b = 1 := own 1 b (by simp)
  have ownY : ∀ n ∈ y.addrs, owner n = 2 := own 2
  have ownA : owner a = 3 := own 3 a (by simp)
  have ownZ : ∀ n ∈ z.addrs, owner n = 4 := own 4
  have distinctY : y.addrs.Nodup := (List.nodup_flatten.mp pieces).1 _ (by simp)
  have sides := Side.otherNe d
  clear own distinct pieces
  simp only [repJoin,Tree.ptrJoin,Tree.addrsJoin,Outside,liftNear] at *
  obtain ⟨cellA,⟨cellB,repX,repY⟩,repZ⟩ := rep
  constructor
  · simp only [repJoin]
    refine ⟨?_,repX.congr ?_,?_,repY.moved distinctY ?_,repZ.congr ?_⟩ <;> simp [SameNode] <;> grind
  · refine ⟨?_,by simp⟩
    simp [Tree.addrsJoin]
    grind

theorem raiseLevelTurned (rep : Rep m p (.join d a i x s (.join d b j y s₁ z s₂) s'))
    (distinct : (Tree.join d a i x s (.join d b j y s₁ z s₂) s').addrs.Nodup)
    (outside : Outside slot (Tree.join d a i x s (.join d b j y s₁ z s₂) s')) :
    Turned slot p (Tree.join d a i x s (.join d b j y s₁ z s₂) s') (.join d b j (.join d a i x s y s') true z s₂)
      m (raiseLevel d slot a b m) := by
  have pieces := permFar.nodup_iff.mp distinct
  obtain ⟨owner,own⟩ := owners _ pieces
  have ownX : ∀ n ∈ x.addrs, owner n = 0 := own 0
  have ownA : owner a = 1 := own 1 a (by simp)
  have ownY : ∀ n ∈ y.addrs, owner n = 2 := own 2
  have ownB : owner b = 3 := own 3 b (by simp)
  have ownZ : ∀ n ∈ z.addrs, owner n = 4 := own 4
  have distinctY : y.addrs.Nodup := (List.nodup_flatten.mp pieces).1 _ (by simp)
  have sides := Side.otherNe d
  clear own distinct pieces
  simp only [repJoin,Tree.ptrJoin,Tree.addrsJoin,Outside,raiseLevel] at *
  obtain ⟨cellA,repX,cellB,repY,repZ⟩ := rep
  constructor
  · simp only [repJoin]
    refine ⟨?_,⟨?_,repX.congr ?_,repY.moved distinctY ?_⟩,repZ.congr ?_⟩ <;> simp [SameNode] <;> grind
  · refine ⟨?_,by simp⟩
    simp [Tree.addrsJoin]
    grind

theorem permNearInner : (Tree.join d a i (.join d b j x s₁ (.join d c k u s₂ v s₃) s₄) s z s').addrs.Perm
    [x.addrs,[b],u.addrs,[c],v.addrs,[a],z.addrs].flatten := by
  refine Tree.addrsPerm.trans ((permFar.append_right _).trans ?_)
  simp

theorem liftInnerTurned (rep : Rep m p (.join d a i (.join d b j x s₁ (.join d c k u s₂ v s₃) s₄) s z s'))
    (distinct : (Tree.join d a i (.join d b j x s₁ (.join d c k u s₂ v s₃) s₄) s z s').addrs.Nodup)
    (outside : Outside slot (Tree.join d a i (.join d b j x s₁ (.join d c k u s₂ v s₃) s₄) s z s')) :
    Turned slot p (Tree.join d a i (.join d b j x s₁ (.join d c k u s₂ v s₃) s₄) s z s')
      (.join d c k (.join d b j x s₁ u false) s₂ (.join d a i v false z s') s₃) m (liftInner d slot a b c m) := by
  have pieces := permNearInner.nodup_iff.mp distinct
  obtain ⟨owner,own⟩ := owners _ pieces
  have ownX : ∀ n ∈ x.addrs, owner n = 0 := own 0
  have ownB : owner b = 1 := own 1 b (by simp)
  have ownU : ∀ n ∈ u.addrs, owner n = 2 := own 2
  have ownC : owner c = 3 := own 3 c (by simp)
  have ownV : ∀ n ∈ v.addrs, owner n = 4 := own 4
  have ownA : owner a = 5 := own 5 a (by simp)
  have ownZ : ∀ n ∈ z.addrs, owner n = 6 := own 6
  have distinctU : u.addrs.Nodup := (List.nodup_flatten.mp pieces).1 _ (by simp)
  have distinctV : v.addrs.Nodup := (List.nodup_flatten.mp pieces).1 _ (by simp)
  have sides := Side.otherNe d
  clear own distinct pieces
  simp only [repJoin,Tree.ptrJoin,Tree.addrsJoin,Outside,liftInner] at *
  obtain ⟨cellA,⟨cellB,repX,cellC,repU,repV⟩,repZ⟩ := rep
  constructor
  · simp only [repJoin]
    refine ⟨?_,⟨?_,repX.congr ?_,repU.moved distinctU ?_⟩,?_,repV.moved distinctV ?_,repZ.congr ?_⟩ <;>
      simp [SameNode] <;> grind
  · refine ⟨?_,by simp⟩
    simp [Tree.addrsJoin]
    grind

theorem permFarInner : (Tree.join d a i x s (.join d b j (.join d c k u s₁ v s₂) s₃ z s₄) s').addrs.Perm
    [x.addrs,[a],u.addrs,[c],v.addrs,[b],z.addrs].flatten := by
  refine Tree.addrsPerm.trans ((permNear.cons a |>.append_left _).trans ?_)
  simp

theorem raiseInnerTurned (rep : Rep m p (.join d a i x s (.join d b j (.join d c k u s₁ v s₂) s₃ z s₄) s'))
    (distinct : (Tree.join d a i x s (.join d b j (.join d c k u s₁ v s₂) s₃ z s₄) s').addrs.Nodup)
    (outside : Outside slot (Tree.join d a i x s (.join d b j (.join d c k u s₁ v s₂) s₃ z s₄) s')) :
    Turned slot p (Tree.join d a i x s (.join d b j (.join d c k u s₁ v s₂) s₃ z s₄) s')
      (.join d c k (.join d a i x s u s₁) false (.join d b j v false z s₄) s₂) m (raiseInner d slot a b c m) := by
  have pieces := permFarInner.nodup_iff.mp distinct
  obtain ⟨owner,own⟩ := owners _ pieces
  have ownX : ∀ n ∈ x.addrs, owner n = 0 := own 0
  have ownA : owner a = 1 := own 1 a (by simp)
  have ownU : ∀ n ∈ u.addrs, owner n = 2 := own 2
  have ownC : owner c = 3 := own 3 c (by simp)
  have ownV : ∀ n ∈ v.addrs, owner n = 4 := own 4
  have ownB : owner b = 5 := own 5 b (by simp)
  have ownZ : ∀ n ∈ z.addrs, owner n = 6 := own 6
  have distinctU : u.addrs.Nodup := (List.nodup_flatten.mp pieces).1 _ (by simp)
  have distinctV : v.addrs.Nodup := (List.nodup_flatten.mp pieces).1 _ (by simp)
  have sides := Side.otherNe d
  clear own distinct pieces
  simp only [repJoin,Tree.ptrJoin,Tree.addrsJoin,Outside,raiseInner] at *
  obtain ⟨cellA,repX,cellB,⟨cellC,repU,repV⟩,repZ⟩ := rep
  constructor
  · simp only [repJoin]
    refine ⟨?_,⟨?_,repX.congr ?_,repU.moved distinctU ?_⟩,?_,repV.moved distinctV ?_,repZ.congr ?_⟩ <;>
      simp [SameNode] <;> grind
  · refine ⟨?_,by simp⟩
    simp [Tree.addrsJoin]
    grind

theorem raiseFarTurned (rep : Rep m p (.join d a i x s (.join d b j (.join d c k u s₁ v s₂) s₃ z s₄) s'))
    (distinct : (Tree.join d a i x s (.join d b j (.join d c k u s₁ v s₂) s₃ z s₄) s').addrs.Nodup)
    (outside : Outside slot (Tree.join d a i x s (.join d b j (.join d c k u s₁ v s₂) s₃ z s₄) s')) :
    Turned slot p (Tree.join d a i x s (.join d b j (.join d c k u s₁ v s₂) s₃ z s₄) s')
      (.join d b j (.join d c k (.join d a i x s u false) true v s₂) s₃ z s₄) m (raiseFar d slot a b c m) := by
  have pieces := permFarInner.nodup_iff.mp distinct
  obtain ⟨owner,own⟩ := owners _ pieces
  have ownX : ∀ n ∈ x.addrs, owner n = 0 := own 0
  have ownA : owner a = 1 := own 1 a (by simp)
  have ownU : ∀ n ∈ u.addrs, owner n = 2 := own 2
  have ownC : owner c = 3 := own 3 c (by simp)
  have ownV : ∀ n ∈ v.addrs, owner n = 4 := own 4
  have ownB : owner b = 5 := own 5 b (by simp)
  have ownZ : ∀ n ∈ z.addrs, owner n = 6 := own 6
  have distinctU : u.addrs.Nodup := (List.nodup_flatten.mp pieces).1 _ (by simp)
  have sides := Side.otherNe d
  clear own distinct pieces
  simp only [repJoin,Tree.ptrJoin,Tree.addrsJoin,Outside,raiseFar] at *
  obtain ⟨cellA,repX,cellB,⟨cellC,repU,repV⟩,repZ⟩ := rep
  constructor
  · simp only [repJoin]
    refine ⟨?_,⟨?_,⟨?_,repX.congr ?_,repU.moved distinctU ?_⟩,repV.congr ?_⟩,repZ.congr ?_⟩ <;>
      simp [SameNode] <;> grind
  · refine ⟨?_,by simp⟩
    simp [Tree.addrsJoin]
    grind

theorem permFarInnermost :
    (Tree.join d a i x s (.join d b j (.join d c k (.join d f n u s₅ w s₆) s₁ v s₂) s₃ z s₄) s').addrs.Perm
      [x.addrs,[a],u.addrs,[f],w.addrs,[c],v.addrs,[b],z.addrs].flatten := by
  have inner : (Tree.join d b j (.join d c k (.join d f n u s₅ w s₆) s₁ v s₂) s₃ z s₄).addrs.Perm
      [u.addrs,[f],w.addrs,[c],v.addrs,[b],z.addrs].flatten := by
    refine Tree.addrsPerm.trans ((permNear.append_right _).trans ?_)
    simp
  refine Tree.addrsPerm.trans ((inner.cons a |>.append_left _).trans ?_)
  simp

theorem raiseInnermostTurned
    (rep : Rep m p (.join d a i x s (.join d b j (.join d c k (.join d f n u s₅ w s₆) s₁ v s₂) s₃ z s₄) s'))
    (distinct : (Tree.join d a i x s (.join d b j (.join d c k (.join d f n u s₅ w s₆) s₁ v s₂) s₃ z s₄) s').addrs.Nodup)
    (outside : Outside slot (Tree.join d a i x s (.join d b j (.join d c k (.join d f n u s₅ w s₆) s₁ v s₂) s₃ z s₄) s')) :
    Turned slot p (Tree.join d a i x s (.join d b j (.join d c k (.join d f n u s₅ w s₆) s₁ v s₂) s₃ z s₄) s')
      (.join d f n (.join d a i x s u false) s₅ (.join d b j (.join d c k w false v s₂) s₃ z s₄) true) m
      (raiseInnermost d slot a b c f m) := by
  have pieces := permFarInnermost.nodup_iff.mp distinct
  obtain ⟨owner,own⟩ := owners _ pieces
  have ownX : ∀ n ∈ x.addrs, owner n = 0 := own 0
  have ownA : owner a = 1 := own 1 a (by simp)
  have ownU : ∀ n ∈ u.addrs, owner n = 2 := own 2
  have ownF : owner f = 3 := own 3 f (by simp)
  have ownW : ∀ n ∈ w.addrs, owner n = 4 := own 4
  have ownC : owner c = 5 := own 5 c (by simp)
  have ownV : ∀ n ∈ v.addrs, owner n = 6 := own 6
  have ownB : owner b = 7 := own 7 b (by simp)
  have ownZ : ∀ n ∈ z.addrs, owner n = 8 := own 8
  have distinctU : u.addrs.Nodup := (List.nodup_flatten.mp pieces).1 _ (by simp)
  have distinctW : w.addrs.Nodup := (List.nodup_flatten.mp pieces).1 _ (by simp)
  have sides := Side.otherNe d
  clear own distinct pieces
  simp only [repJoin,Tree.ptrJoin,Tree.addrsJoin,Outside,raiseInnermost] at *
  obtain ⟨cellA,repX,cellB,⟨cellC,⟨cellF,repU,repW⟩,repV⟩,repZ⟩ := rep
  constructor
  · simp only [repJoin]
    refine ⟨?_,⟨?_,repX.congr ?_,repU.moved distinctU ?_⟩,?_,⟨?_,repW.moved distinctW ?_,repV.congr ?_⟩,repZ.congr ?_⟩ <;>
      simp [SameNode] <;> grind
  · refine ⟨?_,by simp⟩
    simp [Tree.addrsJoin]
    grind

end

end OmrCompiler.Hedge
