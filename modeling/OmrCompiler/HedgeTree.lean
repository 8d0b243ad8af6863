import Mathlib.Data.Int.Order.Basic

/-! Hedge trees (symmetric binary B-trees) as they lie in memory: nodes with left
and right links that lead to a child or to a sibling, and with parent links.
The branches of the source for left and right are mirror images and are written
once, over the side. -/
namespace OmrCompiler.Hedge

inductive Side where
  | left | right
  deriving DecidableEq, Repr

def Side.other : Side → Side
  | .left => .right
  | .right => .left

-- A node is named by its address; none is the null pointer.
structure Memory where
  key : Nat → Int
  child : Side → Nat → Option Nat
  sibling : Side → Nat → Bool
  parent : Nat → Option Nat
  root : Option Nat

-- A T *& parameter: the root of the tree or the link of a node.
inductive Slot where
  | root
  | link (d : Side) (a : Nat)
  deriving DecidableEq, Repr

def read (slot : Slot) (m : Memory) : Option Nat :=
  match slot with
  | .root => m.root
  | .link d a => m.child d a

def write (slot : Slot) (p : Option Nat) (m : Memory) : Memory :=
  match slot with
  | .root => { m with root := p }
  | .link d a => { m with child := fun e x => if e = d ∧ x = a then p else m.child e x }

def setParent (a : Nat) (p : Option Nat) (m : Memory) : Memory :=
  { m with parent := fun x => if x = a then p else m.parent x }

def setSibling (d : Side) (a : Nat) (b : Bool) (m : Memory) : Memory :=
  { m with sibling := fun e x => if e = d ∧ x = a then b else m.sibling e x }

-- setLeft and setRight.
def setChild (d : Side) (a : Nat) (p : Option Nat) (m : Memory) : Memory :=
  { m with
    child := fun e x => if e = d ∧ x = a then p else m.child e x
    parent := fun x => if p = some x then some a else m.parent x }

def initializeNode (a : Nat) (key : Int) (m : Memory) : Memory :=
  { m with
    key := fun x => if x = a then key else m.key x
    child := fun e x => if x = a then none else m.child e x
    sibling := fun e x => if x = a then false else m.sibling e x
    parent := fun x => if x = a then none else m.parent x }

-- The subtree on side d is lifted to a new level above the node.
def liftNear (d : Side) (slot : Slot) (node p1 : Nat) (m : Memory) : Memory :=
  let m := setChild d node (m.child d.other p1) m
  let m := setSibling d p1 false m
  let m := setParent p1 (m.parent node) m
  let m := setChild d.other p1 (some node) m
  write slot (some p1) m

-- The inner subtree of the subtree on side d is lifted to a new level above the node.
def liftInner (d : Side) (slot : Slot) (node p1 p2 : Nat) (m : Memory) : Memory :=
  let m := setChild d.other p1 (m.child d p2) m
  let m := setSibling d.other p1 false m
  let m := setChild d node (m.child d.other p2) m
  let m := setSibling d node false m
  let m := setChild d p2 (some p1) m
  let m := setParent p2 (m.parent node) m
  let m := setChild d.other p2 (some node) m
  write slot (some p2) m

-- The level has three nodes on one path: it is split, and the subtree grows in height.
def splitLevel (d : Side) (slot : Slot) (node : Nat) (m : Memory) : Option Memory := do
  let p1 ← m.child d node
  let m := setSibling d node false m
  if m.sibling d p1 then some (liftNear d slot node p1 m)
  else if m.sibling d.other p1 then do
    let p2 ← m.child d.other p1
    some (liftInner d slot node p1 p2 m)
  else some m

def rebalanceInsert (d : Side) (slot : Slot) (node : Nat) (rebalance : Nat) (m : Memory) : Option (Nat × Memory) :=
  if rebalance = 0 then some (0,m)
  else if m.sibling d node then (splitLevel d slot node m).map fun m => (2,m)
  else if rebalance - 1 ≠ 0 then some (rebalance - 1,setSibling d node true m)
  else some (0,m)

-- result = _nodeToBeInserted or allocate(key), set as the link of the node.
def newChild (key : Int) (nodeToBeInserted : Option Nat) (allocated : Nat) (d : Side) (node : Nat) (m : Memory) : Nat × Memory :=
  match nodeToBeInserted with
  | some n => (n,setChild d node (some n) m)
  | none => (allocated,setChild d node (some allocated) (initializeNode allocated key m))

abbrev Descent := Slot → Memory → Option (Nat × Nat × Memory)

-- The search goes on below one link of the node, and the node is rebalanced afterwards.
def findOrCreateBelow (search : Descent) (key : Int) (nodeToBeInserted : Option Nat) (allocated : Nat) (d : Side)
    (slot : Slot) (node : Nat) (m : Memory) : Option (Nat × Nat × Memory) := do
  let (result,rebalance,m) ←
    match m.child d node with
    | none =>
        let (result,m) := newChild key nodeToBeInserted allocated d node m
        some (result,2,m)
    | some _ => search (.link d node) m
  let (rebalance,m) ← rebalanceInsert d slot node rebalance m
  some (result,rebalance,m)

-- The result, the rebalance value and the memory.
def findOrCreateAt (key : Int) (nodeToBeInserted : Option Nat) (allocated : Nat) : Nat → Descent
  | 0,_,_ => none
  | fuel+1,slot,m => do
      let node ← read slot m
      let below := findOrCreateBelow (findOrCreateAt key nodeToBeInserted allocated fuel) key nodeToBeInserted allocated
      if key < m.key node then below .left slot node m
      else if m.key node < key then below .right slot node m
      else some (node,0,m)

def setRoot (p : Nat) (m : Memory) : Memory := setParent p none (write .root (some p) m)

def findOrCreate (fuel : Nat) (key : Int) (allocated : Nat) (m : Memory) : Option (Nat × Memory) :=
  match m.root with
  | some _ => (findOrCreateAt key none allocated fuel .root m).map fun r => (r.1,r.2.2)
  | none => some (allocated,setRoot allocated (initializeNode allocated key m))

def insert (fuel : Nat) (newNode : Nat) (m : Memory) : Option (Nat × Memory) :=
  let m := setChild .left newNode none m
  let m := setChild .right newNode none m
  let m := setSibling .left newNode false m
  let m := setSibling .right newNode false m
  match m.root with
  | some _ => (findOrCreateAt (m.key newNode) (some newNode) newNode fuel .root m).map fun r => (r.1,r.2.2)
  | none => some (newNode,setRoot newNode m)

-- The node at nodeSlot, which has no right link, and the node at swapSlot change places.
def swapNodes (nodeSlot swapSlot : Slot) (node swap : Nat) (m : Memory) : Memory :=
  let b := m.sibling .left node
  let m := setSibling .left node (m.sibling .left swap) m
  let m := setSibling .left swap b m
  let b := m.sibling .right node
  let m := setSibling .right node (m.sibling .right swap) m
  let m := setSibling .right swap b m
  let t := m.child .right swap
  let m := setChild .right swap (m.child .right node) m
  let m := setChild .right node t m
  let t1 := m.parent swap
  if some node = m.child .left swap then
    let m := setChild .left swap (m.child .left node) m
    let m := setChild .left node (some swap) m
    let m := setParent node t1 m
    write swapSlot (some node) m
  else
    let t := m.child .left swap
    let m := setChild .left swap (m.child .left node) m
    let m := setChild .left node t m
    let m := setParent swap (m.parent node) m
    let m := write nodeSlot (some swap) m
    let m := setParent node t1 m
    write swapSlot (some node) m

def swapRightmost : Nat → Slot → Slot → Memory → Option Memory
  | 0,_,_,_ => none
  | fuel+1,nodeSlot,swapSlot,m => do
      let node ← read nodeSlot m
      if (m.child .right node).isSome then swapRightmost fuel (.link .right node) swapSlot m
      else do
        let swap ← read swapSlot m
        some (swapNodes nodeSlot swapSlot node swap m)

-- The far subtree's inner subtree is lifted above the node; the height is restored.
def raiseInner (d : Side) (slot : Slot) (node p1 p2 : Nat) (m : Memory) : Memory :=
  let o := d.other
  let m := setChild d p1 (m.child o p2) m
  let m := setSibling d p1 false m
  let m := setChild o p2 (some p1) m
  let m := setChild o node (m.child d p2) m
  let m := setSibling o node (m.sibling d p2) m
  let m := setParent p2 (m.parent node) m
  let m := setChild d p2 (some node) m
  let m := setSibling d p2 false m
  write slot (some p2) m

def raiseInnermost (d : Side) (slot : Slot) (node p1 p2 p3 : Nat) (m : Memory) : Memory :=
  let o := d.other
  let m := setChild d p2 (m.child o p3) m
  let m := setSibling d p2 false m
  let m := setChild o node (m.child d p3) m
  let m := setSibling o node false m
  let m := setChild o p3 (some p1) m
  let m := setSibling o p3 true m
  let m := setParent p3 (m.parent node) m
  let m := setChild d p3 (some node) m
  write slot (some p3) m

-- The far subtree is lifted; the node becomes a sibling of its inner subtree.
def raiseFar (d : Side) (slot : Slot) (node p1 p2 : Nat) (m : Memory) : Memory :=
  let o := d.other
  let m := setChild o node (m.child d p2) m
  let m := setSibling o node false m
  let m := setParent p1 (m.parent node) m
  let m := setChild d p2 (some node) m
  let m := setSibling d p2 true m
  write slot (some p1) m

-- The far subtree is lifted with the node as its sibling; the height is not restored.
def raiseLevel (d : Side) (slot : Slot) (node p1 : Nat) (m : Memory) : Memory :=
  let m := setChild d.other node (m.child d p1) m
  let m := setParent p1 (m.parent node) m
  let m := setChild d p1 (some node) m
  let m := setSibling d p1 true m
  write slot (some p1) m

-- The subtree on side d has become shorter; the node at the slot is rebalanced.
def rebalanceRemove (d : Side) (slot : Slot) (node : Nat) (m : Memory) : Option (Nat × Memory) :=
  let o := d.other
  if m.sibling d node then some (0,setSibling d node false m)
  else do
    let p1 ← m.child o node
    let lifts ← if m.sibling o node then (m.child d p1).map (m.sibling o) else some (m.sibling d p1)
    if lifts then do
      let p2 ← m.child d p1
      some (0,raiseInner d slot node p1 p2 m)
    else if m.sibling o node then do
      let p2 ← m.child d p1
      if m.sibling d p2 then do
        let p3 ← m.child d p2
        some (0,raiseInnermost d slot node p1 p2 p3 m)
      else some (0,raiseFar d slot node p1 p2 m)
    else if m.sibling o p1 then some (1,raiseLevel d slot node p1 m)
    else some (1,setSibling o node true m)

abbrev Removal := Slot → Memory → Option (Option Nat × Nat × Memory)

def removeBelow (search : Removal) (d : Side) (slot : Slot) (m : Memory) : Option (Option Nat × Nat × Memory) := do
  let node ← read slot m
  let (result,rebalance,m) ← search (.link d node) m
  if rebalance = 0 then some (result,0,m)
  else do
    let (rebalance,m) ← rebalanceRemove d slot node m
    some (result,rebalance,m)

-- if (node->left()) node->left()->setParent(node->getParent()); node = node->left();
def promote (d : Side) (slot : Slot) (node : Nat) (m : Memory) : Memory :=
  let m' := match m.child d node with
    | some c => setParent c (m.parent node) m
    | none => m
  write slot (m.child d node) m'

def removeAt (key : Int) : Nat → Removal
  | 0,_,_ => none
  | fuel+1,slot,m =>
      match read slot m with
      | none => some (none,0,m)
      | some node =>
          if key = m.key node then
            if m.child .right node = none then
              some (some node,if m.sibling .left node then 0 else 1,promote .left slot node m)
            else if m.child .left node = none then
              some (some node,if m.sibling .right node then 0 else 1,promote .right slot node m)
            else do
              let m ← swapRightmost fuel (.link .left node) slot m
              removeBelow (removeAt key fuel) .left slot m
          else if key < m.key node then removeBelow (removeAt key fuel) .left slot m
          else removeBelow (removeAt key fuel) .right slot m

def remove (fuel : Nat) (key : Int) (m : Memory) : Option (Option Nat × Memory) :=
  (removeAt key fuel .root m).map fun r => (r.1,r.2.2)

def getLeftmost (m : Memory) : Nat → Nat → Option Nat
  | 0,_ => none
  | fuel+1,root =>
      match m.child .left root with
      | some l => getLeftmost m fuel l
      | none => some root

-- for (node = node->getParent(); node && node->getKey() <= key; node = node->getParent())
def climb (m : Memory) (key : Int) : Nat → Option Nat → Option (Option Nat)
  | 0,_ => none
  | _+1,none => some none
  | fuel+1,some node => if m.key node ≤ key then climb m key fuel (m.parent node) else some (some node)

def getNextHigher (m : Memory) (fuel : Nat) (node : Nat) : Option (Option Nat) :=
  match m.child .right node with
  | some r => (getLeftmost m fuel r).map some
  | none => climb m (m.key node) fuel (m.parent node)

-- The keys that getFirst and then getNext return until they return NULL.
def iterateFrom (m : Memory) (fuel : Nat) : Nat → Option Nat → Option (List Int)
  | _,none => some []
  | 0,some _ => none
  | count+1,some node => do
      let next ← getNextHigher m fuel node
      let rest ← iterateFrom m fuel count next
      some (m.key node::rest)

def iterate (m : Memory) (fuel : Nat) : Option (List Int) :=
  match m.root with
  | none => some []
  | some root => do
      let first ← getLeftmost m fuel root
      iterateFrom m fuel fuel (some first)

end OmrCompiler.Hedge
