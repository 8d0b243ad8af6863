import OmrCompiler.CompareHandlers

/-! A branch on an or or an and of two compares that becomes two branches: bitwiseToLogical of
OMRSimplifierHandlers.cpp, and the edges CFG::addEdge and CFG::removeEdge (OMRCfg.cpp) leave. -/
namespace OmrCompiler.BitwiseBranch
open MachineInt CompareHandlers

/- The value opcodes with the BooleanCompare property. The unbranched ones, fcmpl, fcmpg, dcmpl,
dcmpg and the vector reductions, have no opcode that branches. -/
inductive BooleanCompare where
  | integral (op : CompareOp)
  | floating (isDouble : Bool) (relation : Relation) (orUnordered : Bool)
  | unbranched
  deriving DecidableEq, Repr

def reverse : Relation → Relation
  | .eq => .ne
  | .ne => .eq
  | .lt => .ge
  | .ge => .lt
  | .gt => .le
  | .le => .gt

def BooleanCompare.getOpCodeForReverseBranch : BooleanCompare → BooleanCompare
  | .integral op => .integral ⟨op.operand,reverse op.relation⟩
  | .floating isDouble relation orUnordered => .floating isDouble (reverse relation) (!orUnordered)
  | .unbranched => .unbranched

-- none is BadILOp; an if opcode has the operands and the relation of its compare.
def BooleanCompare.convertCmpToIfCmp : BooleanCompare → Option BooleanCompare
  | .unbranched => none
  | op => some op

-- A compare of two nodes.
structure Compare where
  op : BooleanCompare
  first : Nat
  second : Nat
  deriving DecidableEq, Repr

-- An ior or an iand; a child is none when it is not a b2i of a boolean compare.
structure Bitwise where
  isOr : Bool
  referenceCount : Nat
  first : Option Compare
  second : Option Compare
  deriving DecidableEq, Repr

/- An integral branch. firstChild is none when it is neither an ior nor an iand, secondChild when
it is not an iconst. -/
structure IfNode where
  op : CompareOp
  firstChild : Option Bitwise
  secondChild : Option Int
  destination : Nat
  deriving DecidableEq, Repr

-- The edges of the flow graph, with their multiplicity, around the block of the branch.
structure Flow where
  block : Nat
  nextBlock : Nat
  nextIsExtension : Bool
  newBlock : Nat
  last : Nat
  edges : List (Nat × Nat)
  deriving DecidableEq, Repr

inductive Source where
  | node (n : Nat)
  | temp (t : Nat)
  deriving DecidableEq, Repr

structure Jump where
  op : Option BooleanCompare
  first : Source
  second : Source
  destination : Nat
  deriving DecidableEq, Repr

structure Sequence where
  stores : List (Nat × Nat)
  branch : Jump
  newBlock : Nat
  newBranch : Jump
  nextBlock : Nat
  edges : List (Nat × Nat)
  blockRemoved : Bool
  deriving DecidableEq, Repr

def addEdge (edges : List (Nat × Nat)) (f t : Nat) : List (Nat × Nat) := (f,t) :: edges

-- Without a control tree, exception edges left out.
def unreachableOrphan (last : Nat) (edges : List (Nat × Nat)) (t : Nat) : Bool :=
  let predecessors := edges.filter (fun e => e.2 = t)
  (predecessors.isEmpty && t ≠ last) || predecessors = [(t,t)]

-- The edges without the first one between the two blocks, and whether the target is left unreachable.
def removeEdge (last : Nat) (edges : List (Nat × Nat)) (f t : Nat) : List (Nat × Nat) × Bool :=
  (edges.erase (f,t),unreachableOrphan last (edges.erase (f,t)) t)

-- Whether the branch is taken when the operator yields zero.
def takenOnZero (op : CompareOp) (konst : Int) : Bool := if op.relation = .ne then konst ≠ 0 else konst = 0

-- Whether the first branch goes to the destination, else it goes to the next block.
def keepsDestination (disjunctive isZero : Bool) : Bool := (disjunctive && !isZero) || (!disjunctive && isZero)

def firstOp (disjunctive : Bool) (cmp1 : Compare) : Option BooleanCompare :=
  if disjunctive then cmp1.op.convertCmpToIfCmp else cmp1.op.getOpCodeForReverseBranch.convertCmpToIfCmp

def bitwiseToLogical (performTransformation : Bool) (flow : Flow) (node : IfNode) : Option Sequence := do
  if node.op ≠ ⟨.i,.ne⟩ ∧ node.op ≠ ⟨.i,.eq⟩ then none
  else
    let firstChild ← node.firstChild
    if firstChild.referenceCount ≠ 1 then none
    else
      let cmp1 ← firstChild.first
      let cmp2 ← firstChild.second
      let konst ← node.secondChild
      if konst ≠ 0 ∧ konst ≠ 1 then none
      else if flow.nextIsExtension || !performTransformation then none
      else
        let disjunctive := firstChild.isOr
        let isZero := takenOnZero node.op konst
        let newOp := if isZero then cmp2.op.getOpCodeForReverseBranch.convertCmpToIfCmp else cmp2.op.convertCmpToIfCmp
        let joined := addEdge (addEdge (addEdge flow.edges flow.newBlock flow.nextBlock) flow.newBlock node.destination)
          flow.block flow.newBlock
        let removed :=
          if keepsDestination disjunctive isZero then removeEdge flow.last joined flow.block flow.nextBlock
          else removeEdge flow.last joined flow.block node.destination
        some {
          stores := [(0,cmp2.first),(1,cmp2.second)]
          branch := ⟨firstOp disjunctive cmp1,.node cmp1.first,.node cmp1.second,
            if keepsDestination disjunctive isZero then node.destination else flow.nextBlock⟩
          newBlock := flow.newBlock
          newBranch := ⟨newOp,.temp 0,.temp 1,node.destination⟩
          nextBlock := flow.nextBlock
          edges := removed.1
          blockRemoved := removed.2
        }

/- The values of the nodes, what a compare of floats finds (none is unordered), and the value of
a compare that has no branch. -/
structure Env where
  node : Nat → Int
  compareFloats : Bool → Int → Int → Option Ordering
  unbranched : Int → Int → Int

def ofOrdering (r : Relation) (found : Ordering) : Bool :=
  match r with
  | .eq => found = .eq
  | .ne => found ≠ .eq
  | .lt => found = .lt
  | .ge => found ≠ .lt
  | .gt => found = .gt
  | .le => found ≠ .gt

def BooleanCompare.holds (env : Env) (op : BooleanCompare) (x y : Int) : Bool :=
  match op with
  | .integral op => op.eval x y
  | .floating isDouble relation orUnordered =>
    match env.compareFloats isDouble x y with
    | some found => ofOrdering relation found
    | none => orUnordered
  | .unbranched => decide (env.unbranched x y ≠ 0)

-- A compare under its b2i.
def Compare.value (env : Env) (c : Compare) : BitVec 32 :=
  match c.op with
  | .unbranched => BitVec.ofInt 32 (wrap 8 (env.unbranched (env.node c.first) (env.node c.second)))
  | op => if op.holds env (env.node c.first) (env.node c.second) then 1#32 else 0#32

def IfNode.run (env : Env) (flow : Flow) (node : IfNode) : Option Nat := do
  let firstChild ← node.firstChild
  let cmp1 ← firstChild.first
  let cmp2 ← firstChild.second
  let konst ← node.secondChild
  let value := if firstChild.isOr then cmp1.value env ||| cmp2.value env else cmp1.value env &&& cmp2.value env
  some (if node.op.eval value.toInt konst then node.destination else flow.nextBlock)

def Source.read (env : Env) (temps : Nat → Int) : Source → Int
  | .node n => env.node n
  | .temp t => temps t

def Jump.taken (env : Env) (temps : Nat → Int) (jump : Jump) : Option Bool :=
  jump.op.map fun op => op.holds env (jump.first.read env temps) (jump.second.read env temps)

def Sequence.temps (env : Env) (s : Sequence) : Nat → Int :=
  s.stores.foldl (fun temps store => Function.update temps store.1 (env.node store.2)) (fun _ => 0)

-- The two blocks: the stores and the branch of the first, then the branch of the new one.
def Sequence.run (env : Env) (s : Sequence) : Option Nat := do
  if ← s.branch.taken env (s.temps env) then some s.branch.destination
  else if ← s.newBranch.taken env (s.temps env) then some s.newBranch.destination
  else some s.nextBlock

-- The edges of each block are those of its branch and its fall-through.
structure EdgesExact (flow : Flow) (s : Sequence) : Prop where
  block : ∀ t, (flow.block,t) ∈ s.edges ↔ t = s.branch.destination ∨ t = s.newBlock
  newBlock : ∀ t, (s.newBlock,t) ∈ s.edges ↔ t = s.newBranch.destination ∨ t = s.nextBlock
  others : ∀ f t, f ≠ flow.block → f ≠ s.newBlock → ((f,t) ∈ s.edges ↔ (f,t) ∈ flow.edges)

-- The graph before, with a block that is not yet in it.
structure Flow.WellFormed (flow : Flow) (destination : Nat) : Prop where
  block : ∀ t, (flow.block,t) ∈ flow.edges ↔ t = destination ∨ t = flow.nextBlock
  fresh : ∀ f t, (f,t) ∈ flow.edges → f ≠ flow.newBlock ∧ t ≠ flow.newBlock
  distinct : flow.newBlock ≠ flow.block

theorem reverseHolds (r : Relation) (x y : Int) : (reverse r).holds x y = !r.holds x y := by
  cases r <;> simp only [reverse,Relation.holds] <;> grind

theorem reverseOrdering (r : Relation) (found : Ordering) : ofOrdering (reverse r) found = !ofOrdering r found := by
  cases r <;> cases found <;> rfl

theorem reverseTruth (env : Env) {op : BooleanCompare} (branched : op ≠ .unbranched) (x y : Int) :
    op.getOpCodeForReverseBranch.holds env x y = !op.holds env x y := by
  cases op with
  | integral op => exact reverseHolds op.relation _ _
  | floating isDouble relation orUnordered =>
    simp only [BooleanCompare.getOpCodeForReverseBranch,BooleanCompare.holds]
    cases env.compareFloats isDouble x y with
    | none => rfl
    | some found => exact reverseOrdering relation found
  | unbranched => exact absurd rfl branched

theorem branchedOp {op : BooleanCompare} (branched : op ≠ .unbranched) : op.convertCmpToIfCmp = some op := by
  cases op with
  | unbranched => exact absurd rfl branched
  | _ => rfl

theorem branchedReverse {op : BooleanCompare} (branched : op ≠ .unbranched) :
    op.getOpCodeForReverseBranch.convertCmpToIfCmp = some op.getOpCodeForReverseBranch := by
  cases op with
  | unbranched => exact absurd rfl branched
  | _ => rfl

theorem branchedValue (env : Env) {c : Compare} (branched : c.op ≠ .unbranched) :
    c.value env = if c.op.holds env (env.node c.first) (env.node c.second) then 1#32 else 0#32 := by
  unfold Compare.value
  split
  · rename_i none
    exact absurd none branched
  · rfl

theorem takenBit {op : CompareOp} (equality : op = ⟨.i,.ne⟩ ∨ op = ⟨.i,.eq⟩) {konst : Int} (bit : konst = 0 ∨ konst = 1) (b : Bool) :
    op.eval (if b then 1#32 else 0#32).toInt konst = if takenOnZero op konst then !b else b := by
  rcases equality with rfl | rfl <;> rcases bit with rfl | rfl <;> cases b <;> decide

theorem joinedBit (isOr a b : Bool) :
    (if isOr then (if a then 1#32 else 0#32) ||| (if b then 1#32 else 0#32)
      else (if a then 1#32 else 0#32) &&& (if b then 1#32 else 0#32)) =
    if (if isOr then a || b else a && b) then 1#32 else 0#32 := by
  cases isOr <;> cases a <;> cases b <;> rfl

-- What the guards let through.
structure Accepted (flow : Flow) (node : IfNode) where
  firstChild : Bitwise
  cmp1 : Compare
  cmp2 : Compare
  konst : Int
  equality : node.op = ⟨.i,.ne⟩ ∨ node.op = ⟨.i,.eq⟩
  child : node.firstChild = some firstChild
  first : firstChild.first = some cmp1
  second : firstChild.second = some cmp2
  const : node.secondChild = some konst
  bit : konst = 0 ∨ konst = 1

section Rewrites
variable {performTransformation : Bool} {flow : Flow} {node : IfNode} {s : Sequence}

def Accepted.isZero (a : Accepted flow node) : Bool := takenOnZero node.op a.konst

def Accepted.keeps (a : Accepted flow node) : Bool := keepsDestination a.firstChild.isOr a.isZero

-- The block whose edge the rewrite takes away.
def Accepted.removed (a : Accepted flow node) : Nat := if a.keeps then flow.nextBlock else node.destination

def Accepted.newOp (a : Accepted flow node) : Option BooleanCompare :=
  if a.isZero then a.cmp2.op.getOpCodeForReverseBranch.convertCmpToIfCmp else a.cmp2.op.convertCmpToIfCmp

def Accepted.joined (_ : Accepted flow node) : List (Nat × Nat) :=
  (flow.block,flow.newBlock) :: (flow.newBlock,node.destination) :: (flow.newBlock,flow.nextBlock) :: flow.edges

def Accepted.sequence (a : Accepted flow node) : Sequence where
  stores := [(0,a.cmp2.first),(1,a.cmp2.second)]
  branch := ⟨firstOp a.firstChild.isOr a.cmp1,.node a.cmp1.first,.node a.cmp1.second,
    if a.keeps then node.destination else flow.nextBlock⟩
  newBlock := flow.newBlock
  newBranch := ⟨a.newOp,.temp 0,.temp 1,node.destination⟩
  nextBlock := flow.nextBlock
  edges := a.joined.erase (flow.block,a.removed)
  blockRemoved := unreachableOrphan flow.last (a.joined.erase (flow.block,a.removed)) a.removed

theorem findAccepted (rewritten : bitwiseToLogical performTransformation flow node = some s) :
    ∃ a : Accepted flow node, s = a.sequence := by
  unfold bitwiseToLogical at rewritten
  split at rewritten
  · cases rewritten
  rename_i equality
  cases child : node.firstChild with
  | none => simp [child] at rewritten
  | some firstChild =>
    simp only [child,Option.bind_eq_bind,Option.bind_some] at rewritten
    split at rewritten
    · cases rewritten
    cases first : firstChild.first with
    | none => simp [first] at rewritten
    | some cmp1 =>
      cases second : firstChild.second with
      | none => simp [first,second] at rewritten
      | some cmp2 =>
        cases const : node.secondChild with
        | none => simp [first,second,const] at rewritten
        | some konst =>
          simp only [first,second,const,Option.bind_some] at rewritten
          split at rewritten
          · cases rewritten
          rename_i bit
          split at rewritten
          · cases rewritten
          refine ⟨⟨firstChild,cmp1,cmp2,konst,by tauto,child,first,second,const,by tauto⟩,?_⟩
          cases rewritten
          cases keeps : keepsDestination firstChild.isOr (takenOnZero node.op konst) <;>
            simp only [Accepted.sequence,Accepted.removed,Accepted.keeps,Accepted.isZero,Accepted.joined,Accepted.newOp,addEdge,
              removeEdge,keeps,if_true,Bool.false_eq_true,if_false] <;>
            rfl

theorem originalRun (a : Accepted flow node) (env : Env) (branched : a.cmp1.op ≠ .unbranched ∧ a.cmp2.op ≠ .unbranched) :
    let b1 := a.cmp1.op.holds env (env.node a.cmp1.first) (env.node a.cmp1.second)
    let b2 := a.cmp2.op.holds env (env.node a.cmp2.first) (env.node a.cmp2.second)
    let joined := if a.firstChild.isOr then b1 || b2 else b1 && b2
    node.run env flow = some (if (if a.isZero then !joined else joined) then node.destination else flow.nextBlock) := by
  simp only [IfNode.run,a.child,a.first,a.second,a.const,Option.bind_eq_bind,Option.bind_some,branchedValue env branched.1,
    branchedValue env branched.2,joinedBit,takenBit a.equality a.bit,Accepted.isZero]
  rfl

theorem firstTaken (a : Accepted flow node) (env : Env) (temps : Nat → Int) (branched : a.cmp1.op ≠ .unbranched) :
    let b1 := a.cmp1.op.holds env (env.node a.cmp1.first) (env.node a.cmp1.second)
    a.sequence.branch.taken env temps = some (if a.firstChild.isOr then b1 else !b1) := by
  simp only [Jump.taken,Accepted.sequence,firstOp,Source.read]
  split
  · rw [branchedOp branched,Option.map_some]
  · rw [branchedReverse branched,Option.map_some,reverseTruth env branched]

theorem secondTaken (a : Accepted flow node) (env : Env) (temps : Nat → Int) (branched : a.cmp2.op ≠ .unbranched) :
    let b2 := a.cmp2.op.holds env (temps 0) (temps 1)
    a.sequence.newBranch.taken env temps = some (if a.isZero then !b2 else b2) := by
  simp only [Jump.taken,Accepted.sequence,Accepted.newOp,Source.read]
  split
  · rw [branchedReverse branched,Option.map_some,reverseTruth env branched]
  · rw [branchedOp branched,Option.map_some]

-- The temporaries have the operands of the second compare when the new block reads them.
theorem rewrittenRun (a : Accepted flow node) (env : Env) (branched : a.cmp1.op ≠ .unbranched ∧ a.cmp2.op ≠ .unbranched) :
    let b1 := a.cmp1.op.holds env (env.node a.cmp1.first) (env.node a.cmp1.second)
    let b2 := a.cmp2.op.holds env (env.node a.cmp2.first) (env.node a.cmp2.second)
    a.sequence.run env = some (if (if a.firstChild.isOr then b1 else !b1) then (if a.keeps then node.destination else flow.nextBlock)
      else if (if a.isZero then !b2 else b2) then node.destination else flow.nextBlock) := by
  simp only [Sequence.run,firstTaken a env _ branched.1,secondTaken a env _ branched.2,Option.bind_eq_bind,Option.bind_some]
  have first : a.sequence.temps env 0 = env.node a.cmp2.first := rfl
  have second : a.sequence.temps env 1 = env.node a.cmp2.second := rfl
  rw [first,second]
  have collapse : ∀ (c d : Bool) (x y z : Nat),
      (if c then some x else if d then some y else some z) = some (if c then x else if d then y else z) := by
    intro c d x y z
    cases c <;> cases d <;> rfl
  exact collapse _ _ _ _ _

theorem samePath (isOr isZero b1 b2 : Bool) (destination nextBlock : Nat) :
    (if (if isOr then b1 else !b1) then (if keepsDestination isOr isZero then destination else nextBlock)
      else if (if isZero then !b2 else b2) then destination else nextBlock) =
    if (if isZero then !(if isOr then b1 || b2 else b1 && b2) else if isOr then b1 || b2 else b1 && b2) then destination
      else nextBlock := by
  cases isOr <;> cases isZero <;> cases b1 <;> cases b2 <;> rfl

theorem samePlace (a : Accepted flow node) (env : Env) (branched : a.cmp1.op ≠ .unbranched ∧ a.cmp2.op ≠ .unbranched) :
    a.sequence.run env = node.run env flow := by
  rw [originalRun a env branched,rewrittenRun a env branched]
  exact congrArg some (samePath _ _ _ _ _ _)

section Edges

theorem afterErase (edges : List (Nat × Nat)) (e d : Nat × Nat) : e ∈ edges.erase d ↔ e ≠ d ∧ e ∈ edges ∨ e = d ∧ 2 ≤ edges.count d := by
  by_cases same : e = d
  · subst same
    have left := List.count_erase_self (a := e) (l := edges)
    rw [← List.count_pos_iff,left]
    simp
    omega
  · rw [List.mem_erase_of_ne same]
    simp [same]

theorem blockEdge (formed : flow.WellFormed node.destination) (a : Accepted flow node) (t : Nat) :
    (flow.block,t) ∈ a.joined ↔ t = flow.newBlock ∨ t = node.destination ∨ t = flow.nextBlock := by
  have apart := formed.distinct.symm
  simp only [Accepted.joined,List.mem_cons,Prod.mk.injEq,true_and,apart,false_and,false_or,formed.block]

theorem newEdge (formed : flow.WellFormed node.destination) (a : Accepted flow node) (t : Nat) :
    (flow.newBlock,t) ∈ a.joined ↔ t = node.destination ∨ t = flow.nextBlock := by
  have apart := formed.distinct
  have none : (flow.newBlock,t) ∉ flow.edges := fun inside => (formed.fresh _ _ inside).1 rfl
  simp only [Accepted.joined,List.mem_cons,Prod.mk.injEq,true_and,apart,false_and,false_or,none,or_false]

theorem removedTarget (a : Accepted flow node) : a.removed = flow.nextBlock ∨ a.removed = node.destination := by
  unfold Accepted.removed
  split
  · exact Or.inl rfl
  · exact Or.inr rfl

theorem removedThere (formed : flow.WellFormed node.destination) (a : Accepted flow node) :
    (flow.block,a.removed) ∈ flow.edges := by
  rw [formed.block]
  exact (removedTarget a).symm

theorem joinedCount (formed : flow.WellFormed node.destination) (a : Accepted flow node) :
    a.joined.count (flow.block,a.removed) = flow.edges.count (flow.block,a.removed) := by
  have old : a.removed ≠ flow.newBlock := (formed.fresh _ _ (removedThere formed a)).2
  have apart := formed.distinct
  simp only [Accepted.joined]
  rw [List.count_cons_of_ne,List.count_cons_of_ne,List.count_cons_of_ne]
  · intro same
    exact apart (congrArg Prod.fst same)
  · intro same
    exact apart (congrArg Prod.fst same)
  · intro same
    exact old (congrArg Prod.snd same).symm

-- The edge taken away is still there when it had a second copy.
theorem leftEdge (formed : flow.WellFormed node.destination) (a : Accepted flow node) (t : Nat) :
    (flow.block,t) ∈ a.sequence.edges ↔
      t ≠ a.removed ∧ (t = flow.newBlock ∨ t = node.destination ∨ t = flow.nextBlock) ∨
      t = a.removed ∧ 2 ≤ flow.edges.count (flow.block,a.removed) := by
  simp only [Accepted.sequence,afterErase,blockEdge formed,joinedCount formed,ne_eq,Prod.mk.injEq,true_and]

theorem otherEdge (a : Accepted flow node) {f t : Nat} (apart : f ≠ flow.block) :
    (f,t) ∈ a.sequence.edges ↔ (f,t) ∈ a.joined := by
  simp only [Accepted.sequence,afterErase,ne_eq,Prod.mk.injEq,apart,false_and,not_false_eq_true,true_and,or_false]

theorem edgesExactWhen (formed : flow.WellFormed node.destination) (a : Accepted flow node) :
    EdgesExact flow a.sequence ↔
      if node.destination = flow.nextBlock then 2 ≤ flow.edges.count (flow.block,a.removed)
      else flow.edges.count (flow.block,a.removed) = 1 := by
  have some : 0 < flow.edges.count (flow.block,a.removed) := List.count_pos_iff.mpr (removedThere formed a)
  have newRemoved : a.removed ≠ flow.newBlock := (formed.fresh _ _ (removedThere formed a)).2
  constructor
  · intro exactly
    have atRemoved := (leftEdge formed a a.removed).symm.trans (exactly.block a.removed)
    split
    · rename_i together
      have kept : a.sequence.branch.destination = a.removed := by
        rcases removedTarget a with next | destination
        · simp [Accepted.sequence,next,together]
        · simp [Accepted.sequence,destination,together]
      simpa [kept] using atRemoved
    · rename_i apart
      have other : a.sequence.branch.destination ≠ a.removed := by
        simp only [Accepted.sequence,Accepted.removed]
        split
        · exact apart
        · exact fun same => apart same.symm
      have gone : ¬ 2 ≤ flow.edges.count (flow.block,a.removed) := by
        intro twice
        rcases atRemoved.mp (Or.inr ⟨rfl,twice⟩) with same | same
        · exact other same.symm
        · exact newRemoved same
      omega
  · intro counts
    refine ⟨?_,?_,?_⟩
    · intro t
      rw [leftEdge formed a t]
      have place : a.sequence.branch.destination = if a.keeps then node.destination else flow.nextBlock := rfl
      have newPlace : a.sequence.newBlock = flow.newBlock := rfl
      have removed : a.removed = if a.keeps then flow.nextBlock else node.destination := rfl
      rw [place,newPlace]
      rw [removed] at counts newRemoved ⊢
      cases keeps : a.keeps <;> simp only [keeps,Bool.false_eq_true,if_false,if_true] at counts newRemoved ⊢ <;> grind
    · intro t
      rw [show a.sequence.newBlock = flow.newBlock from rfl,otherEdge a formed.distinct,newEdge formed]
      rfl
    · intro f t notBlock notNew
      rw [otherEdge a notBlock]
      have apart : f ≠ flow.newBlock := notNew
      simp only [Accepted.joined,List.mem_cons,Prod.mk.injEq,notBlock,apart,false_and,false_or]

end Edges

-- What the rewrite is for: both branches exist, lead to the same block and have just their edges.
structure Equivalent (flow : Flow) (node : IfNode) (s : Sequence) : Prop where
  branches : s.branch.op.isSome ∧ s.newBranch.op.isSome
  reaches : ∀ env, s.run env = node.run env flow
  edges : EdgesExact flow s

-- The block whose edge is taken away, by the node before.
def removedEdge (flow : Flow) (node : IfNode) (firstChild : Bitwise) (konst : Int) : Nat × Nat :=
  (flow.block,if keepsDestination firstChild.isOr (takenOnZero node.op konst) then flow.nextBlock else node.destination)

/- Both compares have a branch, and the edge that is taken away had no other copy, or, when the
destination is the next block, had one. -/
def ConvertsExactly (flow : Flow) (node : IfNode) : Prop :=
  ∃ firstChild cmp1 cmp2 konst, node.firstChild = some firstChild ∧ firstChild.first = some cmp1 ∧ firstChild.second = some cmp2 ∧
    node.secondChild = some konst ∧ cmp1.op ≠ .unbranched ∧ cmp2.op ≠ .unbranched ∧
    if node.destination = flow.nextBlock then 2 ≤ flow.edges.count (removedEdge flow node firstChild konst)
    else flow.edges.count (removedEdge flow node firstChild konst) = 1

theorem branchesWhen (a : Accepted flow node) :
    (a.sequence.branch.op.isSome ∧ a.sequence.newBranch.op.isSome) ↔ a.cmp1.op ≠ .unbranched ∧ a.cmp2.op ≠ .unbranched := by
  have converts : ∀ op : BooleanCompare, op.convertCmpToIfCmp.isSome ↔ op ≠ .unbranched := by
    intro op
    cases op <;> simp [BooleanCompare.convertCmpToIfCmp]
  have reversed : ∀ op : BooleanCompare, op.getOpCodeForReverseBranch.convertCmpToIfCmp.isSome ↔ op ≠ .unbranched := by
    intro op
    cases op <;> simp [BooleanCompare.convertCmpToIfCmp,BooleanCompare.getOpCodeForReverseBranch]
  simp only [Accepted.sequence,firstOp,Accepted.newOp]
  refine and_congr ?_ ?_
  · split
    · exact converts _
    · exact reversed _
  · split
    · exact reversed _
    · exact converts _

-- The branch and its graph are those of the original just when the condition on the graph before holds.
theorem bitwiseBranchExact (formed : flow.WellFormed node.destination)
    (rewritten : bitwiseToLogical performTransformation flow node = some s) :
    Equivalent flow node s ↔ ConvertsExactly flow node := by
  obtain ⟨a,rfl⟩ := findAccepted rewritten
  have removed : removedEdge flow node a.firstChild a.konst = (flow.block,a.removed) := rfl
  constructor
  · intro same
    have branched := (branchesWhen a).mp same.branches
    refine ⟨a.firstChild,a.cmp1,a.cmp2,a.konst,a.child,a.first,a.second,a.const,branched.1,branched.2,?_⟩
    rw [removed]
    exact (edgesExactWhen formed a).mp same.edges
  · rintro ⟨firstChild,cmp1,cmp2,konst,child,first,second,const,branched1,branched2,counts⟩
    rw [a.child] at child
    cases child
    rw [a.first] at first
    rw [a.second] at second
    rw [a.const] at const
    cases first
    cases second
    cases const
    rw [removed] at counts
    exact ⟨(branchesWhen a).mpr ⟨branched1,branched2⟩,fun env => samePlace a env ⟨branched1,branched2⟩,
      (edgesExactWhen formed a).mpr counts⟩

end Rewrites

-- if ((x < y) | (z == w)) goto 3, in block 1 before block 2; block 4 is new.
def orBranch (destination : Nat) : IfNode :=
  ⟨⟨.i,.ne⟩,some ⟨true,1,some ⟨.integral ⟨.i,.lt⟩,0,1⟩,some ⟨.integral ⟨.i,.eq⟩,2,3⟩⟩,some 0,destination⟩

def orFlow (edges : List (Nat × Nat)) : Flow := ⟨1,2,false,4,9,edges⟩

def orSequence : Sequence :=
  ⟨[(0,2),(1,3)],⟨some (.integral ⟨.i,.lt⟩),.node 0,.node 1,3⟩,4,⟨some (.integral ⟨.i,.eq⟩),.temp 0,.temp 1,3⟩,2,
    [(1,4),(4,3),(4,2),(1,3)],false⟩

theorem bitwiseBranchExactSample : Equivalent (orFlow [(1,3),(1,2)]) (orBranch 3) orSequence ↔
    ConvertsExactly (orFlow [(1,3),(1,2)]) (orBranch 3) := by
  have formed : (orFlow [(1,3),(1,2)]).WellFormed (orBranch 3).destination := by
    refine ⟨?_,?_,by decide⟩
    · intro t
      simp [orFlow,orBranch]
    · intro f t inside
      simp [orFlow] at inside ⊢
      omega
  have rewritten : bitwiseToLogical true (orFlow [(1,3),(1,2)]) (orBranch 3) = some orSequence := by decide
  exact bitwiseBranchExact formed rewritten

-- With the next block as the destination the first branch has lost its edge.
theorem bitwiseBranchCoincides : ∃ s, bitwiseToLogical true (orFlow [(1,2)]) (orBranch 2) = some s ∧
    s.branch.destination = 2 ∧ (1,2) ∉ s.edges ∧ ¬ EdgesExact (orFlow [(1,2)]) s := by
  refine ⟨_,rfl,rfl,by decide,?_⟩
  intro exactly
  exact absurd ((exactly.block 2).mpr (Or.inl rfl)) (by decide)

end OmrCompiler.BitwiseBranch
