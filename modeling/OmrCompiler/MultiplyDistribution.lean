import OmrCompiler.DecomposedMultiply
import OmrCompiler.SharedGraph

/-! The distribution and reassociation of multiplications: lmulSimplifier and the rules R10,
R11, R13 and R15 of imulSimplifier (OMRSimplifierHandlers.cpp), on nodes that are shared. The
children have been simplified. Anchors of order dependent children are left out. -/
namespace OmrCompiler.MultiplyDistribution
open MachineInt Constraint ILTree SharedGraph

-- The opcodes the handlers look at; any other opcode has a type and a code.
inductive OpCode where
  | iconst
  | iuconst
  | lconst
  | luconst
  | iadd
  | isub
  | imul
  | ladd
  | lsub
  | lmul
  | lneg
  | i2l
  | other (type : DataType) (code : Nat)
  deriving DecidableEq, Repr

namespace OpCode

def type : OpCode → DataType
  | iconst => .Int32
  | iuconst => .Int32
  | iadd => .Int32
  | isub => .Int32
  | imul => .Int32
  | lconst => .Int64
  | luconst => .Int64
  | ladd => .Int64
  | lsub => .Int64
  | lmul => .Int64
  | lneg => .Int64
  | i2l => .Int64
  | other t _ => t

def isLoadConst : OpCode → Bool
  | iconst => true
  | iuconst => true
  | lconst => true
  | luconst => true
  | _ => false

-- The types of the operands, where the opcode fixes them.
def operands : OpCode → Option (List DataType)
  | iadd => some [.Int32,.Int32]
  | isub => some [.Int32,.Int32]
  | imul => some [.Int32,.Int32]
  | ladd => some [.Int64,.Int64]
  | lsub => some [.Int64,.Int64]
  | lmul => some [.Int64,.Int64]
  | lneg => some [.Int64]
  | i2l => some [.Int32]
  | other _ _ => none
  | _ => some []

end OpCode

structure Node where
  opCode : OpCode
  constValue : Int
  cannotOverflow : Bool
  isHighWordZero : Bool
  isAdjunct : Bool
  deriving DecidableEq, Repr

-- The value before it is cut to the type of the node.
def exactValue (others : DataType → Nat → List Int → Int) (p : Node) (values : List Int) : Int :=
  match p.opCode,values with
  | .iadd,[a,b] => a + b
  | .isub,[a,b] => a - b
  | .imul,[a,b] => a * b
  | .ladd,[a,b] => a + b
  | .lsub,[a,b] => a - b
  | .lmul,[a,b] => a * b
  | .lneg,[a] => -a
  | .i2l,[a] => a
  | .iconst,_ => p.constValue
  | .iuconst,_ => p.constValue
  | .lconst,_ => p.constValue
  | .luconst,_ => p.constValue
  | .other t code,values => others t code values
  | _,_ => 0

def meaning (others : DataType → Nat → List Int → Int) (p : Node) (values : List Int) : Int :=
  wrap p.opCode.type.bits (exactValue others p values)

abbrev Trees := NodeGraph Node

section Access
variable (g : Trees) (n : Nat)

def opCode : OpCode := (g.payload n).opCode

def getFirstChild : Nat := (g.children n).getD 0 n

def getSecondChild : Nat := (g.children n).getD 1 n

def getInt : Int := wrap 32 (g.payload n).constValue

def getLongInt : Int := wrap 64 (g.payload n).constValue

-- The flags are kept.
def recreate (op : OpCode) : Trees := g.setPayload n {g.payload n with opCode := op}

def setConst (value : Int) : Trees := g.setPayload n {g.payload n with constValue := value}

def setCannotOverflow (flag : Bool) : Trees := g.setPayload n {g.payload n with cannotOverflow := flag}

def setIsHighWordZero (flag : Bool) : Trees := g.setPayload n {g.payload n with isHighWordZero := flag}

-- setIsHighWordZero of OMRSimplifierHelpers.cpp, for a constant.
def markHighWordZero : Trees := setIsHighWordZero g n (0 ≤ getLongInt g n ∧ getLongInt g n < 2 ^ 32)

def create (op : OpCode) : Trees := g.create ⟨op,0,false,false,false⟩

def swapChildren : Trees := (g.setChild n 0 (getSecondChild g n)).setChild n 1 (getFirstChild g n)

-- Removes all children, the last one first.
def removeAllChildren : Trees := (g.children n).reverse.foldl NodeGraph.recursivelyDecReferenceCount (g.clearChildren n)

end Access

-- The places that ask performTransformation.
inductive Site where
  | foldConstant
  | reassociation2
  | ordering
  | replaceNode
  | zeroOperand
  | mergeConstants
  | moveConstantUp
  | distributeLong
  | distributeWidened
  | reassociation10
  | reassociation11
  | reassociation13
  | reassociation15
  deriving DecidableEq, Repr

-- What is left to the optimizer, the loop structure and the target.
structure Env where
  performTransformation : Site → Bool
  region : Option (Trees → Nat → Bool)
  shouldSwapChildren : Nat → Nat → Bool
  reassociate : Bool
  is64Bit : Bool
  lastRun : Bool
  decomposition : DecomposedMultiply.Env

def isLoadConst (g : Trees) (n : Nat) : Bool := (opCode g n).isLoadConst

def isExprInvariant (g : Trees) (region : Trees → Nat → Bool) (n : Nat) : Bool := isLoadConst g n || region g n

def foldLongIntConstant (env : Env) (g : Trees) (node : Nat) (value : Int) : Trees :=
  if env.performTransformation .foldConstant then
    markHighWordZero (setConst (removeAllChildren (recreate g node .lconst) node) node value) node
  else g

def orderChildren (env : Env) (g : Trees) (node : Nat) : Trees :=
  let firstChild := getFirstChild g node
  let secondChild := getSecondChild g node
  if !isLoadConst g secondChild && isLoadConst g firstChild then swapChildren g node
  else if env.region.any fun region => !isExprInvariant g region secondChild && isExprInvariant g region firstChild then
    if env.performTransformation .reassociation2 then swapChildren g node else g
  else if env.region.any fun region => isExprInvariant g region secondChild && !isExprInvariant g region firstChild then g
  else if !isLoadConst g secondChild && env.shouldSwapChildren firstChild secondChild then
    if env.performTransformation .ordering then swapChildren g node else g
  else g

def orderChildrenByHighWordZero (g : Trees) (node : Nat) : Trees :=
  let firstChild := getFirstChild g node
  let secondChild := getSecondChild g node
  if !isLoadConst g secondChild && (g.payload secondChild).isHighWordZero && !(g.payload firstChild).isHighWordZero then swapChildren g node
  else g

def replaceNodeWithChild (env : Env) (g : Trees) (node child : Nat) : Trees × Nat :=
  if env.performTransformation .replaceNode then ((g.incReferenceCount child).recursivelyDecReferenceCount node,child)
  else (g,node)

-- (x * c1) * c2 => x * (c1 * c2)
def mergeConstants (g : Trees) (node : Nat) : Trees :=
  let firstChild := getFirstChild g node
  let secondChild := getSecondChild g node
  let lrChild := getSecondChild g firstChild
  let product := wrap 64 (getLongInt g secondChild * getLongInt g lrChild)
  let folded :=
    if g.referenceCount secondChild = 1 then markHighWordZero (setConst g secondChild product) secondChild
    else
      let foldedConstChild := g.size
      let g := (create g .lconst).setAndIncChild node 1 foldedConstChild
      markHighWordZero ((setConst g foldedConstChild product).recursivelyDecReferenceCount secondChild) foldedConstChild
  (folded.setAndIncChild node 0 (getFirstChild g firstChild)).recursivelyDecReferenceCount firstChild

-- (x * c) * y => (x * y) * c
def moveConstantUp (g : Trees) (node : Nat) : Trees :=
  let firstChild := getFirstChild g node
  let secondChild := getSecondChild g node
  (g.setChild node 1 (getSecondChild g firstChild)).setChild firstChild 1 secondChild

-- A product above zero is subtracted with its sign changed. The constant is changed in place unless it is shared.
def placeProduct (g : Trees) (node : Nat) (product : Int) : Trees :=
  let secondChild := getSecondChild g node
  let productNode := if g.referenceCount secondChild = 1 then secondChild else g.size
  let g :=
    if g.referenceCount secondChild = 1 then g
    else ((create g .lconst).setAndIncChild node 1 productNode).decReferenceCount secondChild
  if product > 0 then recreate (setConst g productNode (wrap 64 (-product))) node .lsub
  else recreate (setConst g productNode product) node .ladd

def releaseSum (g : Trees) (sum grandChild lrChild : Nat) : Trees :=
  let g := g.decReferenceCount sum
  if g.referenceCount sum = 0 then (g.decReferenceCount grandChild).decReferenceCount lrChild else g

def scaleBy (g : Trees) (newFirst : Nat) (scale : Int) : Trees :=
  let lrChild := g.size
  setConst ((create g .lconst).setAndIncChild newFirst 1 lrChild) lrChild scale

-- (x + c1) * c2 => x * c2 + c1 * c2
def distributeLong (g : Trees) (node : Nat) : Trees :=
  let firstChild := getFirstChild g node
  let secondChild := getSecondChild g node
  let lrChild := getSecondChild g firstChild
  let grandChild := getFirstChild g firstChild
  let scale := getLongInt g secondChild
  let product := wrap 64 (getLongInt g lrChild * scale)
  let product := if opCode g firstChild = .lsub then wrap 64 (-product) else product
  let g := placeProduct g node product
  let newFirst := g.size
  let g := (create g .lmul).setAndIncChild node 0 newFirst
  let g := g.setAndIncChild newFirst 0 grandChild
  scaleBy (releaseSum g firstChild grandChild lrChild) newFirst scale

-- The scaled i2l of the grandchild. The i2l node is used again unless it is shared.
def widenFirst (g : Trees) (shared : Bool) (node i2lNode sum grandChild lrChild : Nat) (scale : Int) : Trees :=
  let newFirst := g.size
  let g := (create g .lmul).setAndIncChild node 0 newFirst
  let newI2l := if shared then g.size else i2lNode
  let g :=
    if shared then (create (g.decReferenceCount i2lNode) .i2l).setReferenceCount newI2l 1
    else releaseSum g sum grandChild lrChild
  let g := g.setAndIncChild newI2l 0 grandChild
  let g := setCannotOverflow (setIsHighWordZero (setCannotOverflow g newI2l false) newI2l false) grandChild false
  scaleBy (g.setChild newFirst 0 newI2l) newFirst scale

-- i2l (x + c1) * c2 => i2l x * c2 + c1 * c2
def distributeWidened (g : Trees) (node : Nat) : Trees :=
  let i2lNode := getFirstChild g node
  let secondChild := getSecondChild g node
  let firstChild := getFirstChild g i2lNode
  let lrChild := getSecondChild g firstChild
  let scale := getLongInt g secondChild
  let product := wrap 64 (getInt g lrChild * scale)
  let product := if opCode g firstChild = .isub then wrap 64 (-product) else product
  widenFirst (placeProduct g node product) (g.referenceCount i2lNode ≠ 1) node i2lNode firstChild (getFirstChild g firstChild) lrChild scale

def opCodeOf : BinaryOp → Option OpCode
  | .add => some .ladd
  | .sub => some .lsub
  | .mul => some .lmul
  | _ => none

-- TR::Node::create with children.
def createWith (g : Trees) (op : OpCode) (children : List Nat) : Trees × Nat :=
  let node := g.size
  (children.zipIdx.foldl (fun g c => g.setAndIncChild node c.2 c.1) (create g op),node)

-- The nodes of a decomposed tree, a load standing for the multiplier child.
def graft (multiplierChild : Nat) : Tree → Trees → Option (Trees × Nat)
  | .load _ _,g => some (g,multiplierChild)
  | .const _ _ value,g => some (setConst (create g .lconst) g.size value,g.size)
  | .neg _ child,g => do
      let (g,child) ← graft multiplierChild child g
      some (createWith g .lneg [child])
  | .binary op _ first second,g => do
      let op ← opCodeOf op
      let (g,first) ← graft multiplierChild first g
      let (g,second) ← graft multiplierChild second g
      some (createWith g op [first,second])
  | .i2l _,_ => none

def becomes (g : Trees) (node : Nat) (op : OpCode) (children : List Nat) : Trees :=
  children.zipIdx.foldl (fun g c => g.setChild node c.2 c.1) ((recreate g node op).clearChildren node)

-- The node takes over the opcode and the children of the root of the tree.
def decomposeMultiply (env : Env) (g : Trees) (node : Nat) : Option Trees := do
  let firstChild := getFirstChild g node
  let secondChild := getSecondChild g node
  let digits := (← DecomposedMultiply.decomposeConstant (getLongInt g secondChild) 64).reverse
  if env.decomposition.transforms && env.decomposition.costIsJustified digits (getLongInt g secondChild) then
    let released := (g.decReferenceCount secondChild).decReferenceCount firstChild
    match ← DecomposedMultiply.generateDecomposedTree .Int64 (.load .Int64 0) digits with
    | .neg _ child => do
        let (g,child) ← graft firstChild child released
        some (becomes g node .lneg [child])
    | .binary op _ first second => do
        let op ← opCodeOf op
        let (g,first) ← graft firstChild first released
        let (g,second) ← graft firstChild second g
        some (becomes g node op [first,second])
    | _ => none
  else some g

def reduceConstant (env : Env) (g : Trees) (node : Nat) : Option Trees :=
  let firstChild := getFirstChild g node
  let secondChild := getSecondChild g node
  let lrChild := getSecondChild g firstChild
  let constSecond := opCode g secondChild = .lconst
  if opCode g firstChild = .lmul ∧ g.referenceCount firstChild = 1 then
    if opCode g lrChild = .lconst then
      if constSecond then some (if env.performTransformation .mergeConstants then mergeConstants g node else g)
      else some (if env.performTransformation .moveConstantUp then moveConstantUp g node else g)
    else some g
  else if constSecond ∧ (opCode g firstChild = .ladd ∨ opCode g firstChild = .lsub) then
    some (if opCode g lrChild = .lconst ∧ env.performTransformation .distributeLong then distributeLong g node else g)
  else if constSecond ∧ opCode g firstChild = .i2l then
    let sum := getFirstChild g firstChild
    some (if (opCode g sum = .isub ∨ opCode g sum = .iadd) ∧ (g.payload sum).cannotOverflow ∧ opCode g (getSecondChild g sum) = .iconst ∧
      env.performTransformation .distributeWidened then distributeWidened g node else g)
  else if env.is64Bit ∧ constSecond ∧ env.lastRun = false ∧ DecomposedMultiply.Admitted .Int64 (getLongInt g secondChild) then
    decomposeMultiply env g node
  else some g

-- lmulSimplifier once the operands are in order.
def simplifyOrdered (env : Env) (g : Trees) (node : Nat) : Option (Trees × Nat) :=
  let secondChild := getSecondChild g node
  if isLoadConst g secondChild ∧ getLongInt g secondChild = 1 then some (replaceNodeWithChild env g node (getFirstChild g node))
  else if isLoadConst g secondChild ∧ getLongInt g secondChild = 0 ∧ env.performTransformation .zeroOperand then
    some (setConst (removeAllChildren (recreate g node (opCode g secondChild)) node) node 0,node)
  else (reduceConstant env g node).map fun g => (g,node)

-- The trees and the node that stands for the multiplication.
def lmulSimplifier (env : Env) (g : Trees) (node : Nat) : Option (Trees × Nat) :=
  if (g.payload node).isAdjunct then some (g,node)
  else if isLoadConst g (getFirstChild g node) && isLoadConst g (getSecondChild g node) then
    some (foldLongIntConstant env g node (wrap 64 (getLongInt g (getFirstChild g node) * getLongInt g (getSecondChild g node))),node)
  else simplifyOrdered env (orderChildrenByHighWordZero (orderChildren env g node) node) node

section Reassociation
variable (env : Env) (region : Trees → Nat → Bool)

-- (t * c1) * c2 => t * (c2 * c1)
def rule10 (g : Trees) (node : Nat) : Trees :=
  let firstChild := getFirstChild g node
  let secondChild := getSecondChild g node
  let e := getFirstChild g firstChild
  if opCode g node = .imul ∧ isExprInvariant g region secondChild ∧ opCode g firstChild = .imul ∧ isExprInvariant g region e = false ∧
      isExprInvariant g region (getSecondChild g firstChild) ∧ g.referenceCount firstChild = 1 ∧ env.performTransformation .reassociation10 then
    ((g.setChild firstChild 0 secondChild).setChild node 1 firstChild).setChild node 0 e
  else g

-- (e + c1) * c2 => e * c2 + c1 * c2, in the nodes of the sum.
def rule11 (g : Trees) (node : Nat) : Trees :=
  let firstChild := getFirstChild g node
  let secondChild := getSecondChild g node
  let newSecondChild := g.size
  let g := create (recreate g node .iadd) .imul
  let g := (g.setChild newSecondChild 0 (getSecondChild g firstChild)).setAndIncChild newSecondChild 1 secondChild
  ((recreate g firstChild .imul).setChild firstChild 1 secondChild).setAndIncChild node 1 newSecondChild

def productOf (g : Trees) (first second : Nat) : Trees × Nat := createWith g .imul [first,second]

-- The products take the place of the operands.
def attachProducts (g : Trees) (node mul1 mul2 firstChild secondChild : Nat) : Trees :=
  let g := (g.setAndIncChild node 0 mul1).setAndIncChild node 1 mul2
  (g.recursivelyDecReferenceCount firstChild).recursivelyDecReferenceCount secondChild

-- (e1 + e2) * c => e1 * c + e2 * c
def rule13 (g : Trees) (node : Nat) : Trees :=
  let firstChild := getFirstChild g node
  let secondChild := getSecondChild g node
  let (g,mul1) := productOf (recreate g node .iadd) (getFirstChild g firstChild) secondChild
  let (g,mul2) := productOf g (getSecondChild g firstChild) secondChild
  attachProducts g node mul1 mul2 firstChild secondChild

-- A factor of a product becomes the constant of the other sign.
def negateFactor (g : Trees) (node mul i factor : Nat) : Trees :=
  let newConst := g.size
  let g := setConst (create (recreate g node .iadd) .iconst) newConst (wrap 32 (-getInt g factor))
  (g.recursivelyDecReferenceCount factor).setAndIncChild mul i newConst

-- (e1 - e2) * c => e1 * c - e2 * c, or an addition where e2 or c is a constant.
def rule15 (g : Trees) (node : Nat) : Trees :=
  let firstChild := getFirstChild g node
  let secondChild := getSecondChild g node
  let e2 := getSecondChild g firstChild
  let (g,mul1) := productOf (recreate g node .isub) (getFirstChild g firstChild) secondChild
  let (g,mul2) := productOf g e2 secondChild
  let g :=
    if opCode g e2 = .iconst then negateFactor g node mul2 0 e2
    else if opCode g secondChild = .iconst then negateFactor g node mul2 1 secondChild
    else g
  attachProducts g node mul1 mul2 firstChild secondChild

-- The rules after R10: the first whose pattern fits is the only one tried.
def distributeRules (g : Trees) (node : Nat) : Trees :=
  let firstChild := getFirstChild g node
  let secondChild := getSecondChild g node
  if opCode g node = .imul ∧ isExprInvariant g region secondChild ∧ opCode g firstChild = .iadd ∧
      isExprInvariant g region (getFirstChild g firstChild) = false ∧ isExprInvariant g region (getSecondChild g firstChild) ∧
      g.referenceCount firstChild = 1 then
    if env.performTransformation .reassociation11 then rule11 g node else g
  else if opCode g node = .imul ∧ isExprInvariant g region secondChild ∧ opCode g firstChild = .iadd then
    if env.performTransformation .reassociation13 then rule13 g node else g
  else if opCode g node = .imul ∧ isExprInvariant g region secondChild ∧ isExprInvariant g region firstChild = false ∧ opCode g firstChild = .isub then
    if env.performTransformation .reassociation15 then rule15 g node else g
  else g

def reassociate (g : Trees) (node : Nat) : Trees :=
  if env.reassociate then
    match env.region with
    | some region => distributeRules env region (rule10 env region g node) node
    | none => g
  else g

end Reassociation

end OmrCompiler.MultiplyDistribution
