import OmrCompiler.CompareHandlers
import OmrCompiler.SharedGraph

/-! Nodes as the simplifier handlers see them: opcodes at every integral type, constants, and the
values of nodes that are shared (ILOpCodesEnum.hpp, OMRNode.cpp). An opcode is an operation at a
type: iadd and ladd are `add` at Int32 and Int64. -/
namespace OmrCompiler.SimplifierTrees
open MachineInt SharedGraph
open CompareHandlers (CompareOp)

inductive DataType where
  | Int8
  | Int16
  | Int32
  | Int64
  deriving DecidableEq, Repr

def DataType.bits : DataType → Nat
  | .Int8 => 8
  | .Int16 => 16
  | .Int32 => 32
  | .Int64 => 64

inductive BinaryOp where
  | add
  | sub
  | mul
  | and
  | or
  | xor
  | shl
  | shr
  | ushr
  deriving DecidableEq, Repr

def BinaryOp.isShift : BinaryOp → Bool
  | .shl => true
  | .shr => true
  | .ushr => true
  | _ => false

-- What a shift reads of its amount: five bits (INT_SHIFT_MASK), or six (LONG_SHIFT_MASK) for a long.
def shiftBy (w : Nat) (amount : Int) : Nat := (amount % (max w 32 : Nat)).toNat

def BinaryOp.eval (w : Nat) : BinaryOp → Int → Int → Int
  | .add,a,b => a + b
  | .sub,a,b => a - b
  | .mul,a,b => a * b
  | .and,a,b => (BitVec.ofInt w a &&& BitVec.ofInt w b).toInt
  | .or,a,b => (BitVec.ofInt w a ||| BitVec.ofInt w b).toInt
  | .xor,a,b => (BitVec.ofInt w a ^^^ BitVec.ofInt w b).toInt
  | .shl,a,b => a * 2 ^ shiftBy w b
  | .shr,a,b => a / 2 ^ shiftBy w b
  | .ushr,a,b => toUnsigned w a / 2 ^ shiftBy w b

/- isUnsigned marks the spellings iuconst, iuadd, iusub, iuneg and the like. Any opcode the
handlers do not look at has a type and a code; a branch has the value 1 when it is taken. -/
inductive OpCode where
  | const (type : DataType) (isUnsigned : Bool)
  | binary (op : BinaryOp) (type : DataType) (isUnsigned : Bool)
  | neg (type : DataType) (isUnsigned : Bool)
  | convert (source target : DataType) (zeroExtends : Bool)
  | ifcmp (op : CompareOp)
  | other (type : DataType) (code : Nat)
  deriving DecidableEq, Repr

namespace OpCode

def type : OpCode → DataType
  | const t _ => t
  | binary _ t _ => t
  | neg t _ => t
  | convert _ t _ => t
  | ifcmp _ => .Int32
  | other t _ => t

def isLoadConst : OpCode → Bool
  | const _ _ => true
  | _ => false

def ofCompare : CompareHandlers.Operand → Option DataType
  | .i => some .Int32
  | .iu => some .Int32
  | .l => some .Int64
  | .lu => some .Int64
  | .b => some .Int8
  | .bu => some .Int8
  | .s => some .Int16
  | .su => some .Int16
  | .a => none

-- The types of the operands, where the opcode fixes them.
def operands : OpCode → Option (List DataType)
  | const _ _ => some []
  | binary op t _ => some [t,if op.isShift then .Int32 else t]
  | neg t _ => some [t]
  | convert t _ _ => some [t]
  | ifcmp op => (ofCompare op.operand).map fun t => [t,t]
  | other _ _ => none

end OpCode

-- The opcodes by their names.
section Names

@[match_pattern] abbrev iconst : OpCode := .const .Int32 false

@[match_pattern] abbrev lconst : OpCode := .const .Int64 false

@[match_pattern] abbrev iand : OpCode := .binary .and .Int32 false

@[match_pattern] abbrev land : OpCode := .binary .and .Int64 false

@[match_pattern] abbrev imul : OpCode := .binary .mul .Int32 false

@[match_pattern] abbrev lmul : OpCode := .binary .mul .Int64 false

@[match_pattern] abbrev lshl : OpCode := .binary .shl .Int64 false

@[match_pattern] abbrev lushr : OpCode := .binary .ushr .Int64 false

@[match_pattern] abbrev b2i : OpCode := .convert .Int8 .Int32 false

@[match_pattern] abbrev bu2i : OpCode := .convert .Int8 .Int32 true

@[match_pattern] abbrev b2l : OpCode := .convert .Int8 .Int64 false

@[match_pattern] abbrev bu2l : OpCode := .convert .Int8 .Int64 true

@[match_pattern] abbrev s2i : OpCode := .convert .Int16 .Int32 false

@[match_pattern] abbrev su2i : OpCode := .convert .Int16 .Int32 true

@[match_pattern] abbrev s2l : OpCode := .convert .Int16 .Int64 false

@[match_pattern] abbrev su2l : OpCode := .convert .Int16 .Int64 true

@[match_pattern] abbrev i2l : OpCode := .convert .Int32 .Int64 false

@[match_pattern] abbrev iu2l : OpCode := .convert .Int32 .Int64 true

@[match_pattern] abbrev l2b : OpCode := .convert .Int64 .Int8 false

@[match_pattern] abbrev l2s : OpCode := .convert .Int64 .Int16 false

@[match_pattern] abbrev l2i : OpCode := .convert .Int64 .Int32 false

end Names

structure Node where
  opCode : OpCode
  constValue : Int
  normalizedShift : Bool
  deriving DecidableEq, Repr

-- The value before it is cut to the type of the node.
def exactValue (others : DataType → Nat → List Int → Int) (p : Node) (values : List Int) : Int :=
  match p.opCode,values with
  | .const _ _,_ => p.constValue
  | .binary op t _,[a,b] => op.eval t.bits a b
  | .neg _ _,[a] => -a
  | .convert source _ zeroExtends,[a] => if zeroExtends then toUnsigned source.bits a else a
  | .ifcmp op,[a,b] => if op.eval a b then 1 else 0
  | .other t code,values => others t code values
  | _,_ => 0

def meaning (others : DataType → Nat → List Int → Int) (p : Node) (values : List Int) : Int :=
  wrap p.opCode.type.bits (exactValue others p values)

abbrev Trees := NodeGraph Node

section Access
variable (g : Trees) (n : Nat)

def opCode : OpCode := (g.payload n).opCode

def isLoadConst : Bool := (opCode g n).isLoadConst

def getFirstChild : Nat := (g.children n).getD 0 n

def getSecondChild : Nat := (g.children n).getD 1 n

def getInt : Int := wrap 32 (g.payload n).constValue

def getLongInt : Int := wrap 64 (g.payload n).constValue

-- The value of a constant of any integral type.
def get64bitIntegralValue : Int := wrap (opCode g n).type.bits (g.payload n).constValue

-- The other properties are kept.
def recreate (op : OpCode) : Trees := g.setPayload n {g.payload n with opCode := op}

def setConst (value : Int) : Trees := g.setPayload n {g.payload n with constValue := value}

def setNormalizedShift (flag : Bool) : Trees := g.setPayload n {g.payload n with normalizedShift := flag}

def create (op : OpCode) (value : Int) : Trees := g.create ⟨op,value,false⟩

-- Removes all children, the last one first.
def removeAllChildren : Trees := (g.children n).reverse.foldl NodeGraph.recursivelyDecReferenceCount (g.clearChildren n)

end Access

-- TR::Node::create with children; the node is the last one made.
def createWith (g : Trees) (op : OpCode) (children : List Nat) : Trees :=
  children.zipIdx.foldl (fun g c => g.setAndIncChild (g.size - 1) c.2 c.1) (create g op 0)

def prepareToReplaceNode (g : Trees) (node : Nat) (op : OpCode) : Trees := removeAllChildren (recreate g node op) node

-- foldIntConstant, foldUIntConstant and foldLongIntConstant, by the opcode of the constant.
def foldConstant (g : Trees) (node : Nat) (op : OpCode) (value : Int) : Trees := setConst (prepareToReplaceNode g node op) node value

def replaceNode (g : Trees) (node other : Nat) : Trees × Nat := ((g.incReferenceCount other).recursivelyDecReferenceCount node,other)

structure WellFormed (g : Trees) (roots : Nat → Nat) : Prop where
  counted : Counted g roots
  typed : ∀ n, 0 < g.referenceCount n → ∀ types, (opCode g n).operands = some types → (g.children n).map (fun c => (opCode g c).type) = types

end OmrCompiler.SimplifierTrees
