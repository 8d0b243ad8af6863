import OmrCompiler.BitwiseBranch
import OmrCompiler.SimplifierNodes

/-! Tests of bits whose shift is removed: bitTestingOp of OMRSimplifierHandlers.cpp, on byte and
short branches and on nodes that are shared. -/
namespace OmrCompiler.BitTest
open MachineInt SharedGraph SimplifierTrees
open CompareHandlers (CompareOp Relation Operand)

-- TR::ILOpCode::isEqualCmp and isNotEqualCmp.
def isEqualCmp (op : CompareOp) : Bool := op.relation = .eq ∧ (op.operand = .i ∨ op.operand = .l ∨ op.operand = .a ∨ op.operand = .b ∨ op.operand = .s)

def isNotEqualCmp (op : CompareOp) : Bool := op.relation = .ne ∧ (op.operand = .i ∨ op.operand = .l ∨ op.operand = .a ∨ op.operand = .b ∨ op.operand = .s)

def isBitwiseLogical : OpCode → Bool
  | .binary .and _ _ => true
  | .binary .or _ _ => true
  | .binary .xor _ _ => true
  | _ => false

def isLeftShift : OpCode → Bool
  | .binary .shl _ _ => true
  | _ => false

section Reads
variable (g : Trees) (node : Nat)

def shiftAmount : Int := wrap 32 (get64bitIntegralValue g (getSecondChild g (getFirstChild g (getFirstChild g node))))

def bitAmount : Int := get64bitIntegralValue g (getSecondChild g (getFirstChild g node))

def cmpAmount : Int := get64bitIntegralValue g (getSecondChild g node)

def isBitTest : Bool :=
  isBitwiseLogical (opCode g (getFirstChild g node)) && isLoadConst g (getSecondChild g node) &&
    isLeftShift (opCode g (getFirstChild g (getFirstChild g node))) && isLoadConst g (getSecondChild g (getFirstChild g (getFirstChild g node))) &&
    isLoadConst g (getSecondChild g (getFirstChild g node))

-- (amount >> s) << s == amount
def keepsBits (amount : Int) : Bool := amount / 2 ^ (shiftAmount g node).toNat * 2 ^ (shiftAmount g node).toNat = amount

end Reads

-- What the constant becomes, by its type; foldShortIntConstant gives an sconst for a cconst too.
def foldedOp : OpCode → OpCode
  | .const .Int8 u => .const .Int8 u
  | .const t _ => .const t false
  | op => op

def shifted (t : DataType) (s : Nat) (amount : Int) : Int := if t = .Int64 then amount / 2 ^ s else toUnsigned t.bits amount / 2 ^ s

def foldShifted (g : Trees) (n : Nat) (t : DataType) (s : Nat) (amount : Int) : Trees := foldConstant g n (foldedOp (opCode g n)) (wrap t.bits (shifted t s amount))

def removeShift (g : Trees) (node : Nat) : Trees :=
  let firstChild := getFirstChild g node
  let secondChild := getSecondChild g node
  let shift := getFirstChild g firstChild
  let t := (opCode g firstChild).type
  let s := (shiftAmount g node).toNat
  let bits := getSecondChild g firstChild
  let released := (g.setAndIncChild firstChild 0 (getFirstChild g shift)).recursivelyDecReferenceCount shift
  foldShifted (foldShifted released bits t s (bitAmount g node)) secondChild t s (cmpAmount g node)

/- performTransformation answers alike for the shift and its two constants. There is no result
where the C++ shift is undefined. -/
def bitTestingOp (transforms : Bool) (g : Trees) (node : Nat) (op : CompareOp) : Option Trees :=
  if isEqualCmp op && isNotEqualCmp op then some g
  else if isBitTest g node then
    if shiftAmount g node < 0 ∨ 64 ≤ shiftAmount g node then none
    else if keepsBits g node (bitAmount g node) && keepsBits g node (cmpAmount g node) && transforms then some (removeShift g node)
    else some g
  else some g

def isByteOrShort (op : CompareOp) : Bool := op.operand = .b ∨ op.operand = .bu ∨ op.operand = .s ∨ op.operand = .su

section Condition

/- Whether ((x << s) op n) rel m agrees with (x op (n >> s)) rel (m >> s) for every x, where the
shift moves bits at all. -/
def agreesShifted (op : BinaryOp) (compare : CompareOp) (s : Nat) (n m : Int) : Bool :=
  let w := compare.operand.bits
  let unsigned := compare.operand.isUnsigned
  match op,compare.relation with
  | .and,.eq => true
  | .and,.ne => true
  | .and,_ => unsigned || decide (0 ≤ n ∧ 0 ≤ m)
  | .or,.eq => BitVec.ofInt w n &&& ~~~BitVec.ofInt w m ≠ 0
  | .or,.ne => BitVec.ofInt w n &&& ~~~BitVec.ofInt w m ≠ 0
  | .or,.lt => unsigned && decide (toUnsigned w m ≤ toUnsigned w n)
  | .or,.ge => unsigned && decide (toUnsigned w m ≤ toUnsigned w n)
  | .or,_ => if unsigned then toUnsigned w m < toUnsigned w n else s = 1 ∧ m = -2 ∧ n < 0
  | .xor,.lt => unsigned && decide (m = 0)
  | .xor,.ge => unsigned && decide (m = 0)
  | _,_ => false

def agrees (op : BinaryOp) (compare : CompareOp) (s : Nat) (n m : Int) : Bool := s % 32 = 0 || agreesShifted op compare s n m

end Condition

end OmrCompiler.BitTest
