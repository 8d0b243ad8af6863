import OmrCompiler.SimplifierTrees

/-! The handlers of ishl, lshl, ishr, lshr, iushr and lushr nodes (OMRSimplifierHandlers.cpp), on
nodes that are shared. The children have been simplified, and what a handler returns is not
simplified again. -/
namespace OmrCompiler.ShiftSimplifier
open MachineInt SharedGraph SimplifierTrees

-- The places that ask performTransformation.
inductive Site where
  | foldConstant
  | reduceConstant
  | replaceNode
  | multiply
  | zeroExtendShort
  | zeroExtendByte
  | zeroExtendInt
  | mask
  | shiftConversion
  | normalize
  deriving DecidableEq, Repr

structure Env where
  performTransformation : Site → Bool
  needsNormalizationBeforeShifts : Bool

-- INT_SHIFT_MASK or LONG_SHIFT_MASK.
def shiftMask : DataType → Int
  | .Int64 => 63
  | _ => 31

-- value & mask, where mask is one below a power of two.
def masked (value mask : Int) : Int := value % (mask + 1)

def fold (env : Env) (g : Trees) (node : Nat) (op : OpCode) (value : Int) : Trees :=
  if env.performTransformation .foldConstant then foldConstant g node op value else g

-- The node that is not used is given up.
def replaceNode (env : Env) (g : Trees) (node other : Nat) : Trees × Nat :=
  if env.performTransformation .replaceNode then SimplifierTrees.replaceNode g node other
  else (if g.referenceCount other = 0 then removeAllChildren g other else g,node)

def normalizeConstantShiftAmount (env : Env) (g : Trees) (node : Nat) (mask : Int) : Trees :=
  let secondChild := getSecondChild g node
  if isLoadConst g secondChild then
    let shiftValue := masked (getInt g secondChild) mask
    if shiftValue ≠ getInt g secondChild ∧ env.performTransformation .reduceConstant then
      if g.referenceCount secondChild > 1 then
        let newChild := g.size
        setConst ((create (g.decReferenceCount secondChild) iconst 0).setAndIncChild node 1 newChild) newChild shiftValue
      else setConst g secondChild shiftValue
    else g
  else g

def normalizeShiftAmount (env : Env) (g : Trees) (node : Nat) (normalizationConstant : Int) : Trees :=
  let secondChild := getSecondChild g node
  let amount := getSecondChild g secondChild
  if env.needsNormalizationBeforeShifts ∧ (g.payload node).normalizedShift = false ∧ opCode g secondChild ≠ iconst ∧
      (opCode g secondChild ≠ iand ∨ opCode g amount ≠ iconst ∨ getInt g amount ≠ normalizationConstant) ∧
      env.performTransformation .normalize then
    let g := create g iconst normalizationConstant
    let normalizedNode := g.size
    let g := createWith g iand [secondChild,g.size - 1]
    setNormalizedShift ((g.recursivelyDecReferenceCount secondChild).setAndIncChild node 1 normalizedNode) node true
  else g

-- The shift by a constant becomes a multiplication. The constant is changed in place unless it is shared.
def multiplyByPower (g : Trees) (node : Nat) (t : DataType) : Trees :=
  let secondChild := getSecondChild g node
  let g := recreate g node (.binary .mul t false)
  let multiplier := wrap t.bits (2 ^ (masked (getInt g secondChild) (shiftMask t)).toNat)
  if g.referenceCount secondChild > 1 then
    let newChild := g.size
    setConst ((create (g.decReferenceCount secondChild) (.const t false) 0).setAndIncChild node 1 newChild) newChild multiplier
  else
    let g := if t = .Int64 then recreate g secondChild lconst else g
    setConst g secondChild multiplier

-- BINARY_IDENTITY_OP(Int, 0)
def isIdentity (g : Trees) (node : Nat) : Bool :=
  isLoadConst g (getSecondChild g node) && decide (getInt g (getSecondChild g node) = 0)

-- What the six handlers have in common: two constants, the amount, and an amount of zero.
def foldOrNormalize (env : Env) (g : Trees) (node : Nat) (t : DataType) (op : OpCode) (value : Int) (rest : Trees → Trees × Nat) : Trees × Nat :=
  if isLoadConst g (getFirstChild g node) ∧ isLoadConst g (getSecondChild g node) then (fold env g node op value,node)
  else
    let g := normalizeConstantShiftAmount env g node (shiftMask t)
    if isIdentity g node then replaceNode env g node (getFirstChild g node) else rest g

def amountOf (g : Trees) (node : Nat) (t : DataType) : Nat := (masked (getInt g (getSecondChild g node)) (shiftMask t)).toNat

def ishlSimplifier (env : Env) (g : Trees) (node : Nat) : Trees × Nat :=
  foldOrNormalize env g node .Int32 iconst (wrap 32 (getInt g (getFirstChild g node) * 2 ^ amountOf g node .Int32)) fun g =>
    if isLoadConst g (getSecondChild g node) ∧ env.performTransformation .multiply then (multiplyByPower g node .Int32,node)
    else (normalizeShiftAmount env g node 31,node)

def lshlSimplifier (env : Env) (g : Trees) (node : Nat) : Trees × Nat :=
  foldOrNormalize env g node .Int64 lconst (wrap 64 (getLongInt g (getFirstChild g node) * 2 ^ amountOf g node .Int64)) fun g =>
    if isLoadConst g (getSecondChild g node) then (multiplyByPower g node .Int64,node)
    else (normalizeShiftAmount env g node 63,node)

def ishrSimplifier (env : Env) (g : Trees) (node : Nat) : Trees × Nat :=
  foldOrNormalize env g node .Int32 iconst (getInt g (getFirstChild g node) / 2 ^ amountOf g node .Int32) fun g =>
    (normalizeShiftAmount env g node 31,node)

def lshrSimplifier (env : Env) (g : Trees) (node : Nat) : Trees × Nat :=
  foldOrNormalize env g node .Int64 lconst (getLongInt g (getFirstChild g node) / 2 ^ amountOf g node .Int64) fun g =>
    (normalizeShiftAmount env g node 63,node)

-- The zero extension that a pair of shifts by r makes of the sign extension below it.
def zeroExtension (env : Env) (t : DataType) (op : OpCode) (r : Nat) : Option OpCode :=
  match t,op with
  | .Int32,s2i => if r = 16 ∧ env.performTransformation .zeroExtendShort then some su2i else none
  | .Int32,b2i => if r = 24 ∧ env.performTransformation .zeroExtendByte then some bu2i else none
  | .Int64,i2l => if r = 32 ∧ env.performTransformation .zeroExtendInt then some iu2l else none
  | .Int64,s2l => if r = 48 ∧ env.performTransformation .zeroExtendShort then some su2l else none
  | .Int64,b2l => if r = 56 ∧ env.performTransformation .zeroExtendByte then some bu2l else none
  | _,_ => none

-- The long handler does not release the amount.
def extendByZero (g : Trees) (node : Nat) (t : DataType) (op : OpCode) : Trees :=
  let firstChild := getFirstChild g node
  let secondChild := getSecondChild g node
  let subChild := getFirstChild g (getFirstChild g firstChild)
  let g := recreate g node op
  if t = .Int64 then ((g.setNumChildren node 1).setAndIncChild node 0 subChild).recursivelyDecReferenceCount firstChild
  else (((g.setAndIncChild node 0 subChild).recursivelyDecReferenceCount firstChild).setNumChildren node 1).recursivelyDecReferenceCount secondChild

-- Two shifts by r keep the low bits. The amount is changed in place unless it is shared.
def maskHighBits (g : Trees) (node : Nat) (t : DataType) (r : Nat) : Trees :=
  let firstChild := getFirstChild g node
  let secondChild := getSecondChild g node
  let subTree := getFirstChild g firstChild
  let g := recreate g node (.binary .and t false)
  let mask := wrap t.bits (2 ^ (t.bits - r) - 1)
  let g :=
    if g.referenceCount secondChild = 1 then
      setConst (if t = .Int64 then recreate g secondChild lconst else g) secondChild mask
    else ((create g (.const t false) mask).setAndIncChild node 1 g.size).decReferenceCount secondChild
  (g.setAndIncChild node 0 subTree).recursivelyDecReferenceCount firstChild

-- A multiplication by 2^r under a shift by r.
def matchesPower (g : Trees) (node : Nat) (t : DataType) : Bool :=
  let firstChild := getFirstChild g node
  let constGrandChild := getSecondChild g firstChild
  opCode g (getSecondChild g node) = iconst ∧ opCode g firstChild = .binary .mul t false ∧ opCode g constGrandChild = .const t false ∧
    wrap t.bits (g.payload constGrandChild).constValue = wrap t.bits (2 ^ amountOf g node t)

def shiftLeftThenRight (env : Env) (g : Trees) (node : Nat) (t : DataType) : Option (Trees × Nat) :=
  let subTree := getFirstChild g (getFirstChild g node)
  let rightShiftValue := amountOf g node t
  if matchesPower g node t then
    let extension := if g.referenceCount subTree = 1 then zeroExtension env t (opCode g subTree) rightShiftValue else none
    match extension with
    | some op => some (extendByZero g node t op,node)
    | none => if env.performTransformation .mask then some (maskHighBits g node t rightShiftValue,node) else none
  else none

def iushrSimplifier (env : Env) (g : Trees) (node : Nat) : Trees × Nat :=
  foldOrNormalize env g node .Int32 (.const .Int32 true) (toUnsigned 32 (getInt g (getFirstChild g node)) / 2 ^ amountOf g node .Int32) fun g =>
    (shiftLeftThenRight env g node .Int32).getD (normalizeShiftAmount env g node 31,node)

-- The conversions to the bits that a shift by right leaves, and back.
def conversions (right : Int) : Option (OpCode × OpCode) :=
  if right = 56 then some (l2b,bu2l) else if right = 48 then some (l2s,su2l) else if right = 32 then some (l2i,iu2l) else none

def shiftAndConvert (env : Env) (g : Trees) (node : Nat) (left right : Int) (down up : OpCode) : Trees × Nat :=
  let firstChild := getFirstChild g node
  let amount := g.size
  let g := create g iconst (right - left)
  let g := createWith g lushr [getFirstChild g firstChild,amount]
  let g := createWith g down [g.size - 1]
  let g := createWith g up [g.size - 1]
  replaceNode env g node (g.size - 1)

def lushrSimplifier (env : Env) (g : Trees) (node : Nat) : Trees × Nat :=
  let firstChild := getFirstChild g node
  let secondChild := getSecondChild g node
  let left := masked (get64bitIntegralValue g (getSecondChild g firstChild)) 63
  let right := masked (get64bitIntegralValue g secondChild) 63
  let found :=
    if isLoadConst g secondChild ∧ opCode g firstChild = lshl ∧ isLoadConst g (getSecondChild g firstChild) ∧ right ≥ left ∧
        env.performTransformation .shiftConversion then conversions right
    else none
  match found with
  | some (down,up) => shiftAndConvert env g node left right down up
  | none =>
      foldOrNormalize env g node .Int64 lconst (toUnsigned 64 (getLongInt g firstChild) / 2 ^ amountOf g node .Int64) fun g =>
        (shiftLeftThenRight env g node .Int64).getD (normalizeShiftAmount env g node 63,node)

-- The rows of the handler table for the six opcodes.
def handlerOf (op : BinaryOp) (t : DataType) : Option (Env → Trees → Nat → Trees × Nat) :=
  match op,t with
  | .shl,.Int32 => some ishlSimplifier
  | .shl,.Int64 => some lshlSimplifier
  | .shr,.Int32 => some ishrSimplifier
  | .shr,.Int64 => some lshrSimplifier
  | .ushr,.Int32 => some iushrSimplifier
  | .ushr,.Int64 => some lushrSimplifier
  | _,_ => none

end OmrCompiler.ShiftSimplifier
