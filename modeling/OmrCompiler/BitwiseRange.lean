import OmrCompiler.BitManipulator
import OmrCompiler.MaskArithmetic
import OmrCompiler.PowerOfTwo

/-! The range of a bitwise operation: constrainIand, constrainLand and constrainIxor of
VPHandlers.cpp. The children have been constrained and the node has no constant constraint of
its own. -/
namespace OmrCompiler.BitwiseRange
open MachineInt Constraint ILTree ShiftRange MaskArithmetic

def xorEval (w : Nat) (a b : Int) : Int := (BitVec.ofInt w a ^^^ BitVec.ofInt w b).toInt

def orEval (w : Nat) (a b : Int) : Int := (BitVec.ofInt w a ||| BitVec.ofInt w b).toInt

-- leadingZeroes of OMRCodeGenerator.cpp runs through the bytes of a word as CS2 does.
def leadingZeroes (inputWord : Int) : Nat := BitManipulator.emulateLoop (BitVec.ofInt 32 inputWord) 4 (0xFF#32 <<< 24) 0

-- asIntRange, with the bounds.
def asRange (t : DataType) : VPConstraint → Option (Int × Int)
  | .integral (.range type low high _ _) => if type = t then some (low,high) else none
  | _ => none

-- (x & 0x80000000) == 0
def signClear (w : Nat) (x : Int) : Bool := BinaryOp.and.eval w x (minSigned w) = 0

-- What the front end tells of the flags of a class.
structure ClassFlags (Class : Type) where
  flags : Class → Int
  isArray : Class → Bool
  flagValueForArrayCheck : Int

structure ClassFlags.Documented {Class : Type} (front : ClassFlags Class) : Prop where
  inside : ∀ k, InRange 32 (front.flags k)
  tested : ∀ k, BinaryOp.and.eval 32 (front.flags k) front.flagValueForArrayCheck =
    if front.isArray k then front.flagValueForArrayCheck else 0

-- What is looked at below the first child. The flags are those of a class of which the
-- constraint of the base expression may say whether it is an array class.
inductive FirstChild where
  | imul (second : Option VPConstraint)
  | ishl (second : Option VPConstraint)
  | ishr (second : Option VPConstraint) (referenceCount : Nat)
  | classFlags (isArray : YesNoMaybe)
  | other

structure Env where
  removesByteMask : Bool
  removesRedundant : Bool
  makesUnsigned : Bool
  lastTimeThrough : Bool

inductive Effect where
  | removed
  | replaced (value : Int)
  | attached (constraint : Option IntegralConstraint) (unsignedShift : Bool)
  deriving DecidableEq

def removesByteMask (env : Env) (lhs rhs : Option VPConstraint) : Bool :=
  match rhs.bind (·.asConst .Int32), lhs.bind (asRange .Int32) with
  | some mask,some (low,high) => mask = 255 ∧ low ≥ 0 ∧ high ≤ 255 ∧ env.removesByteMask
  | _,_ => false

def arrayTest (flagValueForArrayCheck : Int) (child : FirstChild) (mask : Int) : Option IntegralConstraint :=
  if mask = flagValueForArrayCheck then
    match child with
    | .classFlags .yes => some (createConst .Int32 mask)
    | .classFlags .no => some (createConst .Int32 0)
    | _ => none
  else none

-- The constraint under a constant mask, and whether the mask changes nothing.
def maskRange (t : DataType) (lhs : Option VPConstraint) (mask : Int) : Option IntegralConstraint × Bool :=
  if mask ≠ -1 ∧ PowerOfTwo.isNonNegativePowerOf2 t.bits (wrap t.bits (mask + 1)) then
    match lhs with
    | some c =>
        if c.headLow t ≥ 0 ∧ c.lastHigh t ≤ mask then
          (rangeOf t (if c.headLow t > 0 then c.headLow t else 0) (if c.lastHigh t ≥ 0 then c.lastHigh t else mask),true)
        else (rangeOf t 0 mask,false)
    | none => (rangeOf t 0 mask,false)
  else if signClear t.bits mask then (rangeOf t 0 mask,false)
  else (rangeOf t t.getMinSigned (BinaryOp.and.eval t.bits mask t.getMaxSigned),false)

def maskConstraint (t : DataType) (test : Option IntegralConstraint) (lhs : Option VPConstraint) (mask : Int) :
    Option IntegralConstraint × Bool :=
  if mask = 0 then (some (createConst t 0),false)
  else
    match lhs.bind (·.asConst t),test with
    | some x,_ => (some (createConst t (BinaryOp.and.eval t.bits x mask)),false)
    | none,some folded => (some folded,false)
    | none,none => maskRange t lhs mask

def positiveRange (t : DataType) (lhs : Option VPConstraint) : Option IntegralConstraint :=
  match lhs with
  | some c => if c.headLow t > 0 then rangeOf t 0 (c.lastHigh t) else none
  | none => none

def childrenRange (t : DataType) (test : Int → Option IntegralConstraint) (lhs rhs : Option VPConstraint) : Option IntegralConstraint × Bool :=
  match rhs.bind (·.asConst t) with
  | some mask => maskConstraint t (test mask) lhs mask
  | none => (positiveRange t lhs,false)

-- while (!(mask & 0x1)), with the steps it may take.
def countTrailing : Nat → Int → Nat → Option Nat
  | 0,_,_ => none
  | fuel + 1,mask,shift => if mask % 2 = 0 then countTrailing fuel (mask / 2) (shift + 1) else some shift

def nonNegativeHigh (rhs : VPConstraint) : Option Int :=
  match asRange .Int32 rhs, rhs.asConst .Int32 with
  | some (low,high),_ => if signClear 32 high && signClear 32 low then some high else none
  | none,some iandMask => if signClear 32 iandMask then some iandMask else none
  | none,none => none

-- 1 << shift, the count read by its low five bits.
def bitOf (shift : Int) : Int := wrap 32 (2 ^ shiftBy 32 shift)

-- Whether rhs stays below the lowest bit that the first child can have; none while the loop runs.
def belowTrailing (fuel : Nat) (child : FirstChild) (rhs : Option VPConstraint) : Option Bool :=
  match child,rhs.bind nonNegativeHigh with
  | .imul second,some high =>
      match second.bind (·.asConst .Int32) with
      | some mask => (countTrailing fuel mask 0).map fun shift : Nat => high < bitOf shift
      | none => some false
  | .ishl second,some high =>
      match second.bind (·.asConst .Int32) with
      | some mask => some (high < bitOf mask)
      | none => some false
  | _,_ => some false

def sharedRange (lhs rhs : Option VPConstraint) : Option IntegralConstraint :=
  let (lhsLow,lhsHigh) := (lhs.bind (asRange .Int32)).getD (minSigned 32,maxSigned 32)
  let (rhsLow,rhsHigh) := (rhs.bind (asRange .Int32)).getD (minSigned 32,maxSigned 32)
  if rhsLow ≥ 0 ∨ lhsLow ≥ 0 then
    let (low,high) :=
      if rhsLow < 0 then (lhsLow,lhsHigh)
      else if lhsLow < 0 then (rhsLow,rhsHigh)
      else (if rhsLow < lhsLow then rhsLow else lhsLow,if rhsHigh < lhsHigh then rhsHigh else lhsHigh)
    rangeOf .Int32 (if low > 0 then 0 else low) high
  else none

-- The count of the leading zeroes is held in a bool.
def signBitsMaskedOff (rhs : Option VPConstraint) : Bool :=
  match rhs.bind (·.asConst .Int32) with
  | some mask => leadingZeroes mask ≠ 0
  | none => false

def bitsShifted (second : Option VPConstraint) : Int :=
  match second.bind (·.asConst .Int32),second.bind (asRange .Int32) with
  | some amount,_ => amount
  | none,some (low,high) => if low ≥ 0 then high else 32
  | none,none => 32

def makesUnsigned (env : Env) (child : FirstChild) (rhs : Option VPConstraint) : Bool :=
  match child with
  | .ishr second referenceCount =>
      referenceCount < 2 ∧ bitsShifted second < (if signBitsMaskedOff rhs then 1 else 0) ∧ env.lastTimeThrough ∧ env.makesUnsigned
  | _ => false

def settle (constraint : Option IntegralConstraint) (unsignedShift : Bool) : Effect :=
  match constraint with
  | some (.const _ value) => .replaced value
  | _ => .attached constraint unsignedShift

def constrainIand (flagValueForArrayCheck : Int) (env : Env) (fuel : Nat) (child : FirstChild) (lhs rhs : Option VPConstraint) : Option Effect :=
  if removesByteMask env lhs rhs then some .removed
  else do
    let (constraint,canBeRemoved) := childrenRange .Int32 (arrayTest flagValueForArrayCheck child) lhs rhs
    let zero ← belowTrailing fuel child rhs
    let constraint := if zero then some (createConst .Int32 0) else constraint
    if canBeRemoved && env.removesRedundant then some .removed
    else
      let constraint := if constraint.isNone && (lhs.isSome || rhs.isSome) then sharedRange lhs rhs else constraint
      some (settle constraint (makesUnsigned env child rhs))

def constrainLand (lhs rhs : Option VPConstraint) : Effect :=
  settle (childrenRange .Int64 (fun _ => none) lhs rhs).1 false

-- A range of one value is attached as it is.
def constrainIxor (lhs rhs : Option VPConstraint) : Effect :=
  match lhs,rhs.bind (·.asConst .Int32) with
  | some c,some rhsConst =>
      match c.asConst .Int32 with
      | some lhsConst => .replaced (xorEval 32 lhsConst rhsConst)
      | none =>
          if rhsConst = 1 ∧ (asRange .Int32 c).isSome then
            .attached (rangeOf .Int32 (BinaryOp.and.eval 32 c.getLowInt (-2)) (orEval 32 c.getHighInt 1)) false
          else .attached none false
  | _,_ => .attached none false

end OmrCompiler.BitwiseRange
