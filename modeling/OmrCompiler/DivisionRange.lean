import OmrCompiler.Constraint
import OmrCompiler.CornerBounds

/-! The range of a quotient: constrainIntegerDivisionRange, constrainIdiv and
constrainLdiv of VPHandlers.cpp. The handler table gives constrainIdiv the nodes
idiv and iudiv and constrainLdiv the node ldiv only, so the unsigned arms of the
latter are never entered. The children have been constrained and the node has no
constant constraint of its own. -/
namespace OmrCompiler.DivisionRange
open MachineInt Constraint CornerBounds

def isUnsafeDivide (dividend divisor : Int) : Bool := dividend = minSigned 64 ∧ divisor = -1

def computed (lhsLow lhsHigh rhsLow rhsHigh : Int) : List Int :=
  if rhsLow < 0 ∧ rhsHigh > 0 then
    [lhsLow.tdiv rhsLow,lhsLow.tdiv (-1),lhsLow,lhsLow.tdiv rhsHigh,
      lhsHigh.tdiv rhsLow,lhsHigh.tdiv (-1),lhsHigh,lhsHigh.tdiv rhsHigh]
  else
    [lhsLow.tdiv rhsLow,lhsLow.tdiv rhsHigh,lhsHigh.tdiv rhsLow,lhsHigh.tdiv rhsHigh]

-- One turn of the loops over computed.
def takeIn (result : Int × Int) (quotient : Int) : Int × Int := (min result.1 quotient,max result.2 quotient)

def clamp (rangeMin rangeMax : Int) (result : Int × Int) : Option (Int × Int) :=
  let resultLow := if result.1 < rangeMin then rangeMin else result.1
  let resultHigh := if result.2 > rangeMax then rangeMax else result.2
  if resultLow > resultHigh then none else some (resultLow,resultHigh)

/- isUnsafeDivide keeps the one quotient out that 64 bits do not hold, so the
divisions are those of the integers. -/
def constrainIntegerDivisionRange (lhsLow lhsHigh rhsLow rhsHigh rangeMin rangeMax : Int)
    (allowZeroInDivisorRange : Bool) : Option (Int × Int) :=
  if rhsLow = 0 ∧ rhsHigh = 0 then none
  else if allowZeroInDivisorRange = false ∧ rhsLow ≤ 0 ∧ rhsHigh ≥ 0 then none
  else
    let rhsLow := if rhsLow = 0 then 1 else rhsLow
    let rhsHigh := if rhsHigh = 0 then -1 else rhsHigh
    if isUnsafeDivide lhsLow rhsLow || isUnsafeDivide lhsLow rhsHigh ||
        isUnsafeDivide lhsHigh rhsLow || isUnsafeDivide lhsHigh rhsHigh then none
    else if (rhsLow < 0 ∧ rhsHigh > 0) ∧ (isUnsafeDivide lhsLow (-1) || isUnsafeDivide lhsHigh (-1)) then none
    else clamp rangeMin rangeMax ((computed lhsLow lhsHigh rhsLow rhsHigh).foldl takeIn (rangeMax,rangeMin))

def doesRangeContainZero (rangeMin rangeMax : Int) : Bool :=
  if rangeMin = 0 ∨ rangeMax = 0 then true
  else if rangeMin < 0 ∧ rangeMax > 0 then true
  else false

-- getUnsignedLowInt and getUnsignedHighInt of a constant or a range.
def getUnsignedLowInt (c : IntegralConstraint) : Int :=
  if xorNegative 32 c.getLow c.getHigh then 0 else toUnsigned 32 c.getLow

def getUnsignedHighInt (c : IntegralConstraint) : Int :=
  if xorNegative 32 c.getLow c.getHigh then modulus 32 - 1 else toUnsigned 32 c.getHigh

/- What a handler leaves behind: the constraint of the node, the constraint of
the idiv it made, whether one of them replaced its node by a constant, and
whether a copy of the division stays under the DIVCHK. -/
structure Effect where
  node : Option IntegralConstraint
  newIdiv : Option IntegralConstraint
  replaced : Bool
  newDiv : Bool
  deriving DecidableEq, Repr

def unchanged : Effect := ⟨none,none,false,false⟩

-- vp->replaceByConstant or vp->addBlockOrGlobalConstraint on the node.
def settle (constraint : Option IntegralConstraint) (rhsLow rhsHigh : Int) : Effect :=
  match constraint with
  | none => unchanged
  | some c =>
      if c.isConst then ⟨some c,none,true,doesRangeContainZero rhsLow rhsHigh⟩
      else ⟨some c,none,false,false⟩

def foldIdiv (isUnsigned : Bool) (lhsConst rhsConst : Int) : Option IntegralConstraint :=
  if lhsConst = minSigned 32 ∧ rhsConst = -1 ∧ isUnsigned = false then some (VPIntConst.create (minSigned 32))
  else if rhsConst ≠ 0 then
    if isUnsigned then some (VPIntConst.create (wrap 32 (toUnsigned 32 lhsConst / toUnsigned 32 rhsConst)))
    else some (VPIntConst.create (lhsConst.tdiv rhsConst))
  else none

-- divchk is computeDivRangeWhenDivisorCanBeZero: the node's parent is a DIVCHK.
def rangeIdiv (isUnsigned divchk : Bool) (lhs rhs : IntegralConstraint) : Option IntegralConstraint :=
  let result :=
    if isUnsigned then
      constrainIntegerDivisionRange (getUnsignedLowInt lhs) (getUnsignedHighInt lhs) (getUnsignedLowInt rhs)
        (getUnsignedHighInt rhs) 0 (maxSigned 32) divchk
    else
      constrainIntegerDivisionRange lhs.getLow lhs.getHigh rhs.getLow rhs.getHigh (minSigned 32) (maxSigned 32) divchk
  result.bind fun (lo,hi) => VPIntRange.create (wrap 32 lo) (wrap 32 hi) .no

def idivConstraint (isUnsigned divchk : Bool) (lhs rhs : VPConstraint) : Option IntegralConstraint :=
  match lhs.asConst .Int32, rhs.asConst .Int32 with
  | some lhsConst, some rhsConst => foldIdiv isUnsigned lhsConst rhsConst
  | _, _ =>
      match lhs.asIntConstraint, rhs.asIntConstraint with
      | some lhsInt, some rhsInt => rangeIdiv isUnsigned divchk lhsInt rhsInt
      | _, _ => none

def constrainIdiv (isUnsigned divchk : Bool) (lhs rhs : Option VPConstraint) : Effect :=
  match lhs, rhs with
  | some lhs, some rhs => settle (idivConstraint isUnsigned divchk lhs rhs) rhs.getLowInt rhs.getHighInt
  | _, _ => unchanged

def foldLdiv (lhsConst rhsConst : Int) : Option IntegralConstraint :=
  if lhsConst = minSigned 64 ∧ rhsConst = -1 then some (VPLongConst.create (minSigned 64))
  else if rhsConst ≠ 0 then some (VPLongConst.create (lhsConst.tdiv rhsConst))
  else none

-- Both operands are ints, and no pair of them is MIN and -1.
def reducesToIdiv (lhs rhs : IntegralConstraint) : Bool :=
  lhs.getLow ≥ minSigned 32 ∧ lhs.getHigh ≤ maxSigned 32 ∧ rhs.getLow ≥ minSigned 32 ∧ rhs.getHigh ≤ maxSigned 32 ∧
    (lhs.getLow > minSigned 32 ∨ rhs.getLow > -1 ∨ rhs.getHigh < -1)

/- The node becomes an i2l of a new idiv. A constant replaces the idiv alone. -/
def reduceLdiv (divchk : Bool) (lhs rhs : IntegralConstraint) : Effect :=
  let result := constrainIntegerDivisionRange lhs.getLow lhs.getHigh rhs.getLow rhs.getHigh (minSigned 32) (maxSigned 32) divchk
  match result.bind fun (lo,hi) => (VPIntRange.create (wrap 32 lo) (wrap 32 hi) .no).map fun c => (c,lo,hi) with
  | some (idivConstraint,lo,hi) =>
      if idivConstraint.isConst then ⟨none,some idivConstraint,true,doesRangeContainZero rhs.getLow rhs.getHigh⟩
      else ⟨VPLongRange.create lo hi false .no,some idivConstraint,false,false⟩
  | none => ⟨VPLongRange.create (minSigned 32) (maxSigned 32) false .no,none,false,false⟩

def rangeLdiv (divchk : Bool) (lhs rhs : IntegralConstraint) : Effect :=
  let result := constrainIntegerDivisionRange lhs.getLow lhs.getHigh rhs.getLow rhs.getHigh (minSigned 64) (maxSigned 64) divchk
  settle (result.bind fun (lo,hi) => VPLongRange.create lo hi false .no) rhs.getLow rhs.getHigh

-- reduces stands for lastTimeThrough and performTransformation.
def constrainLdiv (divchk reduces : Bool) (lhs rhs : Option VPConstraint) : Effect :=
  match lhs, rhs with
  | some lhs, some rhs =>
      match lhs.asConst .Int64, rhs.asConst .Int64 with
      | some lhsConst, some rhsConst =>
          match foldLdiv lhsConst rhsConst with
          | some constraint => ⟨some constraint,none,true,false⟩
          | none => unchanged
      | _, _ =>
          match lhs.asLongConstraint, rhs.asLongConstraint with
          | some lhsConstraint, some rhsConstraint =>
              if reduces && reducesToIdiv lhsConstraint rhsConstraint then reduceLdiv divchk lhsConstraint rhsConstraint
              else rangeLdiv divchk lhsConstraint rhsConstraint
          | _, _ => unchanged
  | _, _ => unchanged

-- What the machine computes.
def quotient (t : DataType) (isUnsigned : Bool) (a b : Int) : Int :=
  wrap t.bits (if isUnsigned then toUnsigned t.bits a / toUnsigned t.bits b else a.tdiv b)

end OmrCompiler.DivisionRange
