import OmrCompiler.ILTree

/-! Inequalities between sums with constants: simplifyInequality of VPHandlers.cpp turns
x + a < y + b into x < y - (a - b). Every operation of the tests is in the width of the
operands. -/
namespace OmrCompiler.InequalitySimplifier
open MachineInt Constraint ILTree

-- Only a range says anything here; a constant or a list does not.
def getLimits (t : DataType) : Option VPConstraint → Int × Int
  | some (.integral (.range type low high _ _)) => if type = t then (low,high) else (t.getMinSigned,t.getMaxSigned)
  | _ => (t.getMinSigned,t.getMaxSigned)

-- An addition or a subtraction of a constant, as the addition of a constant.
def constAddend (t : DataType) : Tree → Option (Tree × Int)
  | .binary .add _ first (.const _ _ value) => some (first,value)
  | .binary .sub _ first (.const _ _ value) => some (first,wrap t.bits (-value))
  | _ => none

section Tests
variable (t : DataType) (aConst bConst : Int)

def sumFits (xLow xHigh : Int) : Bool :=
  if aConst > 0 then xHigh ≤ wrap t.bits (t.getMaxSigned - aConst) else xLow ≥ wrap t.bits (t.getMinSigned - aConst)

def differenceFits : Bool :=
  if aConst < 0 then bConst ≤ wrap t.bits (t.getMaxSigned + aConst) else bConst ≥ wrap t.bits (t.getMinSigned + aConst)

def movedFits (yLow yHigh : Int) : Bool :=
  if aConst > bConst then yLow ≥ wrap t.bits (wrap t.bits (t.getMinSigned + aConst) - bConst)
  else yHigh ≤ wrap t.bits (wrap t.bits (t.getMaxSigned - bConst) + aConst)

def noOverflow (x y : Int × Int) : Bool :=
  sumFits t aConst x.1 x.2 && sumFits t bConst y.1 y.2 && differenceFits t aConst bConst && movedFits t aConst bConst y.1 y.2

end Tests

def makeNewRhsNode (t : DataType) (symNodeY : Tree) (constDiff : Int) : Tree := .binary .sub t symNodeY (constOf t constDiff)

-- The new children of the node, if it changes.
def simplifyInequality (t : DataType) (getConstraint : Tree → Option VPConstraint) (lhsChild rhsChild : Tree) (childrenReversed : Bool) :
    Option (Tree × Tree) := do
  let (x,aConst) ← constAddend t lhsChild
  let (y,bConst) ← constAddend t rhsChild
  if noOverflow t aConst bConst (getLimits t (getConstraint x)) (getLimits t (getConstraint y)) then
    let newRhsNode := makeNewRhsNode t y (wrap t.bits (aConst - bConst))
    some (if childrenReversed then (newRhsNode,x) else (x,newRhsNode))
  else none

-- The node tests lhsChild < rhsChild (or <=); with its children reversed its opcode is > or >=.
def lessThan (orEqual : Bool) (a b : Int) : Prop := if orEqual then a ≤ b else a < b

def nodeHolds (memory : Nat → Int) (orEqual childrenReversed : Bool) (children : Tree × Tree) : Prop :=
  if childrenReversed then lessThan orEqual (children.2.eval memory) (children.1.eval memory)
  else lessThan orEqual (children.1.eval memory) (children.2.eval memory)

section Sound
variable {t : DataType} {a b : Int}

theorem limitsHold {c : Option VPConstraint} {x : Int} (inside : InRange t.bits x) (holds : ∀ c', c = some c' → c'.Contains x) :
    (getLimits t c).1 ≤ x ∧ x ≤ (getLimits t c).2 := by
  unfold getLimits
  split
  · rename_i type low high overflow isPowerOfTwo
    split
    · exact holds _ rfl
    · exact inside
  · exact inside

theorem sumFitsSound {x xLow xHigh : Int} (inside : InRange t.bits a) (within : xLow ≤ x ∧ x ≤ xHigh) (range : InRange t.bits x)
    (fits : sumFits t a xLow xHigh = true) : InRange t.bits (x + a) := by
  have pos := halfPos t.bits
  unfold sumFits at fits
  simp only [InRange,minSigned,maxSigned] at inside range ⊢
  split at fits
  · have exact' : wrap t.bits (t.getMaxSigned - a) = half t.bits - 1 - a :=
      wrapSelf t.bitsPos ⟨by simp only [minSigned,DataType.getMaxSigned,maxSigned]; omega,by simp only [maxSigned,DataType.getMaxSigned]; omega⟩
    rw [exact',decide_eq_true_eq] at fits
    omega
  · have exact' : wrap t.bits (t.getMinSigned - a) = -half t.bits - a :=
      wrapSelf t.bitsPos ⟨by simp only [minSigned,DataType.getMinSigned]; omega,by simp only [maxSigned,DataType.getMinSigned,minSigned]; omega⟩
    rw [exact',decide_eq_true_eq] at fits
    omega

theorem differenceFitsSound (left : InRange t.bits a) (right : InRange t.bits b) (fits : differenceFits t a b = true) : InRange t.bits (b - a) := by
  have pos := halfPos t.bits
  unfold differenceFits at fits
  simp only [InRange,minSigned,maxSigned] at left right ⊢
  split at fits
  · have exact' : wrap t.bits (t.getMaxSigned + a) = half t.bits - 1 + a :=
      wrapSelf t.bitsPos ⟨by simp only [minSigned,DataType.getMaxSigned,maxSigned]; omega,by simp only [maxSigned,DataType.getMaxSigned]; omega⟩
    rw [exact',decide_eq_true_eq] at fits
    omega
  · have exact' : wrap t.bits (t.getMinSigned + a) = -half t.bits + a :=
      wrapSelf t.bitsPos ⟨by simp only [minSigned,DataType.getMinSigned]; omega,by simp only [maxSigned,DataType.getMinSigned,minSigned]; omega⟩
    rw [exact',decide_eq_true_eq] at fits
    omega

-- The inner sum of the last test may wrap; the whole of it comes out exact, as b - a fits.
theorem movedFitsSound {y yLow yHigh : Int} (difference : InRange t.bits (b - a)) (within : yLow ≤ y ∧ y ≤ yHigh) (range : InRange t.bits y)
    (fits : movedFits t a b yLow yHigh = true) : InRange t.bits (y + (b - a)) := by
  have pos := halfPos t.bits
  unfold movedFits at fits
  simp only [InRange,minSigned,maxSigned] at difference range ⊢
  split at fits
  · rename_i more
    have exact' : wrap t.bits (wrap t.bits (t.getMinSigned + a) - b) = -half t.bits + a - b := by
      rw [Int.sub_eq_add_neg,wrapAdd]
      exact wrapSelf t.bitsPos ⟨by simp only [minSigned,DataType.getMinSigned]; omega,by simp only [maxSigned,DataType.getMinSigned,minSigned]; omega⟩
    rw [exact',decide_eq_true_eq] at fits
    omega
  · have exact' : wrap t.bits (wrap t.bits (t.getMaxSigned - b) + a) = half t.bits - 1 - b + a := by
      rw [wrapAdd]
      exact wrapSelf t.bitsPos ⟨by simp only [minSigned,DataType.getMaxSigned,maxSigned]; omega,by simp only [maxSigned,DataType.getMaxSigned]; omega⟩
    rw [exact',decide_eq_true_eq] at fits
    omega

theorem wrapSubWrap (w : Nat) (x y : Int) : wrap w (x - wrap w y) = wrap w (x - y) := Int.sub_bmod_bmod

theorem addendValue (memory : Nat → Int) {tree x : Tree} (typed : tree.Typed t) (found : constAddend t tree = some (x,a)) :
    x.Typed t ∧ InRange t.bits a ∧ tree.eval memory = wrap t.bits (x.eval memory + a) := by
  unfold constAddend at found
  split at found
  · rename_i type first type' isUnsigned value
    obtain ⟨rfl,rfl⟩ := Prod.mk.inj (Option.some.inj found)
    obtain ⟨rfl,left,right⟩ := typed
    exact ⟨left,right.2,rfl⟩
  · rename_i type first type' isUnsigned value
    obtain ⟨rfl,rfl⟩ := Prod.mk.inj (Option.some.inj found)
    obtain ⟨rfl,left,right⟩ := typed
    refine ⟨left,wrapRange type.bitsPos _,?_⟩
    change wrap type.bits (first.eval memory - value) = _
    rw [Int.add_comm,wrapAdd]
    congr 1
    omega
  · cases found

theorem lessThanMoved {x y : Int} (orEqual : Bool) (sumX : InRange t.bits (x + a)) (sumY : InRange t.bits (y + b))
    (moved : InRange t.bits (y + (b - a))) :
    lessThan orEqual (wrap t.bits (x + a)) (wrap t.bits (y + b)) ↔ lessThan orEqual x (wrap t.bits (y - (a - b))) := by
  have same : y - (a - b) = y + (b - a) := by omega
  rw [same,wrapSelf t.bitsPos sumX,wrapSelf t.bitsPos sumY,wrapSelf t.bitsPos moved]
  cases orEqual with
  | false =>
      simp only [lessThan,Bool.false_eq_true,if_false]
      omega
  | true =>
      simp only [lessThan,if_true]
      omega

/- The new node tests what the old one did, for operands within their constraints. -/
theorem inequalityKept (memory : Nat → Int) {getConstraint : Tree → Option VPConstraint}
    (holds : ∀ tree c, getConstraint tree = some c → c.Contains (tree.eval memory)) {lhsChild rhsChild : Tree} {children : Tree × Tree}
    (left : lhsChild.Typed t) (right : rhsChild.Typed t) {childrenReversed : Bool}
    (changed : simplifyInequality t getConstraint lhsChild rhsChild childrenReversed = some children) (orEqual : Bool) :
    nodeHolds memory orEqual childrenReversed (if childrenReversed then (rhsChild,lhsChild) else (lhsChild,rhsChild)) ↔
      nodeHolds memory orEqual childrenReversed children := by
  unfold simplifyInequality at changed
  obtain ⟨⟨x,aConst⟩,foundX,changed⟩ := Option.bind_eq_some_iff.mp changed
  obtain ⟨⟨y,bConst⟩,foundY,changed⟩ := Option.bind_eq_some_iff.mp changed
  obtain ⟨typedX,rangeA,valueX⟩ := addendValue memory left foundX
  obtain ⟨typedY,rangeB,valueY⟩ := addendValue memory right foundY
  have insideX := evalRange memory typedX
  have insideY := evalRange memory typedY
  have limitsX := limitsHold insideX (holds x)
  have limitsY := limitsHold insideY (holds y)
  dsimp only at changed
  split at changed
  · rename_i fits
    simp only [noOverflow,Bool.and_eq_true] at fits
    have difference := differenceFitsSound rangeA rangeB fits.1.2
    have moved := @lessThanMoved t aConst bConst (x.eval memory) (y.eval memory) orEqual
      (sumFitsSound rangeA limitsX insideX fits.1.1.1) (sumFitsSound rangeB limitsY insideY fits.1.1.2)
      (movedFitsSound difference limitsY insideY fits.2)
    have newRhs : (makeNewRhsNode t y (wrap t.bits (aConst - bConst))).eval memory = wrap t.bits (y.eval memory - (aConst - bConst)) :=
      wrapSubWrap _ _ _
    cases Option.some.inj changed
    cases childrenReversed with
    | false =>
        change lessThan orEqual (lhsChild.eval memory) (rhsChild.eval memory) ↔
          lessThan orEqual (x.eval memory) ((makeNewRhsNode t y (wrap t.bits (aConst - bConst))).eval memory)
        rw [valueX,valueY,newRhs]
        exact moved
    | true =>
        change lessThan orEqual (lhsChild.eval memory) (rhsChild.eval memory) ↔
          lessThan orEqual (x.eval memory) ((makeNewRhsNode t y (wrap t.bits (aConst - bConst))).eval memory)
        rw [valueX,valueY,newRhs]
        exact moved
  · cases changed

-- 5 + 3 < 9 - 2 tests 5 < 9 - 5, when 5 and 9 are known to be between 0 and 100.
theorem inequalityKeptSample :
    nodeHolds (fun symbol => if symbol = 0 then 5 else 9) false false
      (.binary .add .Int32 (.load .Int32 0) (iconst 3),.binary .sub .Int32 (.load .Int32 1) (iconst 2)) ↔
    nodeHolds (fun symbol => if symbol = 0 then 5 else 9) false false
      (.load .Int32 0,.binary .sub .Int32 (.load .Int32 1) (iconst 5)) := by
  refine @inequalityKept .Int32 _
    (fun tree => if tree.isLoadVar then some (.integral (.range .Int32 0 100 .no false)) else none) (fun tree c found => ?_)
    (.binary .add .Int32 (.load .Int32 0) (iconst 3)) (.binary .sub .Int32 (.load .Int32 1) (iconst 2)) _
    ⟨rfl,rfl,rfl,by decide⟩ ⟨rfl,rfl,rfl,by decide⟩ false rfl false
  cases tree with
  | load type symbol =>
      cases Option.some.inj found
      change 0 ≤ wrap _ _ ∧ wrap _ _ ≤ 100
      cases type <;> by_cases zero : symbol = 0 <;> simp only [zero,if_true,if_false] <;> decide
  | const type isUnsigned value => cases found
  | neg type child => cases found
  | i2l child => cases found
  | binary op type first second => cases found

end Sound

end OmrCompiler.InequalitySimplifier
