import OmrCompiler.CompareHandlers

/-! An addition or subtraction of a constant under an integral compare with a constant:
removeArithmeticsUnderIntegralCompare of OMRSimplifierHandlers.cpp, for every width. -/
namespace OmrCompiler.CompareArithmetic
open MachineInt CompareHandlers

-- A loaded constant keeps 64 bits; an opcode of a narrower type reads the low ones.
inductive Operand where
  | const (value : Int)
  | child (n : Nat)
  deriving DecidableEq, Repr

inductive Arithmetic where
  | add
  | sub
  | other
  deriving DecidableEq, Repr

structure OpNode where
  op : Arithmetic
  bits : Nat
  cannotOverflow : Bool
  firstChild : Nat
  secondChild : Operand
  futureUseCount : Nat
  referenceCount : Nat
  deriving DecidableEq, Repr

structure CompareNode where
  op : CompareOp
  opNode : OpNode
  secondChild : Operand
  deriving DecidableEq, Repr

def isCompareForEquality (r : Relation) : Bool := r = .eq || r = .ne

def isSignednessTypeSupported (node : CompareNode) : Bool :=
  isCompareForEquality node.op.relation || (!node.op.operand.isUnsigned && node.opNode.cannotOverflow)

-- The guard on the order compares, on the unsigned readings as int64_t.
def canTransformAdd (bits : Nat) (oldConst1 oldConst2 : Int) : Bool :=
  !(decide (oldConst1 > 0) && decide (oldConst2 < minSigned bits + oldConst1)) &&
    !(decide (oldConst1 < 0) && decide (oldConst2 > maxSigned bits + oldConst1))

def canTransformSub (bits : Nat) (oldConst1 oldConst2 : Int) : Bool :=
  !(decide (oldConst1 > 0) && decide (oldConst2 > maxSigned bits - oldConst1)) &&
    !(decide (oldConst1 < 0) && decide (oldConst2 < minSigned bits - oldConst1))

def orderGuard (op : Arithmetic) (bits : Nat) (oldConst1 oldConst2 : Int) : Bool :=
  match op with
  | .add => canTransformAdd bits oldConst1 oldConst2
  | .sub => canTransformSub bits oldConst1 oldConst2
  | .other => false

-- The new constant under the compare, which takes the first operand of the opNode as its own.
def newConst (node : CompareNode) : Option Int :=
  match node.opNode.secondChild, node.secondChild with
  | .const c1,.const c2 =>
      let bits := node.opNode.bits
      if bits = 8 ∨ bits = 16 ∨ bits = 32 ∨ bits = 64 then
        let oldUConst1 := toUnsigned bits c1
        let oldUConst2 := toUnsigned bits c2
        if isCompareForEquality node.op.relation || orderGuard node.opNode.op bits (wrap 64 oldUConst1) (wrap 64 oldUConst2) then
          some (wrap 64 (if node.opNode.op = .add then oldUConst2 - oldUConst1 else oldUConst2 + oldUConst1))
        else none
      else none
  | _,_ => none

def removeArithmeticsUnderIntegralCompare (disabled performTransformation : Bool) (node : CompareNode) : Option (Nat × Int) :=
  if !disabled && node.opNode.op ≠ .other && isSignednessTypeSupported node &&
      decide ((node.opNode.futureUseCount : Int) = node.opNode.referenceCount - 1) then do
    let newUConst ← newConst node
    if performTransformation then some (node.opNode.firstChild,newUConst) else none
  else none

-- What the addition or subtraction computes from the value of its first child, before wrapping.
def exactSum (op : Arithmetic) (x c : Int) : Int := if op = .sub then x - c else x + c

def truthBefore (node : CompareNode) (x c1 c2 : Int) : Bool :=
  node.op.eval (wrap node.opNode.bits (exactSum node.opNode.op x (wrap node.opNode.bits c1))) (wrap node.opNode.bits c2)

def truthAfter (node : CompareNode) (x newUConst : Int) : Bool := node.op.eval x (wrap node.opNode.bits newUConst)

/- The two compares agree on every value of the first child, for an order compare on
every value on which cannotOverflow tells the truth. -/
def TruthPreserved (node : CompareNode) (c1 c2 newUConst : Int) : Prop :=
  ∀ x, InRange node.opNode.bits x →
    (isCompareForEquality node.op.relation = false →
      InRange node.opNode.bits (exactSum node.opNode.op x (wrap node.opNode.bits c1))) →
    truthBefore node x c1 c2 = truthAfter node x newUConst

section Words
variable {w : Nat} {a b x s t : Int}

theorem unsignedInjective (hw : 0 < w) (left : InRange w a) (right : InRange w b) : toUnsigned w a = toUnsigned w b ↔ a = b := by
  constructor
  · intro same
    have turned := congrArg (wrap w) same
    rwa [wrapUnsigned (Nat.le_refl w),wrapUnsigned (Nat.le_refl w),wrapSelf hw left,wrapSelf hw right] at turned
  · rintro rfl
    rfl

-- Moving a constant across an equality of wrapped values.
theorem equalShifted (hw : 0 < w) (left : InRange w x) (right : InRange w s) : wrap w (x + t) = s ↔ x = wrap w (s - t) := by
  constructor
  · rintro rfl
    rw [Int.sub_eq_add_neg,wrapAdd,Int.add_neg_cancel_right,wrapSelf hw left]
  · rintro rfl
    rw [wrapAdd,Int.sub_add_cancel,wrapSelf hw right]

end Words

theorem evalSigned {op : CompareOp} (isSigned : op.operand.isUnsigned = false) {a b : Int}
    (left : InRange op.operand.bits a) (right : InRange op.operand.bits b) : op.eval a b = op.relation.holds a b := by
  have hw : 0 < op.operand.bits := by cases op.operand <;> decide
  simp [CompareOp.eval,CompareHandlers.Operand.read,isSigned,wrapSelf hw left,wrapSelf hw right]

theorem evalEquality {op : CompareOp} (equality : isCompareForEquality op.relation = true) {a b : Int}
    (left : InRange op.operand.bits a) (right : InRange op.operand.bits b) : op.eval a b = op.relation.holds a b := by
  have hw : 0 < op.operand.bits := by cases op.operand <;> decide
  cases isUnsigned : op.operand.isUnsigned
  · exact evalSigned isUnsigned left right
  · have same := unsignedInjective hw left right
    simp only [CompareOp.eval,CompareHandlers.Operand.read,isUnsigned,if_true]
    cases r : op.relation <;> simp [isCompareForEquality,r] at equality <;> simp [Relation.holds,same]

-- c2 - c1 under an addition and c2 + c1 under a subtraction, before wrapping.
def exactConst (op : Arithmetic) (c1 c2 : Int) : Int := if op = .sub then c2 + c1 else c2 - c1

structure Rewritten (node : CompareNode) (c1 c2 : Int) (result : Nat × Int) : Prop where
  child : result.1 = node.opNode.firstChild
  supported : isSignednessTypeSupported node = true
  arithmetic : node.opNode.op ≠ .other
  const : result.2 = wrap 64 (exactConst node.opNode.op (toUnsigned node.opNode.bits c1) (toUnsigned node.opNode.bits c2))
  guard : isCompareForEquality node.op.relation = true ∨ orderGuard node.opNode.op node.opNode.bits
    (wrap 64 (toUnsigned node.opNode.bits c1)) (wrap 64 (toUnsigned node.opNode.bits c2)) = true

section Rewriting
variable {disabled performTransformation : Bool} {node : CompareNode} {c1 c2 : Int} {result : Nat × Int}

theorem rewrittenBy (const1 : node.opNode.secondChild = .const c1) (const2 : node.secondChild = .const c2)
    (rewrites : removeArithmeticsUnderIntegralCompare disabled performTransformation node = some result) :
    Rewritten node c1 c2 result := by
  unfold removeArithmeticsUnderIntegralCompare at rewrites
  split at rewrites
  · rename_i allowed
    simp only [Bool.and_eq_true,decide_eq_true_eq] at allowed
    obtain ⟨⟨⟨_,arithmetic⟩,supported⟩,_⟩ := allowed
    obtain ⟨newUConst,made,performed⟩ := Option.bind_eq_some_iff.mp rewrites
    split at performed
    · cases performed
      simp only [newConst,const1,const2] at made
      split at made
      · split at made
        · rename_i guarded
          cases made
          refine ⟨rfl,supported,arithmetic,?_,Bool.or_eq_true_iff.mp guarded⟩
          cases op : node.opNode.op
          · rfl
          · rfl
          · exact absurd op arithmetic
        · cases made
      · cases made
    · cases performed
  · cases rewrites

theorem bitsOfOperand (typed : node.op.operand.bits = node.opNode.bits) :
    node.opNode.bits = 8 ∨ node.opNode.bits = 16 ∨ node.opNode.bits = 32 ∨ node.opNode.bits = 64 := by
  rw [← typed]
  cases node.op.operand <;> simp [CompareHandlers.Operand.bits]

-- The new constant read at the width of the compare.
theorem newConstValue (typed : node.op.operand.bits = node.opNode.bits) (rewritten : Rewritten node c1 c2 result) :
    wrap node.opNode.bits result.2 =
      wrap node.opNode.bits (exactConst node.opNode.op (wrap node.opNode.bits c1) (wrap node.opNode.bits c2)) := by
  have narrow : ∀ x, wrap node.opNode.bits (wrap 64 x) = wrap node.opNode.bits x := by
    intro x
    have divides : (2 : Nat) ^ node.opNode.bits ∣ 2 ^ 64 := by
      apply Nat.pow_dvd_pow
      rcases bitsOfOperand typed with bits | bits | bits | bits <;> omega
    rw [wrap,wrap,Int.bmod_bmod_of_dvd divides,wrap]
  have cast : modulus node.opNode.bits = ((2 ^ node.opNode.bits : Nat) : Int) := by simp [modulus]
  rw [rewritten.const,narrow]
  unfold exactConst toUnsigned
  rw [cast]
  split
  · simp only [wrap,Int.emod_add_bmod,Int.add_emod_bmod,Int.bmod_add_bmod,Int.add_bmod_bmod]
  · simp only [wrap,Int.emod_sub_bmod,Int.sub_emod_bmod,Int.bmod_sub_bmod,Int.sub_bmod_bmod]

end Rewriting

-- What is added to the first operand.
def addend (op : Arithmetic) (c : Int) : Int := if op = .sub then -c else c

theorem exactSumAddend (op : Arithmetic) (x c : Int) : exactSum op x c = x + addend op c := by
  unfold exactSum addend
  split <;> omega

theorem exactConstAddend (op : Arithmetic) (c1 c2 : Int) : exactConst op c1 c2 = c2 - addend op c1 := by
  unfold exactConst addend
  split <;> omega

theorem addendRange {w : Nat} {c : Int} (inside : InRange w c) (op : Arithmetic) : -half w ≤ addend op c ∧ addend op c ≤ half w := by
  have pos := halfPos w
  simp only [InRange,minSigned,maxSigned] at inside
  unfold addend
  split <;> omega

section Order
variable {r : Relation} {w : Nat} {x s t : Int}

theorem orderShifted (r : Relation) (x s t : Int) : r.holds (x + t) s = r.holds x (s - t) := by
  cases r <;> simp only [Relation.holds,decide_eq_decide,ne_eq] <;> omega

/- When the new constant wraps, the old order compare is the same for every value
and the new one is not: the extreme value on the side of the wrapping tells them apart. -/
theorem wrappedDiffers (order : isCompareForEquality r = false) (hw : 0 < w) (inside : InRange w s) (size : -half w ≤ t ∧ t ≤ half w)
    (wraps : ¬ InRange w (s - t)) : ∃ x, InRange w x ∧ InRange w (x + t) ∧ r.holds (x + t) s ≠ r.holds x (wrap w (s - t)) := by
  have mod := modulusHalf hw
  have pos := halfPos w
  have limits : minSigned w = -half w ∧ maxSigned w = half w - 1 := ⟨rfl,rfl⟩
  simp only [InRange] at inside wraps
  rcases wrapTurn hw (x := s - t) (by omega) (by omega) with ⟨within,_⟩ | ⟨below,turned⟩ | ⟨above,turned⟩
  · exact absurd within wraps
  · refine ⟨minSigned w,⟨by omega,by omega⟩,⟨by omega,by omega⟩,?_⟩
    rw [turned]
    cases r <;> simp [isCompareForEquality] at order <;> simp only [Relation.holds,ne_eq,decide_eq_decide] <;> omega
  · refine ⟨maxSigned w,⟨by omega,by omega⟩,⟨by omega,by omega⟩,?_⟩
    rw [turned]
    cases r <;> simp [isCompareForEquality] at order <;> simp only [Relation.holds,ne_eq,decide_eq_decide] <;> omega

end Order

section Truth
variable {disabled performTransformation : Bool} {node : CompareNode} {c1 c2 : Int} {result : Nat × Int}

theorem positiveBits (typed : node.op.operand.bits = node.opNode.bits) : 0 < node.opNode.bits := by
  rcases bitsOfOperand typed with bits | bits | bits | bits <;> omega

theorem equalityPreserved (typed : node.op.operand.bits = node.opNode.bits) (rewritten : Rewritten node c1 c2 result)
    (equality : isCompareForEquality node.op.relation = true) : TruthPreserved node c1 c2 result.2 := by
  intro x inside _
  have hw := positiveBits typed
  have moved := equalShifted hw inside (wrapRange hw c2) (t := addend node.opNode.op (wrap node.opNode.bits c1))
  unfold truthBefore truthAfter
  rw [newConstValue typed rewritten,exactSumAddend,exactConstAddend,evalEquality equality (typed ▸ wrapRange hw _) (typed ▸ wrapRange hw _),
    evalEquality equality (typed ▸ inside) (typed ▸ wrapRange hw _)]
  cases r : node.op.relation <;> simp [isCompareForEquality,r] at equality <;> simp [Relation.holds,moved]

theorem orderTruth (typed : node.op.operand.bits = node.opNode.bits) (rewritten : Rewritten node c1 c2 result)
    (order : isCompareForEquality node.op.relation = false) {x : Int} (inside : InRange node.opNode.bits x)
    (fits : InRange node.opNode.bits (x + addend node.opNode.op (wrap node.opNode.bits c1))) :
    truthBefore node x c1 c2 = node.op.relation.holds (x + addend node.opNode.op (wrap node.opNode.bits c1)) (wrap node.opNode.bits c2) ∧
      truthAfter node x result.2 = node.op.relation.holds x
        (wrap node.opNode.bits (wrap node.opNode.bits c2 - addend node.opNode.op (wrap node.opNode.bits c1))) := by
  have hw := positiveBits typed
  have isSigned : node.op.operand.isUnsigned = false := by
    have supported := rewritten.supported
    rw [isSignednessTypeSupported,order,Bool.false_or,Bool.and_eq_true,Bool.not_eq_true'] at supported
    exact supported.1
  unfold truthBefore truthAfter
  rw [newConstValue typed rewritten,exactSumAddend,exactConstAddend,wrapSelf hw fits]
  exact ⟨evalSigned isSigned (typed ▸ fits) (typed ▸ wrapRange hw _),evalSigned isSigned (typed ▸ inside) (typed ▸ wrapRange hw _)⟩

theorem orderPreserved (typed : node.op.operand.bits = node.opNode.bits) (rewritten : Rewritten node c1 c2 result)
    (order : isCompareForEquality node.op.relation = false) :
    TruthPreserved node c1 c2 result.2 ↔
      InRange node.opNode.bits (exactConst node.opNode.op (wrap node.opNode.bits c1) (wrap node.opNode.bits c2)) := by
  have hw := positiveBits typed
  rw [exactConstAddend]
  constructor
  · intro preserved
    by_contra wraps
    obtain ⟨x,inside,fits,differs⟩ := wrappedDiffers order hw (wrapRange hw c2) (addendRange (wrapRange hw c1) node.opNode.op) wraps
    obtain ⟨before,after⟩ := orderTruth typed rewritten order inside fits
    have same := preserved x inside fun _ => by rwa [exactSumAddend]
    rw [before,after] at same
    exact differs same
  · intro within x inside fits
    obtain ⟨before,after⟩ := orderTruth typed rewritten order inside (exactSumAddend node.opNode.op x _ ▸ fits order)
    rw [before,after,wrapSelf hw within,orderShifted]

theorem removedArithmeticPreserves (typed : node.op.operand.bits = node.opNode.bits) (const1 : node.opNode.secondChild = .const c1)
    (const2 : node.secondChild = .const c2)
    (rewrites : removeArithmeticsUnderIntegralCompare disabled performTransformation node = some result) :
    result.1 = node.opNode.firstChild ∧ (TruthPreserved node c1 c2 result.2 ↔
      isCompareForEquality node.op.relation = true ∨
        InRange node.opNode.bits (exactConst node.opNode.op (wrap node.opNode.bits c1) (wrap node.opNode.bits c2))) := by
  have rewritten := rewrittenBy const1 const2 rewrites
  refine ⟨rewritten.child,?_⟩
  cases equality : isCompareForEquality node.op.relation
  · rw [orderPreserved typed rewritten equality]
    simp
  · exact iff_of_true (equalityPreserved typed rewritten equality) (Or.inl rfl)

-- ificmplt (iadd x c1) c2
def sampleCompare (c1 c2 : Int) : CompareNode := ⟨⟨.i,.lt⟩,⟨.add,32,true,0,.const c1,0,1⟩,.const c2⟩

theorem removedArithmeticPreservesSample : TruthPreserved (sampleCompare 3 10) 3 10 7 :=
  (@removedArithmeticPreserves false true (sampleCompare 3 10) 3 10 (0,7) rfl rfl rfl (by decide)).2.mpr (Or.inr (by decide))

-- x - 1 < 2147483647 becomes x < -2147483648.
theorem removedArithmeticWraps :
    removeArithmeticsUnderIntegralCompare false true (sampleCompare (-1) 2147483647) = some (0,-2147483648) ∧
      ¬ TruthPreserved (sampleCompare (-1) 2147483647) (-1) 2147483647 (-2147483648) := by
  refine ⟨by decide,fun preserved => ?_⟩
  have same := preserved 0 (by decide) (by decide)
  revert same
  decide

end Truth

end OmrCompiler.CompareArithmetic
