import OmrCompiler.PowerOfTwo

/-! An or, or exclusive or, of a multiplication and a logical right shift of one operand
that becomes a rotate: checkAndReplaceRotation<T> of OMRSimplifierHandlers.cpp. -/
namespace OmrCompiler.RotationPattern
open MachineInt

inductive Combine where
  | or
  | xor
  deriving DecidableEq, Repr

-- The opcodes for which isMul() holds: imul, iumul, lmul; imulh, lmulh; iumulh, lumulh.
inductive Multiply where
  | mul
  | mulh
  | umulh
  deriving DecidableEq, Repr

inductive ChildOp where
  | multiply (op : Multiply)
  | shiftRightLogical
  | otherShift
  | other
  deriving DecidableEq, Repr

-- A child of the or with its two operands; nodes are told apart by their numbers.
structure Child where
  op : ChildOp
  first : Nat
  second : Nat
  deriving DecidableEq, Repr

structure Node where
  op : Combine
  first : Child
  second : Child
  deriving DecidableEq, Repr

-- The constant field of a load of a constant; none for every other node.
abbrev Constants := Nat → Option Int

def ChildOp.isMul : ChildOp → Option Multiply
  | .multiply op => some op
  | _ => none

def ChildOp.isShiftOrMul (op : ChildOp) : Bool := op ≠ .other

-- mulNode with its opcode, and shiftNode.
def mulAndShift (node : Node) : Option (Multiply × Child × Child) :=
  match node.first.op.isMul, node.second.op.isMul with
  | some op,_ => some (op,node.first,node.second)
  | none,some op => some (op,node.second,node.first)
  | none,none => none

-- The value of the constant operand, the first if both are, and the other operand.
def constOperand (constants : Constants) (c : Child) : Option (Int × Nat) :=
  match constants c.first, constants c.second with
  | some value,_ => some (value,c.second)
  | none,some value => some (value,c.first)
  | none,none => none

/- T has w bits. shiftOne is the C++ expression (1 << n) on an int, which the language
leaves undefined for n below 0 and above 31. -/
def checkAndReplaceRotation (w : Nat) (shiftOne : Int → Int) (disabled performTransformation : Bool) (constants : Constants)
    (node : Node) : Option (Nat × Int) := do
  if disabled || !node.first.op.isShiftOrMul || !node.second.op.isShiftOrMul then none
  else
    let (_,mulNode,shiftNode) ← mulAndShift node
    if shiftNode.op ≠ .shiftRightLogical then none
    else
      let (mulField,mulNonConstNode) ← constOperand constants mulNode
      let (shiftField,shiftNonConstNode) ← constOperand constants shiftNode
      if mulNonConstNode ≠ shiftNonConstNode then none
      else
        let mulConst := wrap w mulField
        let shiftConst := wrap w shiftField
        let correctLeftShiftAmount := wrap w (w - shiftConst)
        if shiftOne correctLeftShiftAmount ≠ mulConst || !performTransformation then none
        else some (mulNonConstNode,wrap 32 correctLeftShiftAmount)

section Values
variable {w : Nat}

def Combine.eval : Combine → BitVec w → BitVec w → BitVec w
  | .or,a,b => a ||| b
  | .xor,a,b => a ^^^ b

def Multiply.eval : Multiply → BitVec w → BitVec w → BitVec w
  | .mul,a,b => a * b
  | .mulh,a,b => BitVec.ofInt w (a.toInt * b.toInt / 2 ^ w)
  | .umulh,a,b => BitVec.ofNat w (a.toNat * b.toNat / 2 ^ w)

-- An amount counts modulo the width.
def amountOf (w : Nat) (amount : Int) : Nat := (amount % w).toNat

-- The operands of a child as integers, x being the one that is not taken for the constant.
def operands (constants : Constants) (c : Child) (x : Int) : Int × Int :=
  match constants c.first, constants c.second with
  | some value,_ => (value,x)
  | none,some value => (x,value)
  | none,none => (x,x)

def Child.eval (constants : Constants) (c : Child) (x : BitVec w) : BitVec w :=
  let (first,second) := operands constants c x.toInt
  match c.op with
  | .multiply op => op.eval (BitVec.ofInt w first) (BitVec.ofInt w second)
  | .shiftRightLogical => BitVec.ofInt w first >>> amountOf w second
  | _ => 0#w

def Node.eval (constants : Constants) (node : Node) (x : BitVec w) : BitVec w :=
  node.op.eval (node.first.eval constants x) (node.second.eval constants x)

-- irol, lrol
def rotate (x : BitVec w) (amount : Int) : BitVec w := x.rotateLeft (amountOf w amount)

end Values

section Words
variable {w : Nat}

theorem combineComm (op : Combine) (a b : BitVec w) : op.eval a b = op.eval b a := by
  cases op
  · exact BitVec.or_comm a b
  · exact BitVec.xor_comm a b

theorem multiplyComm (op : Multiply) (a b : BitVec w) : op.eval a b = op.eval b a := by
  cases op <;> simp only [Multiply.eval]
  · exact BitVec.mul_comm a b
  · rw [Int.mul_comm]
  · rw [Nat.mul_comm]

theorem combineZero (op : Combine) (a : BitVec w) : op.eval a 0#w = a ∧ op.eval 0#w a = a := by
  cases op <;> simp [Combine.eval]

-- A word that the other operand does not show is within it.
theorem absorbed {op : Combine} {a b : BitVec w} (same : op.eval a b = b) : a &&& ~~~b = 0#w := by
  cases op
  · simp only [Combine.eval] at same
    apply BitVec.eq_of_getLsbD_eq
    intro i inside
    have bit := congrArg (fun d : BitVec w => d.getLsbD i) same
    simp only [BitVec.getLsbD_or] at bit
    simp only [BitVec.getLsbD_and,BitVec.getLsbD_not,BitVec.getLsbD_zero,inside,decide_true,Bool.true_and]
    cases left : a.getLsbD i <;> cases right : b.getLsbD i <;> simp [left,right] at bit ⊢
  · have zero : a = 0#w := by
      have turned := congrArg (· ^^^ b) same
      simpa [Combine.eval,BitVec.xor_assoc] using turned
    rw [zero,BitVec.zero_and]

-- The two halves of a rotate do not meet.
theorem rotateHalves (op : Combine) (x : BitVec w) {k : Nat} (short : k < w) :
    op.eval (x <<< k) (x >>> (w - k)) = x.rotateLeft k := by
  apply BitVec.eq_of_getLsbD_eq
  intro i inside
  rw [BitVec.getLsbD_rotateLeft]
  have reduced : k % w = k := Nat.mod_eq_of_lt short
  have parts : (op.eval (x <<< k) (x >>> (w - k))).getLsbD i =
      if i < k then x.getLsbD (w - k + i) else x.getLsbD (i - k) := by
    have beyond : ¬ i < k → x.getLsbD (w - k + i) = false := fun high => BitVec.getLsbD_of_ge x _ (by omega)
    cases op <;> simp only [Combine.eval,BitVec.getLsbD_or,BitVec.getLsbD_xor,BitVec.getLsbD_shiftLeft,BitVec.getLsbD_ushiftRight] <;>
      by_cases low : i < k <;> simp [inside,low,beyond]
  rw [parts,reduced,Bool.cond_decide]
  split
  · rfl
  · simp only [inside,decide_true,Bool.true_and]

theorem rotateNone (x : BitVec w) : x.rotateLeft 0 = x := by
  apply BitVec.eq_of_getLsbD_eq
  intro i inside
  rw [BitVec.getLsbD_rotateLeft]
  simp [inside]

theorem rotateOne {k : Nat} (short : k < w) : (1#w).rotateLeft k = BitVec.twoPow w k := by
  by_cases none : k = 0
  · rw [none,rotateNone]
    exact (BitVec.twoPow_zero).symm
  · rw [← rotateHalves .or _ short]
    have gone : 1#w >>> (w - k) = 0#w := by
      apply BitVec.eq_of_toNat_eq
      have single : 1 % 2 ^ w < 2 ^ (w - k) :=
        Nat.lt_of_le_of_lt (Nat.mod_le _ _) (Nat.one_lt_two_pow (by omega))
      rw [BitVec.toNat_ushiftRight,BitVec.toNat_ofNat,BitVec.toNat_ofNat,Nat.shiftRight_eq_div_pow,Nat.div_eq_of_lt single,Nat.zero_mod]
    rw [gone,(combineZero .or _).1,BitVec.shiftLeft_eq_mul_twoPow,BitVec.one_mul]

end Words

section Multipliers
variable {w : Nat}

theorem oneShifted {r : Nat} (inside : 0 < r) : 1#w >>> r = 0#w := by
  apply BitVec.eq_of_toNat_eq
  have single : 1 % 2 ^ w < 2 ^ r := Nat.lt_of_le_of_lt (Nat.mod_le _ _) (Nat.one_lt_two_pow (by omega))
  rw [BitVec.toNat_ushiftRight,BitVec.toNat_ofNat,BitVec.toNat_ofNat,Nat.shiftRight_eq_div_pow,Nat.div_eq_of_lt single,Nat.zero_mod]

-- The high half of a product with one is the sign of the other factor.
theorem highOne (wide : 1 < w) (m : BitVec w) :
    Multiply.mulh.eval 1#w m = if m.toInt < 0 then BitVec.allOnes w else 0#w := by
  have one : (1#w).toInt = 1 := BitVec.toInt_one wide
  have lower := BitVec.le_toInt m
  have upper := BitVec.toInt_lt (x := m)
  have pos : (2 : Int) ^ w = 2 * 2 ^ (w - 1) := by
    rw [← Int.pow_succ']
    congr 1
    omega
  have half : (0 : Int) < 2 ^ (w - 1) := Int.pow_pos (by decide)
  simp only [Multiply.eval,one,Int.one_mul]
  split
  · have below : m.toInt / 2 ^ w = -1 := by
      rw [Int.ediv_eq_iff_of_pos (by omega)]
      omega
    rw [below]
    exact BitVec.ofInt_negSucc_eq_not_ofNat.trans BitVec.not_zero
  · rw [Int.ediv_eq_zero_of_lt (by omega) (by omega)]
    rfl

theorem unsignedHighOne (m : BitVec w) : Multiply.umulh.eval 1#w m = 0#w := by
  simp only [Multiply.eval]
  have single : (1#w).toNat ≤ 1 := by
    rw [BitVec.toNat_ofNat]
    exact Nat.mod_le _ _
  have under : (1#w).toNat * m.toNat < 2 ^ w :=
    Nat.lt_of_le_of_lt (Nat.mul_le_mul_right _ single) (by rw [Nat.one_mul]; exact m.isLt)
  rw [Nat.div_eq_of_lt under]

theorem firstBit {m : BitVec w} (low : ∀ i, 0 < i → m.getLsbD i = false) : m = 0#w ∨ m = 1#w := by
  cases first : m.getLsbD 0
  · left
    apply BitVec.eq_of_getLsbD_eq
    intro i inside
    rcases Nat.eq_zero_or_pos i with rfl | some
    · rw [first,BitVec.getLsbD_zero]
    · rw [low i some,BitVec.getLsbD_zero]
  · right
    apply BitVec.eq_of_getLsbD_eq
    intro i inside
    rcases Nat.eq_zero_or_pos i with rfl | some
    · rw [first,BitVec.getLsbD_one]
      simp [inside]
    · rw [low i some,BitVec.getLsbD_one]
      simp [show ¬ i = 0 by omega]

-- x * m, taken with x, shows x alone.
theorem plainAbsorbed (combine : Combine) (m : BitVec w) :
    (∀ x, combine.eval (Multiply.mul.eval x m) x = x) ↔ m = 0#w ∨ m = 1#w ∧ combine = .or := by
  constructor
  · intro same
    have atOne := same 1#w
    simp only [Multiply.eval,BitVec.one_mul] at atOne
    have within := absorbed atOne
    have low : ∀ i, 0 < i → m.getLsbD i = false := by
      intro i some
      have bit := congrArg (fun d : BitVec w => d.getLsbD i) within
      simp only [BitVec.getLsbD_and,BitVec.getLsbD_not,BitVec.getLsbD_one,BitVec.getLsbD_zero] at bit
      by_cases inside : i < w
      · simpa [inside,show ¬ i = 0 by omega] using bit
      · exact BitVec.getLsbD_of_ge m i (by omega)
    rcases firstBit low with zero | one
    · exact Or.inl zero
    · cases combine with
      | or => exact Or.inr ⟨one,rfl⟩
      | xor =>
        rw [one] at atOne
        simp only [Combine.eval,BitVec.xor_self] at atOne
        exact Or.inl (one.trans atOne.symm)
  · rintro (rfl | ⟨rfl,rfl⟩) x
    · rw [Multiply.eval,BitVec.mul_zero]
      exact (combineZero combine x).2
    · simp only [Multiply.eval,Combine.eval,BitVec.mul_one,BitVec.or_self]

theorem highAbsorbed (wide : 1 < w) (combine : Combine) (m : BitVec w) :
    (∀ x, combine.eval (Multiply.mulh.eval x m) x = x) ↔ m = 0#w := by
  constructor
  · intro same
    have lower := BitVec.le_toInt m
    have upper := BitVec.toInt_lt (x := m)
    have pos : (2 : Int) ^ w = 2 * 2 ^ (w - 1) := by
      rw [← Int.pow_succ']
      congr 1
      omega
    have least : (0 : Int) < 2 ^ (w - 1) := Int.pow_pos (by decide)
    rcases Int.lt_trichotomy m.toInt 0 with negative | zero | positive
    · have within := absorbed (same 1#w)
      rw [highOne wide,if_pos negative] at within
      have bit := congrArg (fun d : BitVec w => d.getLsbD 1) within
      simp [wide] at bit
    · exact BitVec.eq_of_toInt_eq (zero.trans BitVec.toInt_zero.symm)
    · have within := absorbed (same (BitVec.ofInt w (-2)))
      have value : (BitVec.ofInt w (-2)).toInt = -2 :=
        BitVec.toInt_ofInt_eq_self (by omega) (by omega) (by omega)
      have below : (-2) * m.toInt / 2 ^ w = -1 := by
        rw [Int.ediv_eq_iff_of_pos (by omega)]
        omega
      have even : BitVec.ofInt w (-2) = ~~~1#w := BitVec.ofInt_negSucc_eq_not_ofNat
      have ones : BitVec.ofInt w (-1) = BitVec.allOnes w := BitVec.ofInt_negSucc_eq_not_ofNat.trans BitVec.not_zero
      simp only [Multiply.eval] at within
      rw [value,below,even,ones,BitVec.not_not] at within
      have bit := congrArg (fun d : BitVec w => d.getLsbD 0) within
      simp [show 0 < w by omega] at bit
  · rintro rfl x
    have none : Multiply.mulh.eval x 0#w = 0#w := by
      simp only [Multiply.eval,BitVec.toInt_zero,Int.mul_zero,Int.zero_ediv]
      rfl
    rw [none]
    exact (combineZero combine x).2

theorem unsignedHighAbsorbed (wide : 1 < w) (combine : Combine) (m : BitVec w) :
    (∀ x, combine.eval (Multiply.umulh.eval x m) x = x) ↔ m = 0#w ∨ m = 1#w := by
  constructor
  · intro same
    have within := absorbed (same (BitVec.twoPow w (w - 1)))
    have whole : 2 ^ w = 2 ^ (w - 1) * 2 := by
      rw [← Nat.pow_succ]
      congr 1
      omega
    have shown : Multiply.umulh.eval (BitVec.twoPow w (w - 1)) m = m >>> 1 := by
      apply BitVec.eq_of_toNat_eq
      simp only [Multiply.eval]
      rw [BitVec.toNat_twoPow_of_lt (by omega),BitVec.toNat_ofNat,BitVec.toNat_ushiftRight,Nat.shiftRight_eq_div_pow,whole,
        Nat.mul_div_mul_left _ _ (Nat.two_pow_pos _)]
      exact Nat.mod_eq_of_lt (Nat.lt_of_le_of_lt (Nat.div_le_self _ _) (by omega))
    rw [shown] at within
    refine firstBit ?_
    intro i some
    have bit := congrArg (fun d : BitVec w => d.getLsbD (i - 1)) within
    by_cases inside : i < w
    · simpa [show 1 + (i - 1) = i by omega,show i - 1 < w by omega,show ¬ i - 1 = w - 1 by omega] using bit
    · exact BitVec.getLsbD_of_ge m i (by omega)
  · intro small x
    have none : Multiply.umulh.eval x m = 0#w := by
      simp only [Multiply.eval]
      have least : m.toNat ≤ 1 := by
        rcases small with rfl | rfl
        · simp
        · rw [BitVec.toNat_ofNat]
          exact Nat.mod_le _ _
      have under : x.toNat * m.toNat < 2 ^ w :=
        Nat.lt_of_le_of_lt (Nat.mul_le_mul_left _ least) (by rw [Nat.mul_one]; exact x.isLt)
      rw [Nat.div_eq_of_lt under]
    rw [none]
    exact (combineZero combine x).2

-- With a shift of r bits, between none and all.
theorem rotatesWith {r : Nat} (some : 0 < r) (short : r < w) (combine : Combine) (multiply : Multiply) (m : BitVec w) :
    (∀ x, combine.eval (multiply.eval x m) (x >>> r) = x.rotateLeft (w - r)) ↔
      multiply = .mul ∧ m = BitVec.twoPow w (w - r) := by
  constructor
  · intro same
    have atOne := same 1#w
    rw [oneShifted some,(combineZero combine _).1,rotateOne (by omega)] at atOne
    have bitAt := congrArg (fun d : BitVec w => d.getLsbD (w - r)) atOne
    have bitFirst := congrArg (fun d : BitVec w => d.getLsbD 0) atOne
    cases multiply with
    | mul =>
      rw [Multiply.eval,BitVec.one_mul] at atOne
      exact ⟨rfl,atOne⟩
    | mulh =>
      rw [highOne (by omega)] at bitAt bitFirst
      split at bitAt
      · rename_i negative
        have first : 0 = w - r := by simpa [negative,show 0 < w by omega] using bitFirst
        omega
      · simp [show w - r < w by omega] at bitAt
    | umulh =>
      rw [unsignedHighOne] at bitAt
      simp [show w - r < w by omega] at bitAt
  · rintro ⟨rfl,rfl⟩ x
    rw [Multiply.eval,← BitVec.shiftLeft_eq_mul_twoPow,← rotateHalves combine x (by omega : w - r < w)]
    rw [show w - (w - r) = r by omega]

end Multipliers

section Rewrites
variable {w : Nat} {constants : Constants} {node : Node}

theorem constOperandSides {c : Child} {value : Int} {operand : Nat} (found : constOperand constants c = some (value,operand)) (x : Int) :
    operands constants c x = if (constants c.first).isSome then (value,x) else (x,value) := by
  simp only [constOperand,operands] at found ⊢
  cases first : constants c.first with
  | some v =>
    rw [first] at found
    cases found
    rfl
  | none =>
    cases second : constants c.second with
    | none => simp [first,second] at found
    | some v =>
      simp only [first,second,Option.some.injEq,Prod.mk.injEq] at found
      simp [found.1]

-- What the test has found when it rewrites.
structure Found (w : Nat) (shiftOne : Int → Int) (constants : Constants) (node : Node) (amount : Int) where
  multiply : Multiply
  mulNode : Child
  shiftNode : Child
  mulField : Int
  shiftField : Int
  operand : Nat
  nodes : mulAndShift node = some (multiply,mulNode,shiftNode)
  shift : shiftNode.op = .shiftRightLogical
  mulFound : constOperand constants mulNode = some (mulField,operand)
  shiftFound : constOperand constants shiftNode = some (shiftField,operand)
  tested : shiftOne (wrap w (w - wrap w shiftField)) = wrap w mulField
  stored : amount = wrap 32 (wrap w (w - wrap w shiftField))

theorem findRewritten {shiftOne : Int → Int} {disabled performTransformation : Bool} {operand : Nat} {amount : Int}
    (rewritten : checkAndReplaceRotation w shiftOne disabled performTransformation constants node = some (operand,amount)) :
    Nonempty (Found w shiftOne constants node amount) := by
  unfold checkAndReplaceRotation at rewritten
  split at rewritten
  · cases rewritten
  cases nodes : mulAndShift node with
  | none => simp [nodes] at rewritten
  | some found =>
    obtain ⟨multiply,mulNode,shiftNode⟩ := found
    simp only [nodes,Option.bind_eq_bind,Option.bind_some] at rewritten
    split at rewritten
    · cases rewritten
    cases mulFound : constOperand constants mulNode with
    | none => simp [mulFound] at rewritten
    | some a =>
      cases shiftFound : constOperand constants shiftNode with
      | none => simp [mulFound,shiftFound] at rewritten
      | some b =>
        simp only [mulFound,shiftFound,Option.bind_some] at rewritten
        split at rewritten
        · cases rewritten
        split at rewritten
        · cases rewritten
        rename_i shift same tested
        simp only [Bool.or_eq_true,decide_eq_true_eq,not_or,not_not] at tested
        simp only [Option.some.injEq,Prod.mk.injEq] at rewritten
        exact ⟨{
          multiply := multiply
          mulNode := mulNode
          shiftNode := shiftNode
          mulField := a.1
          shiftField := b.1
          operand := operand
          nodes := nodes
          shift := not_not.mp shift
          mulFound := by rw [mulFound,← rewritten.1]
          shiftFound := by rw [shiftFound,← rewritten.1,not_not.mp same]
          tested := tested.1
          stored := rewritten.2.symm
        }⟩

theorem mulChildEval {multiply : Multiply} {mulNode shiftNode : Child} (nodes : mulAndShift node = some (multiply,mulNode,shiftNode))
    (x : BitVec w) : node.eval constants x = node.op.eval (mulNode.eval constants x) (shiftNode.eval constants x) ∧
      mulNode.op = .multiply multiply := by
  have isMulOp : ∀ {op : ChildOp} {m : Multiply}, op.isMul = some m → op = .multiply m := by
    intro op m is_mul
    cases op <;> simp_all [ChildOp.isMul]
  unfold mulAndShift at nodes
  split at nodes
  · rename_i first
    cases nodes
    exact ⟨rfl,isMulOp first⟩
  · rename_i second
    cases nodes
    exact ⟨combineComm _ _ _,isMulOp second⟩
  · cases nodes

theorem multiplyEval {c : Child} {multiply : Multiply} {value : Int} {operand : Nat} (op : c.op = .multiply multiply)
    (found : constOperand constants c = some (value,operand)) (x : BitVec w) :
    c.eval constants x = multiply.eval x (BitVec.ofInt w value) := by
  simp only [Child.eval,op,constOperandSides found]
  split
  · rw [BitVec.ofInt_toInt]
    exact multiplyComm _ _ _
  · rw [BitVec.ofInt_toInt]

theorem shiftEval {c : Child} {value : Int} {operand : Nat} (op : c.op = .shiftRightLogical)
    (found : constOperand constants c = some (value,operand)) (x : BitVec w) :
    c.eval constants x =
      if (constants c.first).isSome then BitVec.ofInt w value >>> amountOf w x.toInt else x >>> amountOf w value := by
  simp only [Child.eval,op,constOperandSides found]
  split
  · rfl
  · rw [BitVec.ofInt_toInt]

-- The stored amount is the width less the shift's, both modulo the width.
theorem storedAmount (width : w = 32 ∨ w = 64) (s : Int) :
    amountOf w (wrap 32 (wrap w (w - wrap w s))) = (w - amountOf w s) % w := by
  have low : (2 : Int) ^ 32 = 4294967296 := by decide
  have high : (2 : Int) ^ 64 = 18446744073709551616 := by decide
  obtain ⟨a,outer⟩ := wrapShift 32 (wrap w (w - wrap w s))
  obtain ⟨b,middle⟩ := wrapShift w (w - wrap w s)
  obtain ⟨c,inner⟩ := wrapShift w s
  rw [outer,middle,inner]
  rcases width with rfl | rfl
  · simp only [amountOf,modulus,low]
    omega
  · simp only [amountOf,modulus,low,high]
    omega

theorem noAmount (width : w = 32 ∨ w = 64) {s : Int} (none : BitVec.ofInt w s = 0#w) : amountOf w s = 0 := by
  have low : 2 ^ 32 = 4294967296 := by decide
  have high : 2 ^ 64 = 18446744073709551616 := by decide
  have zero := congrArg BitVec.toNat none
  rw [BitVec.toNat_ofInt,BitVec.toNat_ofNat,Nat.zero_mod] at zero
  rcases width with rfl | rfl
  · simp only [low] at zero
    simp only [amountOf]
    omega
  · simp only [high] at zero
    simp only [amountOf]
    omega

/- For which constants, by the product and by the place of the shift's constant, the rotate is
the node's value. The last branch has an amount that is a multiple of the width. -/
def exactConstants (w : Nat) (combine : Combine) (multiply : Multiply) (shiftConstFirst : Bool) (mulField shiftField : Int) : Prop :=
  if shiftConstFirst then multiply = .mul ∧ BitVec.ofInt w shiftField = 0#w ∧ BitVec.ofInt w mulField = 1#w
  else if amountOf w shiftField ≠ 0 then
    multiply = .mul ∧ BitVec.ofInt w mulField = BitVec.twoPow w (w - amountOf w shiftField)
  else
    match multiply with
    | .mul => BitVec.ofInt w mulField = 0#w ∨ BitVec.ofInt w mulField = 1#w ∧ combine = .or
    | .mulh => BitVec.ofInt w mulField = 0#w
    | .umulh => BitVec.ofInt w mulField = 0#w ∨ BitVec.ofInt w mulField = 1#w

def exactRotation (w : Nat) (constants : Constants) (node : Node) : Prop :=
  ∃ multiply mulNode shiftNode mulField shiftField operand,
    mulAndShift node = some (multiply,mulNode,shiftNode) ∧
    constOperand constants mulNode = some (mulField,operand) ∧
    constOperand constants shiftNode = some (shiftField,operand) ∧
    exactConstants w node.op multiply (constants shiftNode.first).isSome mulField shiftField

-- The shifted constant: nothing is left of it only if it is zero.
theorem constantShifted (wide : 1 < w) (combine : Combine) (multiply : Multiply) (m c : BitVec w) {amount : Nat}
    (turned : c = 0#w → amount = 0) :
    (∀ x, combine.eval (multiply.eval x m) (c >>> amountOf w x.toInt) = x.rotateLeft amount) ↔
      multiply = .mul ∧ c = 0#w ∧ m = 1#w := by
  constructor
  · intro same
    have zeroProduct : multiply.eval 0#w m = 0#w := by
      cases multiply <;> simp [Multiply.eval]
    have atZero := same 0#w
    have unmoved : amountOf w (0#w).toInt = 0 := by simp [amountOf]
    rw [zeroProduct,unmoved,(combineZero combine _).2,BitVec.ushiftRight_zero] at atZero
    have none : c = 0#w := by
      rw [atZero]
      apply BitVec.eq_of_getLsbD_eq
      intro i inside
      simp [BitVec.getLsbD_rotateLeft]
    have atOne := same 1#w
    rw [none,BitVec.zero_ushiftRight,(combineZero combine _).1,turned none,rotateNone] at atOne
    have first := congrArg (fun d : BitVec w => d.getLsbD 0) atOne
    have second := congrArg (fun d : BitVec w => d.getLsbD 1) atOne
    cases multiply with
    | mul =>
      rw [Multiply.eval,BitVec.one_mul] at atOne
      exact ⟨rfl,none,atOne⟩
    | mulh =>
      rw [highOne wide] at first second
      split at second
      · simp [wide] at second
      · rename_i natural
        simp [natural,show 0 < w by omega] at first
    | umulh =>
      rw [unsignedHighOne] at first
      simp [show 0 < w by omega] at first
  · rintro ⟨rfl,rfl,rfl⟩ x
    rw [Multiply.eval,BitVec.mul_one,BitVec.zero_ushiftRight,(combineZero combine _).1,turned rfl,rotateNone]

-- The rotate is the node's value for every value of the operand just when the constants are so.
theorem rotationExact {shiftOne : Int → Int} {disabled performTransformation : Bool} {operand : Nat} {amount : Int}
    (width : w = 32 ∨ w = 64)
    (rewritten : checkAndReplaceRotation w shiftOne disabled performTransformation constants node = some (operand,amount)) :
    (∀ x : BitVec w, node.eval constants x = rotate x amount) ↔ exactRotation w constants node := by
  obtain ⟨found⟩ := findRewritten rewritten
  have wide : 1 < w := by omega
  have value : ∀ x : BitVec w, node.eval constants x =
      node.op.eval (found.multiply.eval x (BitVec.ofInt w found.mulField))
        (if (constants found.shiftNode.first).isSome then BitVec.ofInt w found.shiftField >>> amountOf w x.toInt
          else x >>> amountOf w found.shiftField) := by
    intro x
    obtain ⟨combined,isMul⟩ := mulChildEval found.nodes x
    rw [combined,multiplyEval isMul found.mulFound,shiftEval found.shift found.shiftFound]
  have only : exactRotation w constants node ↔ exactConstants w node.op found.multiply
      (constants found.shiftNode.first).isSome found.mulField found.shiftField := by
    constructor
    · rintro ⟨multiply,mulNode,shiftNode,mulField,shiftField,_,nodes,mulFound,shiftFound,exact'⟩
      rw [found.nodes] at nodes
      cases nodes
      rw [found.mulFound] at mulFound
      rw [found.shiftFound] at shiftFound
      cases mulFound
      cases shiftFound
      exact exact'
    · intro exact'
      exact ⟨_,_,_,_,_,_,found.nodes,found.mulFound,found.shiftFound,exact'⟩
  rw [only]
  simp only [value,rotate,found.stored,storedAmount width,exactConstants]
  have short : amountOf w found.shiftField < w := by
    have below := Int.emod_lt_of_pos found.shiftField (show (0 : Int) < w by omega)
    simp only [amountOf]
    omega
  by_cases first : (constants found.shiftNode.first).isSome = true
  · simp only [first,if_true]
    refine constantShifted wide node.op found.multiply _ _ ?_
    intro none
    have zero : amountOf w found.shiftField = 0 := noAmount width none
    rw [zero,Nat.sub_zero,Nat.mod_self]
  · simp only [first]
    by_cases some : amountOf w found.shiftField = 0
    · simp only [some,Nat.sub_zero,Nat.mod_self,BitVec.ushiftRight_zero,rotateNone]
      simp only [ne_eq,not_true_eq_false,if_false]
      cases found.multiply with
      | mul => exact plainAbsorbed node.op _
      | mulh => exact highAbsorbed wide node.op _
      | umulh => exact unsignedHighAbsorbed wide node.op _
    · rw [Nat.mod_eq_of_lt (by omega : w - amountOf w found.shiftField < w)]
      simp only [ne_eq,some,not_false_eq_true,if_true]
      exact rotatesWith (by omega) short node.op found.multiply _

-- (1 << n) where the language defines it; the value 0 elsewhere is arbitrary.
def intShift (n : Int) : Int := if 0 ≤ n ∧ n < 32 then wrap 32 (2 ^ n.toNat) else 0

end Rewrites

-- 0x400000 * x | x >>> 10
def lowRotation : Node := ⟨.or,⟨.multiply .mul,0,1⟩,⟨.shiftRightLogical,0,2⟩⟩

def lowConstants : Constants := fun n => if n = 1 then some 0x400000 else if n = 2 then some 10 else none

theorem rotationExactSample : (∀ x : BitVec 32, lowRotation.eval lowConstants x = rotate x 22) ↔
    exactRotation 32 lowConstants lowRotation :=
  by
  have rewritten : checkAndReplaceRotation 32 intShift false true lowConstants lowRotation = some (0,22) := by decide
  exact rotationExact (Or.inl rfl) rewritten

-- 1 << 31 is negative: x * -0x80000000 | x >>> 33 becomes lrol x 31.
def highConstants : Constants := fun n => if n = 1 then some (-0x80000000) else if n = 2 then some 33 else none

theorem rotationHigh : checkAndReplaceRotation 64 intShift false true highConstants lowRotation = some (0,31) ∧
    lowRotation.eval highConstants 1#64 = 0xFFFFFFFF80000000#64 ∧ rotate 1#64 31 = 0x80000000#64 := by
  decide

end OmrCompiler.RotationPattern
