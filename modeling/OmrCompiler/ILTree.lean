import Mathlib.Algebra.Order.Ring.Abs
import Mathlib.Tactic.Linarith
import OmrCompiler.Constraint

/-! Integer expression trees of the intermediate language and what their
opcodes compute (ILOps, ILOpCodesEnum.hpp). An opcode is an operation at a type:
iadd and ladd are `add` at Int32 and Int64. Values are signed; an unsigned opcode
reads and gives the same bits. -/
namespace OmrCompiler.ILTree
open MachineInt Constraint

inductive BinaryOp where
  | add
  | sub
  | mul
  | mulh
  | div
  | udiv
  | rem
  | urem
  | and
  | shl
  | shr
  | ushr
  deriving DecidableEq, Repr

-- The low bits of a shift amount, as many as the width has use for.
def shiftBy (w : Nat) (amount : Int) : Nat := (amount % w).toNat

def BinaryOp.eval (w : Nat) : BinaryOp → Int → Int → Int
  | .add, a, b => wrap w (a + b)
  | .sub, a, b => wrap w (a - b)
  | .mul, a, b => wrap w (a * b)
  | .mulh, a, b => a * b / modulus w
  | .div, a, b => wrap w (a.tdiv b)
  | .udiv, a, b => wrap w (toUnsigned w a / toUnsigned w b)
  | .rem, a, b => a.tmod b
  | .urem, a, b => wrap w (toUnsigned w a % toUnsigned w b)
  | .and, a, b => (BitVec.ofInt w a &&& BitVec.ofInt w b).toInt
  | .shl, a, b => wrap w (a * 2 ^ shiftBy w b)
  | .shr, a, b => a / 2 ^ shiftBy w b
  | .ushr, a, b => wrap w (toUnsigned w a / 2 ^ shiftBy w b)

def BinaryOp.isShift : BinaryOp → Bool
  | .shl => true
  | .shr => true
  | .ushr => true
  | _ => false

/- A constant is iconst, lconst or their unsigned spellings iuconst, luconst; a
load is any load of a variable. -/
inductive Tree where
  | const (type : DataType) (isUnsigned : Bool) (value : Int)
  | load (type : DataType) (symbol : Nat)
  | neg (type : DataType) (child : Tree)
  | i2l (child : Tree)
  | binary (op : BinaryOp) (type : DataType) (first second : Tree)
  deriving DecidableEq, Repr

namespace Tree

def eval (memory : Nat → Int) : Tree → Int
  | const _ _ value => value
  | load t symbol => wrap t.bits (memory symbol)
  | neg t child => wrap t.bits (-child.eval memory)
  | i2l child => child.eval memory
  | binary op t first second => op.eval t.bits (first.eval memory) (second.eval memory)

-- The children have the types that the opcode expects, and constants fit their type.
def Typed : DataType → Tree → Prop
  | t, const t' _ value => t' = t ∧ InRange t.bits value
  | t, load t' _ => t' = t
  | t, neg t' child => t' = t ∧ child.Typed t
  | t, i2l child => t = .Int64 ∧ child.Typed .Int32
  | t, binary op t' first second => t' = t ∧ first.Typed t ∧ second.Typed (if op.isShift then .Int32 else t)

def isLoadConst : Tree → Bool
  | const _ _ _ => true
  | _ => false

def isLoadVar : Tree → Bool
  | load _ _ => true
  | _ => false

end Tree

-- Nodes by the names of their opcodes.
def iconst (value : Int) : Tree := .const .Int32 false value

def lconst (value : Int) : Tree := .const .Int64 false value

def constOf (t : DataType) (value : Int) : Tree := .const t false value

section Operations
variable {w : Nat} {a b : Int}

theorem floorRange (h : InRange w a) (k : Nat) : InRange w (a / 2 ^ k) := by
  have pos : (0 : Int) < 2 ^ k := Int.pow_pos (by decide)
  have half := halfPos w
  simp only [InRange,minSigned,maxSigned] at *
  constructor
  · refine (Int.le_ediv_iff_mul_le pos).mpr ?_
    have : -MachineInt.half w * 2 ^ k ≤ -MachineInt.half w * 1 := Int.mul_le_mul_of_nonpos_left (by omega) (by omega)
    omega
  · by_cases nonneg : 0 ≤ a
    · have := Int.ediv_le_self (b := 2 ^ k) nonneg
      omega
    · have := Int.ediv_neg_of_neg_of_pos (by omega : a < 0) pos
      omega

theorem mulhRange (hw : 0 < w) (left : InRange w a) (right : InRange w b) : InRange w (a * b / modulus w) := by
  have mod := modulusHalf hw
  have pos := halfPos w
  simp only [InRange,minSigned,maxSigned] at *
  have bound : -(half w * half w) ≤ a * b ∧ a * b ≤ half w * half w := by
    have := abs_le.mpr ⟨left.1,show a ≤ half w by omega⟩
    have := abs_le.mpr ⟨right.1,show b ≤ half w by omega⟩
    have product : |a * b| ≤ half w * half w := by
      rw [abs_mul]
      exact mul_le_mul ‹_› ‹_› (abs_nonneg b) (by omega)
    exact abs_le.mp product
  constructor
  · refine (Int.le_ediv_iff_mul_le (by omega)).mpr ?_
    rw [mod]
    nlinarith
  · refine Int.lt_add_one_iff.mp ((Int.ediv_lt_iff_lt_mul (by omega)).mpr ?_)
    rw [mod]
    nlinarith

theorem remRange (left : InRange w a) : InRange w (a.tmod b) := by
  have size : (a.tmod b).natAbs ≤ a.natAbs := by
    rw [Int.natAbs_tmod]
    exact Nat.mod_le _ _
  have sign : a ≤ 0 → a.tmod b ≤ 0 := by
    intro negative
    have := Int.tmod_nonneg b (show 0 ≤ -a by omega)
    rw [Int.neg_tmod] at this
    omega
  have pos := halfPos w
  simp only [InRange,minSigned,maxSigned] at *
  omega

theorem andRange (hw : 0 < w) : InRange w (BitVec.ofInt w a &&& BitVec.ofInt w b).toInt := by
  obtain ⟨k,rfl⟩ : ∃ k, w = k + 1 := ⟨w - 1,by omega⟩
  have low := BitVec.le_toInt (BitVec.ofInt (k + 1) a &&& BitVec.ofInt (k + 1) b)
  have high := BitVec.toInt_lt (x := BitVec.ofInt (k + 1) a &&& BitVec.ofInt (k + 1) b)
  simp only [InRange,minSigned,maxSigned,half,Nat.add_sub_cancel] at *
  omega

theorem binaryRange (hw : 0 < w) (op : BinaryOp) (left : InRange w a) (right : op.isShift = false → InRange w b) :
    InRange w (op.eval w a b) := by
  cases op with
  | mulh => exact mulhRange hw left (right rfl)
  | rem => exact remRange left
  | and => exact andRange hw
  | shr => exact floorRange left _
  | add => exact wrapRange hw _
  | sub => exact wrapRange hw _
  | mul => exact wrapRange hw _
  | div => exact wrapRange hw _
  | udiv => exact wrapRange hw _
  | urem => exact wrapRange hw _
  | shl => exact wrapRange hw _
  | ushr => exact wrapRange hw _

end Operations

/- Every tree evaluates to a value of its type. -/
theorem evalRange (memory : Nat → Int) {t : DataType} {tree : Tree} (typed : tree.Typed t) :
    InRange t.bits (tree.eval memory) := by
  induction tree generalizing t with
  | const t' isUnsigned value => exact typed.2
  | load t' symbol =>
    subst typed
    exact wrapRange t'.bitsPos _
  | neg t' child ih =>
    obtain ⟨rfl,_⟩ := typed
    exact wrapRange t'.bitsPos _
  | i2l child ih =>
    obtain ⟨rfl,inside⟩ := typed
    have narrow := ih inside
    have bits : half DataType.Int32.bits ≤ half DataType.Int64.bits := by decide
    simp only [InRange,minSigned,maxSigned,Tree.eval] at *
    omega
  | binary op t' first second ihFirst ihSecond =>
    obtain ⟨rfl,left,right⟩ := typed
    refine binaryRange t'.bitsPos op (ihFirst left) fun plain => ?_
    rw [plain] at right
    exact ihSecond right

end OmrCompiler.ILTree
