import OmrCompiler.MachineInt

/-! Relations between two values: VPEqual, VPNotEqual, VPLessThanOrEqual and
VPGreaterThanOrEqual with their 32-bit increment (VPConstraint.hpp) and the
queries without an argument of VPConstraint.cpp. -/
namespace OmrCompiler.ConstraintRelation
open MachineInt

inductive Kind where
  | equal
  | notEqual
  | lessThanOrEqual
  | greaterThanOrEqual
  deriving DecidableEq, Repr

structure VPRelation where
  kind : Kind
  increment : Int
  hasArtificialIncrement : Bool
  deriving DecidableEq, Repr

def Kind.Relates : Kind → Int → Int → Prop
  | .equal, x, y => x = y
  | .notEqual, x, y => x ≠ y
  | .lessThanOrEqual, x, y => x ≤ y
  | .greaterThanOrEqual, x, y => y ≤ x

instance (k : Kind) (x y : Int) : Decidable (k.Relates x y) := by cases k <;> simp only [Kind.Relates] <;> infer_instance

namespace VPRelation

-- An artificial increment comes from no addition of the program and does not wrap.
def target (w : Nat) (r : VPRelation) (y : Int) : Int :=
  if r.hasArtificialIncrement then y + r.increment else wrap w (y + r.increment)

def Holds (w : Nat) (r : VPRelation) (x y : Int) : Prop := r.kind.Relates x (r.target w y)

instance (w : Nat) (r : VPRelation) (x y : Int) : Decidable (r.Holds w x y) := inferInstanceAs (Decidable (Kind.Relates _ _ _))

def mustBeEqual (r : VPRelation) : Bool :=
  match r.kind with
  | .equal => r.increment = 0
  | _ => false

def mustBeNotEqual (r : VPRelation) : Bool :=
  match r.kind with
  | .lessThanOrEqual => r.increment < 0
  | .greaterThanOrEqual => r.increment > 0
  | .equal => r.increment ≠ 0
  | .notEqual => r.increment = 0

-- The ordered queries trust an increment only where it is zero or artificial.
def trusted (r : VPRelation) : Bool := r.increment = 0 || r.hasArtificialIncrement

def ordered (k : Kind) (test : Int → Bool) (r : VPRelation) : Bool := r.kind = k && r.trusted && test r.increment

def mustBeLessThan := ordered .lessThanOrEqual (· < 0)

def mustBeLessThanOrEqual := ordered .lessThanOrEqual (· ≤ 0)

def mustBeGreaterThan := ordered .greaterThanOrEqual (· > 0)

def mustBeGreaterThanOrEqual := ordered .greaterThanOrEqual (· ≥ 0)

section Queries
variable {w : Nat} {r : VPRelation} {x y : Int}

theorem targetTrusted (hw : 0 < w) (right : InRange w y) (h : r.trusted = true) : r.target w y = y + r.increment := by
  simp only [trusted,Bool.or_eq_true,decide_eq_true_eq] at h
  unfold target
  split
  · rfl
  · have zero : r.increment = 0 := h.resolve_right ‹_›
    rw [zero,Int.add_zero]
    exact wrapSelf hw right

theorem mustBeEqualSound (hw : 0 < w) (right : InRange w y) (holds : r.Holds w x y) (h : r.mustBeEqual = true) : x = y := by
  unfold mustBeEqual at h
  split at h
  · rename_i kind
    have zero : r.increment = 0 := by simpa using h
    have read : r.target w y = y + r.increment := targetTrusted hw right (by simp [trusted,zero])
    simp only [Holds,kind,Kind.Relates,read] at holds
    omega
  · cases h

-- What an ordered query reads: its kind, an increment that does not wrap and the sign of it.
theorem orderedReads {k : Kind} {test : Int → Bool} (hw : 0 < w) (right : InRange w y) (holds : r.Holds w x y)
    (h : ordered k test r = true) : test r.increment = true ∧ k.Relates x (y + r.increment) := by
  simp only [ordered,Bool.and_eq_true,decide_eq_true_eq] at h
  obtain ⟨⟨kind,trusted⟩,sign⟩ := h
  rw [Holds,kind,targetTrusted hw right trusted] at holds
  exact ⟨sign,holds⟩

theorem mustBeLessThanSound (hw : 0 < w) (right : InRange w y) (holds : r.Holds w x y) (h : r.mustBeLessThan = true) :
    x < y := by
  obtain ⟨sign,relates⟩ := orderedReads hw right holds h
  simp only [decide_eq_true_eq,Kind.Relates] at sign relates
  omega

theorem mustBeLessThanOrEqualSound (hw : 0 < w) (right : InRange w y) (holds : r.Holds w x y)
    (h : r.mustBeLessThanOrEqual = true) : x ≤ y := by
  obtain ⟨sign,relates⟩ := orderedReads hw right holds h
  simp only [decide_eq_true_eq,Kind.Relates] at sign relates
  omega

theorem mustBeGreaterThanSound (hw : 0 < w) (right : InRange w y) (holds : r.Holds w x y)
    (h : r.mustBeGreaterThan = true) : y < x := by
  obtain ⟨sign,relates⟩ := orderedReads hw right holds h
  simp only [decide_eq_true_eq,Kind.Relates] at sign relates
  omega

theorem mustBeGreaterThanOrEqualSound (hw : 0 < w) (right : InRange w y) (holds : r.Holds w x y)
    (h : r.mustBeGreaterThanOrEqual = true) : y ≤ x := by
  obtain ⟨sign,relates⟩ := orderedReads hw right holds h
  simp only [decide_eq_true_eq,Kind.Relates] at sign relates
  omega

end Queries
end VPRelation
end OmrCompiler.ConstraintRelation
