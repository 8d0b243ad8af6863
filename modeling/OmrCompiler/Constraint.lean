import OmrCompiler.IntervalList
import OmrCompiler.MachineInt

/-! Integral value propagation constraints: constants, ranges and merged lists
of them (VPConstraint.hpp and the accessors and factories of VPConstraint.cpp).
A NULL constraint is `none`. Objects are compared by content here; what the
hash table of shared objects adds to that is the subject of ConstraintTable.
The unsigned mark of a constraint is never set and is left out. -/
namespace OmrCompiler.Constraint
open MachineInt IntervalList

inductive DataType where
  | Int16
  | Int32
  | Int64
  deriving DecidableEq, Repr

def DataType.bits : DataType → Nat
  | .Int16 => 16
  | .Int32 => 32
  | .Int64 => 64

theorem DataType.bitsPos (t : DataType) : 0 < t.bits := by cases t <;> decide

def DataType.getMinSigned (t : DataType) : Int := minSigned t.bits

def DataType.getMaxSigned (t : DataType) : Int := maxSigned t.bits

theorem DataType.minLtMax (t : DataType) : t.getMinSigned < t.getMaxSigned := by
  have := halfPos t.bits
  simp only [getMinSigned,getMaxSigned,minSigned,maxSigned]
  omega

inductive YesNoMaybe where
  | no
  | yes
  | maybe
  deriving DecidableEq, Repr

-- What the enumeration becomes where a bool is expected.
def YesNoMaybe.toBool : YesNoMaybe → Bool
  | .no => false
  | .yes => true
  | .maybe => true

/- VPShortConst, VPIntConst, VPLongConst and VPShortRange, VPIntRange,
VPLongRange. Only a VPLongRange has a power-of-two mark. -/
inductive IntegralConstraint where
  | const (type : DataType) (value : Int)
  | range (type : DataType) (low high : Int) (overflow : YesNoMaybe) (isPowerOfTwo : Bool)
  deriving DecidableEq, Repr

namespace IntegralConstraint

def type : IntegralConstraint → DataType
  | const t _ => t
  | range t _ _ _ _ => t

def getLow : IntegralConstraint → Int
  | const _ v => v
  | range _ low _ _ _ => low

def getHigh : IntegralConstraint → Int
  | const _ v => v
  | range _ _ high _ _ => high

def canOverflow : IntegralConstraint → YesNoMaybe
  | const _ _ => .no
  | range _ _ _ overflow _ => overflow

def isConst : IntegralConstraint → Bool
  | const _ _ => true
  | range _ _ _ _ _ => false

def getIsPowerOfTwo : IntegralConstraint → Bool
  | range .Int64 _ _ _ isPowerOfTwo => isPowerOfTwo
  | _ => false

def Contains (c : IntegralConstraint) (v : Int) : Prop := c.getLow ≤ v ∧ v ≤ c.getHigh

instance (c : IntegralConstraint) (v : Int) : Decidable (c.Contains v) := inferInstanceAs (Decidable (_ ∧ _))

def Valid (t : DataType) (c : IntegralConstraint) : Prop :=
  c.type = t ∧ t.getMinSigned ≤ c.getLow ∧ c.getLow ≤ c.getHigh ∧ c.getHigh ≤ t.getMaxSigned

instance (t : DataType) (c : IntegralConstraint) : Decidable (c.Valid t) := inferInstanceAs (Decidable (_ ∧ _))

end IntegralConstraint

/- An integral constraint or a VPMergedConstraints list. The type of a list is
read off its first entry, as its constructor does. -/
inductive VPConstraint where
  | integral (c : IntegralConstraint)
  | merged (list : List IntegralConstraint)
  deriving DecidableEq, Repr

namespace VPConstraint

def listType (list : List IntegralConstraint) : DataType :=
  match list with
  | [] => .Int32
  | first :: _ => first.type

def asIntegral (t : DataType) : VPConstraint → Option IntegralConstraint
  | integral c => if c.type = t then some c else none
  | merged _ => none

def asShortConstraint := asIntegral .Int16

def asIntConstraint := asIntegral .Int32

def asLongConstraint := asIntegral .Int64

-- asIntConst and asLongConst.
def asConst (t : DataType) : VPConstraint → Option Int
  | integral (.const type value) => if type = t then some value else none
  | _ => none

-- The entries a list loop walks: a constraint of its own counts as one entry.
def entries : VPConstraint → List IntegralConstraint
  | integral c => [c]
  | merged list => list

def priority : VPConstraint → Nat
  | merged _ => 15
  | integral c =>
      match c.type with
      | .Int16 => 14
      | .Int32 => 13
      | .Int64 => 12

def canOverflow : VPConstraint → YesNoMaybe
  | integral c => c.canOverflow
  | merged _ => .maybe

def isConst : VPConstraint → Bool
  | integral c => c.isConst
  | merged _ => false

def Contains : VPConstraint → Int → Prop
  | integral c, v => c.Contains v
  | merged list, v => ∃ c ∈ list, c.Contains v

instance (c : VPConstraint) (v : Int) : Decidable (c.Contains v) := by
  cases c <;> simp only [Contains] <;> infer_instance

def Canonical (t : DataType) (list : List IntegralConstraint) : Prop :=
  2 ≤ list.length ∧ (∀ c ∈ list, c.Valid t) ∧ list.Pairwise (fun a b => a.getHigh + 1 < b.getLow)

instance (t : DataType) (list : List IntegralConstraint) : Decidable (Canonical t list) :=
  inferInstanceAs (Decidable (_ ∧ _))

def Valid (t : DataType) : VPConstraint → Prop
  | integral c => c.Valid t
  | merged list => Canonical t list

instance (t : DataType) (c : VPConstraint) : Decidable (c.Valid t) := by
  cases c <;> simp only [Valid] <;> infer_instance

/- Bound accessors. A constraint answers for its own type; the default of the
base class is the whole type asked for. -/
def integralLow (t : DataType) (c : IntegralConstraint) : Int := if c.type = t then c.getLow else t.getMinSigned

def integralHigh (t : DataType) (c : IntegralConstraint) : Int := if c.type = t then c.getHigh else t.getMaxSigned

def headLow (t : DataType) : VPConstraint → Int
  | integral c => integralLow t c
  | merged list => (list.head?.map (integralLow t)).getD t.getMinSigned

def lastHigh (t : DataType) : VPConstraint → Int
  | integral c => integralHigh t c
  | merged list => (list.getLast?.map (integralHigh t)).getD t.getMaxSigned

def getLowShort := headLow .Int16

def getLowInt := headLow .Int32

def getLowLong := headLow .Int64

-- The short accessor of a list reads its first entry, not its last.
def getHighShort : VPConstraint → Int
  | integral c => integralHigh .Int16 c
  | merged list => (list.head?.map (integralHigh .Int16)).getD DataType.Int16.getMaxSigned

def getHighInt := lastHigh .Int32

def getHighLong := lastHigh .Int64

end VPConstraint

/- The factories. A whole-type range is no constraint, a one-value range is a
constant. -/
def createConst (t : DataType) (v : Int) : IntegralConstraint := .const t v

def VPShortConst.create := createConst .Int16

def VPIntConst.create := createConst .Int32

def VPLongConst.create := createConst .Int64

def createRange (t : DataType) (low high : Int) (canOverflow : YesNoMaybe) : Option IntegralConstraint :=
  if low = t.getMinSigned ∧ high = t.getMaxSigned then none
  else if low = high then some (createConst t low)
  else some (.range t low high canOverflow false)

def VPShortRange.create (low high : Int) (canOverflow : YesNoMaybe) := createRange .Int16 low high canOverflow

def VPIntRange.create (low high : Int) (canOverflow : YesNoMaybe) := createRange .Int32 low high canOverflow

/- The long factory takes the power-of-two mark before the overflow mark, and
keeps a whole-type range when the mark is set. -/
def VPLongRange.create (low high : Int) (powerOfTwo : Bool) (canOverflow : YesNoMaybe) :
    Option IntegralConstraint :=
  if low = DataType.Int64.getMinSigned ∧ high = DataType.Int64.getMaxSigned ∧ powerOfTwo = false then none
  else if low = high then some (createConst .Int64 low)
  else some (.range .Int64 low high canOverflow powerOfTwo)

def VPMergedConstraints.create (list : List IntegralConstraint) : VPConstraint := .merged list

def VPMergedConstraints.create2 (first second : IntegralConstraint) : VPConstraint := .merged [first,second]

-- A list of one entry is that entry.
def collapse : List IntegralConstraint → VPConstraint
  | [entry] => .integral entry
  | list => VPMergedConstraints.create list

-- The factories with their default arguments.
def rangeOf : DataType → Int → Int → Option IntegralConstraint
  | .Int16, low, high => VPShortRange.create low high .no
  | .Int32, low, high => VPIntRange.create low high .no
  | .Int64, low, high => VPLongRange.create low high false .no

-- What a result of type t allows, NULL being every value of the type.
def Allows (t : DataType) : Option VPConstraint → Int → Prop
  | none, v => InRange t.bits v
  | some c, v => c.Contains v

-- What a factory makes of two bounds: NULL for the whole type, else these bounds.
def MadeFor (t : DataType) (low high : Int) : Option IntegralConstraint → Prop
  | none => low = t.getMinSigned ∧ high = t.getMaxSigned
  | some c => c.type = t ∧ c.getLow = low ∧ c.getHigh = high

theorem createRangeMade (t : DataType) (low high : Int) (canOverflow : YesNoMaybe) :
    MadeFor t low high (createRange t low high canOverflow) := by
  unfold createRange
  split
  · assumption
  · split
    · rename_i same
      exact ⟨rfl,rfl,same⟩
    · exact ⟨rfl,rfl,rfl⟩

theorem createLongRangeMade (low high : Int) (powerOfTwo : Bool) (canOverflow : YesNoMaybe) :
    MadeFor .Int64 low high (VPLongRange.create low high powerOfTwo canOverflow) := by
  unfold VPLongRange.create
  split
  · rename_i full
    exact ⟨full.1,full.2.1⟩
  · split
    · rename_i same
      exact ⟨rfl,rfl,same⟩
    · exact ⟨rfl,rfl,rfl⟩

theorem rangeOfMade (t : DataType) (low high : Int) : MadeFor t low high (rangeOf t low high) := by
  cases t with
  | Int16 => exact createRangeMade .Int16 low high .no
  | Int32 => exact createRangeMade .Int32 low high .no
  | Int64 => exact createLongRangeMade low high false .no

theorem rangeOfFull {t : DataType} {low high : Int} (h : rangeOf t low high = none) :
    low = t.getMinSigned ∧ high = t.getMaxSigned := by
  simpa [h,MadeFor] using rangeOfMade t low high

theorem rangeOfBounds {t : DataType} {low high : Int} {c : IntegralConstraint} (h : rangeOf t low high = some c) :
    c.type = t ∧ c.getLow = low ∧ c.getHigh = high := by
  simpa [h,MadeFor] using rangeOfMade t low high

theorem integralInRange {t : DataType} {c : IntegralConstraint} (valid : c.Valid t) {v : Int} (h : c.Contains v) :
    InRange t.bits v := by
  obtain ⟨_,low,_,high⟩ := valid
  simp only [DataType.getMinSigned,DataType.getMaxSigned] at low high
  exact ⟨by have := h.1; omega,by have := h.2; omega⟩

theorem containsInRange {t : DataType} {c : VPConstraint} (valid : c.Valid t) {v : Int} (h : c.Contains v) :
    InRange t.bits v := by
  cases c with
  | integral c => exact integralInRange valid h
  | merged list =>
    obtain ⟨c,hc,inside⟩ := h
    exact integralInRange (valid.2.1 c hc) inside

theorem entriesValid {t : DataType} {c : VPConstraint} (valid : c.Valid t) : ∀ e ∈ c.entries, e.Valid t := by
  cases c with
  | integral c =>
    intro e he
    cases List.mem_singleton.mp he
    exact valid
  | merged list => exact valid.2.1

theorem entriesSeparated {t : DataType} {c : VPConstraint} (valid : c.Valid t) :
    Separated (·.getLow) (·.getHigh) c.entries := by
  cases c with
  | integral c => exact ⟨by simpa [VPConstraint.entries] using valid.2.2.1,List.pairwise_singleton _ _⟩
  | merged list => exact ⟨fun e he => (valid.2.1 e he).2.2.1,valid.2.2⟩

theorem containsEntries (c : VPConstraint) (v : Int) : c.Contains v ↔ Covers (·.getLow) (·.getHigh) c.entries v := by
  cases c with
  | integral c => simp [VPConstraint.Contains,VPConstraint.entries,IntegralConstraint.Contains]
  | merged list => rfl

theorem validInhabited {t : DataType} {c : VPConstraint} (valid : c.Valid t) : ∃ v, c.Contains v := by
  match c, valid with
  | .integral c, valid => exact ⟨c.getLow,Int.le_refl _,valid.2.2.1⟩
  | .merged (first :: rest), valid =>
    exact ⟨first.getLow,first,by simp,Int.le_refl _,(valid.2.1 first (by simp)).2.2.1⟩

theorem listTypeValid {t : DataType} {list : List IntegralConstraint} (valid : VPConstraint.Valid t (.merged list)) :
    VPConstraint.listType list = t := by
  match list, valid with
  | first :: rest, valid => exact (valid.2.1 first (by simp)).1

theorem collapseEntries {list : List IntegralConstraint} : (collapse list).entries = list := by
  unfold collapse
  split
  · rfl
  · rfl

theorem collapseValid {t : DataType} {list : List IntegralConstraint} (ne : list ≠ [])
    (valid : ∀ e ∈ list, e.Valid t) (separated : Separated (·.getLow) (·.getHigh) list) :
    (collapse list).Valid t := by
  match list with
  | [] => exact absurd rfl ne
  | [e] => exact valid e (by simp)
  | first :: second :: rest => exact ⟨by simp,valid,separated.2⟩

/- The bounds of a constraint are values of it, and nothing lies outside them. -/
theorem validBounds {t : DataType} {c : VPConstraint} (valid : c.Valid t) :
    c.Contains (c.headLow t) ∧ c.Contains (c.lastHigh t) ∧ ∀ v, c.Contains v → c.headLow t ≤ v ∧ v ≤ c.lastHigh t := by
  cases c with
  | integral c =>
    simp only [VPConstraint.headLow,VPConstraint.lastHigh,VPConstraint.integralLow,VPConstraint.integralHigh,valid.1,if_true]
    exact ⟨⟨Int.le_refl _,valid.2.2.1⟩,⟨valid.2.2.1,Int.le_refl _⟩,fun v h => h⟩
  | merged list =>
    obtain ⟨size,entries,gaps⟩ := valid
    obtain ⟨first,rest,rfl⟩ : ∃ first rest, list = first :: rest := List.exists_cons_of_length_pos (by omega)
    obtain ⟨front,last,split⟩ : ∃ front last, first :: rest = front ++ [last] :=
      ⟨_,_,(List.dropLast_append_getLast (List.cons_ne_nil first rest)).symm⟩
    have firstIn : first ∈ first :: rest := List.mem_cons_self
    have lastIn : last ∈ first :: rest := by rw [split]; simp
    have low : VPConstraint.headLow t (.merged (first :: rest)) = first.getLow := by
      simp [VPConstraint.headLow,VPConstraint.integralLow,(entries first firstIn).1]
    have high : VPConstraint.lastHigh t (.merged (first :: rest)) = last.getHigh := by
      simp [VPConstraint.lastHigh,split,VPConstraint.integralHigh,(entries last lastIn).1]
    rw [low,high]
    refine ⟨⟨first,firstIn,Int.le_refl _,(entries first firstIn).2.2.1⟩,
      ⟨last,lastIn,(entries last lastIn).2.2.1,Int.le_refl _⟩,fun v ⟨e,he,lower,upper⟩ => ⟨?_,?_⟩⟩
    · have first := (entries first firstIn).2.2.1
      rcases List.mem_cons.mp he with same | later
      · rw [same] at lower
        exact lower
      · have := (List.pairwise_cons.mp gaps).1 e later
        omega
    · rw [split] at he gaps
      have proper := (entries last lastIn).2.2.1
      rcases List.mem_append.mp he with before | same
      · have := (List.pairwise_append.mp gaps).2.2 e before last (by simp)
        omega
      · cases List.mem_singleton.mp same
        exact upper

end OmrCompiler.Constraint
