import Mathlib.Algebra.Order.Group.Unbundled.Int
import OmrCompiler.ConstraintArithmetic

/-! The range of a negation and of an absolute value: constrainIneg, constrainLneg,
constrainIabs and constrainLabs of VPHandlers.cpp. The child has been constrained and the
node has no constant constraint of its own. -/
namespace OmrCompiler.NegationRange
open MachineInt Constraint ConstraintTable
open ConstraintArithmetic (RangeFactory factory factoryMade mergeTwo negate)

-- A node becomes a constant, is given a constraint, or is replaced by its first child.
inductive Effect where
  | unchanged
  | constant (c : IntegralConstraint)
  | attached (c : VPConstraint)
  | removed
  deriving DecidableEq, Repr

def Effect.constraint : Effect → Option VPConstraint
  | .unchanged => none
  | .constant c => some (.integral c)
  | .attached c => some c
  | .removed => none

def attach : Option VPConstraint → Effect
  | none => .unchanged
  | some c => .attached c

def replaceByConstant (t : DataType) (table : Table) (v : Int) : Effect × Table :=
  (.constant (createConst table t v).1,(createConst table t v).2)

def constrainNeg (t : DataType) (table : Table) (child : Option VPConstraint) : Effect × Table :=
  match child with
  | none => (.unchanged,table)
  | some child =>
      match child.asConst t with
      | some value => replaceByConstant t table (wrap t.bits (-value))
      | none =>
          let constraint := negate t (factory t) (·.headLow t) (·.lastHigh t) table child
          (attach constraint.1,constraint.2)

-- The lowest value, where the child may have it, is the first entry of a list.
def absRange (t : DataType) (minConstraint : Option IntegralConstraint) (table : Table) (low high : Int) : Effect × Table :=
  if low ≠ high ∨ minConstraint ≠ none then
    let constraint := factory t table low high .no
    match minConstraint with
    | none => (attach (constraint.1.map .integral),constraint.2)
    | some _ => (attach (mergeTwo minConstraint constraint.1),constraint.2)
  else replaceByConstant t table low

-- The values above the lowest one.
def absAbove (t : DataType) (performTransformation : Bool) (minConstraint : Option IntegralConstraint) (table : Table) (low high : Int) :
    Effect × Table :=
  if low < 0 ∧ high ≤ 0 then absRange t minConstraint table (high * -1) (low * -1)
  else if low < 0 ∧ high > 0 then absRange t minConstraint table 0 (max (low * -1) high)
  else if performTransformation then (.removed,table)
  else absRange t minConstraint table low high

def constrainAbs (t : DataType) (performTransformation : Bool) (table : Table) (child : Option VPConstraint) : Effect × Table :=
  match child with
  | none =>
      let minConstraint := createConst table t t.getMinSigned
      let constraint := factory t minConstraint.2 0 t.getMaxSigned .no
      (attach (mergeTwo (some minConstraint.1) constraint.1),constraint.2)
  | some child =>
      let low := child.headLow t
      let high := child.lastHigh t
      if low = high then replaceByConstant t table (if low < 0 then wrap t.bits (-low) else low)
      else
        if low = t.getMinSigned then
          absAbove t performTransformation (some (createConst table t low).1) (createConst table t low).2 (low + 1) high
        else absAbove t performTransformation none table low high

def constrainIneg := constrainNeg .Int32

def constrainLneg := constrainNeg .Int64

def constrainIabs := constrainAbs .Int32

def constrainLabs := constrainAbs .Int64

inductive Negation where
  | ineg
  | lneg
  | iabs
  | labs
  deriving DecidableEq, Repr

namespace Negation

def type : Negation → DataType
  | ineg => .Int32
  | lneg => .Int64
  | iabs => .Int32
  | labs => .Int64

-- The machine result: the lowest value is its own negation and its own absolute value.
def eval : Negation → Int → Int
  | ineg,x => wrap 32 (-x)
  | lneg,x => wrap 64 (-x)
  | iabs,x => wrap 32 |x|
  | labs,x => wrap 64 |x|

def handler (op : Negation) (performTransformation : Bool) (table : Table) (child : Option VPConstraint) : Effect :=
  match op with
  | ineg => (constrainIneg table child).1
  | lneg => (constrainLneg table child).1
  | iabs => (constrainIabs performTransformation table child).1
  | labs => (constrainLabs performTransformation table child).1

end Negation

def Sorted (t : DataType) (list : List IntegralConstraint) : Prop :=
  (∀ c ∈ list, c.Valid t) ∧ list.Pairwise (fun a b => a.getHigh < b.getLow)

structure Holds (t : DataType) (value : Int → Int) (child : Option VPConstraint) (effect : Effect) : Prop where
  values : ∀ x, Allows t child x → Allows t effect.constraint (value x)
  sorted : ∀ list, effect.constraint = some (.merged list) → Sorted t list
  removal : effect = .removed → ∀ x, Allows t child x → 0 ≤ x ∧ value x = x

section Values
variable {w : Nat} {x : Int}

theorem wrapNegated (hw : 0 < w) (inside : InRange w x) :
    (x = minSigned w ∧ wrap w (-x) = minSigned w) ∨ (minSigned w < x ∧ wrap w (-x) = -x) := by
  have mod := modulusHalf hw
  have half := halfPos w
  simp only [InRange,minSigned,maxSigned] at inside ⊢
  rcases Int.lt_or_eq_of_le inside.1 with above | least
  · exact .inr ⟨above,wrapSelf hw ⟨by simp only [minSigned]; omega,by simp only [maxSigned]; omega⟩⟩
  · refine .inl ⟨least.symm,?_⟩
    exact wrapUnique (k := -1) hw ⟨Int.le_refl _,by simp only [maxSigned]; omega⟩ (by omega)

theorem wrapAbs (hw : 0 < w) (inside : InRange w x) :
    (x = minSigned w ∧ wrap w |x| = minSigned w) ∨ (minSigned w < x ∧ x < 0 ∧ wrap w |x| = -x) ∨ (0 ≤ x ∧ wrap w |x| = x) := by
  have half := halfPos w
  rcases lt_or_ge x 0 with negative | nonneg
  · rw [abs_of_neg negative]
    rcases wrapNegated hw inside with least | above
    · exact .inl least
    · exact .inr (.inl ⟨above.1,negative,above.2⟩)
  · rw [abs_of_nonneg nonneg]
    exact .inr (.inr ⟨nonneg,wrapSelf hw inside⟩)

end Values

section Sound
variable {t : DataType} {child : Option VPConstraint} {value : Int → Int}

-- The lowest value of the type stands before a range above it.
theorem minimumMerged {low high : Int} {first second : Option IntegralConstraint} (firstMade : MadeFor t t.getMinSigned t.getMinSigned first)
    (secondMade : MadeFor t low high second) (above : t.getMinSigned < low) (order : low ≤ high) (top : high ≤ t.getMaxSigned) :
    ∃ list, mergeTwo first second = some (.merged list) ∧ Sorted t list ∧
      ∀ v, v = t.getMinSigned ∨ low ≤ v ∧ v ≤ high → (VPConstraint.merged list).Contains v := by
  have proper := t.minLtMax
  match first, second with
  | none, _ => exact absurd firstMade.2 (by omega)
  | some _, none => exact absurd secondMade.1 (by omega)
  | some a, some b =>
      obtain ⟨typeA,lowA,highA⟩ := firstMade
      obtain ⟨typeB,lowB,highB⟩ := secondMade
      refine ⟨[a,b],rfl,⟨fun c member => ?_,by simp; omega⟩,fun v which => ?_⟩
      · rcases List.mem_pair.mp member with rfl | rfl
        · exact ⟨typeA,by omega,by omega,by omega⟩
        · exact ⟨typeB,by omega,by omega,by omega⟩
      · rcases which with least | between
        · exact ⟨a,by simp,by omega,by omega⟩
        · exact ⟨b,by simp,by omega,by omega⟩

theorem minimumMade (table : Table) : MadeFor t t.getMinSigned t.getMinSigned (some (createConst table t t.getMinSigned).1) := by
  rw [createConstShared]
  exact ⟨rfl,rfl,rfl⟩

theorem constantHolds {v : Int} (table : Table) (every : ∀ x, Allows t child x → value x = v) :
    Holds t value child (replaceByConstant t table v).1 := by
  refine ⟨fun x inside => ?_,nofun,nofun⟩
  rw [every x inside,replaceByConstant,createConstShared]
  exact ⟨Int.le_refl _,Int.le_refl _⟩

theorem madeHolds {low high : Int} {made : Option IntegralConstraint} (h : MadeFor t low high made)
    (between : ∀ x, Allows t child x → low ≤ value x ∧ value x ≤ high) : Holds t value child (attach (made.map .integral)) := by
  cases made with
  | none =>
      obtain ⟨rfl,rfl⟩ := h
      exact ⟨fun x inside => between x inside,nofun,nofun⟩
  | some c =>
      obtain ⟨_,rfl,rfl⟩ := h
      exact ⟨fun x inside => between x inside,nofun,nofun⟩

theorem mergedHolds {low high : Int} {first second : Option IntegralConstraint} (firstMade : MadeFor t t.getMinSigned t.getMinSigned first)
    (secondMade : MadeFor t low high second) (above : t.getMinSigned < low) (order : low ≤ high) (top : high ≤ t.getMaxSigned)
    (between : ∀ x, Allows t child x → value x = t.getMinSigned ∨ low ≤ value x ∧ value x ≤ high) :
    Holds t value child (attach (mergeTwo first second)) := by
  obtain ⟨list,made,sorted,holds⟩ := minimumMerged firstMade secondMade above order top
  rw [made]
  exact ⟨fun x inside => holds _ (between x inside),fun list' same => by cases same; exact sorted,nofun⟩

theorem unchangedHolds (inside : ∀ x, Allows t child x → InRange t.bits (value x)) : Holds t value child .unchanged :=
  ⟨inside,nofun,nofun⟩

theorem negHolds (table : Table) (valid : ∀ c, child = some c → c.Valid t) :
    Holds t (fun x => wrap t.bits (-x)) child (constrainNeg t table child).1 := by
  have hw := t.bitsPos
  unfold constrainNeg
  cases child with
  | none => exact unchangedHolds fun x _ => wrapRange hw _
  | some c =>
      simp only
      split
      · rename_i v constant
        refine constantHolds table fun x inside => ?_
        cases c with
        | merged list => simp [VPConstraint.asConst] at constant
        | integral c =>
            cases c with
            | range type low high overflow mark => simp [VPConstraint.asConst] at constant
            | const type low =>
                simp only [VPConstraint.asConst] at constant
                split at constant
                · cases constant
                  have : x = v := Int.le_antisymm inside.2 inside.1
                  rw [this]
                · cases constant
      · obtain ⟨lowIn,highIn,every⟩ := validBounds (valid c rfl)
        have lowRange := containsInRange (valid c rfl) lowIn
        have highRange := containsInRange (valid c rfl) highIn
        have order := (every _ lowIn).2
        have negated : ∀ x, Allows t (some c) x → _ := fun x inside => wrapNegated hw (containsInRange (valid c rfl) inside)
        have top : t.getMaxSigned = -t.getMinSigned - 1 := by simp only [DataType.getMaxSigned,DataType.getMinSigned,minSigned,maxSigned]; omega
        change t.getMinSigned ≤ c.headLow t ∧ c.headLow t ≤ t.getMaxSigned at lowRange
        change t.getMinSigned ≤ c.lastHigh t ∧ c.lastHigh t ≤ t.getMaxSigned at highRange
        have values : ∀ x, Allows t (some c) x → (x = t.getMinSigned ∧ wrap t.bits (-x) = t.getMinSigned) ∨
            (t.getMinSigned < x ∧ wrap t.bits (-x) = -x) := negated
        unfold negate
        simp only
        split
        · rename_i allLeast
          refine madeHolds (factoryMade t _ _ _ .yes) fun x inside => ?_
          have := every x inside
          have := values x inside
          omega
        · rename_i someAbove
          by_cases least : c.headLow t = t.getMinSigned
          · simp only [least,if_true]
            have firstMade := factoryMade t table t.getMinSigned t.getMinSigned .yes
            cases first : (factory t table t.getMinSigned t.getMinSigned .yes).1 with
            | none =>
                rw [first] at firstMade
                exact absurd firstMade.2 (by omega)
            | some a =>
                rw [first] at firstMade
                refine mergedHolds firstMade (factoryMade t _ _ _ .yes) ?_ ?_ ?_ fun x inside => ?_
                · omega
                · omega
                · omega
                · have := every x inside
                  have := values x inside
                  omega
          · simp only [least,if_false]
            refine madeHolds (factoryMade t _ _ _ .yes) fun x inside => ?_
            have := every x inside
            have := values x inside
            omega

/- The range that is left after the lowest value has been taken out. -/
theorem absRangeHolds {minConstraint : Option IntegralConstraint} (table : Table) {low high : Int}
    (minMade : minConstraint ≠ none → MadeFor t t.getMinSigned t.getMinSigned minConstraint) (above : t.getMinSigned < low)
    (order : low ≤ high) (top : high ≤ t.getMaxSigned)
    (between : ∀ x, Allows t child x → (minConstraint ≠ none ∧ value x = t.getMinSigned) ∨ low ≤ value x ∧ value x ≤ high) :
    Holds t value child (absRange t minConstraint table low high).1 := by
  unfold absRange
  cases minConstraint with
  | none =>
      have inside : ∀ x, Allows t child x → low ≤ value x ∧ value x ≤ high := fun x allowed =>
        (between x allowed).elim (fun least => absurd rfl least.1) id
      split
      · exact madeHolds (factoryMade t _ _ _ .no) inside
      · rename_i single
        refine constantHolds table fun x allowed => ?_
        have := inside x allowed
        have : low = high := by
          by_contra differ
          exact single (.inl differ)
        omega
  | some a =>
      rw [if_pos (.inr (by simp))]
      exact mergedHolds (minMade (by simp)) (factoryMade t _ _ _ .no) above order top fun x allowed => (between x allowed).imp_left (·.2)

section Absolute
variable (values : ∀ x, InRange t.bits x → (x = t.getMinSigned ∧ value x = t.getMinSigned) ∨
  (t.getMinSigned < x ∧ x < 0 ∧ value x = -x) ∨ (0 ≤ x ∧ value x = x))

include values

theorem absAboveHolds (performTransformation : Bool) {minConstraint : Option IntegralConstraint} (table : Table) {low high : Int}
    (minMade : minConstraint ≠ none → MadeFor t t.getMinSigned t.getMinSigned minConstraint) (negative : minConstraint ≠ none → low < 0)
    (above : t.getMinSigned < low) (order : low ≤ high) (top : high ≤ t.getMaxSigned)
    (inside : ∀ x, Allows t child x → InRange t.bits x ∧ ((minConstraint ≠ none ∧ x = t.getMinSigned) ∨ low ≤ x ∧ x ≤ high)) :
    Holds t value child (absAbove t performTransformation minConstraint table low high).1 := by
  have half := halfPos t.bits
  have most : t.getMaxSigned = -t.getMinSigned - 1 := by simp only [DataType.getMaxSigned,DataType.getMinSigned,minSigned,maxSigned]; omega
  have bottom : t.getMinSigned < 0 := by simp only [DataType.getMinSigned,minSigned]; omega
  unfold absAbove
  split
  · rename_i nonpositive
    refine absRangeHolds table minMade (by omega) (by omega) (by omega) fun x allowed => ?_
    obtain ⟨range,where'⟩ := inside x allowed
    have := values x range
    rcases where' with least | between
    · exact .inl ⟨least.1,by omega⟩
    · exact .inr (by omega)
  · split
    · rename_i straddling
      refine absRangeHolds table minMade bottom (by omega) (by omega) fun x allowed => ?_
      obtain ⟨range,where'⟩ := inside x allowed
      have := values x range
      rcases where' with least | between
      · exact .inl ⟨least.1,by omega⟩
      · exact .inr (by omega)
    · rename_i notBelow notAcross
      have nonneg : 0 ≤ low := by omega
      have same : ∀ x, Allows t child x → low ≤ x ∧ x ≤ high ∧ value x = x := fun x allowed => by
        obtain ⟨range,where'⟩ := inside x allowed
        have := values x range
        rcases where' with least | between
        · have := negative least.1
          omega
        · omega
      split
      · refine ⟨fun x allowed => ?_,fun list same => (by cases same),fun _ x allowed => ?_⟩
        · have := (same x allowed).2.2
          rw [this]
          exact (inside x allowed).1
        · have := same x allowed
          exact ⟨by omega,this.2.2⟩
      · refine absRangeHolds table minMade above order top fun x allowed => ?_
        have := same x allowed
        exact .inr (by omega)

theorem absHolds (performTransformation : Bool) (table : Table) (valid : ∀ c, child = some c → c.Valid t) :
    Holds t value child (constrainAbs t performTransformation table child).1 := by
  have half := halfPos t.bits
  have most : t.getMaxSigned = -t.getMinSigned - 1 := by simp only [DataType.getMaxSigned,DataType.getMinSigned,minSigned,maxSigned]; omega
  have bottom : t.getMinSigned < 0 := by simp only [DataType.getMinSigned,minSigned]; omega
  unfold constrainAbs
  cases child with
  | none =>
      refine mergedHolds (minimumMade table) (factoryMade t _ _ _ .no) bottom (by omega) (Int.le_refl _) fun x inside => ?_
      have range : t.getMinSigned ≤ x ∧ x ≤ t.getMaxSigned := inside
      have := values x inside
      omega
  | some c =>
      obtain ⟨lowIn,highIn,every⟩ := validBounds (valid c rfl)
      have lowRange : t.getMinSigned ≤ c.headLow t ∧ c.headLow t ≤ t.getMaxSigned := containsInRange (valid c rfl) lowIn
      have highRange : t.getMinSigned ≤ c.lastHigh t ∧ c.lastHigh t ≤ t.getMaxSigned := containsInRange (valid c rfl) highIn
      have order := (every _ lowIn).2
      have bounds : ∀ x, Allows t (some c) x → InRange t.bits x ∧ c.headLow t ≤ x ∧ x ≤ c.lastHigh t := fun x inside =>
        ⟨containsInRange (valid c rfl) inside,every x inside⟩
      simp only
      split
      · rename_i single
        refine constantHolds table fun x inside => ?_
        obtain ⟨range,between⟩ := bounds x inside
        have one : x = c.headLow t := by omega
        have folded : ∀ x, InRange t.bits x → value x = if x < 0 then wrap t.bits (-x) else x := fun x range => by
          have := wrapNegated t.bitsPos range
          change (x = t.getMinSigned ∧ wrap t.bits (-x) = t.getMinSigned) ∨ (t.getMinSigned < x ∧ wrap t.bits (-x) = -x) at this
          have := values x range
          split <;> omega
        rw [← one]
        exact folded x range
      · rename_i proper
        split
        · rename_i least
          rw [least]
          have order' : t.getMinSigned + 1 ≤ c.lastHigh t := by omega
          refine absAboveHolds values performTransformation (createConst table t t.getMinSigned).2 (fun _ => minimumMade table)
            (fun _ => ?_) (by omega) order' highRange.2 fun x inside => ?_
          · have wide : t.getMinSigned < -1 := by cases t <;> decide
            omega
          obtain ⟨range,between⟩ := bounds x inside
          refine ⟨range,?_⟩
          by_cases here : x = t.getMinSigned
          · exact .inl ⟨by simp,here⟩
          · exact .inr (by omega)
        · rename_i above
          exact absAboveHolds values performTransformation table (fun some' => absurd rfl some') (fun some' => absurd rfl some') (by omega) order
            (by omega) fun x inside => ⟨(bounds x inside).1,.inr (bounds x inside).2⟩

end Absolute

/- Negations and absolute values are allowed by what is attached, whatever the table of shared
constraints holds; a list is in order, and a removed node has a nonnegative child. -/
theorem negationsHold (op : Negation) (performTransformation : Bool) (table : Table) {child : Option VPConstraint}
    (valid : ∀ c, child = some c → c.Valid op.type) : Holds op.type op.eval child (op.handler performTransformation table child) := by
  cases op with
  | ineg => exact negHolds table valid
  | lneg => exact negHolds table valid
  | iabs => exact absHolds (fun x inside => wrapAbs (by decide) inside) performTransformation table valid
  | labs => exact absHolds (fun x inside => wrapAbs (by decide) inside) performTransformation table valid

theorem negationsHoldSample :
    Holds .Int32 (fun x => wrap 32 |x|) (some (.integral (.range .Int32 (-2147483648) 5 .no false)))
      (Negation.iabs.handler true emptyTable (some (.integral (.range .Int32 (-2147483648) 5 .no false)))) :=
  @negationsHold .iabs true emptyTable _ (fun c same => by cases same; decide)

end Sound

end OmrCompiler.NegationRange
