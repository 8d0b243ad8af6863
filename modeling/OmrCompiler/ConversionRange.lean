import OmrCompiler.Constraint

/-! The ranges of the integer conversions: constrainWidenToLong, constrainWidenToInt and
constrainNarrowIntValue of VPHandlers.cpp, and the conversions that call them. The children
have been constrained and the node has no constant constraint of its own. A byte has no
constraint class of its own and is held in an int constraint. -/
namespace OmrCompiler.ConversionRange
open MachineInt Constraint

def getMaxUnsigned (w : Nat) : Int := modulus w - 1

-- The conversions that narrow, by source and result size.
inductive Narrow where
  | l2i
  | l2b
  | l2s
  | i2b
  | i2s
  | s2b
  deriving DecidableEq, Repr

-- What is looked at below a conversion; another opcode than a narrowing one is none.
structure FirstChild where
  opCode : Option Narrow
  constraint : Option VPConstraint
  firstChild : Option VPConstraint

structure Effect where
  attached : Option IntegralConstraint
  yankConversionPair : Bool

def attach (create : Int → Int → Option IntegralConstraint) (bounds : Int × Int) : Option IntegralConstraint :=
  if bounds.1 ≤ bounds.2 then create bounds.1 bounds.2 else none

def signExtended (low high childLow childHigh : Int) : Int × Int :=
  (if childLow > low then childLow else low,if childHigh < high then childHigh else high)

def zeroExtended (low high childLow childHigh : Int) : Int × Int :=
  (if childLow > 0 then childLow else low,if childLow ≥ 0 ∧ childHigh < high then childHigh else high)

-- An unsigned short from zero on keeps the high bound of its type.
def shortToLong (low high childLow childHigh : Int) : Int × Int :=
  (if childLow > 0 then childLow else low,if childLow > 0 ∧ childHigh < high then childHigh else high)

def widenToLongBounds (low high : Int) (isUnsigned : Bool) (constraint : VPConstraint) : Int × Int :=
  if constraint.asIntConstraint ≠ none then
    if isUnsigned then zeroExtended low high constraint.getLowInt constraint.getHighInt
    else signExtended low high constraint.getLowInt constraint.getHighInt
  else if constraint.asShortConstraint ≠ none then
    if isUnsigned then shortToLong low high constraint.getLowShort constraint.getHighShort
    else signExtended low high constraint.getLowShort constraint.getHighShort
  else (low,high)

def constrainWidenToLong (low high : Int) (isUnsigned : Bool) (child : FirstChild) : Effect :=
  let bounds := match child.constraint with
    | some constraint => widenToLongBounds low high isUnsigned constraint
    | none => (low,high)
  ⟨attach (rangeOf .Int64) bounds,false⟩

def widenToIntBounds (low high : Int) (isUnsigned : Bool) (constraint : VPConstraint) : Int × Int :=
  if isUnsigned then
    if constraint.asShortConstraint ≠ none then zeroExtended low high constraint.getLowShort constraint.getHighShort
    else zeroExtended low high constraint.getLowInt constraint.getHighInt
  else
    if constraint.asShortConstraint ≠ none then signExtended low high constraint.getLowShort constraint.getHighShort
    else signExtended low high constraint.getLowInt constraint.getHighInt

def yanks (low high : Int) (isUnsigned : Bool) (preNarrowingConstraint : VPConstraint) : Bool :=
  if isUnsigned then preNarrowingConstraint.getLowInt ≥ 0 && preNarrowingConstraint.getHighInt ≤ high
  else preNarrowingConstraint.getLowInt ≥ low && preNarrowingConstraint.getHighInt ≤ high

def constrainWidenToInt (low high : Int) (isUnsigned : Bool) (correspondingNarrowingOpCode : Narrow) (child : FirstChild) : Effect :=
  let bounds := match child.constraint with
    | some constraint => widenToIntBounds low high isUnsigned constraint
    | none => (low,high)
  ⟨attach (rangeOf .Int32) bounds,
    child.opCode = some correspondingNarrowingOpCode && child.firstChild.any (yanks low high isUnsigned)⟩

def narrowInt (low high childLow childHigh : Int) : Int × Int :=
  if childLow > low ∧ childHigh < high then
    (if childLow > low then childLow else low,if childHigh < high then childHigh else high)
  else (low,high)

def narrowLong (low high childLow childHigh : Int) : Int × Int :=
  if childLow > low ∧ childHigh < high then
    (if childLow ≤ maxSigned 32 ∧ childLow > low then childLow else low,if childHigh ≥ minSigned 32 ∧ childHigh < high then childHigh else high)
  else (low,high)

def asMerged (t : DataType) : VPConstraint → Bool
  | .integral _ => false
  | .merged list => VPConstraint.listType list = t

def narrowBounds (low high : Int) (constraint : VPConstraint) : Int × Int :=
  if constraint.asIntConstraint ≠ none ∨ asMerged .Int32 constraint then narrowInt low high constraint.getLowInt constraint.getHighInt
  else if constraint.asLongConstraint ≠ none ∨ asMerged .Int64 constraint then
    narrowLong low high constraint.getLowLong constraint.getHighLong
  else (low,high)

-- type is the class of the range that is made: a short one for a short node, else an int one.
def constrainNarrowIntValue (type : DataType) (low high : Int) (child : FirstChild) : Effect :=
  let bounds := match child.constraint with
    | some constraint => narrowBounds low high constraint
    | none => (low,high)
  ⟨attach (rangeOf type) bounds,false⟩

def constrainI2l := constrainWidenToLong (minSigned 32) (maxSigned 32) false

def constrainIu2l := constrainWidenToLong 0 (getMaxUnsigned 32) true

def constrainB2l := constrainWidenToLong (minSigned 8) (maxSigned 8) false

def constrainBu2l := constrainWidenToLong 0 (getMaxUnsigned 8) true

def constrainS2l := constrainWidenToLong (minSigned 16) (maxSigned 16) false

def constrainSu2l := constrainWidenToLong 0 (getMaxUnsigned 16) true

def constrainB2i := constrainWidenToInt (minSigned 8) (maxSigned 8) false .i2b

def constrainBu2i := constrainWidenToInt 0 (getMaxUnsigned 8) true .i2b

def constrainB2s := constrainWidenToInt (minSigned 8) (maxSigned 8) false .s2b

def constrainBu2s := constrainWidenToInt 0 (getMaxUnsigned 8) true .s2b

def constrainS2i := constrainWidenToInt (minSigned 16) (maxSigned 16) false .i2s

def constrainSu2i := constrainWidenToInt 0 (getMaxUnsigned 16) true .i2s

def constrainNarrowToByte := constrainNarrowIntValue .Int32 (minSigned 8) (maxSigned 8)

def constrainNarrowToShort := constrainNarrowIntValue .Int16 (minSigned 16) (maxSigned 16)

def constrainNarrowToInt := constrainNarrowIntValue .Int32 (minSigned 32) (maxSigned 32)

inductive Conversion where
  | i2l
  | iu2l
  | b2l
  | bu2l
  | s2l
  | su2l
  | b2i
  | bu2i
  | b2s
  | bu2s
  | s2i
  | su2i
  | narrow (op : Narrow)
  deriving DecidableEq, Repr

namespace Narrow

def source : Narrow → Nat
  | l2i => 64
  | l2b => 64
  | l2s => 64
  | i2b => 32
  | i2s => 32
  | s2b => 16

def result : Narrow → Nat
  | l2i => 32
  | l2b => 8
  | l2s => 16
  | i2b => 8
  | i2s => 16
  | s2b => 8

def eval (op : Narrow) (x : Int) : Int := wrap op.result x

def handler : Narrow → FirstChild → Effect
  | l2i => constrainNarrowToInt
  | l2b => constrainNarrowToByte
  | l2s => constrainNarrowToShort
  | i2b => constrainNarrowToByte
  | i2s => constrainNarrowToShort
  | s2b => constrainNarrowToByte

end Narrow

namespace Conversion

def source : Conversion → Nat
  | i2l => 32
  | iu2l => 32
  | b2l => 8
  | bu2l => 8
  | s2l => 16
  | su2l => 16
  | b2i => 8
  | bu2i => 8
  | b2s => 8
  | bu2s => 8
  | s2i => 16
  | su2i => 16
  | narrow op => op.source

def result : Conversion → Nat
  | i2l => 64
  | iu2l => 64
  | b2l => 64
  | bu2l => 64
  | s2l => 64
  | su2l => 64
  | b2i => 32
  | bu2i => 32
  | b2s => 16
  | bu2s => 16
  | s2i => 32
  | su2i => 32
  | narrow op => op.result

def isUnsigned : Conversion → Bool
  | iu2l => true
  | bu2l => true
  | su2l => true
  | bu2i => true
  | bu2s => true
  | su2i => true
  | _ => false

-- The machine result: zero extension, or sign extension and truncation.
def eval (op : Conversion) (x : Int) : Int := wrap op.result (if op.isUnsigned then toUnsigned op.source x else x)

def handler : Conversion → FirstChild → Effect
  | i2l => constrainI2l
  | iu2l => constrainIu2l
  | b2l => constrainB2l
  | bu2l => constrainBu2l
  | s2l => constrainS2l
  | su2l => constrainSu2l
  | b2i => constrainB2i
  | bu2i => constrainBu2i
  | b2s => constrainB2s
  | bu2s => constrainBu2s
  | s2i => constrainS2i
  | su2i => constrainSu2i
  | narrow op => op.handler

end Conversion

-- The values a node with this constraint may have. A constraint holds the signed reading of a
-- value, or where both readings are at hand either of them.
def Reads (bits : Nat) (either : Bool) (constraint : Option VPConstraint) (x : Int) : Prop :=
  InRange bits x ∧ ∀ c, constraint = some c → c.Contains x ∨ (either = true ∧ c.Contains (toUnsigned bits x))

def Allowed (bits : Nat) : Option IntegralConstraint → Int → Prop
  | none,v => InRange bits v
  | some c,v => c.Contains v

-- A sign extension takes its child as signed.
def Conversion.readsEither : Conversion → Bool
  | .narrow _ => true
  | op => op.isUnsigned

structure Sound (op : Conversion) (child : FirstChild) : Prop where
  values : ∀ x, Reads op.source op.readsEither child.constraint x → Allowed op.result (op.handler child).attached (op.eval x)
  removal : (op.handler child).yankConversionPair = true → ∃ narrowing, child.opCode = some narrowing ∧
    narrowing.source = op.result ∧ narrowing.result = op.source ∧
    ∀ v, Reads narrowing.source true child.firstChild v → op.eval (narrowing.eval v) = v

section Widths
variable {n m : Nat} {x : Int}

-- A reading that is not negative is the unsigned one.
theorem readingUnsigned {r : Int} (pos : 0 < n) (inside : InRange n x) (reads : r = x ∨ r = toUnsigned n x) (nonneg : 0 ≤ r) :
    toUnsigned n x = r := by
  rcases reads with rfl | rfl
  · exact unsignedNonneg pos inside nonneg
  · rfl

end Widths

section Bounds
variable {t : DataType} {c : VPConstraint} {r : Int}

theorem otherType (valid : c.Valid t) {t' : DataType} (other : t ≠ t') : c.headLow t' = t'.getMinSigned ∧ c.lastHigh t' = t'.getMaxSigned := by
  have entry : ∀ e : IntegralConstraint, e.type = t → VPConstraint.integralLow t' e = t'.getMinSigned ∧
      VPConstraint.integralHigh t' e = t'.getMaxSigned := fun e type => by
    simp [VPConstraint.integralLow,VPConstraint.integralHigh,type,other]
  cases c with
  | integral e => exact entry e valid.1
  | merged list =>
      obtain ⟨size,entries,_⟩ := valid
      obtain ⟨first,rest,rfl⟩ : ∃ first rest, list = first :: rest := List.exists_cons_of_length_pos (by omega)
      have head := entry first (entries first List.mem_cons_self).1
      have last := entry _ (entries _ (List.getLast_mem (List.cons_ne_nil first rest))).1
      simp only [VPConstraint.headLow,VPConstraint.lastHigh,List.head?_cons,List.getLast?_eq_getLast_of_ne_nil (List.cons_ne_nil first rest),
        Option.map_some,Option.getD_some,head.1,last.2,and_self]

-- A constraint bounds its values for its own type, and every value of another type.
theorem boundedBy (valid : c.Valid t) (t' : DataType) (contains : c.Contains r) (fits : t = t' ∨ InRange t'.bits r) :
    c.headLow t' ≤ r ∧ r ≤ c.lastHigh t' := by
  by_cases same : t = t'
  · rw [← same]
    exact (validBounds valid).2.2 r contains
  · rw [(otherType valid same).1,(otherType valid same).2]
    exact fits.resolve_left same

theorem kindType {t' : DataType} (valid : c.Valid t) (kind : c.asIntegral t' ≠ none) : t = t' := by
  cases c with
  | integral e =>
      simp only [VPConstraint.asIntegral] at kind
      split at kind
      · rename_i same
        exact valid.1.symm.trans same
      · exact absurd rfl kind
  | merged list => exact absurd rfl kind

theorem shortBounds (valid : c.Valid t) (kind : c.asShortConstraint ≠ none) (contains : c.Contains r) :
    c.getLowShort ≤ r ∧ r ≤ c.getHighShort := by
  have bounds := boundedBy valid .Int16 contains (.inl (kindType valid kind))
  cases c with
  | integral e => exact bounds
  | merged list => exact absurd rfl kind

theorem mergedType {t' : DataType} (valid : c.Valid t) (kind : asMerged t' c = true) : t = t' := by
  cases c with
  | integral e => cases kind
  | merged list =>
      simp only [asMerged,listTypeValid valid,decide_eq_true_eq] at kind
      exact kind

theorem attachAllows {bits : Nat} {bounds : Int × Int} {v : Int} (inside : InRange bits v) (between : bounds.1 ≤ v ∧ v ≤ bounds.2) :
    Allowed bits (attach (rangeOf t) bounds) v := by
  unfold attach
  split
  · cases made : rangeOf t bounds.1 bounds.2 with
    | none => exact inside
    | some c =>
        obtain ⟨_,low,high⟩ := rangeOfBounds made
        exact ⟨by rw [low]; exact between.1,by rw [high]; exact between.2⟩
  · exact inside

variable {low high childLow childHigh v : Int}

theorem signBetween (inside : low ≤ v ∧ v ≤ high) (child : childLow ≤ v ∧ v ≤ childHigh) :
    (signExtended low high childLow childHigh).1 ≤ v ∧ v ≤ (signExtended low high childLow childHigh).2 := by
  unfold signExtended
  dsimp only
  split <;> split <;> omega

theorem zeroBetween (inside : 0 ≤ v ∧ v ≤ high) (child : childLow ≤ r ∧ r ≤ childHigh) (same : 0 ≤ r → v = r) :
    (zeroExtended 0 high childLow childHigh).1 ≤ v ∧ v ≤ (zeroExtended 0 high childLow childHigh).2 := by
  unfold zeroExtended
  dsimp only
  split <;> split <;> omega

theorem shortBetween (inside : 0 ≤ v ∧ v ≤ high) (child : childLow ≤ r ∧ r ≤ childHigh) (same : 0 ≤ r → v = r) :
    (shortToLong 0 high childLow childHigh).1 ≤ v ∧ v ≤ (shortToLong 0 high childLow childHigh).2 := by
  unfold shortToLong
  dsimp only
  split <;> split <;> omega

theorem narrowBetween (inside : low ≤ v ∧ v ≤ high) (child : childLow ≤ r ∧ r ≤ childHigh) (same : low ≤ r → r ≤ high → v = r) :
    (narrowInt low high childLow childHigh).1 ≤ v ∧ v ≤ (narrowInt low high childLow childHigh).2 ∧
      (narrowLong low high childLow childHigh).1 ≤ v ∧ v ≤ (narrowLong low high childLow childHigh).2 := by
  unfold narrowInt narrowLong
  split
  · dsimp only
    refine ⟨?_,?_,?_,?_⟩ <;> split <;> omega
  · exact ⟨inside.1,inside.2,inside.1,inside.2⟩

end Bounds

section Handlers
variable {n m : Nat} {child : FirstChild} {x : Int} (pos : 0 < n) (valid : ∀ c, child.constraint = some c → ∃ t, c.Valid t)

include pos valid

theorem signedToLong (fits : n ≤ 64) (reads : Reads n false child.constraint x) :
    Allowed 64 (constrainWidenToLong (minSigned n) (maxSigned n) false child).attached (wrap 64 x) := by
  have wide := rangeWider pos fits reads.1
  rw [wrapSelf (by decide) wide]
  refine attachAllows wide ?_
  cases found : child.constraint with
  | none => exact reads.1
  | some c =>
      obtain ⟨t,ok⟩ := valid c found
      have contains : c.Contains x := (reads.2 c found).resolve_right fun h => nomatch h.1
      simp only [widenToLongBounds]
      split
      · rename_i kind
        exact signBetween reads.1 (boundedBy ok .Int32 contains (.inl (kindType ok kind)))
      · split
        · rename_i kind
          exact signBetween reads.1 (shortBounds ok kind contains)
        · exact reads.1

theorem signedToInt (fits : n ≤ 32) (between : n ≤ m) (reads : Reads n false child.constraint x) (op : Narrow) :
    Allowed m (constrainWidenToInt (minSigned n) (maxSigned n) false op child).attached (wrap m x) := by
  have wide := rangeWider pos between reads.1
  rw [wrapSelf (by omega) wide]
  refine attachAllows wide ?_
  cases found : child.constraint with
  | none => exact reads.1
  | some c =>
      obtain ⟨t,ok⟩ := valid c found
      have contains : c.Contains x := (reads.2 c found).resolve_right fun h => nomatch h.1
      simp only [widenToIntBounds,Bool.false_eq_true,if_false]
      split
      · rename_i kind
        exact signBetween reads.1 (shortBounds ok kind contains)
      · exact signBetween reads.1 (boundedBy ok .Int32 contains (.inr (rangeWider pos fits reads.1)))

omit valid in
-- One of the readings of the value is in the constraint.
theorem someReading {constraint : Option VPConstraint} {c : VPConstraint} (reads : Reads n true constraint x) (found : constraint = some c) :
    ∃ r, c.Contains r ∧ (r = x ∨ r = toUnsigned n x) ∧ (0 ≤ r → toUnsigned n x = r) := by
  rcases reads.2 c found with signed | unsigned
  · exact ⟨x,signed,.inl rfl,readingUnsigned pos reads.1 (.inl rfl)⟩
  · exact ⟨_,unsigned.2,.inr rfl,readingUnsigned pos reads.1 (.inr rfl)⟩

theorem unsignedToLong (fits : n < 64) (reads : Reads n true child.constraint x) :
    Allowed 64 (constrainWidenToLong 0 (getMaxUnsigned n) true child).attached (wrap 64 (toUnsigned n x)) := by
  have wide := unsignedWider pos fits x
  have range : 0 ≤ toUnsigned n x ∧ toUnsigned n x ≤ getMaxUnsigned n := by
    have := toUnsignedRange pos x
    simp only [getMaxUnsigned]
    omega
  rw [wrapSelf (by decide) wide]
  refine attachAllows wide ?_
  cases found : child.constraint with
  | none => exact range
  | some c =>
      obtain ⟨t,ok⟩ := valid c found
      obtain ⟨r,contains,_,same⟩ := someReading pos reads found
      simp only [widenToLongBounds,if_true]
      split
      · rename_i kind
        exact zeroBetween range (boundedBy ok .Int32 contains (.inl (kindType ok kind))) same
      · split
        · rename_i kind
          exact shortBetween range (shortBounds ok kind contains) same
        · exact range

theorem unsignedToInt (fits : n < 32) (between : n < m) (reads : Reads n true child.constraint x) (op : Narrow) :
    Allowed m (constrainWidenToInt 0 (getMaxUnsigned n) true op child).attached (wrap m (toUnsigned n x)) := by
  have wide := unsignedWider pos between x
  have range : 0 ≤ toUnsigned n x ∧ toUnsigned n x ≤ getMaxUnsigned n := by
    have := toUnsignedRange pos x
    simp only [getMaxUnsigned]
    omega
  rw [wrapSelf (by omega) wide]
  refine attachAllows wide ?_
  cases found : child.constraint with
  | none => exact range
  | some c =>
      obtain ⟨t,ok⟩ := valid c found
      obtain ⟨r,contains,which,same⟩ := someReading pos reads found
      simp only [widenToIntBounds,if_true]
      split
      · rename_i kind
        exact zeroBetween range (shortBounds ok kind contains) same
      · refine zeroBetween range (boundedBy ok .Int32 contains (.inr ?_)) same
        rcases which with rfl | rfl
        · exact rangeWider pos (Nat.le_of_lt fits) reads.1
        · exact unsignedWider pos fits x

theorem narrowed (type : DataType) (narrower : m ≤ n) (posM : 0 < m) (reads : Reads n true child.constraint x) :
    Allowed m (constrainNarrowIntValue type (minSigned m) (maxSigned m) child).attached (wrap m x) := by
  have wide := wrapRange posM x
  refine attachAllows wide ?_
  cases found : child.constraint with
  | none => exact wide
  | some c =>
      obtain ⟨t,ok⟩ := valid c found
      obtain ⟨r,contains,which,_⟩ := someReading pos reads found
      have same : minSigned m ≤ r → r ≤ maxSigned m → wrap m x = r := fun low high => by
        rcases which with rfl | rfl
        · exact wrapSelf posM ⟨low,high⟩
        · rw [← wrapUnsigned narrower]
          exact wrapSelf posM ⟨low,high⟩
      simp only [narrowBounds]
      split
      · rename_i kind
        have type : t = .Int32 := kind.elim (kindType ok) (mergedType ok)
        have between := narrowBetween wide (boundedBy ok .Int32 contains (.inl type)) same
        exact ⟨between.1,between.2.1⟩
      · split
        · rename_i kind
          have type : t = .Int64 := kind.elim (kindType ok) (mergedType ok)
          exact (narrowBetween wide (boundedBy ok .Int64 contains (.inl type)) same).2.2
        · exact wide

end Handlers

section Pairs
variable {n m : Nat} {inner : Option VPConstraint} {x low high : Int}

-- Only an int constraint has bounds above the lowest int.
theorem yankedReading (pos : 0 < m) (valid : ∀ c, inner = some c → ∃ t, c.Valid t) {isUnsigned : Bool} (proper : minSigned 32 < low) (nonneg : isUnsigned = true → low = 0)
    (yanked : inner.any (yanks low high isUnsigned) = true) (reads : Reads m true inner x) :
    ∃ r, (r = x ∨ r = toUnsigned m x) ∧ low ≤ r ∧ r ≤ high := by
  cases inner with
  | none => cases yanked
  | some c =>
      obtain ⟨t,ok⟩ := valid c rfl
      obtain ⟨r,contains,which,_⟩ := someReading pos reads rfl
      have bounds : low ≤ c.getLowInt ∧ c.getHighInt ≤ high := by
        cases isUnsigned with
        | true => simpa [yanks,nonneg rfl] using yanked
        | false => simpa [yanks] using yanked
      have type : t = .Int32 := by
        by_contra other
        have least : c.getLowInt = minSigned 32 := (otherType ok other).1
        omega
      have between := boundedBy ok .Int32 contains (.inl type)
      exact ⟨r,which,Int.le_trans bounds.1 between.1,Int.le_trans between.2 bounds.2⟩

theorem signedPair (pos : 0 < n) (narrower : n ≤ m) (inside : InRange m x) {r : Int} (which : r = x ∨ r = toUnsigned m x)
    (between : minSigned n ≤ r ∧ r ≤ maxSigned n) : wrap m (wrap n x) = x := by
  have residue : ∀ k, k ≤ m → wrap k r = wrap k x := fun k fits => by
    rcases which with rfl | rfl
    · rfl
    · exact wrapUnsigned fits x
  rw [← residue n narrower,wrapSelf pos between,residue m (Nat.le_refl _)]
  exact wrapSelf (by omega) inside

theorem unsignedPair (pos : 0 < n) (narrower : n ≤ m) (inside : InRange m x) {r : Int} (which : r = x ∨ r = toUnsigned m x)
    (between : 0 ≤ r ∧ r ≤ getMaxUnsigned n) : wrap m (toUnsigned n (wrap n x)) = x := by
  have divides : modulus n ∣ modulus m := ⟨2 ^ (m - n),by rw [modulus,modulus,← Int.pow_add]; congr 1; omega⟩
  have residue : toUnsigned n (wrap n x) = toUnsigned n r := by
    have cast : ((2 ^ n : Nat) : Int) = modulus n := by simp [modulus]
    have reduced : toUnsigned n (wrap n x) = toUnsigned n x := by
      rw [toUnsigned,wrap,← cast]
      exact Int.bmod_emod
    rw [reduced]
    rcases which with rfl | rfl
    · rfl
    · exact (Int.emod_emod_of_dvd x divides).symm
  have whole : wrap m r = wrap m x := by
    rcases which with rfl | rfl
    · rfl
    · exact wrapUnsigned (Nat.le_refl _) x
  have below : r < modulus n := by
    have := between.2
    simp only [getMaxUnsigned] at this
    omega
  rw [residue,unsignedBelow between.1 below,whole]
  exact wrapSelf (by omega) inside

end Pairs

section Conversions
variable {child : FirstChild}

theorem intPair {n m : Nat} {isUnsigned : Bool} {op : Narrow} (validFirst : ∀ c, child.firstChild = some c → ∃ t, c.Valid t) (pos : 0 < n)
    (narrower : n ≤ m) (small : n < 32) (source : op.source = m) (result : op.result = n) {low high : Int}
    (limits : (isUnsigned = true ∧ low = 0 ∧ high = getMaxUnsigned n) ∨ (isUnsigned = false ∧ low = minSigned n ∧ high = maxSigned n))
    (yanked : (constrainWidenToInt low high isUnsigned op child).yankConversionPair = true) :
    ∃ narrowing, child.opCode = some narrowing ∧ narrowing.source = m ∧ narrowing.result = n ∧
      ∀ v, Reads narrowing.source true child.firstChild v →
        wrap m (if isUnsigned then toUnsigned n (narrowing.eval v) else narrowing.eval v) = v := by
  simp only [constrainWidenToInt,Bool.and_eq_true,decide_eq_true_eq] at yanked
  refine ⟨op,yanked.1,source,result,fun v reads => ?_⟩
  rw [source] at reads
  rcases limits with ⟨rfl,rfl,rfl⟩ | ⟨rfl,rfl,rfl⟩
  · obtain ⟨r,which,between⟩ := yankedReading (by omega) validFirst (by decide) (fun _ => rfl) yanked.2 reads
    simp only [if_true,Narrow.eval,result]
    exact unsignedPair pos narrower reads.1 which between
  · have double := modulusHalf pos
    have top : modulus n ≤ half 32 := powMono (by omega)
    have bottom := halfPos n
    have proper : minSigned 32 < minSigned n := by simp only [minSigned]; omega
    obtain ⟨r,which,between⟩ := yankedReading (by omega) validFirst proper (fun h => absurd h (by decide)) yanked.2 reads
    simp only [Bool.false_eq_true,if_false,Narrow.eval,result]
    exact signedPair pos narrower reads.1 which between

/- Conversions stay in the range they are given, and a pair that is taken out changes nothing. -/
theorem conversionsHold (op : Conversion) (child : FirstChild) (valid : ∀ c, child.constraint = some c → ∃ t, c.Valid t)
    (validFirst : ∀ c, child.firstChild = some c → ∃ t, c.Valid t) : Sound op child := by
  cases op with
  | i2l => exact ⟨fun x => signedToLong (by decide) valid (by decide),nofun⟩
  | iu2l => exact ⟨fun x => unsignedToLong (by decide) valid (by decide),nofun⟩
  | b2l => exact ⟨fun x => signedToLong (by decide) valid (by decide),nofun⟩
  | bu2l => exact ⟨fun x => unsignedToLong (by decide) valid (by decide),nofun⟩
  | s2l => exact ⟨fun x => signedToLong (by decide) valid (by decide),nofun⟩
  | su2l => exact ⟨fun x => unsignedToLong (by decide) valid (by decide),nofun⟩
  | b2i =>
      exact ⟨fun x reads => signedToInt (by decide) valid (by decide) (by decide) reads _,
        intPair validFirst (by decide) (by decide) (by decide) rfl rfl (.inr ⟨rfl,rfl,rfl⟩)⟩
  | bu2i =>
      exact ⟨fun x reads => unsignedToInt (by decide) valid (by decide) (by decide) reads _,
        intPair validFirst (by decide) (by decide) (by decide) rfl rfl (.inl ⟨rfl,rfl,rfl⟩)⟩
  | b2s =>
      exact ⟨fun x reads => signedToInt (by decide) valid (by decide) (by decide) reads _,
        intPair validFirst (by decide) (by decide) (by decide) rfl rfl (.inr ⟨rfl,rfl,rfl⟩)⟩
  | bu2s =>
      exact ⟨fun x reads => unsignedToInt (by decide) valid (by decide) (by decide) reads _,
        intPair validFirst (by decide) (by decide) (by decide) rfl rfl (.inl ⟨rfl,rfl,rfl⟩)⟩
  | s2i =>
      exact ⟨fun x reads => signedToInt (by decide) valid (by decide) (by decide) reads _,
        intPair validFirst (by decide) (by decide) (by decide) rfl rfl (.inr ⟨rfl,rfl,rfl⟩)⟩
  | su2i =>
      exact ⟨fun x reads => unsignedToInt (by decide) valid (by decide) (by decide) reads _,
        intPair validFirst (by decide) (by decide) (by decide) rfl rfl (.inl ⟨rfl,rfl,rfl⟩)⟩
  | narrow op =>
      cases op with
      | l2i => exact ⟨fun x => narrowed (by decide) valid .Int32 (by decide) (by decide),nofun⟩
      | l2b => exact ⟨fun x => narrowed (by decide) valid .Int32 (by decide) (by decide),nofun⟩
      | l2s => exact ⟨fun x => narrowed (by decide) valid .Int16 (by decide) (by decide),nofun⟩
      | i2b => exact ⟨fun x => narrowed (by decide) valid .Int32 (by decide) (by decide),nofun⟩
      | i2s => exact ⟨fun x => narrowed (by decide) valid .Int16 (by decide) (by decide),nofun⟩
      | s2b => exact ⟨fun x => narrowed (by decide) valid .Int32 (by decide) (by decide),nofun⟩

-- A byte that is narrowed from an int in [0,200] and widened again as unsigned.
theorem conversionsHoldSample :
    Sound .bu2i ⟨some .i2b,none,some (.integral (.range .Int32 0 200 .no false))⟩ ∧
      (Conversion.bu2i.handler ⟨some .i2b,none,some (.integral (.range .Int32 0 200 .no false))⟩).yankConversionPair = true :=
  ⟨conversionsHold .bu2i _ nofun fun c same => by cases same; exact ⟨.Int32,by decide⟩,by decide⟩

end Conversions

end OmrCompiler.ConversionRange
