import OmrCompiler.ConstraintTable

/-! Interval addition, subtraction and negation: add, subtract and getRange of
the three integral classes in VPConstraint.cpp, addWithOverflow and
subWithOverflow of VPConstraint.hpp, and the ranges that constrainIneg and
constrainLneg of VPHandlers.cpp build. -/
namespace OmrCompiler.ConstraintArithmetic
open MachineInt Constraint ConstraintTable

def addWithOverflow (w : Nat) (a b : Int) : Int × Bool :=
  let sum := wrap w (a + b)
  (sum,!xorNegative w a b && xorNegative w a sum)

def subWithOverflow (w : Nat) (a b : Int) : Int × Bool :=
  let diff := wrap w (a - b)
  (diff,xorNegative w a b && xorNegative w a diff)

abbrev RangeFactory := Table → Int → Int → YesNoMaybe → Option IntegralConstraint × Table

-- VPMergedConstraints::create reads both of its entries.
def mergeTwo (first second : Option IntegralConstraint) : Option VPConstraint := do
  let first ← first
  let second ← second
  some (VPMergedConstraints.create2 first second)

def getRangeWith (t : DataType) (create : RangeFactory) (table : Table) (low high : Int)
    (lowCanOverflow highCanOverflow : Bool) : Option VPConstraint × Table :=
  if lowCanOverflow && highCanOverflow then
    if xorNegative t.bits high low then (none,table)
    else ((create table low high .yes).1.map .integral,(create table low high .yes).2)
  else if lowCanOverflow || highCanOverflow then
    if high ≥ low then (none,table)
    else
      let range1 := create table t.getMinSigned high .yes
      let range2 := create range1.2 low t.getMaxSigned .yes
      (mergeTwo range1.1 range2.1,range2.2)
  else ((create table low high .no).1.map .integral,(create table low high .no).2)

def VPShortConstraint.getRange := getRangeWith .Int16 VPShortRange.create

def VPIntConstraint.getRange := getRangeWith .Int32 VPIntRange.create

/- The long code passes its overflow mark in the place of the power-of-two mark,
and leaves the overflow mark to its default. -/
def longFactory : RangeFactory := fun table low high canOverflow =>
  VPLongRange.create table low high canOverflow.toBool .no

def VPLongConstraint.getRange := getRangeWith .Int64 longFactory

def getRange : DataType → Table → Int → Int → Bool → Bool → Option VPConstraint × Table
  | .Int16 => VPShortConstraint.getRange
  | .Int32 => VPIntConstraint.getRange
  | .Int64 => VPLongConstraint.getRange

def integralAdd (t : DataType) (table : Table) (this other : IntegralConstraint) : Option VPConstraint × Table :=
  let low := addWithOverflow t.bits this.getLow other.getLow
  let high := addWithOverflow t.bits this.getHigh other.getHigh
  getRange t table low.1 high.1 low.2 high.2

def integralSubtract (t : DataType) (table : Table) (this other : IntegralConstraint) : Option VPConstraint × Table :=
  let low := subWithOverflow t.bits this.getLow other.getHigh
  let high := subWithOverflow t.bits this.getHigh other.getLow
  getRange t table low.1 high.1 low.2 high.2

/- The dispatch of add and subtract: a list, an operand of another class or an
operation of another type gives no constraint. -/
def arithmetic (op : DataType → Table → IntegralConstraint → IntegralConstraint → Option VPConstraint × Table)
    (table : Table) (this other : VPConstraint) (dt : DataType) : Option VPConstraint × Table :=
  match this with
  | .merged _ => (none,table)
  | .integral c =>
      match other.asIntegral c.type with
      | none => (none,table)
      | some other => if dt = c.type then op c.type table c other else (none,table)

def add := arithmetic integralAdd

def subtract := arithmetic integralSubtract

/- constrainIneg and constrainLneg on a child that is not a constant. -/
def negate (t : DataType) (create : RangeFactory) (getLow getHigh : VPConstraint → Int) (table : Table)
    (child : VPConstraint) : Option VPConstraint × Table :=
  let high := getHigh child
  let low := getLow child
  let min := t.getMinSigned
  let lowConstraint := if low = min then create table min min .yes else (none,table)
  let low := if low = min then low + 1 else low
  if high = min then
    let highConstraint := create lowConstraint.2 min min .yes
    (highConstraint.1.map .integral,highConstraint.2)
  else
    let constraint := create lowConstraint.2 (-high) (-low) .yes
    match lowConstraint.1 with
    | none => (constraint.1.map .integral,constraint.2)
    | some first => (mergeTwo first constraint.1,constraint.2)

def constrainIneg := negate .Int32 VPIntRange.create VPConstraint.getLowInt VPConstraint.getHighInt

def constrainLneg := negate .Int64 longFactory VPConstraint.getLowLong VPConstraint.getHighLong

/- The overflow tests. -/
theorem addWithOverflowExact {w : Nat} (hw : 0 < w) {a b : Int} (left : InRange w a) (right : InRange w b) :
    addWithOverflow w a b = (wrap w (a + b),decide (addOverflows w a b)) := by
  have mod := modulusHalf hw
  have pos := halfPos w
  have turn := wrapTurn (x := a + b) hw
  simp only [addWithOverflow,xorNegativeSigns hw left right,xorNegativeSigns hw left (wrapRange hw _),
    Prod.mk.injEq,true_and]
  simp only [addOverflows,InRange,minSigned,maxSigned] at left right turn ⊢
  by_cases aNeg : a < 0 <;> by_cases bNeg : b < 0 <;> by_cases sNeg : wrap w (a + b) < 0 <;> simp [aNeg,bNeg,sNeg] <;> omega

theorem subWithOverflowExact {w : Nat} (hw : 0 < w) {a b : Int} (left : InRange w a) (right : InRange w b) :
    subWithOverflow w a b = (wrap w (a - b),decide (subOverflows w a b)) := by
  have mod := modulusHalf hw
  have pos := halfPos w
  have turn := wrapTurn (x := a - b) hw
  simp only [subWithOverflow,xorNegativeSigns hw left right,xorNegativeSigns hw left (wrapRange hw _),
    Prod.mk.injEq,true_and]
  simp only [subOverflows,InRange,minSigned,maxSigned] at left right turn ⊢
  by_cases aNeg : a < 0 <;> by_cases bNeg : b < 0 <;> by_cases sNeg : wrap w (a - b) < 0 <;> simp [aNeg,bNeg,sNeg] <;> omega

-- One end of a span is off the type, and wraps to the other end without meeting the rest.
def Overhang (t : DataType) (low high : Int) : Prop :=
  ¬ (InRange t.bits low ∧ InRange t.bits high) ∧ (InRange t.bits low ∨ InRange t.bits high) ∧
    wrap t.bits high < wrap t.bits low

instance (t : DataType) (low high : Int) : Decidable (Overhang t low high) := inferInstanceAs (Decidable (_ ∧ _))

/- What getRange does with the exact bounds of a result, at most one turn away
from the type: the whole span lies one turn off, the span covers the type or
cannot be told from it, it wraps into two ends of the type, or it fits. -/
inductive RangeOutcome (t : DataType) (create : RangeFactory) (table : Table) (low high : Int) :
    Option VPConstraint × Table → Prop where
  | shifted (turn : Int) (outside : ∀ v, low ≤ v → v ≤ high → ¬ InRange t.bits v)
      (moved : ∀ v, low ≤ v → v ≤ high → wrap t.bits v = v + turn) :
      RangeOutcome t create table low high
        ((create table (low + turn) (high + turn) .yes).1.map .integral,(create table (low + turn) (high + turn) .yes).2)
  | everything (inside : ∃ v, low ≤ v ∧ v ≤ high ∧ InRange t.bits v)
      (overflow : ¬ (InRange t.bits low ∧ InRange t.bits high)) (joined : ¬ Overhang t low high) :
      RangeOutcome t create table low high (none,table)
  | split (apart : Overhang t low high)
      (inside : ∃ v, low ≤ v ∧ v ≤ high ∧ InRange t.bits v)
      (ends : ∀ v, low ≤ v → v ≤ high → wrap t.bits v ≤ wrap t.bits high ∨ wrap t.bits low ≤ wrap t.bits v) :
      RangeOutcome t create table low high
        (mergeTwo (create table t.getMinSigned (wrap t.bits high) .yes).1
            (create (create table t.getMinSigned (wrap t.bits high) .yes).2 (wrap t.bits low) t.getMaxSigned .yes).1,
          (create (create table t.getMinSigned (wrap t.bits high) .yes).2 (wrap t.bits low) t.getMaxSigned .yes).2)
  | plain (inside : InRange t.bits low ∧ InRange t.bits high) :
      RangeOutcome t create table low high
        ((create table low high .no).1.map .integral,(create table low high .no).2)

theorem getRangeWithOutcome (t : DataType) (create : RangeFactory) (table : Table) {low high : Int} (order : low ≤ high)
    (above : -modulus t.bits ≤ low) (below : high < modulus t.bits) :
    RangeOutcome t create table low high
      (getRangeWith t create table (wrap t.bits low) (wrap t.bits high) (decide (¬ InRange t.bits low))
        (decide (¬ InRange t.bits high))) := by
  have hw := t.bitsPos
  have mod := modulusHalf hw
  have pos := halfPos t.bits
  have turns : ∀ v, low ≤ v → v ≤ high → _ := fun v h h' =>
    wrapTurn (x := v) hw (by simp only [minSigned]; omega) (by simp only [maxSigned]; omega)
  have lowTurn := turns low (Int.le_refl _) order
  have highTurn := turns high order (Int.le_refl _)
  have lowRange := wrapRange hw low
  have highRange := wrapRange hw high
  unfold getRangeWith
  by_cases lowIn : InRange t.bits low
  · by_cases highIn : InRange t.bits high
    · simpa [lowIn,highIn,wrapSelf hw lowIn,wrapSelf hw highIn] using RangeOutcome.plain ⟨lowIn,highIn⟩
    · by_cases meet : wrap t.bits high ≥ wrap t.bits low
      · simp only [lowIn,highIn,meet]
        exact .everything ⟨low,Int.le_refl _,order,lowIn⟩ (fun h => highIn h.2) fun h => Int.not_lt.mpr meet h.2.2
      · simp only [lowIn,highIn,meet]
        refine .split ⟨fun h => highIn h.2,.inl lowIn,by omega⟩ ⟨low,Int.le_refl _,order,lowIn⟩ fun v h h' => ?_
        have := turns v h h'
        simp only [InRange,minSigned,maxSigned] at *
        omega
  · by_cases highIn : InRange t.bits high
    · by_cases meet : wrap t.bits high ≥ wrap t.bits low
      · simp only [lowIn,highIn,meet]
        exact .everything ⟨high,order,Int.le_refl _,highIn⟩ (fun h => lowIn h.1) fun h => Int.not_lt.mpr meet h.2.2
      · simp only [lowIn,highIn,meet]
        refine .split ⟨fun h => lowIn h.1,.inr highIn,by omega⟩ ⟨high,order,Int.le_refl _,highIn⟩ fun v h h' => ?_
        have := turns v h h'
        simp only [InRange,minSigned,maxSigned] at *
        omega
    · rw [xorNegativeSigns hw highRange lowRange]
      -- Both bounds are off: on one side the span moves by a turn, on two sides it covers the type.
      by_cases side : high < minSigned t.bits ∨ maxSigned t.bits < low
      · obtain ⟨turn,moved⟩ : ∃ turn, ∀ v, low ≤ v → v ≤ high → wrap t.bits v = v + turn ∧ ¬ InRange t.bits v := by
          rcases side with under | upon
          · refine ⟨modulus t.bits,fun v h h' => ?_⟩
            have := turns v h h'
            simp only [InRange,minSigned,maxSigned] at *
            omega
          · refine ⟨-modulus t.bits,fun v h h' => ?_⟩
            have := turns v h h'
            simp only [InRange,minSigned,maxSigned] at *
            omega
        have lowMoved := (moved low (Int.le_refl _) order).1
        have highMoved := (moved high order (Int.le_refl _)).1
        have same : (decide (wrap t.bits high < 0) ^^ decide (wrap t.bits low < 0)) = false := by
          simp only [InRange,minSigned,maxSigned] at *
          by_cases highNeg : wrap t.bits high < 0 <;> by_cases lowNeg : wrap t.bits low < 0 <;>
            simp [highNeg,lowNeg] <;> omega
        simp only [lowIn,highIn,same]
        rw [lowMoved,highMoved]
        exact .shifted turn (fun v h h' => (moved v h h').2) fun v h h' => (moved v h h').1
      · have differ : (decide (wrap t.bits high < 0) ^^ decide (wrap t.bits low < 0)) = true := by
          simp only [InRange,minSigned,maxSigned] at *
          by_cases highNeg : wrap t.bits high < 0 <;> by_cases lowNeg : wrap t.bits low < 0 <;>
            simp [highNeg,lowNeg] <;> omega
        simp only [lowIn,highIn,differ]
        refine .everything ⟨0,?_⟩ (fun h => lowIn h.1) fun h => h.2.1.elim lowIn highIn
        simp only [InRange,minSigned,maxSigned] at *
        omega

def factory : DataType → RangeFactory
  | .Int16 => VPShortRange.create
  | .Int32 => VPIntRange.create
  | .Int64 => longFactory

theorem getRangeFactory (t : DataType) : getRange t = getRangeWith t (factory t) := by
  cases t <;> rfl

theorem factoryMade (t : DataType) (table : Table) (low high : Int) (canOverflow : YesNoMaybe) :
    MadeFor t low high (factory t table low high canOverflow).1 := by
  cases t with
  | Int16 => exact sharedRangeMade .Int16 table low high canOverflow
  | Int32 => exact sharedRangeMade .Int32 table low high canOverflow
  | Int64 => exact sharedLongRangeMade table low high canOverflow.toBool .no

theorem madeAllows {t : DataType} {low high v : Int} {made : Option IntegralConstraint} (h : MadeFor t low high made)
    (inside : InRange t.bits v) (lower : low ≤ v) (upper : v ≤ high) : Allows t (made.map .integral) v := by
  cases made with
  | none => exact inside
  | some c => exact ⟨by rw [h.2.1]; exact lower,by rw [h.2.2]; exact upper⟩

theorem mergeTwoAllows {t : DataType} {high low v : Int} {first second : Option IntegralConstraint}
    (firstMade : MadeFor t t.getMinSigned high first) (secondMade : MadeFor t low t.getMaxSigned second)
    (inside : InRange t.bits v) (ends : v ≤ high ∨ low ≤ v) : Allows t (mergeTwo first second) v := by
  match first, second with
  | none, _ => exact inside
  | some _, none => exact inside
  | some a, some b =>
    rcases ends with lower | upper
    · exact ⟨a,by simp,by rw [firstMade.2.1]; exact inside.1,by rw [firstMade.2.2]; exact lower⟩
    · exact ⟨b,by simp,by rw [secondMade.2.1]; exact upper,by rw [secondMade.2.2]; exact inside.2⟩

theorem outcomeAllows {t : DataType} {table : Table} {low high v : Int} {result : Option VPConstraint × Table}
    (h : RangeOutcome t (factory t) table low high result) (lower : low ≤ v) (upper : v ≤ high) :
    Allows t result.1 (wrap t.bits v) := by
  have inside := wrapRange t.bitsPos v
  cases h with
  | shifted turn outside moved =>
    rw [moved v lower upper] at inside ⊢
    exact madeAllows (factoryMade ..) inside (by omega) (by omega)
  | everything someInside overflow joined => exact inside
  | split apart someInside ends =>
    exact mergeTwoAllows (factoryMade ..) (factoryMade ..) inside (ends v lower upper)
  | plain both =>
    have fits : InRange t.bits v := ⟨Int.le_trans both.1.1 lower,Int.le_trans upper both.2.2⟩
    rw [wrapSelf t.bitsPos fits]
    exact madeAllows (factoryMade ..) fits lower upper

theorem boundsInRange {t : DataType} {c : IntegralConstraint} (valid : c.Valid t) :
    InRange t.bits c.getLow ∧ InRange t.bits c.getHigh :=
  ⟨integralInRange valid ⟨Int.le_refl _,valid.2.2.1⟩,integralInRange valid ⟨valid.2.2.1,Int.le_refl _⟩⟩

theorem integralAddOutcome {t : DataType} (table : Table) {this other : IntegralConstraint} (left : this.Valid t)
    (right : other.Valid t) :
    RangeOutcome t (factory t) table (this.getLow + other.getLow) (this.getHigh + other.getHigh)
      (integralAdd t table this other) := by
  obtain ⟨leftLow,leftHigh⟩ := boundsInRange left
  obtain ⟨rightLow,rightHigh⟩ := boundsInRange right
  have mod := modulusHalf t.bitsPos
  have leftOrder := left.2.2.1
  have rightOrder := right.2.2.1
  simp only [integralAdd,addWithOverflowExact t.bitsPos leftLow rightLow,
    addWithOverflowExact t.bitsPos leftHigh rightHigh,getRangeFactory]
  simp only [InRange,minSigned,maxSigned] at leftLow leftHigh rightLow rightHigh
  exact getRangeWithOutcome t (factory t) table (by omega) (by omega) (by omega)

theorem integralSubtractOutcome {t : DataType} (table : Table) {this other : IntegralConstraint} (left : this.Valid t)
    (right : other.Valid t) :
    RangeOutcome t (factory t) table (this.getLow - other.getHigh) (this.getHigh - other.getLow)
      (integralSubtract t table this other) := by
  obtain ⟨leftLow,leftHigh⟩ := boundsInRange left
  obtain ⟨rightLow,rightHigh⟩ := boundsInRange right
  have mod := modulusHalf t.bitsPos
  have leftOrder := left.2.2.1
  have rightOrder := right.2.2.1
  simp only [integralSubtract,subWithOverflowExact t.bitsPos leftLow rightHigh,
    subWithOverflowExact t.bitsPos leftHigh rightLow,getRangeFactory]
  simp only [InRange,minSigned,maxSigned] at leftLow leftHigh rightLow rightHigh
  exact getRangeWithOutcome t (factory t) table (by omega) (by omega) (by omega)

theorem arithmeticIntegral {t : DataType} {c d : IntegralConstraint} (left : c.Valid t) (right : d.Valid t)
    (op : DataType → Table → IntegralConstraint → IntegralConstraint → Option VPConstraint × Table) (table : Table) :
    arithmetic op table (.integral c) (.integral d) t = op t table c d := by
  simp only [arithmetic,VPConstraint.asIntegral,left.1,right.1,if_true]

/- Addition and subtraction are sound under wrap-around, whatever the table holds. -/
theorem arithmeticSound {t : DataType} {a b : VPConstraint} (left : ∀ e ∈ a.entries, e.Valid t)
    (right : ∀ e ∈ b.entries, e.Valid t) (table : Table) {x y : Int} (hx : a.Contains x) (hy : b.Contains y) :
    Allows t (add table a b t).1 (wrap t.bits (x + y)) ∧ Allows t (subtract table a b t).1 (wrap t.bits (x - y)) := by
  match a, b with
  | .integral c, .integral d =>
    have validC := left c (by simp [VPConstraint.entries])
    have validD := right d (by simp [VPConstraint.entries])
    have := hx.1; have := hx.2; have := hy.1; have := hy.2
    rw [add,subtract,arithmeticIntegral validC validD,arithmeticIntegral validC validD]
    exact ⟨outcomeAllows (integralAddOutcome table validC validD) (by omega) (by omega),
      outcomeAllows (integralSubtractOutcome table validC validD) (by omega) (by omega)⟩
  | .merged _, _ => exact ⟨wrapRange t.bitsPos _,wrapRange t.bitsPos _⟩
  | .integral _, .merged _ => exact ⟨wrapRange t.bitsPos _,wrapRange t.bitsPos _⟩

theorem arithmeticSoundSample :
    Allows .Int32 (add emptyTable (.integral (.range .Int32 2147483640 2147483647 .no false))
      (.integral (.range .Int32 0 9 .no false)) .Int32).1 (wrap 32 (2147483645 + 7)) ∧
    Allows .Int32 (subtract emptyTable (.integral (.range .Int32 2147483640 2147483647 .no false))
      (.integral (.range .Int32 0 9 .no false)) .Int32).1 (wrap 32 (2147483645 - 7)) :=
  arithmeticSound (t := .Int32) (by decide) (by decide) emptyTable (by decide) (by decide)

end OmrCompiler.ConstraintArithmetic
