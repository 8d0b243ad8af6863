import OmrCompiler.ILTree

/-! The range of a shift by a constant: constrainIshr, constrainLshr, constrainIushr and
constrainLushr of VPHandlers.cpp. The children have been constrained and the node has no
constant constraint of its own. -/
namespace OmrCompiler.ShiftRange
open MachineInt Constraint ILTree

-- The bounds of the first child, the whole type when it has no constraint.
def getBounds (t : DataType) : Option VPConstraint → Int × Int
  | some lhs => (lhs.headLow t,lhs.lastHigh t)
  | none => (t.getMinSigned,t.getMaxSigned)

def constrainShr (t : DataType) (lhs : Option VPConstraint) (rhsConst : Int) : Option IntegralConstraint :=
  let shiftAmount := shiftBy t.bits rhsConst
  let (low,high) := getBounds t lhs
  rangeOf t (low / 2 ^ shiftAmount) (high / 2 ^ shiftAmount)

def unsignedShift (w : Nat) (value : Int) (shiftAmount : Nat) : Int := wrap w (toUnsigned w value / 2 ^ shiftAmount)

-- For a negative range the bounds are shifted in reverse order.
def constrainUshr (t : DataType) (lhs : Option VPConstraint) (rhsConst : Int) : Option IntegralConstraint :=
  let shiftAmount := shiftBy t.bits rhsConst
  let (low,high) := getBounds t lhs
  if low = high then some (createConst t (unsignedShift t.bits low shiftAmount))
  else if low ≥ 0 then rangeOf t (unsignedShift t.bits low shiftAmount) (unsignedShift t.bits high shiftAmount)
  else if high < 0 then rangeOf t (unsignedShift t.bits high shiftAmount) (unsignedShift t.bits low shiftAmount)
  else if shiftAmount > 0 then rangeOf t 0 (unsignedShift t.bits (-1) shiftAmount)
  else rangeOf t low high

def constrainIshr := constrainShr .Int32

def constrainLshr := constrainShr .Int64

def constrainIushr := constrainUshr .Int32

def constrainLushr := constrainUshr .Int64

inductive Shift where
  | ishr
  | lshr
  | iushr
  | lushr
  deriving DecidableEq, Repr

namespace Shift

def type : Shift → DataType
  | ishr => .Int32
  | lshr => .Int64
  | iushr => .Int32
  | lushr => .Int64

def op : Shift → BinaryOp
  | ishr => .shr
  | lshr => .shr
  | iushr => .ushr
  | lushr => .ushr

def handler : Shift → Option VPConstraint → Int → Option IntegralConstraint
  | ishr => constrainIshr
  | lshr => constrainLshr
  | iushr => constrainIushr
  | lushr => constrainLushr

-- Nothing is attached unless the shift amount is a constant.
def constrain (shift : Shift) (lhs rhs : Option VPConstraint) : Option IntegralConstraint :=
  (rhs.bind (·.asConst .Int32)).bind (shift.handler lhs)

end Shift

section Unsigned
variable {w s : Nat} {x y : Int}

theorem shiftedNonneg (hw : 0 < w) (inside : InRange w x) (nonneg : 0 ≤ x) (s : Nat) : unsignedShift w x s = x / 2 ^ s := by
  have mod := modulusHalf hw
  have same : toUnsigned w x = x := Int.emod_eq_of_lt nonneg (by simp only [InRange,maxSigned] at inside; omega)
  rw [unsignedShift,same]
  exact wrapSelf hw (floorRange inside s)

-- A shift by one bit or more clears the sign.
theorem unsignedShifted (hw : 0 < w) (x : Int) (some : 0 < s) :
    unsignedShift w x s = toUnsigned w x / 2 ^ s ∧ 0 ≤ toUnsigned w x / 2 ^ s ∧ toUnsigned w x / 2 ^ s ≤ maxSigned w := by
  have mod := modulusHalf hw
  have half := halfPos w
  have pos : (0 : Int) < 2 ^ s := Int.pow_pos (by decide)
  obtain ⟨low,high⟩ := toUnsignedRange hw x
  have two : (2 : Int) ≤ 2 ^ s := by
    obtain ⟨k,rfl⟩ : ∃ k, s = k + 1 := ⟨s - 1,by omega⟩
    have one : (0 : Int) < 2 ^ k := Int.pow_pos (by decide)
    rw [Int.pow_succ]
    omega
  have upper : toUnsigned w x / 2 ^ s < MachineInt.half w := by
    refine (Int.ediv_lt_iff_lt_mul pos).mpr ?_
    have := Int.mul_le_mul_of_nonneg_left two (show 0 ≤ MachineInt.half w by omega)
    omega
  have lower := Int.ediv_nonneg low (Int.le_of_lt pos)
  have inside : InRange w (toUnsigned w x / 2 ^ s) := ⟨by simp only [minSigned]; omega,by simp only [maxSigned]; omega⟩
  exact ⟨wrapSelf hw inside,lower,inside.2⟩

theorem unsignedZero (hw : 0 < w) (inside : InRange w x) : unsignedShift w x 0 = x := by
  obtain ⟨k,turns⟩ : ∃ k, x = toUnsigned w x + k * modulus w :=
    ⟨x / modulus w,by rw [toUnsigned,Int.mul_comm]; exact (Int.emod_add_mul_ediv x (modulus w)).symm⟩
  rw [unsignedShift,Int.pow_zero,Int.ediv_one]
  exact wrapUnique hw inside turns

-- Among negative numbers the unsigned order is the signed one.
theorem unsignedMono (hw : 0 < w) (left : InRange w x) (right : InRange w y) (order : x ≤ y) (negative : y < 0) (s : Nat) :
    unsignedShift w x s ≤ unsignedShift w y s := by
  rcases Nat.eq_zero_or_pos s with rfl | some'
  · rw [unsignedZero hw left,unsignedZero hw right]
    exact order
  · rw [(unsignedShifted hw x some').1,(unsignedShifted hw y some').1,toUnsignedNegative hw left (by omega),toUnsignedNegative hw right negative]
    exact Int.ediv_le_ediv (Int.pow_pos (by decide)) (by omega)

end Unsigned

section Sound
variable {t : DataType} {lhs : Option VPConstraint} {x : Int}

theorem boundsHold (valid : ∀ c, lhs = some c → c.Valid t) :
    InRange t.bits (getBounds t lhs).1 ∧ InRange t.bits (getBounds t lhs).2 ∧ (getBounds t lhs).1 ≤ (getBounds t lhs).2 ∧
      Allows t lhs (getBounds t lhs).1 ∧ Allows t lhs (getBounds t lhs).2 ∧
      ∀ x, Allows t lhs x → InRange t.bits x ∧ (getBounds t lhs).1 ≤ x ∧ x ≤ (getBounds t lhs).2 := by
  have order := t.minLtMax
  cases lhs with
  | none =>
      have low : InRange t.bits t.getMinSigned := ⟨Int.le_refl _,Int.le_of_lt order⟩
      have high : InRange t.bits t.getMaxSigned := ⟨Int.le_of_lt order,Int.le_refl _⟩
      exact ⟨low,high,Int.le_of_lt order,low,high,fun x inside => ⟨inside,inside⟩⟩
  | some c =>
      obtain ⟨low,high,every⟩ := validBounds (valid c rfl)
      exact ⟨containsInRange (valid c rfl) low,containsInRange (valid c rfl) high,(every _ low).2,low,high,
        fun x inside => ⟨containsInRange (valid c rfl) inside,every x inside⟩⟩

-- What the handlers promise: the shifted values are allowed, and the bounds are in order.
structure Holds (t : DataType) (value : Int → Int) (lhs : Option VPConstraint) (attached : Option IntegralConstraint) : Prop where
  values : ∀ x, Allows t lhs x → Allows t (attached.map .integral) (value x)
  order : ∀ c, attached = some c → c.getLow ≤ c.getHigh

theorem rangeHolds {value : Int → Int} {low high : Int} (valid : ∀ c, lhs = some c → c.Valid t) (between : ∀ x, Allows t lhs x → low ≤ value x ∧ value x ≤ high) :
    Holds t value lhs (rangeOf t low high) := by
  obtain ⟨_,_,_,lowIn,_,_⟩ := boundsHold valid
  have order : low ≤ high := Int.le_trans (between _ lowIn).1 (between _ lowIn).2
  cases made : rangeOf t low high with
  | none =>
      obtain ⟨rfl,rfl⟩ := rangeOfFull made
      exact ⟨fun x inside => between x inside,nofun⟩
  | some c =>
      obtain ⟨_,rfl,rfl⟩ := rangeOfBounds made
      exact ⟨fun x inside => between x inside,fun c' same => by cases same; exact order⟩

theorem shrHolds (valid : ∀ c, lhs = some c → c.Valid t) (rhsConst : Int) :
    Holds t (fun x => BinaryOp.shr.eval t.bits x rhsConst) lhs (constrainShr t lhs rhsConst) := by
  obtain ⟨_,_,_,_,_,every⟩ := boundsHold valid
  have pos : (0 : Int) < 2 ^ shiftBy t.bits rhsConst := Int.pow_pos (by decide)
  refine rangeHolds valid fun x inside => ?_
  obtain ⟨_,low,high⟩ := every x inside
  exact ⟨Int.ediv_le_ediv pos low,Int.ediv_le_ediv pos high⟩

theorem ushrIs (w : Nat) (x rhsConst : Int) : BinaryOp.ushr.eval w x rhsConst = unsignedShift w x (shiftBy w rhsConst) := rfl

-- A negative range with two bounds that stay apart when they are shifted.
def Reversed (t : DataType) (lhs : Option VPConstraint) (rhsConst : Int) : Prop :=
  (getBounds t lhs).1 < (getBounds t lhs).2 ∧ (getBounds t lhs).2 < 0 ∧
    unsignedShift t.bits (getBounds t lhs).1 (shiftBy t.bits rhsConst) ≠ unsignedShift t.bits (getBounds t lhs).2 (shiftBy t.bits rhsConst)

theorem ushrHolds (valid : ∀ c, lhs = some c → c.Valid t) {rhsConst : Int} (straight : ¬ Reversed t lhs rhsConst) :
    Holds t (fun x => BinaryOp.ushr.eval t.bits x rhsConst) lhs (constrainUshr t lhs rhsConst) := by
  obtain ⟨lowRange,highRange,order,lowIn,_,every⟩ := boundsHold valid
  have hw := t.bitsPos
  have pos : (0 : Int) < 2 ^ shiftBy t.bits rhsConst := Int.pow_pos (by decide)
  simp only [ushrIs]
  unfold constrainUshr
  simp only
  split
  · rename_i same
    refine ⟨fun x inside => ?_,fun c made => by cases made; exact Int.le_refl _⟩
    obtain ⟨_,low,high⟩ := every x inside
    have one : x = (getBounds t lhs).1 := by omega
    rw [one]
    exact ⟨Int.le_refl _,Int.le_refl _⟩
  · rename_i differ
    split
    · rename_i nonneg
      refine rangeHolds valid fun x inside => ?_
      obtain ⟨range,low,high⟩ := every x inside
      rw [shiftedNonneg hw range (by omega),shiftedNonneg hw lowRange nonneg,shiftedNonneg hw highRange (by omega)]
      exact ⟨Int.ediv_le_ediv pos low,Int.ediv_le_ediv pos high⟩
    · split
      · rename_i negative
        -- The bounds shift to the same number, and all between them to that number too.
        have same : unsignedShift t.bits (getBounds t lhs).1 (shiftBy t.bits rhsConst) =
            unsignedShift t.bits (getBounds t lhs).2 (shiftBy t.bits rhsConst) := by
          by_contra apart
          exact straight ⟨by omega,negative,apart⟩
        refine rangeHolds valid fun x inside => ?_
        obtain ⟨range,low,high⟩ := every x inside
        rw [← same]
        refine ⟨unsignedMono hw lowRange range low (by omega) _,?_⟩
        rw [same]
        exact unsignedMono hw range highRange high negative _
      · split
        · rename_i some'
          refine rangeHolds valid fun x inside => ?_
          obtain ⟨shifted,lower,_⟩ := unsignedShifted hw x some'
          obtain ⟨top,_,_⟩ := unsignedShifted hw (-1) some'
          have less := (toUnsignedRange hw x).2
          have half := halfPos t.bits
          have most : toUnsigned t.bits (-1) = -1 + modulus t.bits :=
            toUnsignedNegative hw ⟨by simp only [minSigned]; omega,by simp only [maxSigned]; omega⟩ (by decide)
          rw [shifted,top,most]
          exact ⟨lower,Int.ediv_le_ediv pos (by omega)⟩
        · rename_i zero
          refine rangeHolds valid fun x inside => ?_
          obtain ⟨range,low,high⟩ := every x inside
          rw [Nat.eq_zero_of_not_pos zero,unsignedZero hw range]
          exact ⟨low,high⟩

theorem ushrReversed (valid : ∀ c, lhs = some c → c.Valid t) {rhsConst : Int} (reversed : Reversed t lhs rhsConst) :
    ¬ Holds t (fun x => BinaryOp.ushr.eval t.bits x rhsConst) lhs (constrainUshr t lhs rhsConst) := by
  intro holds
  obtain ⟨lowRange,highRange,order,lowIn,highIn,_⟩ := boundsHold valid
  obtain ⟨less,negative,apart⟩ := reversed
  have up := unsignedMono t.bitsPos lowRange highRange order negative (shiftBy t.bits rhsConst)
  unfold constrainUshr at holds
  simp only at holds
  rw [if_neg (Int.ne_of_lt less),if_neg (by omega),if_pos negative] at holds
  cases made : rangeOf t (unsignedShift t.bits (getBounds t lhs).2 (shiftBy t.bits rhsConst))
      (unsignedShift t.bits (getBounds t lhs).1 (shiftBy t.bits rhsConst)) with
  | none =>
      have full := rangeOfFull made
      have order' := t.minLtMax
      omega
  | some c =>
      rw [made] at holds
      have bounds := rangeOfBounds made
      have inOrder := holds.order c rfl
      omega

/- A shift is given a range that holds it, unless it is a logical shift of a negative range. -/
theorem shiftRangesHold (shift : Shift) {lhs : Option VPConstraint} (valid : ∀ c, lhs = some c → c.Valid shift.type) (rhsConst : Int) :
    Holds shift.type (fun x => shift.op.eval shift.type.bits x rhsConst) lhs
        (shift.constrain lhs (some (.integral (VPIntConst.create rhsConst)))) ↔
      ¬ (shift.op = .ushr ∧ Reversed shift.type lhs rhsConst) := by
  have signed : ∀ t : DataType, (∀ c, lhs = some c → c.Valid t) →
      (Holds t (fun x => BinaryOp.shr.eval t.bits x rhsConst) lhs (constrainShr t lhs rhsConst) ↔
        ¬ (BinaryOp.shr = .ushr ∧ Reversed t lhs rhsConst)) :=
    fun t valid => ⟨fun _ both => absurd both.1 (by decide),fun _ => shrHolds valid rhsConst⟩
  have logical : ∀ t : DataType, (∀ c, lhs = some c → c.Valid t) →
      (Holds t (fun x => BinaryOp.ushr.eval t.bits x rhsConst) lhs (constrainUshr t lhs rhsConst) ↔
        ¬ (BinaryOp.ushr = .ushr ∧ Reversed t lhs rhsConst)) :=
    fun t valid => ⟨fun holds both => ushrReversed valid both.2 holds,fun straight => ushrHolds valid fun reversed => straight ⟨rfl,reversed⟩⟩
  cases shift with
  | ishr => exact signed .Int32 valid
  | lshr => exact signed .Int64 valid
  | iushr => exact logical .Int32 valid
  | lushr => exact logical .Int64 valid

theorem shiftRangesHoldSample :
    Holds .Int64 (fun x => BinaryOp.ushr.eval 64 x 8) (some (.integral (.range .Int64 (-3) 1000 .no false)))
      (Shift.lushr.constrain (some (.integral (.range .Int64 (-3) 1000 .no false))) (some (.integral (VPIntConst.create 8)))) :=
  (@shiftRangesHold .lushr _ (fun c same => by cases same; decide) 8).mpr fun both => absurd both.2.2.1 (by decide)

-- -100 and -1 shifted by one: the bounds are out of order, and neither result lies between them.
theorem negativeRangeReversed : ∃ c : IntegralConstraint, (VPConstraint.integral (.range .Int32 (-100) (-1) .no false)).Valid .Int32 ∧
    constrainIushr (some (.integral (.range .Int32 (-100) (-1) .no false))) 1 = some c ∧ c.getHigh < c.getLow ∧
    ¬ c.Contains (BinaryOp.ushr.eval 32 (-100) 1) ∧ ¬ c.Contains (BinaryOp.ushr.eval 32 (-1) 1) :=
  ⟨.range .Int32 2147483647 2147483598 .no false,by decide,by decide,by decide,by decide,by decide⟩

end Sound

end OmrCompiler.ShiftRange
