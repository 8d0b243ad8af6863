import OmrCompiler.ConstraintArithmetic

/-! The overflow and power-of-two marks of the ranges that addition, subtraction
and negation return, through the shared table. checkForNonNegativeAndOverflow-
Properties calls a node free of overflow on the strength of the first. -/
namespace OmrCompiler.ConstraintMetadata
open MachineInt Constraint ConstraintTable ConstraintArithmetic

def IsPowerOfTwo (v : Int) : Prop := ∃ k : Nat, v = 2 ^ k

/- The marks of a result are true of the values behind it. The overflow mark is
read of ranges and lists, and of constants too where consts says so. -/
structure Truthful (consts : Bool) (always : Prop) (result : Option VPConstraint) : Prop where
  overflow : ∀ c, result = some c → consts = true ∨ c.isConst = false → c.canOverflow ≠ .yes → ¬ always
  mark : ∀ c, result = some c → ∀ e ∈ c.entries, e.getIsPowerOfTwo = true → ∀ v, e.Contains v → IsPowerOfTwo v

inductive Request (t : DataType) where
  | add (a b : {c : IntegralConstraint // c.Valid t})
  | subtract (a b : {c : IntegralConstraint // c.Valid t})
  | negate (child : {c : VPConstraint // c.Valid t ∧ c.isConst = false}) (wide : t ≠ .Int16)

def Request.run (table : Table) {t : DataType} : Request t → Option VPConstraint × Table
  | .add a b => ConstraintArithmetic.add table (.integral a.val) (.integral b.val) t
  | .subtract a b => ConstraintArithmetic.subtract table (.integral a.val) (.integral b.val) t
  | .negate child _ =>
      match t with
      | .Int16 => (none,table)
      | .Int32 => constrainIneg table child.val
      | .Int64 => constrainLneg table child.val

def Request.AlwaysOverflows {t : DataType} : Request t → Prop
  | .add a b => ∀ x y, a.val.Contains x → b.val.Contains y → addOverflows t.bits x y
  | .subtract a b => ∀ x y, a.val.Contains x → b.val.Contains y → subOverflows t.bits x y
  | .negate child _ => ∀ x, child.val.Contains x → ¬ InRange t.bits (-x)

/- When the marks are right, read off the operands and the table: a long range
that is asked for is a constant, the whole type, the interval of one and two, or
one that the table hands out without the power-of-two mark. -/
def HonestPiece (table : Table) (low high : Int) (powerOfTwo : Bool) : Prop :=
  low = high ∨ (low = DataType.Int64.getMinSigned ∧ high = DataType.Int64.getMaxSigned ∧ powerOfTwo = false) ∨
    (low = 1 ∧ high = 2) ∨ table.marks low high powerOfTwo .no = false

instance (table : Table) (low high : Int) (powerOfTwo : Bool) : Decidable (HonestPiece table low high powerOfTwo) :=
  inferInstanceAs (Decidable (_ ∨ _))

def OutOfType (t : DataType) (low high : Int) : Prop := high < t.getMinSigned ∨ t.getMaxSigned < low

def HonestSpan (t : DataType) (table : Table) (consts : Bool) (low high : Int) : Prop :=
  (OutOfType t low high → if low = high then consts = false else t ≠ .Int64) ∧
  (t = .Int64 → InRange t.bits low ∧ InRange t.bits high → HonestPiece table low high false) ∧
  (t = .Int64 → Overhang t low high →
    HonestPiece table t.getMinSigned (wrap t.bits high) true ∧ HonestPiece table (wrap t.bits low) t.getMaxSigned true)

def Request.Honest (table : Table) (consts : Bool) {t : DataType} : Request t → Prop
  | .add a b => HonestSpan t table consts (a.val.getLow + b.val.getLow) (a.val.getHigh + b.val.getHigh)
  | .subtract a b => HonestSpan t table consts (a.val.getLow - b.val.getHigh) (a.val.getHigh - b.val.getLow)
  | .negate child _ =>
      let low := VPConstraint.headLow t child.val
      let high := VPConstraint.lastHigh t child.val
      if high = t.getMinSigned then consts = false
      else t = .Int64 → HonestPiece table (-high) (-(if low = t.getMinSigned then low + 1 else low)) true

theorem intervalOfPowers {low high : Int} (proper : low < high) :
    (∀ v, low ≤ v ∧ v ≤ high → IsPowerOfTwo v) ↔ low = 1 ∧ high = 2 := by
  constructor
  · intro powers
    obtain ⟨j,hj⟩ := powers low ⟨Int.le_refl _,Int.le_of_lt proper⟩
    obtain ⟨k,hk⟩ := powers (low + 1) ⟨by omega,by omega⟩
    have one : low = 1 := by
      cases j with
      | zero => simpa using hj
      | succ j =>
        cases k with
        | zero =>
          have : (0 : Int) < 2 ^ (j + 1) := Int.pow_pos (by decide)
          omega
        | succ k =>
          rw [Int.pow_succ] at hj hk
          omega
    refine ⟨one,?_⟩
    by_cases more : 3 ≤ high
    · obtain ⟨m,hm⟩ := powers 3 ⟨by omega,more⟩
      match m with
      | 0 => omega
      | 1 => omega
      | m + 2 =>
        rw [Int.pow_succ] at hm
        omega
    · omega
  · rintro ⟨rfl,rfl⟩ v h
    have : v = 1 ∨ v = 2 := by omega
    rcases this with rfl | rfl
    · exact ⟨0,rfl⟩
    · exact ⟨1,rfl⟩

theorem spanOverflows {t : DataType} {low high : Int} (order : low ≤ high) :
    (∀ v, low ≤ v → v ≤ high → ¬ InRange t.bits v) ↔ OutOfType t low high := by
  have pos := halfPos t.bits
  simp only [OutOfType,InRange,DataType.getMinSigned,DataType.getMaxSigned,minSigned,maxSigned]
  constructor
  · intro outside
    have atLow := outside low (Int.le_refl _) order
    have atHigh := outside high order (Int.le_refl _)
    by_cases zero : low ≤ 0 ∧ 0 ≤ high
    · have := outside 0 zero.1 zero.2
      omega
    · omega
  · intro off v lower upper
    omega

/- What the long factory says about powers of two. -/
def HonestMark (made : Option IntegralConstraint) : Prop :=
  ∀ e, made = some e → e.getIsPowerOfTwo = true → ∀ v, e.Contains v → IsPowerOfTwo v

theorem longPieceHonest {table : Table} {low high : Int} {powerOfTwo : Bool} (order : low ≤ high) :
    HonestMark (ConstraintTable.VPLongRange.create table low high powerOfTwo .no).1 ↔ HonestPiece table low high powerOfTwo := by
  by_cases full : low = DataType.Int64.getMinSigned ∧ high = DataType.Int64.getMaxSigned ∧ powerOfTwo = false
  · refine iff_of_true (fun e he => ?_) (.inr (.inl full))
    simp [ConstraintTable.VPLongRange.create,full] at he
  · by_cases same : low = high
    · refine iff_of_true (fun e he marked => ?_) (.inl same)
      rw [ConstraintTable.VPLongRange.create,if_neg full,if_pos same,createConstShared] at he
      cases Option.some.inj he
      cases marked
    · rw [createLongRangeMarks full same]
      cases marks : table.marks low high powerOfTwo .no with
      | false =>
        refine iff_of_true (fun e he marked => ?_) (.inr (.inr (.inr marks)))
        cases Option.some.inj he
        cases marked
      | true =>
        have proper : low < high := by omega
        have powers := intervalOfPowers proper
        constructor
        · intro honest
          exact .inr (.inr (.inl (powers.mp (honest _ rfl rfl))))
        · rintro (h | h | h | h) e he _
          · exact absurd h same
          · exact absurd h full
          · cases Option.some.inj he
            exact powers.mpr h
          · rw [marks] at h
            cases h

/- A constant has no overflow mark, and a long range is asked for without one. -/
theorem factoryCases {t : DataType} {table : Table} {low high : Int} {canOverflow : YesNoMaybe} {c : IntegralConstraint}
    (made : (factory t table low high canOverflow).1 = some c) :
    (low = high ∧ c = .const t low) ∨
      (low ≠ high ∧ ∃ mark, c = .range t low high (if t = .Int64 then .no else canOverflow) mark) := by
  cases t with
  | Int16 => exact sharedRangeCases made
  | Int32 => exact sharedRangeCases made
  | Int64 => exact sharedLongRangeCases made

theorem narrowUnmarked {t : DataType} (narrow : t ≠ .Int64) {c : IntegralConstraint} (type : c.type = t) :
    c.getIsPowerOfTwo = false := by
  subst type
  match c, narrow with
  | .const _ _, _ => rfl
  | .range .Int16 _ _ _ _, _ => rfl
  | .range .Int32 _ _ _ _, _ => rfl
  | .range .Int64 _ _ _ _, narrow => exact absurd rfl narrow

theorem factoryMarkHonest {t : DataType} {table : Table} {low high : Int} {canOverflow : YesNoMaybe}
    (order : low ≤ high) :
    HonestMark (factory t table low high canOverflow).1 ↔ (t = .Int64 → HonestPiece table low high canOverflow.toBool) := by
  by_cases wide : t = .Int64
  · subst wide
    exact (longPieceHonest order).trans ⟨fun h _ => h,fun h => h rfl⟩
  · refine iff_of_true (fun e he marked => ?_) fun h => absurd h wide
    have made := factoryMade t table low high canOverflow
    rw [he] at made
    rw [narrowUnmarked wide made.1] at marked
    cases marked

theorem truthfulIntegral {consts : Bool} {always : Prop} {made : Option IntegralConstraint} :
    Truthful consts always (made.map .integral) ↔
      (∀ c, made = some c → consts = true ∨ c.isConst = false → c.canOverflow ≠ .yes → ¬ always) ∧ HonestMark made := by
  constructor
  · rintro ⟨overflow,mark⟩
    refine ⟨fun c hc => overflow (.integral c) (by rw [hc]; rfl),fun e he => ?_⟩
    exact mark (.integral e) (by rw [he]; rfl) e (by simp [VPConstraint.entries])
  · rintro ⟨overflow,mark⟩
    refine ⟨fun c hc => ?_,fun c hc e he => ?_⟩
    · obtain ⟨d,hd,rfl⟩ := Option.map_eq_some_iff.mp hc
      exact overflow d hd
    · obtain ⟨d,hd,rfl⟩ := Option.map_eq_some_iff.mp hc
      cases List.mem_singleton.mp he
      exact mark e hd

theorem truthfulMerged {consts : Bool} {always : Prop} {first second : Option IntegralConstraint}
    (not : ¬ always) (firstMade : first ≠ none) (secondMade : second ≠ none) :
    Truthful consts always (mergeTwo first second) ↔ HonestMark first ∧ HonestMark second := by
  obtain ⟨a,rfl⟩ := Option.ne_none_iff_exists'.mp firstMade
  obtain ⟨b,rfl⟩ := Option.ne_none_iff_exists'.mp secondMade
  constructor
  · intro h
    have marks := h.mark _ rfl
    exact ⟨fun e he => marks e (by cases Option.some.inj he; simp [VPConstraint.entries,VPMergedConstraints.create2]),
      fun e he => marks e (by cases Option.some.inj he; simp [VPConstraint.entries,VPMergedConstraints.create2])⟩
  · rintro ⟨ofFirst,ofSecond⟩
    refine ⟨fun _ _ _ _ => not,fun c hc e he => ?_⟩
    cases Option.some.inj hc
    simp only [VPConstraint.entries,VPMergedConstraints.create2,List.mem_cons,List.not_mem_nil,or_false] at he
    rcases he with rfl | rfl
    · exact ofFirst e rfl
    · exact ofSecond e rfl

theorem notFull {t : DataType} {table : Table} {low high : Int} {canOverflow : YesNoMaybe}
    (proper : ¬ (low = t.getMinSigned ∧ high = t.getMaxSigned)) : (factory t table low high canOverflow).1 ≠ none := by
  intro missing
  have made := factoryMade t table low high canOverflow
  rw [missing] at made
  exact proper made

theorem honestPieceAfter {t : DataType} {table : Table} {low high low' high' : Int} (wide : t = .Int64)
    (other : low' ≠ low) :
    HonestPiece (factory t table low' high' .yes).2 low high true ↔ HonestPiece table low high true := by
  subst wide
  simp only [HonestPiece,factory,longFactory,marksAfterRange table low' high' _ .no other]

theorem overflowedTruthful {t : DataType} {table : Table} {low high : Int} (order : low ≤ high) (consts : Bool)
    {always : Prop} (certain : always) :
    Truthful consts always ((factory t table low high .yes).1.map .integral) ↔
      if low = high then consts = false else t ≠ .Int64 := by
  rw [truthfulIntegral,factoryMarkHonest (by omega)]
  by_cases same : low = high
  · rw [if_pos same]
    have ends := t.minLtMax
    have found : (factory t table low high .yes).1 ≠ none := notFull fun full => by omega
    obtain ⟨c,hc⟩ := Option.ne_none_iff_exists'.mp found
    obtain ⟨_,rfl⟩ | ⟨differ,_⟩ := factoryCases hc
    · constructor
      · intro h
        by_contra isTrue
        exact h.1 _ hc (.inl (by simpa using isTrue)) nofun certain
      · intro off
        refine ⟨fun d hd counted => ?_,fun _ => .inl same⟩
        rw [hc] at hd
        cases Option.some.inj hd
        rcases counted with counted | counted
        · rw [off] at counted
          cases counted
        · cases counted
    · omega
  · rw [if_neg same]
    constructor
    · intro h wide
      subst wide
      have made : (factory .Int64 table low high .yes).1 =
          some (.range .Int64 low high .no (table.marks low high true .no)) :=
        createLongRangeMarks (by simp [YesNoMaybe.toBool]) (by omega)
      exact h.1 _ made (.inr rfl) nofun certain
    · intro narrow
      refine ⟨fun c hc _ notYes => ?_,fun wide => absurd wide narrow⟩
      obtain ⟨off,_⟩ | ⟨_,mark,rfl⟩ := factoryCases hc
      · omega
      · simp [narrow,IntegralConstraint.canOverflow] at notYes

theorem outcomeTruthful {t : DataType} {table : Table} {low high : Int} {result : Option VPConstraint × Table}
    (order : low ≤ high) (h : RangeOutcome t (factory t) table low high result) (consts : Bool) :
    Truthful consts (∀ v, low ≤ v → v ≤ high → ¬ InRange t.bits v) result.1 ↔ HonestSpan t table consts low high := by
  cases h with
  | shifted turn outside moved =>
    have lowOut := outside low (Int.le_refl _) order
    have highOut := outside high order (Int.le_refl _)
    rw [overflowedTruthful (by omega) consts outside,HonestSpan,← spanOverflows order]
    simp only [Int.add_left_inj]
    refine ⟨fun h => ⟨fun _ => h,fun _ both => absurd both.1 lowOut,fun _ upon => ?_⟩,fun h => h.1 outside⟩
    exact absurd upon.2.1 (not_or.mpr ⟨lowOut,highOut⟩)
  | everything inside overflow joined =>
    obtain ⟨v,lower,upper,inRange⟩ := inside
    refine iff_of_true ⟨nofun,nofun⟩ ⟨fun out => ?_,fun _ both => absurd both overflow,fun _ upon => absurd upon joined⟩
    exact absurd inRange ((spanOverflows order).mpr out v lower upper)
  | split apart inside ends =>
    obtain ⟨v,lower,upper,inRange⟩ := inside
    have notAlways : ¬ ∀ v, low ≤ v → v ≤ high → ¬ InRange t.bits v := fun all => all v lower upper inRange
    have lowRange := wrapRange t.bitsPos low
    have highRange := wrapRange t.bitsPos high
    have gap := apart.2.2
    have minEq : t.getMinSigned = minSigned t.bits := rfl
    have maxEq : t.getMaxSigned = maxSigned t.bits := rfl
    simp only [InRange] at lowRange highRange
    rw [truthfulMerged notAlways (notFull fun full => by omega) (notFull fun full => by omega),
      factoryMarkHonest (by omega),factoryMarkHonest (by omega),HonestSpan]
    have other : t.getMinSigned ≠ wrap t.bits low := by omega
    constructor
    · intro h
      exact ⟨fun out => absurd ((spanOverflows order).mpr out) notAlways,fun _ both => absurd both apart.1,
        fun wide _ => ⟨h.1 wide,(honestPieceAfter wide other).mp (h.2 wide)⟩⟩
    · intro h
      exact ⟨fun wide => (h.2.2 wide apart).1,fun wide => (honestPieceAfter wide other).mpr (h.2.2 wide apart).2⟩
  | plain both =>
    have notAlways : ¬ ∀ v, low ≤ v → v ≤ high → ¬ InRange t.bits v := fun all => all low (Int.le_refl _) order both.1
    rw [truthfulIntegral,factoryMarkHonest order,HonestSpan]
    constructor
    · intro h
      exact ⟨fun out => absurd ((spanOverflows order).mpr out) notAlways,fun wide _ => h.2 wide,
        fun _ upon => absurd both upon.1⟩
    · intro h
      exact ⟨fun _ _ _ _ => notAlways,fun wide => h.2.1 wide both⟩

theorem sumsSpan {t : DataType} {a b : IntegralConstraint} (left : a.Valid t) (right : b.Valid t) (p : Int → Prop) :
    (∀ x y, a.Contains x → b.Contains y → p (x + y)) ↔
      ∀ v, a.getLow + b.getLow ≤ v → v ≤ a.getHigh + b.getHigh → p v := by
  have leftOrder := left.2.2.1
  have rightOrder := right.2.2.1
  constructor
  · intro all v lower upper
    have := all (max a.getLow (v - b.getHigh)) (v - max a.getLow (v - b.getHigh)) ⟨by omega,by omega⟩ ⟨by omega,by omega⟩
    rwa [show max a.getLow (v - b.getHigh) + (v - max a.getLow (v - b.getHigh)) = v by omega] at this
  · intro all x y hx hy
    exact all (x + y) (Int.add_le_add hx.1 hy.1) (Int.add_le_add hx.2 hy.2)

theorem differencesSpan {t : DataType} {a b : IntegralConstraint} (left : a.Valid t) (right : b.Valid t)
    (p : Int → Prop) :
    (∀ x y, a.Contains x → b.Contains y → p (x - y)) ↔
      ∀ v, a.getLow - b.getHigh ≤ v → v ≤ a.getHigh - b.getLow → p v := by
  have leftOrder := left.2.2.1
  have rightOrder := right.2.2.1
  constructor
  · intro all v lower upper
    have := all (max a.getLow (v + b.getLow)) (max a.getLow (v + b.getLow) - v) ⟨by omega,by omega⟩ ⟨by omega,by omega⟩
    rwa [show max a.getLow (v + b.getLow) - (max a.getLow (v + b.getLow) - v) = v by omega] at this
  · intro all x y hx hy
    exact all (x - y) (Int.sub_le_sub hx.1 hy.2) (Int.sub_le_sub hx.2 hy.1)

theorem negationsOverflow {t : DataType} {child : VPConstraint} (valid : child.Valid t) :
    (∀ x, child.Contains x → ¬ InRange t.bits (-x)) ↔ child.lastHigh t = t.getMinSigned := by
  obtain ⟨_,highIn,bounds⟩ := validBounds valid
  have inside := containsInRange valid highIn
  have pos := halfPos t.bits
  simp only [InRange,DataType.getMinSigned,minSigned,maxSigned] at inside ⊢
  constructor
  · intro all
    have := all _ highIn
    omega
  · intro high x hx
    have := bounds x hx
    have := containsInRange valid hx
    simp only [InRange,minSigned,maxSigned] at this
    omega

theorem negateTruthful {t : DataType} {child : VPConstraint} (valid : child.Valid t) (table : Table) (consts : Bool) :
    Truthful consts (∀ x, child.Contains x → ¬ InRange t.bits (-x))
        (negate t (factory t) (VPConstraint.headLow t) (VPConstraint.lastHigh t) table child).1 ↔
      if child.lastHigh t = t.getMinSigned then consts = false
      else t = .Int64 → HonestPiece table (-child.lastHigh t)
        (-(if child.headLow t = t.getMinSigned then child.headLow t + 1 else child.headLow t)) true := by
  obtain ⟨lowIn,highIn,bounds⟩ := validBounds valid
  have order := (bounds _ lowIn).2
  have lowRange := containsInRange valid lowIn
  have highRange := containsInRange valid highIn
  have always := negationsOverflow valid
  simp only [negate]
  by_cases bottom : child.lastHigh t = t.getMinSigned
  · simp only [if_pos bottom]
    rw [overflowedTruthful (Int.le_refl _) consts (always.mpr bottom),if_pos rfl]
  · have notAlways : ¬ ∀ x, child.Contains x → ¬ InRange t.bits (-x) := fun all => bottom (always.mp all)
    have minEq : t.getMinSigned = -half t.bits := rfl
    have maxEq : t.getMaxSigned = half t.bits - 1 := rfl
    simp only [InRange,minSigned,maxSigned] at lowRange highRange
    simp only [if_neg bottom]
    by_cases lowest : child.headLow t = t.getMinSigned
    · simp only [if_pos lowest]
      have oneValue : (factory t table t.getMinSigned t.getMinSigned .yes).1 ≠ none :=
        notFull fun full => by have := t.minLtMax; omega
      obtain ⟨first,hfirst⟩ := Option.ne_none_iff_exists'.mp oneValue
      simp only [hfirst]
      rw [← hfirst,truthfulMerged notAlways oneValue (notFull fun full => by omega),factoryMarkHonest (Int.le_refl _),
        factoryMarkHonest (by omega)]
      have other : t.getMinSigned ≠ -child.lastHigh t := by omega
      exact ⟨fun h wide => (honestPieceAfter wide other).mp (h.2 wide),
        fun h => ⟨fun _ => .inl rfl,fun wide => (honestPieceAfter wide other).mpr (h wide)⟩⟩
    · simp only [if_neg lowest]
      rw [truthfulIntegral,factoryMarkHonest (by omega)]
      exact ⟨fun h => h.2,fun h => ⟨fun _ _ _ _ => notAlways,h⟩⟩

/- The marks of a sum, a difference or a negation are right exactly when the
operands and the table satisfy Honest. -/
theorem metadataTruthful {t : DataType} (request : Request t) (table : Table) (consts : Bool) :
    Truthful consts request.AlwaysOverflows (request.run table).1 ↔ request.Honest table consts := by
  cases request with
  | add a b =>
    have order : a.val.getLow + b.val.getLow ≤ a.val.getHigh + b.val.getHigh :=
      Int.add_le_add a.property.2.2.1 b.property.2.2.1
    have sums := sumsSpan a.property b.property (fun v => ¬ InRange t.bits v)
    simp only [Request.AlwaysOverflows,addOverflows,Request.run,ConstraintArithmetic.add,Request.Honest]
    rw [sums,arithmeticIntegral a.property b.property]
    exact outcomeTruthful order (integralAddOutcome table a.property b.property) consts
  | subtract a b =>
    have order : a.val.getLow - b.val.getHigh ≤ a.val.getHigh - b.val.getLow :=
      Int.sub_le_sub a.property.2.2.1 b.property.2.2.1
    have differences := differencesSpan a.property b.property (fun v => ¬ InRange t.bits v)
    simp only [Request.AlwaysOverflows,subOverflows,Request.run,ConstraintArithmetic.subtract,Request.Honest]
    rw [differences,arithmeticIntegral a.property b.property]
    exact outcomeTruthful order (integralSubtractOutcome table a.property b.property) consts
  | negate child wide =>
    cases t with
    | Int16 => exact absurd rfl wide
    | Int32 => exact negateTruthful child.property.1 table consts
    | Int64 => exact negateTruthful child.property.1 table consts

/- Both operands between two to the 62nd and one more: every sum overflows, and
the range that comes back is marked as one that does not. -/
def overflowingRange : {c : IntegralConstraint // c.Valid .Int64} :=
  ⟨.range .Int64 4611686018427387904 4611686018427387905 .no false,by decide⟩

theorem metadataUntruthful :
    ¬ Truthful false (Request.add overflowingRange overflowingRange).AlwaysOverflows
      ((Request.add overflowingRange overflowingRange).run emptyTable).1 := by
  intro h
  have made : ((Request.add overflowingRange overflowingRange).run emptyTable).1 =
      some (.integral (.range .Int64 (-9223372036854775808) (-9223372036854775806) .no true)) := by decide
  refine h.overflow _ made (.inr rfl) nofun fun x y hx hy => ?_
  have := hx.1
  have := hy.1
  simp only [overflowingRange,IntegralConstraint.getLow] at *
  simp [addOverflows,InRange,minSigned,maxSigned,half,DataType.bits]
  omega

end OmrCompiler.ConstraintMetadata
