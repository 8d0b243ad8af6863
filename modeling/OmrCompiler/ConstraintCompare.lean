import OmrCompiler.Constraint

/-! The absolute comparison queries mustBeEqual, mustBeNotEqual, mustBeLessThan
and mustBeLessThanOrEqual of VPConstraint.cpp, for constraints of any two types.
Ordered queries compare the bound of one side with an accessor of the other that
falls back to the whole type. -/
namespace OmrCompiler.ConstraintCompare
open MachineInt Constraint

def mustBeEqual (this other : VPConstraint) : Bool :=
  match this, other with
  | .integral (.const t v), .integral (.const t' v') => t' = t ∧ v' = v
  | _, _ => false

def integralNotEqual (this other : IntegralConstraint) : Bool :=
  other.type = this.type ∧ (this.getHigh < other.getLow ∨ this.getLow > other.getHigh)

def integralMustBeNotEqual (this : IntegralConstraint) (other : VPConstraint) : Bool :=
  match other with
  | .integral other => integralNotEqual this other
  | .merged list => VPConstraint.listType list = this.type ∧ list.all (integralNotEqual this)

def VPShortConstraint.mustBeNotEqual := integralMustBeNotEqual

def VPIntConstraint.mustBeNotEqual := integralMustBeNotEqual

def VPLongConstraint.mustBeNotEqual := integralMustBeNotEqual

def mustBeNotEqual (this other : VPConstraint) : Bool :=
  match this, other with
  | .integral c, other => integralMustBeNotEqual c other
  | .merged list, .integral c => integralMustBeNotEqual c (.merged list)
  | .merged list, .merged others => list.all (fun c => integralMustBeNotEqual c (.merged others))

def VPMergedConstraints.mustBeLessThan (list : List IntegralConstraint) (other : VPConstraint) : Bool :=
  let this := VPConstraint.merged list
  match VPConstraint.listType list with
  | .Int16 => this.getHighShort < other.getLowShort
  | .Int64 => this.getHighLong < other.getLowLong
  | .Int32 => this.getHighInt < other.getLowInt

-- The list query has no short case.
def VPMergedConstraints.mustBeLessThanOrEqual (list : List IntegralConstraint) (other : VPConstraint) : Bool :=
  let this := VPConstraint.merged list
  if VPConstraint.listType list = .Int64 then this.getHighLong ≤ other.getLowLong
  else this.getHighInt ≤ other.getLowInt

def mustBeLessThan (this other : VPConstraint) : Bool :=
  match this with
  | .integral c => c.getHigh < other.headLow c.type
  | .merged list => VPMergedConstraints.mustBeLessThan list other

def mustBeLessThanOrEqual (this other : VPConstraint) : Bool :=
  match this with
  | .integral c => c.getHigh ≤ other.headLow c.type
  | .merged list => VPMergedConstraints.mustBeLessThanOrEqual list other

/- Two constraints of type t and u, with the bounds that the queries see. -/
theorem headLowOther {t u : DataType} {c : VPConstraint} (valid : c.Valid u) (other : u ≠ t) :
    c.headLow t = t.getMinSigned := by
  match c, valid with
  | .integral c, valid => simp [VPConstraint.headLow,VPConstraint.integralLow,valid.1,other]
  | .merged (first :: rest), valid =>
    simp [VPConstraint.headLow,VPConstraint.integralLow,(valid.2.1 first (by simp)).1,other]

theorem lastHighOther {t u : DataType} {c : VPConstraint} (valid : c.Valid u) (other : u ≠ t) :
    c.lastHigh t = t.getMaxSigned := by
  match c, valid with
  | .integral c, valid => simp [VPConstraint.lastHigh,VPConstraint.integralHigh,valid.1,other]
  | .merged list, valid =>
    cases last : list.getLast? with
    | none => simp [VPConstraint.lastHigh,last]
    | some e => simp [VPConstraint.lastHigh,last,VPConstraint.integralHigh,(valid.2.1 e (List.mem_of_getLast? last)).1,other]

/- A list of more than one entry does not end at the minimum of its type. -/
theorem listAboveMin {t : DataType} {list : List IntegralConstraint} (valid : VPConstraint.Canonical t list) :
    t.getMinSigned < (VPConstraint.merged list).lastHigh t := by
  match list, valid with
  | first :: second :: rest, valid =>
    have whole : (VPConstraint.merged (first :: second :: rest)).Valid t := valid
    have gap := (List.pairwise_cons.mp valid.2.2).1 second (by simp)
    have firstValid := (valid.2.1 first (by simp)).2
    have secondValid := (valid.2.1 second (by simp)).2
    have inside := (validBounds whole).2.2 second.getLow ⟨second,by simp,Int.le_refl _,secondValid.2.1⟩
    omega

theorem mustBeEqualSound {a b : VPConstraint} (h : mustBeEqual a b = true) {x y : Int} (hx : a.Contains x)
    (hy : b.Contains y) : x = y := by
  match a, b with
  | .integral (.const _ v), .integral (.const _ v') =>
    simp only [mustBeEqual,decide_eq_true_eq] at h
    have := hx.1; have := hx.2; have := hy.1; have := hy.2
    simp only [IntegralConstraint.getLow,IntegralConstraint.getHigh] at *
    omega
  | .integral (.const _ _), .integral (.range _ _ _ _ _) => cases h
  | .integral (.const _ _), .merged _ => cases h
  | .integral (.range _ _ _ _ _), _ => cases h
  | .merged _, _ => cases h

theorem integralNotEqualSound {c d : IntegralConstraint} (h : integralNotEqual c d = true) {x y : Int}
    (hx : c.Contains x) (hy : d.Contains y) : x ≠ y := by
  simp only [integralNotEqual,decide_eq_true_eq] at h
  simp only [IntegralConstraint.Contains] at hx hy
  omega

theorem integralMustBeNotEqualSound {c : IntegralConstraint} {b : VPConstraint}
    (h : integralMustBeNotEqual c b = true) {x y : Int} (hx : c.Contains x) (hy : b.Contains y) : x ≠ y := by
  cases b with
  | integral d => exact integralNotEqualSound h hx hy
  | merged list =>
    simp only [integralMustBeNotEqual,decide_eq_true_eq,List.all_eq_true] at h
    obtain ⟨d,hd,inside⟩ := hy
    exact integralNotEqualSound (h.2 d hd) hx inside

theorem mustBeNotEqualSound {a b : VPConstraint} (h : mustBeNotEqual a b = true) {x y : Int} (hx : a.Contains x)
    (hy : b.Contains y) : x ≠ y := by
  match a, b with
  | .integral c, b => exact integralMustBeNotEqualSound h hx hy
  | .merged list, .integral d => exact (integralMustBeNotEqualSound (b := .merged list) h hy hx).symm
  | .merged list, .merged others =>
    simp only [mustBeNotEqual,List.all_eq_true] at h
    obtain ⟨c,hc,inside⟩ := hx
    exact integralMustBeNotEqualSound (h c hc) inside hy

/- The two ways in which an ordered query goes wrong: a short list answers with
the upper bound of its first entry, and a constraint that ends at the minimum of
its type takes the fallback of the other side for a true bound. -/
def HeadDefect (t u : DataType) (a b : VPConstraint) : Prop :=
  t = .Int16 ∧ u = .Int16 ∧ a.getHighShort < b.headLow u ∧ b.headLow u ≤ a.lastHigh t

def FloorDefect (t u : DataType) (a b : VPConstraint) : Prop :=
  u ≠ t ∧ a.lastHigh t = t.getMinSigned ∧ b.headLow u < t.getMinSigned

instance (t u : DataType) (a b : VPConstraint) : Decidable (HeadDefect t u a b) := inferInstanceAs (Decidable (_ ∧ _))

instance (t u : DataType) (a b : VPConstraint) : Decidable (FloorDefect t u a b) := inferInstanceAs (Decidable (_ ∧ _))

-- The upper bound that mustBeLessThan reads.
def queryHigh (t : DataType) (a : VPConstraint) : Int := if t = .Int16 then a.getHighShort else a.lastHigh t

section Ordered
variable {t u : DataType} {a b : VPConstraint}

theorem allLess (left : a.Valid t) (right : b.Valid u) :
    (∀ x y, a.Contains x → b.Contains y → x < y) ↔ a.lastHigh t < b.headLow u := by
  obtain ⟨_,highIn,leftBounds⟩ := validBounds left
  obtain ⟨lowIn,_,rightBounds⟩ := validBounds right
  constructor
  · intro all
    exact all _ _ highIn lowIn
  · intro less x y hx hy
    have := leftBounds x hx
    have := rightBounds y hy
    omega

theorem allLessOrEqual (left : a.Valid t) (right : b.Valid u) :
    (∀ x y, a.Contains x → b.Contains y → x ≤ y) ↔ a.lastHigh t ≤ b.headLow u := by
  obtain ⟨_,highIn,leftBounds⟩ := validBounds left
  obtain ⟨lowIn,_,rightBounds⟩ := validBounds right
  constructor
  · intro all
    exact all _ _ highIn lowIn
  · intro less x y hx hy
    have := leftBounds x hx
    have := rightBounds y hy
    omega

theorem integralHighs {c : IntegralConstraint} (valid : c.Valid t) :
    (VPConstraint.integral c).lastHigh t = c.getHigh ∧ queryHigh t (.integral c) = c.getHigh := by
  have high : (VPConstraint.integral c).lastHigh t = c.getHigh := by
    simp [VPConstraint.lastHigh,VPConstraint.integralHigh,valid.1]
  refine ⟨high,?_⟩
  unfold queryHigh
  split
  · rename_i short
    subst short
    exact high
  · exact high

theorem mustBeLessThanReads (left : a.Valid t) : mustBeLessThan a b = decide (queryHigh t a < b.headLow t) := by
  cases a with
  | integral c => rw [(integralHighs left).2,mustBeLessThan,left.1]
  | merged list =>
    have type := listTypeValid left
    cases t <;> simp [mustBeLessThan,VPMergedConstraints.mustBeLessThan,type] <;> rfl

theorem queryHighContained (left : a.Valid t) : a.Contains (queryHigh t a) := by
  unfold queryHigh
  split
  · rename_i short
    subst short
    match a, left with
    | .integral c, left => exact (validBounds left).2.1
    | .merged (first :: rest), left =>
      have firstValid := left.2.1 first (by simp)
      have high : (VPConstraint.merged (first :: rest)).getHighShort = first.getHigh := by
        simp [VPConstraint.getHighShort,VPConstraint.integralHigh,firstValid.1]
      rw [high]
      exact ⟨first,by simp,firstValid.2.2.1,Int.le_refl _⟩
  · exact (validBounds left).2.1

theorem mustBeLessThanSound (left : a.Valid t) (right : b.Valid u) :
    (mustBeLessThan a b = true → ∀ x y, a.Contains x → b.Contains y → x < y) ↔ ¬ HeadDefect t u a b := by
  have inside := queryHighContained left
  have bounded := (validBounds left).2.2 _ inside
  have inRange := (containsInRange left inside).1
  rw [mustBeLessThanReads left,decide_eq_true_eq,allLess left right]
  by_cases same : u = t
  · subst same
    simp only [HeadDefect]
    by_cases short : u = .Int16
    · have query : queryHigh u a = a.getHighShort := if_pos short
      rw [query]
      simp only [short,true_and]
      omega
    · have query : queryHigh u a = a.lastHigh u := if_neg short
      rw [query]
      simp [short]
  · rw [headLowOther right same]
    refine iff_of_true (fun less => ?_) fun h => same (h.2.1.trans h.1.symm)
    simp only [DataType.getMinSigned] at less
    omega

theorem mustBeLessThanOrEqualReads (left : a.Valid t) (right : b.Valid u) :
    (mustBeLessThanOrEqual a b = true ↔ a.lastHigh t ≤ b.headLow t) ∨
      (t.getMinSigned < a.lastHigh t ∧ (mustBeLessThanOrEqual a b = true → a.lastHigh t ≤ b.headLow u)) := by
  cases a with
  | integral c =>
    refine .inl ?_
    rw [(integralHighs left).1,mustBeLessThanOrEqual,left.1,decide_eq_true_eq]
  | merged list =>
    have type := listTypeValid left
    cases t with
    | Int32 => exact .inl (by simp [mustBeLessThanOrEqual,VPMergedConstraints.mustBeLessThanOrEqual,type]; rfl)
    | Int64 => exact .inl (by simp [mustBeLessThanOrEqual,VPMergedConstraints.mustBeLessThanOrEqual,type]; rfl)
    | Int16 =>
      refine .inr ⟨listAboveMin left,fun h => ?_⟩
      -- A short list answers the int accessor with the fallback.
      have high : (VPConstraint.merged list).getHighInt = DataType.Int32.getMaxSigned := lastHighOther left (by decide)
      have inRange := (containsInRange left (validBounds left).2.1).2
      have reads : DataType.Int32.getMaxSigned ≤ b.getLowInt := by
        simpa [mustBeLessThanOrEqual,VPMergedConstraints.mustBeLessThanOrEqual,type,high] using h
      change _ ≤ b.headLow .Int32 at reads
      by_cases int : u = .Int32
      · subst int
        have wider : maxSigned DataType.Int16.bits ≤ DataType.Int32.getMaxSigned := by decide
        omega
      · rw [headLowOther right int] at reads
        exact absurd reads (by decide)

theorem mustBeLessThanOrEqualSound (left : a.Valid t) (right : b.Valid u) :
    (mustBeLessThanOrEqual a b = true → ∀ x y, a.Contains x → b.Contains y → x ≤ y) ↔ ¬ FloorDefect t u a b := by
  have inRange := (containsInRange left (validBounds left).2.1).1
  have minEq : t.getMinSigned = minSigned t.bits := rfl
  rw [allLessOrEqual left right]
  rcases mustBeLessThanOrEqualReads left right with reads | ⟨above,sound⟩
  · rw [reads]
    by_cases same : u = t
    · subst same
      exact iff_of_true id fun h => h.1 rfl
    · rw [headLowOther right same]
      simp only [FloorDefect,same,ne_eq,not_false_eq_true,true_and]
      omega
  · exact iff_of_true sound fun h => by have := h.2.1; omega

theorem mustBeLessThanFires (left : a.Valid t) (right : b.Valid u) (h : mustBeLessThan a b = true) :
    u = t ∧ queryHigh t a < b.headLow u := by
  rw [mustBeLessThanReads left,decide_eq_true_eq] at h
  by_cases same : u = t
  · subst same
    exact ⟨rfl,h⟩
  · rw [headLowOther right same] at h
    have inRange := (containsInRange left (queryHighContained left)).1
    simp only [DataType.getMinSigned] at h
    omega

theorem mustBeLessThanOrEqualFires (left : a.Valid t) (right : b.Valid u) (h : mustBeLessThanOrEqual a b = true) :
    a.lastHigh t ≤ b.headLow u ∨ (u ≠ t ∧ a.lastHigh t = t.getMinSigned) := by
  rcases mustBeLessThanOrEqualReads left right with reads | ⟨_,sound⟩
  · have read := reads.mp h
    by_cases same : u = t
    · subst same
      exact .inl read
    · rw [headLowOther right same] at read
      have inRange := (containsInRange left (validBounds left).2.1).1
      simp only [DataType.getMinSigned] at read ⊢
      exact .inr ⟨same,by omega⟩
  · exact .inl (sound h)

-- The two queries of a compare never both answer yes.
theorem queriesExclusive (left : a.Valid t) (right : b.Valid u) (less : mustBeLessThan a b = true) :
    mustBeLessThanOrEqual b a = false := by
  obtain ⟨same,below⟩ := mustBeLessThanFires left right less
  by_contra notFalse
  have fires := mustBeLessThanOrEqualFires right left (by simpa using notFalse)
  have inLeft := (validBounds left).2.2 _ (queryHighContained left)
  have inRight := (validBounds right).2.2 _ (validBounds right).1
  rcases fires with order | ⟨other,_⟩
  · omega
  · exact other same.symm

end Ordered

def QueriesSound (a b : VPConstraint) : Prop :=
  (mustBeEqual a b = true → ∀ x y, a.Contains x → b.Contains y → x = y) ∧
    (mustBeNotEqual a b = true → ∀ x y, a.Contains x → b.Contains y → x ≠ y) ∧
    (mustBeLessThan a b = true → ∀ x y, a.Contains x → b.Contains y → x < y) ∧
    (mustBeLessThanOrEqual a b = true → ∀ x y, a.Contains x → b.Contains y → x ≤ y)

/- All four queries are sound on a pair exactly when neither defect is met. -/
theorem queriesSoundIff {t u : DataType} {a b : VPConstraint} (left : a.Valid t) (right : b.Valid u) :
    QueriesSound a b ↔ ¬ HeadDefect t u a b ∧ ¬ FloorDefect t u a b := by
  rw [QueriesSound,mustBeLessThanSound left right,mustBeLessThanOrEqualSound left right]
  exact ⟨fun h => h.2.2,fun h => ⟨fun eq _ _ => mustBeEqualSound eq,fun ne _ _ => mustBeNotEqualSound ne,h⟩⟩

end OmrCompiler.ConstraintCompare
