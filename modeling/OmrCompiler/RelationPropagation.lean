import OmrCompiler.ConstraintArithmetic
import OmrCompiler.ConstraintMerge
import OmrCompiler.RelationArithmetic

/-! Propagation through relations: getComplement, merge, intersect,
propagateAbsoluteConstraint and propagateRelativeConstraint of the four relation
classes of VPConstraint.cpp. Relation objects come from the hash table, one for a
kind and an increment, and carry their mark with them. -/
namespace OmrCompiler.RelationPropagation
open MachineInt Constraint ConstraintTable ConstraintArithmetic ConstraintRelation RelationArithmetic

-- A relation object, named by its key in the hash table.
structure Handle where
  kind : Kind
  increment : Int
  deriving DecidableEq, Repr

-- hasArtificialIncrement of the objects; one that has not been created is not marked.
abbrev Marks := Handle → Bool

def Marks.setHasArtificialIncrement (marks : Marks) (rel : Handle) : Marks := fun object => object = rel || marks object

def Marks.markIf (marks : Marks) (flag : Bool) (rel : Handle) : Marks :=
  if flag then marks.setHasArtificialIncrement rel else marks

def Marks.read (marks : Marks) (rel : Handle) : VPRelation := ⟨rel.kind,rel.increment,marks rel⟩

def create (kind : Kind) (incr : Int) : Handle := ⟨kind,wrap 32 incr⟩

def getComplement (marks : Marks) (this : Handle) : Handle × Marks :=
  match this.kind with
  | .lessThanOrEqual =>
      let rel := create .greaterThanOrEqual (-this.increment)
      (rel,marks.markIf (marks this) rel)
  | .greaterThanOrEqual =>
      let rel := create .lessThanOrEqual (-this.increment)
      (rel,marks.markIf (marks this) rel)
  | .equal => if this.increment = 0 then (this,marks) else (create .equal (-this.increment),marks)
  | .notEqual => if this.increment = 0 then (this,marks) else (create .notEqual (-this.increment),marks)

def priority : Kind → Nat
  | .equal => 19
  | .greaterThanOrEqual => 18
  | .lessThanOrEqual => 17
  | .notEqual => 16

def merge1 (this other : Handle) : Option Handle :=
  match this.kind, other.kind with
  | .lessThanOrEqual, .lessThanOrEqual => if other.increment < this.increment then some this else some other
  | .greaterThanOrEqual, .greaterThanOrEqual => if other.increment > this.increment then some this else some other
  | .equal, .greaterThanOrEqual => if other.increment ≤ this.increment then some other else none
  | .equal, .lessThanOrEqual => if other.increment ≥ this.increment then some other else none
  | _, _ => none

def merge (this other : Handle) : Option Handle :=
  if this = other then some this
  else if priority other.kind > priority this.kind then merge1 other this
  else merge1 this other

def intersect1 (marks : Marks) (this other : Handle) : Option Handle × Marks :=
  match this.kind, other.kind with
  | .lessThanOrEqual, .notEqual =>
      if other.increment ≠ this.increment then (some this,marks)
      else
        let rel := create .lessThanOrEqual (this.increment - 1)
        (some rel,marks.markIf (marks this) rel)
  | .lessThanOrEqual, .lessThanOrEqual =>
      if other.increment < this.increment then (some other,marks) else (some this,marks)
  | .greaterThanOrEqual, .notEqual =>
      if other.increment ≠ this.increment then (some this,marks)
      else
        let rel := create .greaterThanOrEqual (this.increment + 1)
        (some rel,marks.markIf (marks this) rel)
  | .greaterThanOrEqual, .lessThanOrEqual =>
      if other.increment = this.increment then (some (create .equal this.increment),marks) else (some this,marks)
  | .greaterThanOrEqual, .greaterThanOrEqual =>
      if other.increment > this.increment then (some other,marks) else (some this,marks)
  | .notEqual, .notEqual => if other.increment = 0 then (some other,marks) else (some this,marks)
  | .equal, .notEqual => if other.increment ≠ this.increment then (some this,marks) else (none,marks)
  | .equal, .lessThanOrEqual => (some this,marks)
  | .equal, .greaterThanOrEqual => (some this,marks)
  | .equal, .equal => if other.increment ≠ this.increment then (none,marks) else (some this,marks)
  | _, _ => (none,marks)

def intersect (marks : Marks) (this other : Handle) : Option Handle × Marks :=
  if this = other then (some this,marks)
  else if priority other.kind > priority this.kind then intersect1 marks other this
  else intersect1 marks this other

/- Absolute constraints. The branches of a long constraint and of any other are
the same but for the type. -/
def absoluteType (constraint : VPConstraint) : DataType := if constraint.asLongConstraint.isSome then .Int64 else .Int32

abbrev Absolute := Option VPConstraint × Table

def asConstraint (made : Option IntegralConstraint × Table) : Absolute := (made.1.map VPConstraint.integral,made.2)

def lessThanOrEqualAbsolute (table : Table) (increment : Int) (constraint : VPConstraint) : Absolute :=
  let t := absoluteType constraint
  let oldBound := constraint.headLow t
  let newBound := wrap t.bits (oldBound - increment)
  if increment < 0 then (none,table)
  else if newBound > oldBound then (none,table)
  else asConstraint (factory t table newBound (t.getMaxSigned - increment) .no)

def greaterThanOrEqualAbsolute (table : Table) (increment : Int) (constraint : VPConstraint) : Absolute :=
  let t := absoluteType constraint
  let oldBound := constraint.lastHigh t
  let newBound := wrap t.bits (oldBound - increment)
  if increment > 0 then (none,table)
  else if newBound < oldBound then (none,table)
  else asConstraint (factory t table (t.getMinSigned - increment) newBound .no)

def equalAbsolute (table : Table) (increment : Int) (constraint : VPConstraint) : Absolute :=
  if increment ≠ 0 then
    if constraint.asLongConstraint.isSome then
      let made := ConstraintTable.createConst table .Int64 increment
      subtract made.2 constraint (.integral made.1) .Int64
    else if constraint.asIntConstraint.isSome then
      let made := ConstraintTable.createConst table .Int32 increment
      subtract made.2 constraint (.integral made.1) .Int32
    else (none,table)
  else (some constraint,table)

-- Everything but one value.
def excluding (t : DataType) (table : Table) (excludedValue : Int) : Absolute :=
  let below :=
    if excludedValue ≠ t.getMinSigned then factory t table t.getMinSigned (excludedValue - 1) .no else (none,table)
  if excludedValue ≠ t.getMaxSigned then
    let above := factory t below.2 (excludedValue + 1) t.getMaxSigned .no
    match below.1, above.1 with
    | some low, some high => (ConstraintMerge.merge (.integral low) (.integral high),above.2)
    | none, _ => asConstraint above
    | some _, none => (none,above.2)
  else asConstraint below

def notEqualAbsolute (table : Table) (increment : Int) (constraint : VPConstraint) : Absolute :=
  match constraint with
  | .integral (.const .Int64 value) => excluding .Int64 table (wrap 64 (value - increment))
  | .integral (.const .Int32 value) => excluding .Int32 table (wrap 32 (value - increment))
  | _ => (none,table)

def propagateAbsoluteConstraint (table : Table) (this : Handle) (constraint : VPConstraint) : Absolute :=
  match this.kind with
  | .lessThanOrEqual => lessThanOrEqualAbsolute table this.increment constraint
  | .greaterThanOrEqual => greaterThanOrEqualAbsolute table this.increment constraint
  | .equal => equalAbsolute table this.increment constraint
  | .notEqual => notEqualAbsolute table this.increment constraint

-- The increment of the result, unless it is the minimum or the subtraction overflows.
def newIncrement (this other : Handle) : Option Int :=
  let newIncr := wrap 32 (other.increment - this.increment)
  if newIncr = minSigned 32 then none
  else if this.increment ≥ 0 then (if newIncr > other.increment then none else some newIncr)
  else if newIncr < other.increment then none
  else some newIncr

-- The mark is copied from the side whose increment goes over unchanged.
def copyMark (marks : Marks) (this other : Handle) (ownToo : Bool) (rel : Handle) : Marks :=
  if rel.increment = other.increment then marks.markIf (marks other) rel
  else if ownToo ∧ rel.increment = -1 * this.increment then marks.markIf (marks this) rel
  else marks

def related (marks : Marks) (this other : Handle) (kind : Kind) (mark : Handle → Marks) : Option Handle × Marks :=
  match newIncrement this other with
  | some newIncr => (some (create kind newIncr),mark (create kind newIncr))
  | none => (none,marks)

def propagateRelativeConstraint (marks : Marks) (this other : Handle) : Option Handle × Marks :=
  match this.kind, other.kind with
  | .lessThanOrEqual, .greaterThanOrEqual =>
      related marks this other .greaterThanOrEqual (copyMark marks this other true)
  | .lessThanOrEqual, .equal => related marks this other .greaterThanOrEqual (copyMark marks this other true)
  | .greaterThanOrEqual, .lessThanOrEqual => related marks this other .lessThanOrEqual (copyMark marks this other true)
  | .greaterThanOrEqual, .equal => related marks this other .lessThanOrEqual (copyMark marks this other true)
  | .equal, .lessThanOrEqual => related marks this other .lessThanOrEqual (copyMark marks this other true)
  | .equal, .greaterThanOrEqual => related marks this other .greaterThanOrEqual (copyMark marks this other false)
  | .equal, .notEqual => related marks this other .notEqual fun _ => marks
  | .equal, .equal => related marks this other .equal fun _ => marks
  | .notEqual, .equal => related marks this other .notEqual fun _ => marks
  | _, _ => (none,marks)

section Marks
variable {marks : Marks} {this other rel : Handle}

theorem readMarked (marks : Marks) (flag : Bool) (rel : Handle) :
    (marks.markIf flag rel).read rel = ⟨rel.kind,rel.increment,marks rel || flag⟩ := by
  cases flag <;> simp [Marks.markIf,Marks.setHasArtificialIncrement,Marks.read]

theorem createAdmitted {k : Kind} {n : Int} (inside : InRange 32 n) : create k n = ⟨k,n⟩ := by
  rw [create,wrapSelf (by decide) inside]

theorem newIncrementExact (hi : Admitted this.increment) (hj : Admitted other.increment) :
    newIncrement this other =
      if Admitted (other.increment - this.increment) then some (other.increment - this.increment) else none := by
  have least : minSigned 32 = -2147483648 := rfl
  have turns := wrap32 (v := other.increment - this.increment) (by unfold Admitted at *; omega) (by unfold Admitted at *; omega)
  simp only [newIncrement,least]
  unfold Turns at turns
  generalize wrap 32 (other.increment - this.increment) = newIncr at *
  by_cases fits : Admitted (other.increment - this.increment)
  · rw [if_pos fits]
    unfold Admitted at hi hj fits
    have same : newIncr = other.increment - this.increment := by omega
    rw [same,if_neg (by omega)]
    split <;> rw [if_neg (by omega)]
  · rw [if_neg fits]
    unfold Admitted at hi hj fits
    split
    · rfl
    · split <;> rw [if_pos (by omega)]

-- The mark of the result of propagateRelativeConstraint.
def resultMark (marks : Marks) (this other : Handle) (k : Kind) : Bool :=
  marks ⟨k,other.increment - this.increment⟩ || (decide (this.increment = 0) && marks other) ||
    (decide (this.increment ≠ 0 ∧ other.increment = 0) && marks this)

theorem copyMarkReads (marks : Marks) (this other : Handle) (k : Kind) :
    (copyMark marks this other true ⟨k,other.increment - this.increment⟩).read ⟨k,other.increment - this.increment⟩ =
      ⟨k,other.increment - this.increment,resultMark marks this other k⟩ := by
  unfold copyMark resultMark
  by_cases zero : this.increment = 0
  · simp [zero,readMarked]
  · by_cases rest : other.increment = 0
    · simp [zero,rest,readMarked]
    · have apart : ¬ other.increment - this.increment = other.increment := by omega
      have moved : ¬ other.increment - this.increment = -this.increment := by omega
      simp [zero,rest,apart,moved,Marks.read]

end Marks

section Relative
variable (marks : Marks) (this other : Handle)

def RelativeSound : Prop :=
  ∀ rel, (propagateRelativeConstraint marks this other).1 = some rel →
    Transfers (marks.read this) (marks.read other) ((propagateRelativeConstraint marks this other).2.read rel)

-- Nothing is propagated where the new increment overflows or is the minimum.
def RelativeCondition : Prop :=
  Admitted (other.increment - this.increment) →
    match this.kind, other.kind with
    | .lessThanOrEqual, .greaterThanOrEqual =>
        this.increment = 0 ∨ Carries (marks this) (marks other) (resultMark marks this other .greaterThanOrEqual)
          this.increment other.increment
    | .lessThanOrEqual, .equal =>
        CarriesEqual (marks this) (marks other) (resultMark marks this other .greaterThanOrEqual)
          this.increment other.increment
    | .greaterThanOrEqual, .lessThanOrEqual =>
        this.increment = 0 ∨ Carries (marks this) (marks other) (resultMark marks this other .lessThanOrEqual)
          (-this.increment) (-other.increment)
    | .greaterThanOrEqual, .equal =>
        CarriesEqual (marks this) (marks other) (resultMark marks this other .lessThanOrEqual)
          (-this.increment) (-other.increment)
    | .equal, .lessThanOrEqual =>
        this.increment = 0 ∨ Carries (marks this) (marks other) (resultMark marks this other .lessThanOrEqual)
          (-this.increment) (-other.increment)
    | .equal, .greaterThanOrEqual =>
        this.increment = 0 ∨ Carries (marks this) (marks other)
          (marks ⟨.greaterThanOrEqual,other.increment - this.increment⟩) this.increment other.increment
    | .equal, .notEqual =>
        Separates (marks this) (marks other) (marks ⟨.notEqual,other.increment - this.increment⟩)
          this.increment other.increment
    | .equal, .equal =>
        Joins (marks this) (marks other) (marks ⟨.equal,other.increment - this.increment⟩) this.increment other.increment
    | .notEqual, .equal =>
        SeparatesBack (marks this) (marks other) (marks ⟨.notEqual,other.increment - this.increment⟩)
          this.increment other.increment
    | _, _ => True

variable {marks this other}

-- What a row with a result comes to.
theorem relatedSound (k : Kind) (mark : Handle → Marks) (h : Bool) (hi : Admitted this.increment)
    (hj : Admitted other.increment) {condition : Prop}
    (row : propagateRelativeConstraint marks this other = related marks this other k mark)
    (reads : (mark ⟨k,other.increment - this.increment⟩).read ⟨k,other.increment - this.increment⟩ =
      ⟨k,other.increment - this.increment,h⟩)
    (exact : Admitted (other.increment - this.increment) →
      (Transfers (marks.read this) (marks.read other) ⟨k,other.increment - this.increment,h⟩ ↔ condition)) :
    RelativeSound marks this other ↔ (Admitted (other.increment - this.increment) → condition) := by
  rw [RelativeSound,row,related,newIncrementExact hi hj]
  by_cases fits : Admitted (other.increment - this.increment)
  · simp only [if_pos fits,createAdmitted (admittedRange fits),Option.some.injEq,forall_eq',reads]
    rw [exact fits]
    exact ⟨fun h _ => h,fun h => h fits⟩
  · simp only [if_neg fits]
    exact iff_of_true (fun rel h => by cases h) fun h => absurd h fits

-- With increment zero the result is the other relation itself.
theorem orderedTransfers {r s : VPRelation} {k : Kind} {h : Bool} {i j : Int} {condition : Prop}
    (unchanged : i = 0 → Transfers r s ⟨k,j - i,h⟩) (moved : i ≠ 0 → (Transfers r s ⟨k,j - i,h⟩ ↔ condition)) :
    Transfers r s ⟨k,j - i,h⟩ ↔ i = 0 ∨ condition := by
  by_cases zero : i = 0
  · exact iff_of_true (unchanged zero) (.inl zero)
  · rw [moved zero,or_iff_right zero]

theorem resultMarkZero {k : Kind} (zero : this.increment = 0) :
    resultMark marks this other k = (marks ⟨k,other.increment⟩ || marks other) := by
  simp [resultMark,zero]

-- A row of propagateRelativeConstraint that copies both marks.
theorem copiedSound (k : Kind) (hi : Admitted this.increment) (hj : Admitted other.increment) {condition : Prop}
    (row : propagateRelativeConstraint marks this other = related marks this other k (copyMark marks this other true))
    (exact : Admitted (other.increment - this.increment) →
      (Transfers (marks.read this) (marks.read other) ⟨k,other.increment - this.increment,resultMark marks this other k⟩ ↔
        condition)) :
    RelativeSound marks this other ↔ (Admitted (other.increment - this.increment) → condition) :=
  relatedSound k _ _ hi hj row (copyMarkReads marks this other k) exact

theorem relativeSoundIff (hi : Admitted this.increment) (hj : Admitted other.increment) :
    RelativeSound marks this other ↔ RelativeCondition marks this other := by
  obtain ⟨kind,i⟩ := this
  obtain ⟨otherKind,j⟩ := other
  have kept : ∀ k, i = 0 → marks ⟨otherKind,j⟩ = true → resultMark marks ⟨kind,i⟩ ⟨otherKind,j⟩ k = true := by
    intro k zero marked
    rw [resultMarkZero zero]
    simp [marked]
  have same : i = 0 → resultMark marks ⟨kind,i⟩ ⟨otherKind,j⟩ otherKind = marks ⟨otherKind,j⟩ := by
    intro zero
    rw [resultMarkZero zero]
    simp
  cases kind <;> cases otherKind
  all_goals try exact iff_of_true (fun rel h => by cases h) fun _ => trivial
  · exact relatedSound .equal (fun _ => marks) (marks ⟨.equal,j - i⟩) hi hj rfl rfl fun fits => equalEqualTransfers hi hj fits
  · exact relatedSound .notEqual (fun _ => marks) (marks ⟨.notEqual,j - i⟩) hi hj rfl rfl fun fits =>
      equalNotEqualTransfers hi hj fits
  · refine copiedSound .lessThanOrEqual hi hj rfl fun fits => orderedTransfers (fun zero => ?_) fun nonzero =>
      equalLessTransfers hi hj fits nonzero
    rw [same zero]
    subst zero
    rw [Int.sub_zero]
    exact zeroLessTransfers .equal (.inr rfl)
  · refine relatedSound .greaterThanOrEqual _ (marks ⟨.greaterThanOrEqual,j - i⟩) hi hj rfl ?_ fun fits =>
      orderedTransfers (fun zero => ?_) fun nonzero => equalGreaterTransfers hi hj fits nonzero
    · unfold copyMark
      split
      · rename_i unmoved
        replace unmoved : j - i = j := unmoved
        rw [readMarked]
        simp [unmoved]
      · rfl
    · subst zero
      rw [Int.sub_zero]
      exact zeroGreaterTransfers .equal (.inr rfl)
  · exact relatedSound .notEqual (fun _ => marks) (marks ⟨.notEqual,j - i⟩) hi hj rfl rfl fun fits =>
      notEqualEqualTransfers hi hj fits
  · exact copiedSound .greaterThanOrEqual hi hj rfl fun fits => lessEqualTransfers hi hj fits (kept _)
  · refine copiedSound .greaterThanOrEqual hi hj rfl fun fits => orderedTransfers (fun zero => ?_) fun nonzero =>
      lessGreaterTransfers hi hj fits nonzero
    rw [same zero]
    subst zero
    rw [Int.sub_zero]
    exact zeroGreaterTransfers .lessThanOrEqual (.inl rfl)
  · exact copiedSound .lessThanOrEqual hi hj rfl fun fits => greaterEqualTransfers hi hj fits (kept _)
  · refine copiedSound .lessThanOrEqual hi hj rfl fun fits => orderedTransfers (fun zero => ?_) fun nonzero =>
      greaterLessTransfers hi hj fits nonzero
    rw [same zero]
    subst zero
    rw [Int.sub_zero]
    exact zeroLessTransfers .greaterThanOrEqual (.inl rfl)

end Relative

section Single
variable (marks : Marks) (this : Handle)

def ComplementSound : Prop :=
  ∀ x y, InRange 32 x → InRange 32 y → (marks.read this).Holds 32 x y →
    ((getComplement marks this).2.read (getComplement marks this).1).Holds 32 y x

def ComplementCondition : Prop :=
  match this.kind with
  | .lessThanOrEqual => marks this = true ∨ this.increment = 0 ∨ 0 < this.increment ∧ marks ⟨.greaterThanOrEqual,-this.increment⟩ = true
  | .greaterThanOrEqual =>
      marks this = true ∨ this.increment = 0 ∨ this.increment < 0 ∧ marks ⟨.lessThanOrEqual,-this.increment⟩ = true
  | .equal => this.increment = 0 ∨ marks this = true ∨ marks ⟨.equal,-this.increment⟩ = false
  | .notEqual => this.increment = 0 ∨ marks this = false ∨ marks ⟨.notEqual,-this.increment⟩ = true

variable {marks this}

-- The other way round is a transfer along x = z.
theorem reversesIff {r q : VPRelation} (g : Bool) :
    (∀ x y, InRange 32 x → InRange 32 y → r.Holds 32 x y → q.Holds 32 y x) ↔ Transfers r ⟨.equal,0,g⟩ q := by
  constructor
  · intro reverses x y z hx hy hz holds same
    have value : x = z := by
      have read : x = reading g z 0 := same
      rwa [readingZero g hz] at read
    rw [← value]
    exact reverses x y hx hy holds
  · intro transfers x y hx hy holds
    exact transfers x y x hx hy hx holds (readingZero g hx).symm

theorem complementSoundIff (hi : Admitted this.increment) : ComplementSound marks this ↔ ComplementCondition marks this := by
  obtain ⟨kind,i⟩ := this
  have zeroAdmitted : Admitted 0 := by decide
  have negated : Admitted (0 - i) := by
    rw [Int.zero_sub]
    exact admittedTurned hi
  have made : ∀ k, create k (-i) = ⟨k,0 - i⟩ := fun k => by
    rw [Int.zero_sub]
    exact createAdmitted (admittedRange (admittedTurned hi))
  have minus : 0 - i = -i := Int.zero_sub i
  cases kind with
  | lessThanOrEqual =>
    simp only [ComplementSound,getComplement,made,readMarked]
    rw [reversesIff false]
    refine (lessEqualTransfers hi zeroAdmitted negated fun _ h => by cases h).trans ?_
    simp only [ComplementCondition,minus]
    generalize marks ⟨.greaterThanOrEqual,-i⟩ = h
    generalize marks ⟨.lessThanOrEqual,i⟩ = f
    cases f <;> cases h <;> simp [CarriesEqual,Carries]
    omega
  | greaterThanOrEqual =>
    simp only [ComplementSound,getComplement,made,readMarked]
    rw [reversesIff false]
    refine (greaterEqualTransfers hi zeroAdmitted negated fun _ h => by cases h).trans ?_
    simp only [ComplementCondition,minus]
    generalize marks ⟨.greaterThanOrEqual,i⟩ = f
    generalize marks ⟨.lessThanOrEqual,-i⟩ = h
    cases f <;> cases h <;> simp [CarriesEqual,Carries]
    omega
  | equal =>
    by_cases zero : i = 0
    · subst zero
      refine iff_of_true (fun x y hx hy holds => ?_) (.inl rfl)
      replace holds : x = reading (marks ⟨.equal,0⟩) y 0 := holds
      change y = reading (marks ⟨.equal,0⟩) x 0
      rw [readingZero _ hy] at holds
      rw [readingZero _ hx,holds]
    · simp only [ComplementSound,getComplement,if_neg zero,made]
      rw [reversesIff true]
      refine (equalEqualTransfers hi zeroAdmitted negated).trans ?_
      simp only [ComplementCondition,minus,zero,false_or]
      generalize marks ⟨.equal,-i⟩ = h
      generalize marks ⟨.equal,i⟩ = f
      cases f <;> cases h <;> simp [Joins]
      omega
  | notEqual =>
    by_cases zero : i = 0
    · subst zero
      refine iff_of_true (fun x y hx hy holds => ?_) (.inl rfl)
      replace holds : x ≠ reading (marks ⟨.notEqual,0⟩) y 0 := holds
      change y ≠ reading (marks ⟨.notEqual,0⟩) x 0
      rw [readingZero _ hy] at holds
      rw [readingZero _ hx]
      exact holds.symm
    · simp only [ComplementSound,getComplement,if_neg zero,made]
      rw [reversesIff true]
      refine (notEqualEqualTransfers hi zeroAdmitted negated).trans ?_
      simp only [ComplementCondition,minus,zero,false_or]
      generalize marks ⟨.notEqual,-i⟩ = h
      generalize marks ⟨.notEqual,i⟩ = f
      cases f <;> cases h <;> simp [SeparatesBack]
      omega

-- The answers of the queries of a relation.
structure QueriesSound (r : VPRelation) (x y : Int) : Prop where
  equal : r.mustBeEqual = true → x = y
  notEqual : r.mustBeNotEqual = true → x ≠ y
  lessThan : r.mustBeLessThan = true → x < y
  lessThanOrEqual : r.mustBeLessThanOrEqual = true → x ≤ y
  greaterThan : r.mustBeGreaterThan = true → y < x
  greaterThanOrEqual : r.mustBeGreaterThanOrEqual = true → y ≤ x

def QueriesCondition (r : VPRelation) : Prop :=
  match r.kind with
  | .lessThanOrEqual => r.increment < 0 → r.hasArtificialIncrement = true
  | .greaterThanOrEqual => 0 < r.increment → r.hasArtificialIncrement = true
  | _ => True

theorem mustBeNotEqualIff {r : VPRelation} (hi : Admitted r.increment) :
    (∀ x y, InRange 32 x → InRange 32 y → r.Holds 32 x y → r.mustBeNotEqual = true → x ≠ y) ↔ QueriesCondition r := by
  obtain ⟨kind,i,f⟩ := r
  have turns := fun (y : Int) hy => readingTurns (y := y) hy (admittedRange hi)
  simp only [Admitted] at hi
  simp only [Turns,range32] at turns
  cases kind with
  | equal =>
    refine iff_of_true (fun x y hx hy same h => ?_) trivial
    replace same : x = reading f y i := same
    have fact := turns y hy
    have marked := readingMarked y i
    have nonzero : i ≠ 0 := by simpa [VPRelation.mustBeNotEqual] using h
    rw [range32] at hx hy
    cases f <;> omega
  | notEqual =>
    refine iff_of_true (fun x y hx hy other h => ?_) trivial
    replace other : x ≠ reading f y i := other
    have zero : i = 0 := by simpa [VPRelation.mustBeNotEqual] using h
    rwa [zero,readingZero f hy] at other
  | lessThanOrEqual =>
    constructor
    · intro sound negative
      have fails := sound (-2147483648) (-2147483648) (by decide) (by decide)
      have fact := turns (-2147483648) (by decide)
      cases f
      · refine absurd rfl (fails ?_ (by simpa [VPRelation.mustBeNotEqual] using negative))
        change -2147483648 ≤ reading false (-2147483648) i
        simp only at negative
        omega
      · rfl
    · intro condition x y hx hy below h same
      replace below : x ≤ reading f y i := below
      have negative : i < 0 := by simpa [VPRelation.mustBeNotEqual] using h
      have marked : f = true := condition negative
      rw [marked,readingMarked] at below
      omega
  | greaterThanOrEqual =>
    constructor
    · intro sound positive
      have fails := sound 2147483647 2147483647 (by decide) (by decide)
      have fact := turns 2147483647 (by decide)
      cases f
      · refine absurd rfl (fails ?_ (by simpa [VPRelation.mustBeNotEqual] using positive))
        change reading false 2147483647 i ≤ 2147483647
        simp only at positive
        omega
      · rfl
    · intro condition x y hx hy above h same
      replace above : reading f y i ≤ x := above
      have positive : 0 < i := by simpa [VPRelation.mustBeNotEqual] using h
      have marked : f = true := condition positive
      rw [marked,readingMarked] at above
      omega

theorem queriesSoundIff {r : VPRelation} (hi : Admitted r.increment) :
    (∀ x y, InRange 32 x → InRange 32 y → r.Holds 32 x y → QueriesSound r x y) ↔ QueriesCondition r := by
  rw [← mustBeNotEqualIff hi]
  refine ⟨fun sound x y hx hy holds => (sound x y hx hy holds).notEqual,fun sound x y hx hy holds => ?_⟩
  have width : 0 < 32 := by decide
  exact ⟨VPRelation.mustBeEqualSound width hy holds,sound x y hx hy holds,VPRelation.mustBeLessThanSound width hy holds,
    VPRelation.mustBeLessThanOrEqualSound width hy holds,VPRelation.mustBeGreaterThanSound width hy holds,
    VPRelation.mustBeGreaterThanOrEqualSound width hy holds⟩

end Single

section Pair
variable (marks : Marks) (this other : Handle)

def MergeSound : Prop :=
  ∀ rel, merge this other = some rel →
    Includes (marks.read this) (marks.read rel) ∧ Includes (marks.read other) (marks.read rel)

-- For a pair with the receiver of merge1 first.
def merge1Condition : Prop :=
  match this.kind, other.kind with
  | .lessThanOrEqual, .lessThanOrEqual =>
      if other.increment < this.increment then Widens (marks other) (marks this) other.increment this.increment
      else Widens (marks this) (marks other) this.increment other.increment
  | .greaterThanOrEqual, .greaterThanOrEqual =>
      if other.increment > this.increment then Widens (marks other) (marks this) (-other.increment) (-this.increment)
      else Widens (marks this) (marks other) (-this.increment) (-other.increment)
  | .equal, .greaterThanOrEqual =>
      other.increment ≤ this.increment → Bounds (marks this) (marks other) this.increment other.increment
  | .equal, .lessThanOrEqual =>
      this.increment ≤ other.increment → Bounds (marks this) (marks other) (-this.increment) (-other.increment)
  | _, _ => True

-- The relation of higher priority is the receiver.
def ByPriority (condition : Handle → Handle → Prop) : Prop :=
  this ≠ other → if priority other.kind > priority this.kind then condition other this else condition this other

def MergeCondition : Prop := ByPriority this other (merge1Condition marks)

variable {marks this other}

theorem includesSelf (r : VPRelation) : Includes r r := fun _ _ _ _ h => h

theorem merge1SoundIff (hi : Admitted this.increment) (hj : Admitted other.increment) (apart : this ≠ other) :
    (∀ rel, merge1 this other = some rel →
      Includes (marks.read this) (marks.read rel) ∧ Includes (marks.read other) (marks.read rel)) ↔
      merge1Condition marks this other := by
  obtain ⟨kind,i⟩ := this
  obtain ⟨otherKind,j⟩ := other
  simp only at hi hj
  cases kind <;> cases otherKind
  all_goals try exact iff_of_true (fun rel h => by cases h) trivial
  · simp only [merge1,merge1Condition]
    split
    · rename_i order
      simp only [Option.some.injEq,forall_eq',includesSelf,and_true,Marks.read]
      rw [equalIncludesLess hi hj order]
      exact ⟨fun h _ => h,fun h => h order⟩
    · rename_i order
      exact iff_of_true (fun rel h => by cases h) fun h => absurd h order
  · simp only [merge1,merge1Condition]
    split
    · rename_i order
      simp only [Option.some.injEq,forall_eq',includesSelf,and_true,Marks.read]
      rw [equalIncludes hi hj order]
      exact ⟨fun h _ => h,fun h => h order⟩
    · rename_i order
      exact iff_of_true (fun rel h => by cases h) fun h => absurd h order
  · have differ : i ≠ j := fun same => apart (by rw [same])
    simp only [merge1,merge1Condition]
    split
    · rename_i order
      simp only [Option.some.injEq,forall_eq',includesSelf,true_and,Marks.read]
      exact lessIncludes hj hi order
    · simp only [Option.some.injEq,forall_eq',includesSelf,and_true,Marks.read]
      exact lessIncludes hi hj (by omega)
  · have differ : i ≠ j := fun same => apart (by rw [same])
    simp only [merge1,merge1Condition]
    split
    · rename_i order
      simp only [Option.some.injEq,forall_eq',includesSelf,true_and,Marks.read]
      exact greaterIncludes hj hi order
    · simp only [Option.some.injEq,forall_eq',includesSelf,and_true,Marks.read]
      exact greaterIncludes hi hj (by omega)

theorem mergeSoundIff (hi : Admitted this.increment) (hj : Admitted other.increment) :
    MergeSound marks this other ↔ MergeCondition marks this other := by
  unfold MergeSound MergeCondition ByPriority
  by_cases same : this = other
  · subst same
    have run : merge this this = some this := by rw [merge,if_pos rfl]
    refine iff_of_true (fun rel h => ?_) fun apart => absurd rfl apart
    cases Option.some.inj (run.symm.trans h)
    exact ⟨includesSelf _,includesSelf _⟩
  · rw [imp_iff_right same]
    by_cases higher : priority other.kind > priority this.kind
    · rw [merge,if_neg same,if_pos higher,if_pos higher,← merge1SoundIff hj hi (Ne.symm same)]
      exact forall_congr' fun rel => imp_congr_right fun _ => And.comm
    · rw [merge,if_neg same,if_neg higher,if_neg higher]
      exact merge1SoundIff hi hj same

variable (marks this other)

-- NULL is a contradiction.
def MeetsOr (r s : VPRelation) (result : Option Handle × Marks) : Prop :=
  match result.1 with
  | some rel => Meets r s (result.2.read rel)
  | none => Excludes r s

def IntersectSound : Prop := MeetsOr (marks.read this) (marks.read other) (intersect marks this other)

def intersect1Condition : Prop :=
  this.increment = other.increment →
    match this.kind, other.kind with
    | .lessThanOrEqual, .notEqual =>
        Tightens (marks this) (marks other) (marks ⟨.lessThanOrEqual,this.increment - 1⟩) this.increment
    | .greaterThanOrEqual, .notEqual =>
        if this.increment = maxSigned 32 then marks this = true ∨ marks other = false
        else Tightens (marks this) (marks other) (marks ⟨.greaterThanOrEqual,this.increment + 1⟩) (-this.increment)
    | .greaterThanOrEqual, .lessThanOrEqual =>
        Pins (marks this) (marks other) (marks ⟨.equal,this.increment⟩) this.increment
    | .equal, .notEqual => marks this = true ∨ marks other = false ∨ this.increment = 0
    | _, _ => True

def IntersectCondition : Prop := ByPriority this other (intersect1Condition marks)

variable {marks this other}

theorem meetsLeft (r s : VPRelation) : Meets r s r := fun _ _ _ _ h _ => h

theorem meetsRight (r s : VPRelation) : Meets r s s := fun _ _ _ _ _ h => h

theorem meetsOrComm {r s : VPRelation} {result : Option Handle × Marks} : MeetsOr r s result ↔ MeetsOr s r result := by
  obtain ⟨rel | rel,marks⟩ := result
  · exact ⟨fun h x y hx hy first second => h x y hx hy second first,fun h x y hx hy first second => h x y hx hy second first⟩
  · exact ⟨fun h x y hx hy first second => h x y hx hy second first,fun h x y hx hy first second => h x y hx hy second first⟩

theorem tightensMarked {f g h : Bool} {i : Int} : Tightens f g (h || f) i ↔ Tightens f g h i := by
  cases f <;> simp [Tightens]

theorem markedEither (h : Bool) {f : Bool} (marked : f = true) : (h || f) = true := by simp [marked]

theorem intersect1SoundIff (hi : Admitted this.increment) (hj : Admitted other.increment) (apart : this ≠ other)
    (order : priority other.kind ≤ priority this.kind) :
    MeetsOr (marks.read this) (marks.read other) (intersect1 marks this other) ↔ intersect1Condition marks this other := by
  obtain ⟨kind,i⟩ := this
  obtain ⟨otherKind,j⟩ := other
  simp only at hi hj
  cases kind <;> cases otherKind
  all_goals try (exfalso; simp only [priority] at order; omega)
  all_goals simp only [intersect1,intersect1Condition]
  · -- equal and equal
    have differ : j ≠ i := fun same => apart (by rw [same])
    rw [if_pos differ]
    exact iff_of_true (equalExcludesEqual hi hj differ.symm) fun _ => trivial
  · -- equal and not equal
    by_cases same : j = i
    · subst same
      rw [if_neg (by simp),imp_iff_right rfl]
      exact equalExcludesNotEqual hi
    · rw [if_pos same]
      exact iff_of_true (meetsLeft _ _) fun h => absurd h.symm same
  · exact iff_of_true (meetsLeft _ _) fun _ => trivial
  · exact iff_of_true (meetsLeft _ _) fun _ => trivial
  · -- not equal and not equal
    refine iff_of_true ?_ fun _ => trivial
    split
    · exact meetsRight _ _
    · exact meetsLeft _ _
  · -- less and not equal
    by_cases same : j = i
    · subst same
      rw [if_neg (by simp),imp_iff_right rfl,← tightensMarked,← lessMeets hi (markedEither _)]
      simp only [MeetsOr,readMarked]
      rw [createAdmitted]
      · rfl
      · unfold Admitted at hi
        rw [range32]
        omega
    · rw [if_pos same]
      exact iff_of_true (meetsLeft _ _) fun h => absurd h.symm same
  · -- less and less
    refine iff_of_true ?_ fun _ => trivial
    split
    · exact meetsRight _ _
    · exact meetsLeft _ _
  · -- greater and not equal
    by_cases same : j = i
    · subst same
      rw [if_neg (by simp),imp_iff_right rfl]
      simp only [MeetsOr,readMarked]
      by_cases last : j = maxSigned 32
      · have value : j = 2147483647 := last
        subst value
        rw [if_pos last]
        exact lastMeets (markedEither _)
      · have below : ¬ j = 2147483647 := last
        rw [if_neg last,← tightensMarked,← greaterMeets hi (markedEither _),createAdmitted]
        · rfl
        · unfold Admitted at hi
          rw [range32]
          omega
    · rw [if_pos same]
      exact iff_of_true (meetsLeft _ _) fun h => absurd h.symm same
  · -- greater and less
    by_cases same : j = i
    · subst same
      rw [if_pos rfl,imp_iff_right rfl,createAdmitted (admittedRange hi)]
      exact orderedMeets hi
    · rw [if_neg same]
      exact iff_of_true (meetsLeft _ _) fun h => absurd h.symm same
  · -- greater and greater
    refine iff_of_true ?_ fun _ => trivial
    split
    · exact meetsRight _ _
    · exact meetsLeft _ _

theorem intersectSoundIff (hi : Admitted this.increment) (hj : Admitted other.increment) :
    IntersectSound marks this other ↔ IntersectCondition marks this other := by
  unfold IntersectSound IntersectCondition ByPriority
  by_cases same : this = other
  · subst same
    rw [intersect,if_pos rfl]
    exact iff_of_true (meetsLeft _ _) fun apart => absurd rfl apart
  · rw [imp_iff_right same]
    by_cases higher : priority other.kind > priority this.kind
    · rw [intersect,if_neg same,if_pos higher,if_pos higher,meetsOrComm]
      exact intersect1SoundIff hj hi (Ne.symm same) (Nat.le_of_lt higher)
    · rw [intersect,if_neg same,if_neg higher,if_neg higher]
      exact intersect1SoundIff hi hj same (Nat.not_lt.mp higher)

end Pair

section AbsoluteConstraints
variable (marks : Marks) (table : Table) (this : Handle) (constraint : VPConstraint)

def AbsoluteSound : Prop :=
  ∀ x y, InRange 32 x → InRange 32 y → (marks.read this).Holds 32 x y → constraint.Contains x →
    Allows .Int32 (propagateAbsoluteConstraint table this constraint).1 y

def AbsoluteCondition : Prop :=
  marks this = true →
    match this.kind with
    | .lessThanOrEqual => this.increment ≤ 0 ∨ constraint.getLowInt - this.increment < minSigned 32
    | .greaterThanOrEqual => 0 ≤ this.increment ∨ maxSigned 32 < constraint.getHighInt - this.increment
    | .equal => True
    | .notEqual => ∀ value, constraint = .integral (.const .Int32 value) → InRange 32 (value - this.increment)

variable {marks table this constraint}

theorem madeAllowsIff {t : DataType} {low high v : Int} {made : Option IntegralConstraint} (h : MadeFor t low high made)
    (inside : InRange t.bits v) : Allows t (made.map .integral) v ↔ low ≤ v ∧ v ≤ high := by
  refine ⟨fun allowed => ?_,fun bounds => madeAllows h inside bounds.1 bounds.2⟩
  cases made with
  | none =>
    obtain ⟨rfl,rfl⟩ := h
    exact allowed
  | some c =>
    obtain ⟨_,rfl,rfl⟩ := h
    exact allowed

theorem notLong (valid : constraint.Valid .Int32) : constraint.asLongConstraint = none := by
  cases constraint with
  | integral c => simp [VPConstraint.asLongConstraint,VPConstraint.asIntegral,valid.1]
  | merged list => rfl

theorem absoluteInt (valid : constraint.Valid .Int32) : absoluteType constraint = .Int32 := by
  simp [absoluteType,notLong valid]

theorem lessAbsoluteIff {i : Int} (kind : this = ⟨.lessThanOrEqual,i⟩) (hi : Admitted i) (valid : constraint.Valid .Int32) :
    AbsoluteSound marks table this constraint ↔ AbsoluteCondition marks this constraint := by
  subst kind
  obtain ⟨lowIn,_,bounds⟩ := validBounds valid
  have lowRange := containsInRange valid lowIn
  have turns := readingTurns (i := i) (y := 2147483647) (by decide) (admittedRange hi)
  have least : minSigned 32 = -2147483648 := rfl
  have greatest : DataType.Int32.getMaxSigned = 2147483647 := rfl
  unfold AbsoluteSound AbsoluteCondition
  simp only [propagateAbsoluteConstraint,lessThanOrEqualAbsolute,absoluteInt valid,VPConstraint.getLowInt,least,greatest]
  generalize constraint.headLow .Int32 = low at *
  have bound := wrap32 (v := low - i)
  change InRange 32 low at lowRange
  simp only [Admitted,range32,Turns] at hi lowRange bound turns
  change (∀ x y, _ → _ → x ≤ reading (marks ⟨.lessThanOrEqual,i⟩) y i → _) ↔ _
  by_cases nothing : i < 0 ∨ low - i < -2147483648
  · refine iff_of_true (fun x y hx hy holds inside => ?_) (by omega)
    split
    · exact hy
    · rw [if_pos]
      · exact hy
      · change wrap 32 (low - i) > low
        omega
  · have made := factoryMade .Int32 table (low - i) (2147483647 - i) .no
    have value : wrap DataType.Int32.bits (low - i) = low - i := by
      change wrap 32 (low - i) = low - i
      omega
    rw [value,if_neg (by omega),if_neg (by omega)]
    constructor
    · intro sound marked
      rw [marked] at sound
      have inside := (madeAllowsIff made (by decide)).mp (sound low 2147483647 (range32.mpr lowRange) (by decide)
        (by rw [readingMarked]; omega) lowIn)
      omega
    · intro condition x y hx hy below inside
      refine (madeAllowsIff made hy).mpr ?_
      have lower := (bounds x inside).1
      have fact := readingTurns hy (i := i) (range32.mpr (by omega))
      rw [range32] at hx hy
      simp only [Turns] at fact
      generalize marks ⟨.lessThanOrEqual,i⟩ = f at *
      cases f <;> simp [readingMarked] at * <;> omega

theorem greaterAbsoluteIff {i : Int} (kind : this = ⟨.greaterThanOrEqual,i⟩) (hi : Admitted i) (valid : constraint.Valid .Int32) :
    AbsoluteSound marks table this constraint ↔ AbsoluteCondition marks this constraint := by
  subst kind
  obtain ⟨_,highIn,bounds⟩ := validBounds valid
  have highRange := containsInRange valid highIn
  have turns := readingTurns (i := i) (y := -2147483648) (by decide) (admittedRange hi)
  have greatest : maxSigned 32 = 2147483647 := rfl
  have least : DataType.Int32.getMinSigned = -2147483648 := rfl
  unfold AbsoluteSound AbsoluteCondition
  simp only [propagateAbsoluteConstraint,greaterThanOrEqualAbsolute,absoluteInt valid,VPConstraint.getHighInt,least,greatest]
  generalize constraint.lastHigh .Int32 = high at *
  have bound := wrap32 (v := high - i)
  change InRange 32 high at highRange
  simp only [Admitted,range32,Turns] at hi highRange bound turns
  change (∀ x y, _ → _ → reading (marks ⟨.greaterThanOrEqual,i⟩) y i ≤ x → _) ↔ _
  by_cases nothing : 0 < i ∨ 2147483647 < high - i
  · refine iff_of_true (fun x y hx hy holds inside => ?_) (by omega)
    split
    · exact hy
    · rw [if_pos]
      · exact hy
      · change wrap 32 (high - i) < high
        omega
  · have made := factoryMade .Int32 table (-2147483648 - i) (high - i) .no
    have value : wrap DataType.Int32.bits (high - i) = high - i := by
      change wrap 32 (high - i) = high - i
      omega
    rw [value,if_neg (by omega),if_neg (by omega)]
    constructor
    · intro sound marked
      rw [marked] at sound
      have inside := (madeAllowsIff made (by decide)).mp (sound high (-2147483648) (range32.mpr highRange) (by decide)
        (by rw [readingMarked]; omega) highIn)
      omega
    · intro condition x y hx hy above inside
      refine (madeAllowsIff made hy).mpr ?_
      have upper := (bounds x inside).2
      have fact := readingTurns hy (i := i) (range32.mpr (by omega))
      rw [range32] at hx hy
      simp only [Turns] at fact
      generalize marks ⟨.greaterThanOrEqual,i⟩ = f at *
      cases f <;> simp [readingMarked] at * <;> omega

-- The value that an equality puts on the other side.
theorem equalBack {f : Bool} {i x y : Int} (hi : Admitted i) (hx : InRange 32 x) (hy : InRange 32 y)
    (same : x = reading f y i) : wrap 32 (x - i) = y := by
  have fact := readingTurns hy (admittedRange hi)
  have marked := readingMarked y i
  have back := wrap32 (v := x - i)
  unfold Admitted at hi
  rw [range32] at hx hy
  simp only [Turns] at fact back
  cases f <;> omega

theorem equalAbsoluteSound {i : Int} (kind : this = ⟨.equal,i⟩) (hi : Admitted i) (valid : constraint.Valid .Int32) :
    AbsoluteSound marks table this constraint := by
  subst kind
  intro x y hx hy same inside
  replace same : x = reading (marks ⟨.equal,i⟩) y i := same
  simp only [propagateAbsoluteConstraint,equalAbsolute,notLong valid,Option.isSome_none,Bool.false_eq_true,if_false]
  split
  · split
    · match constraint, valid with
      | .integral c, valid =>
        have fixed : (IntegralConstraint.const .Int32 i).Valid .Int32 :=
          ⟨rfl,(admittedRange hi).1,Int.le_refl _,(admittedRange hi).2⟩
        rw [createConstShared,subtract,arithmeticIntegral valid fixed]
        have outcome := outcomeAllows (v := x - i) (integralSubtractOutcome (createConst table .Int32 i).2 valid fixed)
          (Int.sub_le_sub_right inside.1 i) (Int.sub_le_sub_right inside.2 i)
        rwa [show wrap DataType.Int32.bits (x - i) = y from equalBack hi hx hy same] at outcome
      | .merged list, _ => exact hy
    · exact hy
  · rename_i zero
    have none : i = 0 := by simpa using zero
    rw [none,readingZero _ hy] at same
    rw [← same]
    exact inside

theorem excludingIff {e y : Int} (he : InRange 32 e) (hy : InRange 32 y) :
    Allows .Int32 (excluding .Int32 table e).1 y ↔ y ≠ e := by
  have least : DataType.Int32.getMinSigned = -2147483648 := rfl
  have greatest : DataType.Int32.getMaxSigned = 2147483647 := rfl
  have made := fun (table : Table) low high => factoryMade .Int32 table low high .no
  have inside := range32.mp he
  have around := range32.mp hy
  unfold excluding
  simp only [least,greatest]
  by_cases bottom : e = -2147483648
  · rw [if_pos (by omega),if_neg (by omega)]
    refine (madeAllowsIff (made table (e + 1) 2147483647) hy).trans ?_
    omega
  · by_cases top : e = 2147483647
    · rw [if_neg (by omega),if_pos bottom]
      refine (madeAllowsIff (made table (-2147483648) (e - 1)) hy).trans ?_
      omega
    · rw [if_pos top,if_pos bottom]
      have low := made table (-2147483648) (e - 1)
      have high := made (factory .Int32 table (-2147483648) (e - 1) .no).2 (e + 1) 2147483647
      cases lowCase : (factory .Int32 table (-2147483648) (e - 1) .no).1 with
      | none =>
        rw [lowCase] at low
        have := low.2
        omega
      | some a =>
        cases highCase : (factory .Int32 (factory .Int32 table (-2147483648) (e - 1) .no).2 (e + 1) 2147483647 .no).1 with
        | none =>
          rw [highCase] at high
          have := high.1
          omega
        | some b =>
          rw [lowCase] at low
          rw [highCase] at high
          obtain ⟨lowType,lowLow,lowHigh⟩ := low
          obtain ⟨highType,highLow,highHigh⟩ := high
          have validA : VPConstraint.Valid .Int32 (.integral a) := ⟨lowType,by omega,by omega,by omega⟩
          have validB : VPConstraint.Valid .Int32 (.integral b) := ⟨highType,by omega,by omega,by omega⟩
          have union := ConstraintMerge.mergeUnion validA validB
          have either : Allows .Int32 (ConstraintMerge.merge (.integral a) (.integral b)) y ↔
              a.getLow ≤ y ∧ y ≤ a.getHigh ∨ b.getLow ≤ y ∧ y ≤ b.getHigh :=
            ⟨union.exact (by decide) y,union.covers y⟩
          rw [either]
          omega

theorem notEqualAbsoluteIff {i : Int} (kind : this = ⟨.notEqual,i⟩) (hi : Admitted i) (valid : constraint.Valid .Int32) :
    AbsoluteSound marks table this constraint ↔ AbsoluteCondition marks this constraint := by
  subst kind
  unfold AbsoluteSound AbsoluteCondition
  simp only [propagateAbsoluteConstraint,notEqualAbsolute]
  split
  · exact DataType.noConfusion valid.1
  · rename_i value
    have inside : InRange 32 value := containsInRange valid ⟨Int.le_refl _,Int.le_refl _⟩
    have excluded := wrapRange (w := 32) (by decide) (value - i)
    have back := wrap32 (v := value - i)
    have numbers := range32.mp inside
    simp only [Turns] at back
    constructor
    · intro sound marked v same
      cases same
      by_contra outside
      have kept := (excludingIff excluded excluded).mp (sound value (wrap 32 (value - i)) inside excluded ?_
        ⟨Int.le_refl _,Int.le_refl _⟩)
      · exact kept rfl
      · change value ≠ reading (marks ⟨.notEqual,i⟩) (wrap 32 (value - i)) i
        rw [marked,readingMarked]
        unfold Admitted at hi
        rw [range32] at outside
        omega
    · intro condition x y hx hy other holds
      refine (excludingIff excluded hy).mpr fun same => other ?_
      have only : x = value := Int.le_antisymm holds.2 holds.1
      change x = reading (marks ⟨.notEqual,i⟩) y i
      have fact := readingTurns hy (admittedRange hi)
      have marked := readingMarked y i
      unfold Admitted at hi
      rw [range32] at hy
      simp only [Turns] at fact
      cases flag : marks ⟨.notEqual,i⟩
      · omega
      · have fits := range32.mp (condition flag value rfl)
        omega
  · rename_i plain
    refine iff_of_true (fun x y hx hy holds inside => hy) fun _ value same => ?_
    exact absurd same (plain value)

theorem absoluteSoundIff (hi : Admitted this.increment) (valid : constraint.Valid .Int32) :
    AbsoluteSound marks table this constraint ↔ AbsoluteCondition marks this constraint := by
  obtain ⟨kind,i⟩ := this
  cases kind with
  | lessThanOrEqual => exact lessAbsoluteIff rfl hi valid
  | greaterThanOrEqual => exact greaterAbsoluteIff rfl hi valid
  | notEqual => exact notEqualAbsoluteIff rfl hi valid
  | equal => exact iff_of_true (equalAbsoluteSound rfl hi valid) fun _ => trivial

end AbsoluteConstraints

/- What is propagated, complemented, merged, intersected and answered is right for
all values under these conditions on increments and marks, and only then. -/
theorem relationsSound (marks : Marks) (table : Table) (this other : Handle) (constraint : VPConstraint)
    (hi : Admitted this.increment) (hj : Admitted other.increment) (valid : constraint.Valid .Int32) :
    (RelativeSound marks this other ↔ RelativeCondition marks this other) ∧
    (AbsoluteSound marks table this constraint ↔ AbsoluteCondition marks this constraint) ∧
    (ComplementSound marks this ↔ ComplementCondition marks this) ∧
    (MergeSound marks this other ↔ MergeCondition marks this other) ∧
    (IntersectSound marks this other ↔ IntersectCondition marks this other) ∧
    ((∀ x y, InRange 32 x → InRange 32 y → (marks.read this).Holds 32 x y → QueriesSound (marks.read this) x y) ↔
      QueriesCondition (marks.read this)) :=
  ⟨relativeSoundIff hi hj,absoluteSoundIff hi valid,complementSoundIff hi,mergeSoundIff hi hj,intersectSoundIff hi hj,
    queriesSoundIff hi⟩

/- x = y + 3 and x = z + 5, with nothing marked. -/
theorem relationsSoundSample :
    RelativeSound (fun _ => false) ⟨.equal,3⟩ ⟨.equal,5⟩ ∧
    AbsoluteSound (fun _ => false) emptyTable ⟨.equal,3⟩ (.integral (.range .Int32 0 9 .no false)) ∧
    ComplementSound (fun _ => false) ⟨.equal,3⟩ ∧ IntersectSound (fun _ => false) ⟨.equal,3⟩ ⟨.equal,5⟩ := by
  obtain ⟨relative,absolute,complement,_,intersect,_⟩ := relationsSound (fun _ => false) emptyTable ⟨.equal,3⟩ ⟨.equal,5⟩
    (.integral (.range .Int32 0 9 .no false)) (by decide) (by decide) (by decide)
  exact ⟨relative.mpr fun _ => trivial,absolute.mpr fun _ => trivial,complement.mpr (.inr (.inr rfl)),
    intersect.mpr fun _ => by simp [priority,intersect1Condition]⟩

/- x <= y - 1 holds of the minimum and itself, and x <= y + 1 with x >= z does not
bound y below z - 1. -/
theorem relationsUnsound :
    (¬ ∀ x y, InRange 32 x → InRange 32 y → VPRelation.Holds 32 ⟨.lessThanOrEqual,-1,false⟩ x y →
      QueriesSound ⟨.lessThanOrEqual,-1,false⟩ x y) ∧
    ¬ RelativeSound (fun _ => false) ⟨.lessThanOrEqual,1⟩ ⟨.greaterThanOrEqual,0⟩ := by
  constructor
  · intro sound
    exact (sound (-2147483648) (-2147483648) (by decide) (by decide) (by decide)).notEqual (by decide) rfl
  · intro sound
    have transfers := sound ⟨.greaterThanOrEqual,-1⟩ (by decide)
    exact absurd (transfers (-2147483648) (-2147483648) (-2147483648) (by decide) (by decide) (by decide) (by decide) (by decide))
      (by decide)

end OmrCompiler.RelationPropagation
