import OmrCompiler.Constraint

/-! Intersecting constraints of one type (logical AND): intersect, intersect1
and the list loops shortIntersect, intIntersect and longIntersect of
VPConstraint.cpp. A NULL result says that no value is left. -/
namespace OmrCompiler.ConstraintIntersect
open MachineInt Constraint IntervalList

def intersectOrdered (t : DataType) (this other : IntegralConstraint) : Option VPConstraint :=
  if other.getHigh ≤ this.getHigh then some (.integral other)
  else if other.getLow ≤ this.getHigh then (rangeOf t other.getLow this.getHigh).map .integral
  else none

def integralIntersect1 (t : DataType) (this other : IntegralConstraint) : Option VPConstraint :=
  if other.getLow < this.getLow then intersectOrdered t other this else intersectOrdered t this other

def VPShortConstraint.intersect1 := integralIntersect1 .Int16

def VPIntConstraint.intersect1 := integralIntersect1 .Int32

def VPLongConstraint.intersect1 := integralIntersect1 .Int64

def bounds (c : IntegralConstraint) : Int × Int := (c.getLow,c.getHigh)

def makePiece (t : DataType) (piece : Int × Int) : Option IntegralConstraint := rangeOf t piece.1 piece.2

/- The loop reads each list as its current bounds and what follows them, and
makes a range of every piece. A piece is never the whole type there. -/
def listIntersect (t : DataType) (list others : List IntegralConstraint) : Option VPConstraint :=
  match (sweep t.getMaxSigned (list.map bounds) (others.map bounds)).filterMap (makePiece t) with
  | [] => none
  | result => some (collapse result)

def VPMergedConstraints.shortIntersect := listIntersect .Int16

def VPMergedConstraints.intIntersect := listIntersect .Int32

def VPMergedConstraints.longIntersect := listIntersect .Int64

def VPMergedConstraints.intersect1 (list : List IntegralConstraint) (other : VPConstraint) : Option VPConstraint :=
  match VPConstraint.listType list with
  | .Int16 => VPMergedConstraints.shortIntersect list other.entries
  | .Int32 => VPMergedConstraints.intIntersect list other.entries
  | .Int64 => VPMergedConstraints.longIntersect list other.entries

def intersect1 (this other : VPConstraint) : Option VPConstraint :=
  match this, other with
  | .merged list, other => VPMergedConstraints.intersect1 list other
  | .integral _, .merged _ => none
  | .integral c, .integral other =>
      match c.type with
      | .Int16 => VPShortConstraint.intersect1 c other
      | .Int32 => VPIntConstraint.intersect1 c other
      | .Int64 => VPLongConstraint.intersect1 c other

def intersect (this : VPConstraint) (other : Option VPConstraint) : Option VPConstraint := do
  let other ← other
  if this = other then some this
  else if other.priority > this.priority then intersect1 other this
  else intersect1 this other

/- The intersection of two sets as the callers read it. -/
structure Intersection (t : DataType) (values : Int → Prop) (result : Option VPConstraint) : Prop where
  empty : result = none → ∀ v, ¬ values v
  exact : ∀ c, result = some c → ∀ v, c.Contains v ↔ values v
  valid : ∀ c, result = some c → c.Valid t

theorem intersectionCongr {t : DataType} {p q : Int → Prop} {result : Option VPConstraint} (same : ∀ v, p v ↔ q v)
    (h : Intersection t p result) : Intersection t q result :=
  ⟨fun missing v hv => h.empty missing v ((same v).mpr hv),fun c hc v => (h.exact c hc v).trans (same v),h.valid⟩

theorem intersectionSome {t : DataType} {p : Int → Prop} {c : VPConstraint} (valid : c.Valid t)
    (same : ∀ v, c.Contains v ↔ p v) : Intersection t p (some c) := by
  refine ⟨nofun,fun d hd => ?_,fun d hd => ?_⟩
  · cases Option.some.inj hd
    exact same
  · cases Option.some.inj hd
    exact valid

theorem intersectionNone {t : DataType} {p : Int → Prop} (disjoint : ∀ v, ¬ p v) : Intersection t p none :=
  ⟨fun _ => disjoint,nofun,nofun⟩

theorem intersectOrderedExact {t : DataType} {this other : IntegralConstraint} (left : this.Valid t)
    (right : other.Valid t) (order : this.getLow ≤ other.getLow) :
    Intersection t (fun v => this.Contains v ∧ other.Contains v) (intersectOrdered t this other) := by
  have leftBounds := left.2
  have rightBounds := right.2
  unfold intersectOrdered
  split
  · refine intersectionSome right fun v => ?_
    simp only [VPConstraint.Contains,IntegralConstraint.Contains]
    omega
  · split
    · cases made : rangeOf t other.getLow this.getHigh with
      | none =>
        have full := rangeOfFull made
        omega
      | some c =>
        obtain ⟨type,low,high⟩ := rangeOfBounds made
        refine intersectionSome ⟨type,by omega,by omega,by omega⟩ fun v => ?_
        simp only [VPConstraint.Contains,IntegralConstraint.Contains,low,high]
        omega
    · refine intersectionNone fun v => ?_
      simp only [IntegralConstraint.Contains]
      omega

theorem integralIntersect1Exact {t : DataType} {this other : IntegralConstraint} (left : this.Valid t)
    (right : other.Valid t) :
    Intersection t (fun v => this.Contains v ∧ other.Contains v) (integralIntersect1 t this other) := by
  unfold integralIntersect1
  split
  · rename_i swap
    exact intersectionCongr (fun v => And.comm) (intersectOrderedExact right left (Int.le_of_lt swap))
  · rename_i keep
    exact intersectOrderedExact left right (Int.not_lt.mp keep)

theorem boundsCovers (list : List IntegralConstraint) (v : Int) :
    PairCovers (list.map bounds) v ↔ Covers (·.getLow) (·.getHigh) list v := by
  simp [Covers,bounds]

theorem boundsSeparated (list : List IntegralConstraint) :
    PairSeparated (list.map bounds) ↔ Separated (·.getLow) (·.getHigh) list := by
  simp [Separated,bounds,List.pairwise_map]

theorem boundsBelow {t : DataType} {list : List IntegralConstraint} (h : ∀ e ∈ list, e.Valid t) :
    ∀ x ∈ list.map bounds, x.2 ≤ t.getMaxSigned := by
  simpa [bounds] using fun e he => (h e he).2.2.2

/- A list of at least two entries leaves out a value of its type, so that no
piece of an intersection with it is the whole type. -/
theorem canonicalGap {t : DataType} {list : List IntegralConstraint} (valid : VPConstraint.Canonical t list) :
    ∃ v, InRange t.bits v ∧ ¬ Covers (·.getLow) (·.getHigh) list v := by
  match list, valid with
  | first :: second :: rest, valid =>
    have separated : Separated (·.getLow) (·.getHigh) (first :: second :: rest) :=
      entriesSeparated (c := .merged (first :: second :: rest)) valid
    have firstBounds := (valid.2.1 first (by simp)).2
    have secondBounds := (valid.2.1 second (by simp)).2
    have gap : first.getHigh + 1 < second.getLow := (List.pairwise_cons.mp separated.2).1 second (by simp)
    simp only [DataType.getMinSigned,DataType.getMaxSigned] at firstBounds secondBounds
    refine ⟨first.getHigh + 1,⟨by omega,by omega⟩,fun covered => ?_⟩
    rcases (coversCons ..).mp covered with inFirst | inRest
    · omega
    · have := separatedLower separated inRest
      omega

theorem piecesMade {t : DataType} {pieces : List (Int × Int)}
    (proper : ∀ p ∈ pieces, ¬ (p.1 = t.getMinSigned ∧ p.2 = t.getMaxSigned)) :
    (pieces.filterMap (makePiece t)).map bounds = pieces ∧
      ∀ c ∈ pieces.filterMap (makePiece t), c.type = t := by
  induction pieces with
  | nil => simp
  | cons piece pieces ih =>
    obtain ⟨here,later⟩ := List.forall_mem_cons.mp proper
    obtain ⟨same,types⟩ := ih later
    cases made : makePiece t piece with
    | none => exact absurd (rangeOfFull made) here
    | some c =>
      obtain ⟨type,low,high⟩ := rangeOfBounds made
      rw [List.filterMap_cons_some made]
      exact ⟨by rw [List.map_cons,same,bounds,low,high],List.forall_mem_cons.mpr ⟨type,types⟩⟩

theorem validPiece {t : DataType} {list : List IntegralConstraint} {e : IntegralConstraint}
    (valid : ∀ c ∈ list, c.Valid t) (type : e.type = t) (proper : e.getLow ≤ e.getHigh)
    (covered : ∀ v, e.Contains v → Covers (·.getLow) (·.getHigh) list v) : e.Valid t := by
  obtain ⟨a,ha,lowA,_⟩ := covered e.getLow ⟨Int.le_refl _,proper⟩
  obtain ⟨b,hb,_,highB⟩ := covered e.getHigh ⟨proper,Int.le_refl _⟩
  exact ⟨type,Int.le_trans (valid a ha).2.1 lowA,proper,Int.le_trans highB (valid b hb).2.2.2⟩

/- Separated pieces that cover the common values of a list and anything else make
the intersection of the two. -/
theorem piecesExact {t : DataType} {list : List IntegralConstraint} {values : Int → Prop} {pieces : List (Int × Int)}
    (left : VPConstraint.Canonical t list) (separated : PairSeparated pieces)
    (both : ∀ v, PairCovers pieces v ↔ Covers (·.getLow) (·.getHigh) list v ∧ values v) :
    Intersection t (fun v => Covers (·.getLow) (·.getHigh) list v ∧ values v)
      (match pieces.filterMap (makePiece t) with
        | [] => none
        | result => some (collapse result)) := by
  have proper : ∀ p ∈ pieces, ¬ (p.1 = t.getMinSigned ∧ p.2 = t.getMaxSigned) := by
    intro p hp full
    obtain ⟨v,inside,missing⟩ := canonicalGap left
    exact missing ((both v).mp ⟨p,hp,full.1 ▸ inside.1,full.2 ▸ inside.2⟩).1
  obtain ⟨same,types⟩ := piecesMade proper
  generalize pieces.filterMap (makePiece t) = result at same types
  rw [← same] at separated both
  have covered : ∀ v, Covers (·.getLow) (·.getHigh) result v ↔ Covers (·.getLow) (·.getHigh) list v ∧ values v := by
    intro v
    rw [← boundsCovers,both v]
  cases result with
  | nil => exact intersectionNone fun v hv => coversNil v ((covered v).mpr hv)
  | cons first rest =>
    refine intersectionSome (collapseValid (by simp) ?_ ((boundsSeparated _).mp separated)) fun v => ?_
    · intro e he
      refine validPiece left.2.1 (types e he) (((boundsSeparated _).mp separated).1 e he) fun v hv => ?_
      exact ((covered v).mp ⟨e,he,hv⟩).1
    · rw [containsEntries,collapseEntries]
      exact covered v

theorem listIntersectExact {t : DataType} {list : List IntegralConstraint} {other : VPConstraint}
    (left : VPConstraint.Canonical t list) (right : other.Valid t) :
    Intersection t (fun v => Covers (·.getLow) (·.getHigh) list v ∧ other.Contains v)
      (listIntersect t list other.entries) := by
  have leftValid : (VPConstraint.merged list).Valid t := left
  obtain ⟨separated,covers⟩ := sweepSound t.getMaxSigned (list.map bounds) (other.entries.map bounds)
    ((boundsSeparated _).mpr (entriesSeparated leftValid)) ((boundsSeparated _).mpr (entriesSeparated right))
    (boundsBelow left.2.1) (boundsBelow (entriesValid right))
  refine piecesExact left separated fun v => ?_
  rw [covers v,boundsCovers,boundsCovers,containsEntries other]

theorem intersect1Exact {t : DataType} {this other : VPConstraint} (left : this.Valid t) (right : other.Valid t)
    (order : other.priority ≤ this.priority) :
    Intersection t (fun v => this.Contains v ∧ other.Contains v) (intersect1 this other) := by
  cases this with
  | merged list =>
    have run : intersect1 (.merged list) other = listIntersect t list other.entries := by
      have type := listTypeValid left
      cases t <;> simp [intersect1,VPMergedConstraints.intersect1,type] <;> rfl
    rw [run]
    exact listIntersectExact left right
  | integral c =>
    cases other with
    | merged list => exact absurd order (by simp [VPConstraint.priority]; split <;> omega)
    | integral other =>
      have run : intersect1 (.integral c) (.integral other) = integralIntersect1 t c other := by
        have type := left.1
        cases t <;> simp [intersect1,type] <;> rfl
      rw [run]
      exact integralIntersect1Exact left right

theorem intersectIntersection {t : DataType} {this other : VPConstraint} (left : this.Valid t) (right : other.Valid t) :
    Intersection t (fun v => this.Contains v ∧ other.Contains v) (intersect this (some other)) := by
  simp only [intersect,Option.bind_eq_bind,Option.bind_some]
  split
  · rename_i same
    subst other
    exact intersectionSome left fun v => and_self_iff.symm
  · split
    · rename_i higher
      exact intersectionCongr (fun v => And.comm) (intersect1Exact right left (Nat.le_of_lt higher))
    · rename_i lower
      exact intersect1Exact left right (Nat.not_lt.mp lower)

theorem intersectExact {t : DataType} {a b : VPConstraint} (left : a.Valid t) (right : b.Valid t) :
    (intersect a (some b) = none ↔ ¬ ∃ v, a.Contains v ∧ b.Contains v) ∧
    ∀ c, intersect a (some b) = some c → c.Valid t ∧ ∀ v, c.Contains v ↔ a.Contains v ∧ b.Contains v := by
  obtain ⟨empty,exact,valid⟩ := intersectIntersection left right
  refine ⟨⟨fun missing ⟨v,hv⟩ => empty missing v hv,fun disjoint => ?_⟩,fun c hc => ⟨valid c hc,exact c hc⟩⟩
  cases made : intersect a (some b) with
  | none => rfl
  | some c =>
    obtain ⟨v,hv⟩ := validInhabited (valid c made)
    exact absurd ⟨v,(exact c made v).mp hv⟩ disjoint

def intersectSampleLeft : VPConstraint :=
  .merged [.range .Int64 (-9223372036854775808) (-4) .no false,.range .Int64 7 9223372036854775807 .no false]

def intersectSampleRight : VPConstraint := .integral (.range .Int64 (-6) 9 .no false)

theorem intersectExactSample :
    intersectSampleLeft.Valid .Int64 ∧ intersectSampleRight.Valid .Int64 ∧
    (intersect intersectSampleLeft (some intersectSampleRight) = none ↔
      ¬ ∃ v, intersectSampleLeft.Contains v ∧ intersectSampleRight.Contains v) :=
  ⟨by decide,by decide,(intersectExact (t := .Int64) (by decide) (by decide)).1⟩

end OmrCompiler.ConstraintIntersect
