import OmrCompiler.CompareHandlers
import OmrCompiler.ConstraintIntersect
import OmrCompiler.ConstraintRelation

/-! Ordered conditional branches in value propagation: constrainIfcmplessthan of
VPHandlers.cpp with the edge and block constraints of OMRValuePropagation.cpp.
What a new constraint does to further values through relations is left out, and
so is simplifyInequality, which only rewrites the children of the node. -/
namespace OmrCompiler.BranchHandlers
open MachineInt Constraint ConstraintCompare ConstraintIntersect ConstraintRelation CompareHandlers

-- The absolute constraint of each value number, if there is one.
abbrev ValueConstraints := Nat → Option VPConstraint

def ValueConstraints.set (list : ValueConstraints) (valueNumber : Nat) (constraint : VPConstraint) : ValueConstraints :=
  fun other => if other = valueNumber then some constraint else list other

def insertConstraint (valueNumber : Nat) (constraint : VPConstraint) (list : ValueConstraints) :
    Option VPConstraint × ValueConstraints :=
  match list valueNumber with
  | none => (some constraint,list.set valueNumber constraint)
  | some existing =>
      match intersect constraint (some existing) with
      | none => (none,list)
      | some c => (some c,list.set valueNumber c)

-- A constraint that adds nothing to the global one is not put on the list.
def addConstraintToList (globals : ValueConstraints) (valueNumber : Nat) (constraint : VPConstraint)
    (list : ValueConstraints) : Option VPConstraint × ValueConstraints :=
  match globals valueNumber with
  | none => insertConstraint valueNumber constraint list
  | some global =>
      match intersect constraint (some global) with
      | none => (none,list)
      | some c => if c = global then (some c,list) else insertConstraint valueNumber c list

inductive BranchHandler where
  | constrainIfcmpeq
  | constrainIfcmpne
  | constrainIfcmplt
  | constrainIfcmpge
  | constrainIfcmpgt
  | constrainIfcmple
  | constrainCondBranch
  deriving DecidableEq, Repr

def ifRow : Relation → BranchHandler
  | .eq => .constrainIfcmpeq
  | .ne => .constrainIfcmpne
  | .lt => .constrainIfcmplt
  | .ge => .constrainIfcmpge
  | .gt => .constrainIfcmpgt
  | .le => .constrainIfcmple

def ifUnsignedRow : Relation → BranchHandler
  | .eq => .constrainIfcmpeq
  | .ne => .constrainIfcmpne
  | _ => .constrainCondBranch

-- The branch rows of ValuePropagationTable.hpp, by the compare that they test.
def branchTable (op : CompareOp) : BranchHandler :=
  match op.operand with
  | .i => ifRow op.relation
  | .iu => ifUnsignedRow op.relation
  | .l => ifRow op.relation
  | .lu => ifRow op.relation
  | .a => ifRow op.relation
  | _ => .constrainCondBranch

-- The places at which the handler asks performTransformation.
inductive Transformation where
  | relationCheck
  | removeKnown
  | gotoKnown
  | removeBranch
  | changeToGoto
  deriving DecidableEq, Repr

/- What the handler finds: the lists at the branch, the results of getConstraint
for one value and for a pair, and the answers of its surroundings. -/
structure Surroundings where
  globals : ValueConstraints
  block : ValueConstraints
  getConstraint : ValueConstraints
  getRelation : Nat → Nat → Option VPRelation
  isGlobalPropagation : Bool
  sameTarget : Bool
  performTransformation : Transformation → Bool

inductive Fold where
  | unknown
  | cannotBranch
  | cannotFallThrough
  deriving DecidableEq, Repr

def clippedDifference (left right : Int) : Int :=
  if wrap 64 (left - right) < 0 then DataType.Int64.getMaxSigned else wrap 64 (left - right)

def absoluteFold (lhs rhs : Option VPConstraint) (orEqual : Bool) : Fold :=
  match lhs, rhs with
  | some lhs, some rhs =>
      if orEqual then
        if mustBeLessThanOrEqual lhs rhs then .cannotFallThrough
        else if mustBeLessThan rhs lhs then .cannotBranch
        else .unknown
      else
        if mustBeLessThan lhs rhs then .cannotFallThrough
        else if mustBeLessThanOrEqual rhs lhs then .cannotBranch
        else .unknown
  | _, _ => .unknown

def relativeFold (rel : VPRelation) (orEqual : Bool) : Fold :=
  if orEqual then
    if rel.mustBeLessThanOrEqual then .cannotFallThrough
    else if rel.mustBeGreaterThan then .cannotBranch
    else .unknown
  else
    if rel.mustBeLessThan then .cannotFallThrough
    else if rel.mustBeGreaterThanOrEqual then .cannotBranch
    else .unknown

-- Beyond this distance rhs + increment may wrap. One of the constraints is known.
def maxIncrement (t : DataType) (lhs rhs : Option VPConstraint) (increment : Int) : Int :=
  match lhs, rhs with
  | _, some rhs =>
      if increment < 0 then clippedDifference (rhs.headLow t) t.getMinSigned
      else clippedDifference t.getMaxSigned (rhs.lastHigh t)
  | some lhs, none =>
      if increment < 0 then clippedDifference t.getMaxSigned (lhs.lastHigh t)
      else clippedDifference (lhs.headLow t) t.getMinSigned
  | none, none => 0

def absIncrement (increment : Int) : Int := if increment < 0 then -increment else increment

def incrementFold (t : DataType) (lhs rhs : Option VPConstraint) (rel : VPRelation) (orEqual : Bool) : Fold :=
  if absIncrement rel.increment ≤ maxIncrement t lhs rhs rel.increment then
    if orEqual then
      if rel.increment ≤ 0 then .cannotFallThrough else .cannotBranch
    else
      if rel.increment < 0 then .cannotFallThrough else .cannotBranch
  else .unknown

def relationFold (env : Surroundings) (t : DataType) (lhs rhs : Option VPConstraint) (rel : VPRelation)
    (orEqual : Bool) : Fold :=
  match relativeFold rel orEqual with
  | .unknown =>
      if rel.kind = .equal ∧ (lhs.isSome ∨ rhs.isSome) ∧ env.performTransformation .relationCheck then
        incrementFold t lhs rhs rel orEqual
      else .unknown
  | known => known

-- The children's constraints are not looked at when both are one value.
def childConstraint (env : Surroundings) (lhs rhs child : Nat) : Option VPConstraint :=
  if lhs = rhs then none else env.getConstraint child

def foldBranch (env : Surroundings) (t : DataType) (isUnsigned : Bool) (lhs rhs : Nat) (orEqual : Bool) : Fold :=
  if lhs = rhs then
    if orEqual then .cannotFallThrough else .cannotBranch
  else if isUnsigned then .unknown
  else
    match absoluteFold (env.getConstraint lhs) (env.getConstraint rhs) orEqual with
    | .unknown =>
        match env.getRelation lhs rhs with
        | none => .unknown
        | some rel => relationFold env t (env.getConstraint lhs) (env.getConstraint rhs) rel orEqual
    | known => known

-- The constraints of the two ways out of the block while the handler runs.
structure Branch where
  edge : ValueConstraints
  block : ValueConstraints
  cannotBranch : Bool
  cannotFallThrough : Bool

def addEdgeConstraint (env : Surroundings) (valueNumber : Nat) (constraint : Option IntegralConstraint) (s : Branch) :
    Branch :=
  match constraint with
  | none => { s with cannotBranch := true }
  | some c =>
      if env.isGlobalPropagation then
        match addConstraintToList env.globals valueNumber (.integral c) s.edge with
        | (none,_) => { s with cannotBranch := true }
        | (some _,edge) => { s with edge := edge }
      else s

def addBlockConstraint (env : Surroundings) (valueNumber : Nat) (constraint : Option IntegralConstraint) (s : Branch) :
    Branch :=
  match constraint with
  | none => { s with cannotFallThrough := true }
  | some c =>
      match addConstraintToList env.globals valueNumber (.integral c) s.block with
      | (none,_) => { s with cannotFallThrough := true }
      | (some _,block) => { s with block := block }

def lowOf (t : DataType) (c : Option VPConstraint) : Int := (c.map (·.headLow t)).getD t.getMinSigned

def highOf (t : DataType) (c : Option VPConstraint) : Int := (c.map (·.lastHigh t)).getD t.getMaxSigned

def adjustment (orEqual : Bool) : Int := if orEqual then 0 else 1

def takenRight (env : Surroundings) (t : DataType) (isUnsigned : Bool) (lhs rhs : Nat) (orEqual : Bool) (s : Branch) :
    Branch :=
  let boundary := wrap t.bits (lowOf t (childConstraint env lhs rhs lhs) + adjustment orEqual)
  if boundary ≠ t.getMinSigned ∧ isUnsigned = false then
    addEdgeConstraint env rhs (rangeOf t boundary t.getMaxSigned) s
  else s

-- The unsigned compare keeps the signed upper bound unless it is negative.
def takenLeftBoundary (env : Surroundings) (t : DataType) (isUnsigned : Bool) (lhs rhs : Nat) (orEqual : Bool) : Int :=
  let boundary := wrap t.bits (highOf t (childConstraint env lhs rhs rhs) - adjustment orEqual)
  if isUnsigned ∧ boundary < 0 then t.getMaxSigned else boundary

def takenLeft (env : Surroundings) (t : DataType) (isUnsigned : Bool) (lhs rhs : Nat) (orEqual : Bool) (s : Branch) :
    Branch :=
  let boundary := takenLeftBoundary env t isUnsigned lhs rhs orEqual
  let minValue := if isUnsigned then 0 else t.getMinSigned
  if boundary ≠ t.getMaxSigned ∧ (t = .Int64 ∨ isUnsigned = false) then
    addEdgeConstraint env lhs (rangeOf t minValue boundary) s
  else s

def fallThroughRight (env : Surroundings) (t : DataType) (isUnsigned : Bool) (lhs rhs : Nat) (orEqual : Bool)
    (s : Branch) : Branch :=
  let boundary := wrap t.bits (highOf t (childConstraint env lhs rhs lhs) + (adjustment orEqual - 1))
  if boundary ≠ t.getMaxSigned ∧ isUnsigned = false then
    addBlockConstraint env rhs (rangeOf t t.getMinSigned boundary) s
  else s

def fallThroughLeft (env : Surroundings) (t : DataType) (isUnsigned : Bool) (lhs rhs : Nat) (orEqual : Bool)
    (s : Branch) : Branch :=
  let boundary := wrap t.bits (lowOf t (childConstraint env lhs rhs rhs) + (1 - adjustment orEqual))
  if boundary ≠ t.getMinSigned ∧ isUnsigned = false then
    addBlockConstraint env lhs (rangeOf t boundary t.getMaxSigned) s
  else s

inductive Action where
  | kept
  | removed
  | goto
  deriving DecidableEq, Repr

structure Outcome where
  action : Action
  edge : ValueConstraints
  block : ValueConstraints

-- createEdgeConstraints hands the constraints of the block to the edge.
def constrainEdges (env : Surroundings) (t : DataType) (isUnsigned : Bool) (lhs rhs : Nat) (orEqual : Bool)
    (fold : Fold) : Branch :=
  let start : Branch := ⟨env.block,env.block,fold = .cannotBranch,fold = .cannotFallThrough⟩
  fallThroughLeft env t isUnsigned lhs rhs orEqual
    (fallThroughRight env t isUnsigned lhs rhs orEqual
      (takenLeft env t isUnsigned lhs rhs orEqual
        (takenRight env t isUnsigned lhs rhs orEqual start)))

def finish (env : Surroundings) (s : Branch) : Outcome :=
  if s.cannotBranch ∧ env.performTransformation .removeBranch then ⟨.removed,s.edge,s.block⟩
  else if s.cannotFallThrough ∧ env.performTransformation .changeToGoto then ⟨.goto,s.edge,s.block⟩
  else ⟨.kept,s.edge,s.block⟩

def constrainIfcmplessthan (env : Surroundings) (t : DataType) (isUnsigned : Bool) (lhs rhs : Nat) (orEqual : Bool) :
    Outcome :=
  if env.sameTarget then ⟨.kept,env.block,env.block⟩
  else
    let fold := foldBranch env t isUnsigned lhs rhs orEqual
    if fold = .cannotBranch ∧ env.performTransformation .removeKnown then ⟨.removed,env.block,env.block⟩
    else if fold = .cannotFallThrough ∧ env.performTransformation .gotoKnown then ⟨.goto,env.block,env.block⟩
    else finish env (constrainEdges env t isUnsigned lhs rhs orEqual fold)

-- The type of the children, for the opcodes modelled here.
def childType : Operand → Option DataType
  | .i => some .Int32
  | .l => some .Int64
  | .lu => some .Int64
  | _ => none

def BranchHandler.outcome (env : Surroundings) (t : DataType) (isUnsigned : Bool) (first second : Nat) :
    BranchHandler → Option Outcome
  | constrainIfcmplt => some (constrainIfcmplessthan env t isUnsigned first second false)
  | constrainIfcmple => some (constrainIfcmplessthan env t isUnsigned first second true)
  | constrainIfcmpgt => some (constrainIfcmplessthan env t isUnsigned second first false)
  | constrainIfcmpge => some (constrainIfcmplessthan env t isUnsigned second first true)
  | _ => none

/- A value of each value number. It meets a list at a number when it is in the
constraint found there. -/
def Meets (list : ValueConstraints) (valueNumber : Nat) (v : Int) : Prop := ∀ c, list valueNumber = some c → c.Contains v

def ListValid (t : DataType) (list : ValueConstraints) (valueNumber : Nat) : Prop :=
  ∀ c, list valueNumber = some c → c.Valid t

structure WellTyped (env : Surroundings) (t : DataType) (child : Nat) : Prop where
  globals : ListValid t env.globals child
  block : ListValid t env.block child
  found : ListValid t env.getConstraint child

structure Known (env : Surroundings) (t : DataType) (value : Nat → Int) (child : Nat) : Prop where
  inside : InRange t.bits (value child)
  globals : Meets env.globals child (value child)
  block : Meets env.block child (value child)
  found : Meets env.getConstraint child (value child)

structure Consistent (env : Surroundings) (t : DataType) (first second : Nat) (value : Nat → Int) : Prop where
  left : Known env t value first
  right : Known env t value second
  forward : ∀ rel, env.getRelation first second = some rel → rel.Holds t.bits (value first) (value second)
  backward : ∀ rel, env.getRelation second first = some rel → rel.Holds t.bits (value second) (value first)

structure Outcome.SoundFor (o : Outcome) (first second : Nat) (value : Nat → Int) (taken : Bool) : Prop where
  edge : taken = true → Meets o.edge first (value first) ∧ Meets o.edge second (value second)
  fallThrough : taken = false → Meets o.block first (value first) ∧ Meets o.block second (value second)
  goto : o.action = .goto → taken = true
  removed : o.action = .removed → taken = false

def BranchSound (env : Surroundings) (op : CompareOp) (t : DataType) (first second : Nat) : Prop :=
  ∀ o, (branchTable op).outcome env t op.operand.isUnsigned first second = some o →
    ∀ value, Consistent env t first second value → o.SoundFor first second value (op.eval (value first) (value second))

section Lists
variable {t : DataType} {globals list : ValueConstraints} {child : Nat} {constraint : VPConstraint}

theorem meetsSet {v : Int} : Meets (list.set child constraint) child v ↔ constraint.Contains v := by
  simp [Meets,ValueConstraints.set]

theorem setOther {other : Nat} (h : other ≠ child) : list.set child constraint other = list other := if_neg h

theorem listValidSet (valid : constraint.Valid t) : ListValid t (list.set child constraint) child := by
  intro c hc
  simp only [ValueConstraints.set,if_true] at hc
  cases Option.some.inj hc
  exact valid

/- What adding a constraint does, for any value that meets the lists so far. -/
structure Added (t : DataType) (list : ValueConstraints) (child : Nat) (constraint : VPConstraint) (known : Int → Prop)
    (result : Option VPConstraint × ValueConstraints) : Prop where
  failed : result.1 = none → ∀ v, known v → ¬ constraint.Contains v
  meets : ∀ c, result.1 = some c → ∀ v, known v → (Meets result.2 child v ↔ constraint.Contains v)
  inhabited : ∀ c, result.1 = some c → (∃ v, known v) → ∃ v, known v ∧ constraint.Contains v
  valid : ListValid t result.2 child
  other : ∀ v, v ≠ child → result.2 v = list v

theorem meetsSome {existing : VPConstraint} (found : list child = some existing) {v : Int} :
    Meets list child v ↔ existing.Contains v := by
  simp [Meets,found]

theorem meetsNone (found : list child = none) {v : Int} : Meets list child v := by simp [Meets,found]

theorem insertAdded (lv : ListValid t list child) (cv : constraint.Valid t) :
    Added t list child constraint (Meets list child) (insertConstraint child constraint list) := by
  unfold insertConstraint
  cases found : list child with
  | none =>
    obtain ⟨v,hv⟩ := validInhabited cv
    exact ⟨nofun,fun _ _ _ _ => meetsSet,fun _ _ _ => ⟨v,meetsNone found,hv⟩,listValidSet cv,fun v hv => setOther hv⟩
  | some existing =>
    obtain ⟨empty,exact,valid⟩ := intersectIntersection cv (lv existing found)
    simp only
    cases made : intersect constraint (some existing) with
    | none => exact ⟨fun _ v known hv => empty made v ⟨hv,known existing found⟩,nofun,nofun,lv,fun _ _ => rfl⟩
    | some c =>
      refine ⟨nofun,fun _ _ v known => ?_,fun _ _ _ => ?_,listValidSet (valid c made),fun v hv => setOther hv⟩
      · rw [meetsSet,exact c made v]
        exact and_iff_left (known existing found)
      · obtain ⟨v,hv⟩ := validInhabited (valid c made)
        have both := (exact c made v).mp hv
        exact ⟨v,(meetsSome found).mpr both.2,both.1⟩

theorem addConstraintAdded (gv : ListValid t globals child) (lv : ListValid t list child) (cv : constraint.Valid t) :
    Added t list child constraint (fun v => Meets globals child v ∧ Meets list child v)
      (addConstraintToList globals child constraint list) := by
  unfold addConstraintToList
  cases found : globals child with
  | none =>
    obtain ⟨failed,meets,inhabited,valid,other⟩ := insertAdded lv cv
    refine ⟨fun h v known => failed h v known.2,fun c h v known => meets c h v known.2,fun c h some => ?_,valid,other⟩
    obtain ⟨v,known⟩ := some
    obtain ⟨u,hu,inside⟩ := inhabited c h ⟨v,known.2⟩
    exact ⟨u,⟨meetsNone found,hu⟩,inside⟩
  | some global =>
    obtain ⟨empty,exact,validC⟩ := intersectIntersection cv (gv global found)
    simp only
    cases made : intersect constraint (some global) with
    | none => exact ⟨fun _ v known hv => empty made v ⟨hv,known.1 global found⟩,nofun,nofun,lv,fun _ _ => rfl⟩
    | some c =>
      have reads : ∀ v, Meets globals child v → (c.Contains v ↔ constraint.Contains v) := by
        intro v known
        rw [exact c made v]
        exact and_iff_left (known global found)
      simp only
      split
      · rename_i same
        have inGlobal : ∀ v, Meets globals child v → constraint.Contains v := fun v known =>
          (reads v known).mp (same ▸ known global found)
        exact ⟨nofun,fun _ _ v known => iff_of_true known.2 (inGlobal v known.1),
          fun _ _ ⟨v,known⟩ => ⟨v,known,inGlobal v known.1⟩,lv,fun _ _ => rfl⟩
      · obtain ⟨failed,meets,inhabited,valid,other⟩ := insertAdded lv (validC c made)
        refine ⟨fun h v known => fun hv => failed h v known.2 ((reads v known.1).mpr hv),
          fun d h v known => (meets d h v known.2).trans (reads v known.1),fun d h ⟨v,known⟩ => ?_,valid,other⟩
        obtain ⟨u,hu,inside⟩ := inhabited d h ⟨v,known.2⟩
        have both := (exact c made u).mp inside
        exact ⟨u,⟨(meetsSome found).mpr both.2,hu⟩,both.1⟩

end Lists

/- The lists and flags of a running branch, for one value of each child: while
the compare is true they describe the edge, else the fall through. -/
structure Tracks (t : DataType) (lhs rhs : Nat) (value : Nat → Int) (taken : Bool) (s : Branch) : Prop where
  edgeValid : ListValid t s.edge lhs ∧ ListValid t s.edge rhs
  blockValid : ListValid t s.block lhs ∧ ListValid t s.block rhs
  edge : taken = true → Meets s.edge lhs (value lhs) ∧ Meets s.edge rhs (value rhs)
  block : taken = false → Meets s.block lhs (value lhs) ∧ Meets s.block rhs (value rhs)
  branch : s.cannotBranch = true → taken = false
  fallThrough : s.cannotFallThrough = true → taken = true

section Steps
variable {env : Surroundings} {t : DataType} {lhs rhs : Nat} {value : Nat → Int} {taken : Bool} {s : Branch}

-- Both children keep what they had on a list that changed at one of them.
theorem bothAdded {p : ValueConstraints → Nat → Prop} {list list' : ValueConstraints} {child : Nat}
    (local' : ∀ v, list' v = list v → p list v → p list' v) (other : ∀ v, v ≠ child → list' v = list v)
    (before : p list lhs ∧ p list rhs) (after : p list' child) : p list' lhs ∧ p list' rhs := by
  refine ⟨?_,?_⟩
  · by_cases same : lhs = child
    · exact same ▸ after
    · exact local' lhs (other lhs same) before.1
  · by_cases same : rhs = child
    · exact same ▸ after
    · exact local' rhs (other rhs same) before.2

theorem listValidLocal {list list' : ValueConstraints} (v : Nat) (same : list' v = list v) (h : ListValid t list v) :
    ListValid t list' v := by
  unfold ListValid
  rw [same]
  exact h

theorem meetsLocal {list list' : ValueConstraints} (v : Nat) (same : list' v = list v) (h : Meets list v (value v)) :
    Meets list' v (value v) := by
  unfold Meets
  rw [same]
  exact h

theorem childOf {p : Nat → Prop} {child : Nat} (h : child = lhs ∨ child = rhs) (both : p lhs ∧ p rhs) : p child := by
  rcases h with rfl | rfl
  · exact both.1
  · exact both.2

theorem addEdgeTracks {child : Nat} (isChild : child = lhs ∨ child = rhs) (typed : WellTyped env t child)
    (known : Known env t value child) {c : IntegralConstraint} (valid : c.Valid t)
    (holds : taken = true → c.Contains (value child)) (tracks : Tracks t lhs rhs value taken s) :
    Tracks t lhs rhs value taken (addEdgeConstraint env child (some c) s) := by
  have listValid : ListValid t s.edge child := childOf isChild tracks.edgeValid
  obtain ⟨failed,meets,_,after,other⟩ :=
    addConstraintAdded typed.globals listValid (show (VPConstraint.integral c).Valid t from valid)
  simp only [addEdgeConstraint]
  split
  · split
    · rename_i list h
      refine { tracks with branch := fun _ => ?_ }
      by_contra h'
      have yes : taken = true := by simpa using h'
      exact failed (by rw [h]) _ ⟨known.globals,childOf (p := fun v => Meets s.edge v (value v)) isChild (tracks.edge yes)⟩
        (holds yes)
    · rename_i d list h
      rw [h] at meets after other
      refine { tracks with edgeValid := ?_, edge := fun yes => ?_ }
      · exact bothAdded (p := ListValid t) listValidLocal other tracks.edgeValid after
      · refine bothAdded (p := fun l v => Meets l v (value v)) meetsLocal other (tracks.edge yes) ?_
        exact (meets d rfl _ ⟨known.globals,childOf (p := fun v => Meets s.edge v (value v)) isChild (tracks.edge yes)⟩).mpr
          (holds yes)
  · exact tracks

theorem addBlockTracks {child : Nat} (isChild : child = lhs ∨ child = rhs) (typed : WellTyped env t child)
    (known : Known env t value child) {c : IntegralConstraint} (valid : c.Valid t)
    (holds : taken = false → c.Contains (value child)) (tracks : Tracks t lhs rhs value taken s) :
    Tracks t lhs rhs value taken (addBlockConstraint env child (some c) s) := by
  have listValid : ListValid t s.block child := childOf isChild tracks.blockValid
  obtain ⟨failed,meets,_,after,other⟩ :=
    addConstraintAdded typed.globals listValid (show (VPConstraint.integral c).Valid t from valid)
  simp only [addBlockConstraint]
  split
  · rename_i list h
    refine { tracks with fallThrough := fun _ => ?_ }
    by_contra h'
    have no : taken = false := by simpa using h'
    exact failed (by rw [h]) _ ⟨known.globals,childOf (p := fun v => Meets s.block v (value v)) isChild (tracks.block no)⟩
      (holds no)
  · rename_i d list h
    rw [h] at meets after other
    refine { tracks with blockValid := ?_, block := fun no => ?_ }
    · exact bothAdded (p := ListValid t) listValidLocal other tracks.blockValid after
    · refine bothAdded (p := fun l v => Meets l v (value v)) meetsLocal other (tracks.block no) ?_
      exact (meets d rfl _ ⟨known.globals,childOf (p := fun v => Meets s.block v (value v)) isChild (tracks.block no)⟩).mpr
        (holds no)

theorem rangeMade {low high : Int} (lower : t.getMinSigned ≤ low) (proper : low ≤ high) (upper : high ≤ t.getMaxSigned)
    (part : t.getMinSigned < low ∨ high < t.getMaxSigned) :
    ∃ c, rangeOf t low high = some c ∧ c.Valid t ∧ ∀ v, c.Contains v ↔ low ≤ v ∧ v ≤ high := by
  cases made : rangeOf t low high with
  | none =>
    have := rangeOfFull made
    omega
  | some c =>
    obtain ⟨type,lowEq,highEq⟩ := rangeOfBounds made
    refine ⟨c,rfl,⟨type,by omega,by omega,by omega⟩,fun v => ?_⟩
    rw [IntegralConstraint.Contains,lowEq,highEq]

-- A boundary moved past the end of the type comes back at the other end.
theorem boundaryUp {b a : Int} (lower : t.getMinSigned ≤ b) (upper : b ≤ t.getMaxSigned) (step : a = 0 ∨ a = 1)
    (moved : wrap t.bits (b + a) ≠ t.getMinSigned) :
    wrap t.bits (b + a) = b + a ∧ t.getMinSigned < b + a ∧ b + a ≤ t.getMaxSigned := by
  have mod := modulusHalf t.bitsPos
  have pos := halfPos t.bits
  have turn := wrapTurn t.bitsPos (x := b + a)
  simp only [DataType.getMinSigned,DataType.getMaxSigned,minSigned,maxSigned,InRange] at *
  omega

theorem boundaryDown {b a : Int} (lower : t.getMinSigned ≤ b) (upper : b ≤ t.getMaxSigned) (step : a = 0 ∨ a = 1)
    (moved : wrap t.bits (b - a) ≠ t.getMaxSigned) :
    wrap t.bits (b - a) = b - a ∧ t.getMinSigned ≤ b - a ∧ b - a < t.getMaxSigned := by
  have mod := modulusHalf t.bitsPos
  have pos := halfPos t.bits
  have turn := wrapTurn t.bitsPos (x := b - a)
  simp only [DataType.getMinSigned,DataType.getMaxSigned,minSigned,maxSigned,InRange] at *
  omega

theorem adjustmentStep (orEqual : Bool) : adjustment orEqual = 0 ∨ adjustment orEqual = 1 := by
  cases orEqual <;> simp [adjustment]

theorem childBounds (lhs rhs : Nat) {child : Nat} (typed : WellTyped env t child) (known : Known env t value child) :
    t.getMinSigned ≤ lowOf t (childConstraint env lhs rhs child) ∧
    lowOf t (childConstraint env lhs rhs child) ≤ value child ∧
    value child ≤ highOf t (childConstraint env lhs rhs child) ∧
    highOf t (childConstraint env lhs rhs child) ≤ t.getMaxSigned := by
  have inside := known.inside
  unfold childConstraint
  split
  · exact ⟨Int.le_refl _,inside.1,inside.2,Int.le_refl _⟩
  · cases found : env.getConstraint child with
    | none => exact ⟨Int.le_refl _,inside.1,inside.2,Int.le_refl _⟩
    | some c =>
      have valid := typed.found c found
      obtain ⟨lowIn,highIn,bounds⟩ := validBounds valid
      have here := bounds _ (known.found c found)
      exact ⟨(containsInRange valid lowIn).1,here.1,here.2,(containsInRange valid highIn).2⟩

section Signed
variable {orEqual : Bool} (typedL : WellTyped env t lhs) (typedR : WellTyped env t rhs) (knownL : Known env t value lhs)
  (knownR : Known env t value rhs)

-- The signed order test on the values of the children.
def signedLess (value : Nat → Int) (lhs rhs : Nat) (orEqual : Bool) : Bool :=
  if orEqual then value lhs ≤ value rhs else value lhs < value rhs

theorem signedTaken : signedLess value lhs rhs orEqual = true ↔ value lhs + adjustment orEqual ≤ value rhs := by
  cases orEqual with
  | false => simp [signedLess,adjustment,Int.add_one_le_iff]
  | true => simp [signedLess,adjustment]

theorem signedNotTaken : signedLess value lhs rhs orEqual = false ↔ value rhs < value lhs + adjustment orEqual := by
  rw [← Bool.not_eq_true,signedTaken,Int.not_le]

include typedL typedR knownL knownR

theorem takenRightTracks (tracks : Tracks t lhs rhs value (signedLess value lhs rhs orEqual) s) :
    Tracks t lhs rhs value (signedLess value lhs rhs orEqual) (takenRight env t false lhs rhs orEqual s) := by
  have boundsL := childBounds lhs rhs typedL knownL
  have inside := knownR.inside
  simp only [InRange] at inside
  unfold takenRight
  simp only
  split
  · rename_i moved
    obtain ⟨read,lower,upper⟩ := boundaryUp boundsL.1 (by omega) (adjustmentStep orEqual) moved.1
    rw [read]
    obtain ⟨c,made,valid,contains⟩ := rangeMade (t := t) (Int.le_of_lt lower) upper (Int.le_refl _) (.inl lower)
    rw [made]
    refine addEdgeTracks (.inr rfl) typedR knownR valid (fun yes => ?_) tracks
    have order := signedTaken.mp yes
    exact (contains _).mpr ⟨by omega,inside.2⟩
  · exact tracks

theorem takenLeftTracks (tracks : Tracks t lhs rhs value (signedLess value lhs rhs orEqual) s) :
    Tracks t lhs rhs value (signedLess value lhs rhs orEqual) (takenLeft env t false lhs rhs orEqual s) := by
  have boundsR := childBounds lhs rhs typedR knownR
  have inside := knownL.inside
  simp only [InRange] at inside
  unfold takenLeft takenLeftBoundary
  simp only [Bool.false_eq_true,false_and,if_false]
  split
  · rename_i moved
    obtain ⟨read,lower,upper⟩ := boundaryDown (by omega) boundsR.2.2.2 (adjustmentStep orEqual) moved.1
    rw [read]
    obtain ⟨c,made,valid,contains⟩ := rangeMade (t := t) (Int.le_refl _) lower (Int.le_of_lt upper) (.inr upper)
    rw [made]
    refine addEdgeTracks (.inl rfl) typedL knownL valid (fun yes => ?_) tracks
    have order := signedTaken.mp yes
    exact (contains _).mpr ⟨inside.1,by omega⟩
  · exact tracks

theorem fallThroughRightTracks (tracks : Tracks t lhs rhs value (signedLess value lhs rhs orEqual) s) :
    Tracks t lhs rhs value (signedLess value lhs rhs orEqual) (fallThroughRight env t false lhs rhs orEqual s) := by
  have boundsL := childBounds lhs rhs typedL knownL
  have inside := knownR.inside
  have step := adjustmentStep orEqual
  simp only [InRange] at inside
  have same : highOf t (childConstraint env lhs rhs lhs) + (adjustment orEqual - 1) =
      highOf t (childConstraint env lhs rhs lhs) - (1 - adjustment orEqual) := by omega
  unfold fallThroughRight
  rw [same]
  simp only
  split
  · rename_i moved
    obtain ⟨read,lower,upper⟩ := boundaryDown (by omega) boundsL.2.2.2 (by omega) moved.1
    rw [read]
    obtain ⟨c,made,valid,contains⟩ := rangeMade (t := t) (Int.le_refl _) lower (Int.le_of_lt upper) (.inr upper)
    rw [made]
    refine addBlockTracks (.inr rfl) typedR knownR valid (fun no => ?_) tracks
    have order := signedNotTaken.mp no
    exact (contains _).mpr ⟨inside.1,by omega⟩
  · exact tracks

theorem fallThroughLeftTracks (tracks : Tracks t lhs rhs value (signedLess value lhs rhs orEqual) s) :
    Tracks t lhs rhs value (signedLess value lhs rhs orEqual) (fallThroughLeft env t false lhs rhs orEqual s) := by
  have boundsR := childBounds lhs rhs typedR knownR
  have inside := knownL.inside
  have step := adjustmentStep orEqual
  simp only [InRange] at inside
  unfold fallThroughLeft
  simp only
  split
  · rename_i moved
    obtain ⟨read,lower,upper⟩ := boundaryUp boundsR.1 (by omega) (by omega) moved.1
    rw [read]
    obtain ⟨c,made,valid,contains⟩ := rangeMade (t := t) (Int.le_of_lt lower) upper (Int.le_refl _) (.inl lower)
    rw [made]
    refine addBlockTracks (.inl rfl) typedL knownL valid (fun no => ?_) tracks
    have order := signedNotTaken.mp no
    exact (contains _).mpr ⟨by omega,inside.2⟩
  · exact tracks

end Signed

-- A fold says at most that one way out is never taken.
structure Fold.Right (fold : Fold) (taken : Bool) : Prop where
  branch : fold = .cannotBranch → taken = false
  fallThrough : fold = .cannotFallThrough → taken = true

theorem foldUnknown {taken : Bool} : Fold.unknown.Right taken := ⟨nofun,nofun⟩

theorem foldCannotBranch {taken : Bool} (h : taken = false) : Fold.cannotBranch.Right taken := ⟨fun _ => h,nofun⟩

theorem foldCannotFallThrough {taken : Bool} (h : taken = true) : Fold.cannotFallThrough.Right taken := ⟨nofun,fun _ => h⟩

theorem lessReads : signedLess value lhs rhs false = decide (value lhs < value rhs) := rfl

theorem lessOrEqualReads : signedLess value lhs rhs true = decide (value lhs ≤ value rhs) := rfl

theorem absoluteFoldRight (wide : t ≠ .Int16) {l r : Option VPConstraint} (lv : ∀ c, l = some c → c.Valid t)
    (rv : ∀ c, r = some c → c.Valid t) (hl : ∀ c, l = some c → c.Contains (value lhs))
    (hr : ∀ c, r = some c → c.Contains (value rhs)) (orEqual : Bool) :
    (absoluteFold l r orEqual).Right (signedLess value lhs rhs orEqual) := by
  unfold absoluteFold
  split
  · rename_i l r
    have less := fun {a b : VPConstraint} (va : a.Valid t) (vb : b.Valid t) =>
      (mustBeLessThanSound va vb).mpr fun defect => wide defect.1
    have lessOrEqual := fun {a b : VPConstraint} (va : a.Valid t) (vb : b.Valid t) =>
      (mustBeLessThanOrEqualSound va vb).mpr fun defect => defect.1 rfl
    have vl := lv l rfl
    have vr := rv r rfl
    have inL := hl l rfl
    have inR := hr r rfl
    split
    · rename_i orEqual'
      subst orEqual'
      rw [lessOrEqualReads]
      split
      · exact foldCannotFallThrough (decide_eq_true (lessOrEqual vl vr ‹_› _ _ inL inR))
      · split
        · exact foldCannotBranch (decide_eq_false (Int.not_le.mpr (less vr vl ‹_› _ _ inR inL)))
        · exact foldUnknown
    · rename_i strict
      rw [Bool.not_eq_true] at strict
      subst strict
      rw [lessReads]
      split
      · exact foldCannotFallThrough (decide_eq_true (less vl vr ‹_› _ _ inL inR))
      · split
        · exact foldCannotBranch (decide_eq_false (Int.not_lt.mpr (lessOrEqual vr vl ‹_› _ _ inR inL)))
        · exact foldUnknown
  · exact foldUnknown

theorem relativeFoldRight {rel : VPRelation} (right : InRange t.bits (value rhs))
    (holds : rel.Holds t.bits (value lhs) (value rhs)) (orEqual : Bool) :
    (relativeFold rel orEqual).Right (signedLess value lhs rhs orEqual) := by
  have hw := t.bitsPos
  unfold relativeFold
  cases orEqual with
  | true =>
    rw [lessOrEqualReads,if_pos rfl]
    split
    · exact foldCannotFallThrough (decide_eq_true (rel.mustBeLessThanOrEqualSound hw right holds ‹_›))
    · split
      · exact foldCannotBranch (decide_eq_false (Int.not_le.mpr (rel.mustBeGreaterThanSound hw right holds ‹_›)))
      · exact foldUnknown
  | false =>
    rw [lessReads,if_neg (by decide)]
    split
    · exact foldCannotFallThrough (decide_eq_true (rel.mustBeLessThanSound hw right holds ‹_›))
    · split
      · exact foldCannotBranch (decide_eq_false (Int.not_lt.mpr (rel.mustBeGreaterThanOrEqualSound hw right holds ‹_›)))
      · exact foldUnknown

theorem clippedDifferenceBound {left right : Int} (inLeft : InRange 64 left) (inRight : InRange 64 right)
    (order : right ≤ left) : clippedDifference left right ≤ left - right := by
  have mod := modulusHalf (w := 64) (by decide)
  have pos := halfPos 64
  have turn := wrapTurn (w := 64) (by decide) (x := left - right)
  unfold clippedDifference
  simp only [DataType.getMaxSigned,DataType.bits,InRange,minSigned,maxSigned] at *
  split <;> omega

theorem rangeWiden {v : Int} (h : InRange t.bits v) : InRange 64 v := by
  have bits : half t.bits ≤ half 64 := by cases t <;> decide
  simp only [InRange,minSigned,maxSigned] at *
  omega

/- Within the clipped distance lhs = rhs + increment holds without wrapping. -/
theorem incrementExact {l r : Option VPConstraint} (lv : ∀ c, l = some c → c.Valid t) (rv : ∀ c, r = some c → c.Valid t)
    (hl : ∀ c, l = some c → c.Contains (value lhs)) (hr : ∀ c, r = some c → c.Contains (value rhs))
    (left : InRange t.bits (value lhs)) (right : InRange t.bits (value rhs)) (known : l.isSome ∨ r.isSome)
    {increment : Int} (near : absIncrement increment ≤ maxIncrement t l r increment)
    (equal : value lhs = wrap t.bits (value rhs + increment)) : value lhs = value rhs + increment := by
  have mod := modulusHalf t.bitsPos
  have pos := halfPos t.bits
  have turn := wrapTurn t.bitsPos (x := value rhs + increment)
  have minIn : InRange 64 t.getMinSigned := rangeWiden ⟨Int.le_refl _,Int.le_of_lt t.minLtMax⟩
  have maxIn : InRange 64 t.getMaxSigned := rangeWiden ⟨Int.le_of_lt t.minLtMax,Int.le_refl _⟩
  unfold maxIncrement at near
  split at near
  · rename_i r
    have valid := rv r rfl
    obtain ⟨lowIn,highIn,bounds⟩ := validBounds valid
    have here := bounds _ (hr r rfl)
    have lowRange := containsInRange valid lowIn
    have highRange := containsInRange valid highIn
    have down := clippedDifferenceBound (rangeWiden lowRange) minIn lowRange.1
    have up := clippedDifferenceBound maxIn (rangeWiden highRange) highRange.2
    simp only [DataType.getMinSigned,DataType.getMaxSigned,InRange,minSigned,maxSigned,absIncrement] at *
    split at near <;> omega
  · rename_i l
    have valid := lv l rfl
    obtain ⟨lowIn,highIn,bounds⟩ := validBounds valid
    have here := bounds _ (hl l rfl)
    have lowRange := containsInRange valid lowIn
    have highRange := containsInRange valid highIn
    have down := clippedDifferenceBound (rangeWiden lowRange) minIn lowRange.1
    have up := clippedDifferenceBound maxIn (rangeWiden highRange) highRange.2
    simp only [DataType.getMinSigned,DataType.getMaxSigned,InRange,minSigned,maxSigned,absIncrement] at *
    split at near <;> omega
  · simp at known

theorem incrementFoldRight {l r : Option VPConstraint} {rel : VPRelation}
    (exact : absIncrement rel.increment ≤ maxIncrement t l r rel.increment → value lhs = value rhs + rel.increment)
    (orEqual : Bool) : (incrementFold t l r rel orEqual).Right (signedLess value lhs rhs orEqual) := by
  unfold incrementFold
  split
  · rename_i near
    have equal := exact near
    cases orEqual with
    | true =>
      rw [lessOrEqualReads,if_pos rfl]
      split
      · exact foldCannotFallThrough (decide_eq_true (by omega))
      · exact foldCannotBranch (decide_eq_false (by omega))
    | false =>
      rw [lessReads,if_neg (by decide)]
      split
      · exact foldCannotFallThrough (decide_eq_true (by omega))
      · exact foldCannotBranch (decide_eq_false (by omega))
  · exact foldUnknown

theorem relationFoldRight {l r : Option VPConstraint} (lv : ∀ c, l = some c → c.Valid t)
    (rv : ∀ c, r = some c → c.Valid t) (hl : ∀ c, l = some c → c.Contains (value lhs))
    (hr : ∀ c, r = some c → c.Contains (value rhs)) (left : InRange t.bits (value lhs))
    (right : InRange t.bits (value rhs)) {rel : VPRelation} (holds : rel.Holds t.bits (value lhs) (value rhs))
    (orEqual : Bool) : (relationFold env t l r rel orEqual).Right (signedLess value lhs rhs orEqual) := by
  unfold relationFold
  have relative := relativeFoldRight (t := t) right holds orEqual
  split
  · split
    · rename_i kind
      refine incrementFoldRight (fun near => ?_) orEqual
      simp only [VPRelation.Holds,kind.1,Kind.Relates,VPRelation.target] at holds
      split at holds
      · exact holds
      · exact incrementExact lv rv hl hr left right kind.2.1 near holds
    · exact foldUnknown
  · exact relative

theorem foldBranchRight (wide : t ≠ .Int16) (typedL : WellTyped env t lhs) (typedR : WellTyped env t rhs)
    (consistent : Consistent env t lhs rhs value) (orEqual : Bool) :
    (foldBranch env t false lhs rhs orEqual).Right (signedLess value lhs rhs orEqual) := by
  obtain ⟨knownL,knownR,holds,_⟩ := consistent
  unfold foldBranch
  split
  · rename_i same
    subst same
    cases orEqual with
    | true => exact foldCannotFallThrough (by simp [signedLess])
    | false => exact foldCannotBranch (by simp [signedLess])
  · rw [if_neg (by decide)]
    have absolute := absoluteFoldRight wide typedL.found typedR.found knownL.found knownR.found orEqual
    split
    · split
      · exact foldUnknown
      · rename_i rel found
        exact relationFoldRight typedL.found typedR.found knownL.found knownR.found knownL.inside knownR.inside
          (holds rel found) orEqual
    · exact absolute

theorem constrainEdgesTracks (typedL : WellTyped env t lhs) (typedR : WellTyped env t rhs)
    (consistent : Consistent env t lhs rhs value) {orEqual : Bool} {fold : Fold}
    (right : fold.Right (signedLess value lhs rhs orEqual)) :
    Tracks t lhs rhs value (signedLess value lhs rhs orEqual) (constrainEdges env t false lhs rhs orEqual fold) := by
  obtain ⟨knownL,knownR,_,_⟩ := consistent
  have start : Tracks t lhs rhs value (signedLess value lhs rhs orEqual)
      ⟨env.block,env.block,fold = .cannotBranch,fold = .cannotFallThrough⟩ :=
    ⟨⟨typedL.block,typedR.block⟩,⟨typedL.block,typedR.block⟩,fun _ => ⟨knownL.block,knownR.block⟩,
      fun _ => ⟨knownL.block,knownR.block⟩,fun h => right.branch (by simpa using h),
      fun h => right.fallThrough (by simpa using h)⟩
  unfold constrainEdges
  exact fallThroughLeftTracks typedL typedR knownL knownR
    (fallThroughRightTracks typedL typedR knownL knownR
      (takenLeftTracks typedL typedR knownL knownR (takenRightTracks typedL typedR knownL knownR start)))

-- Before any range is added both ways out have what the block has.
theorem blockSound (consistent : Consistent env t lhs rhs value) {action : Action} (goto : action = .goto → taken = true)
    (removed : action = .removed → taken = false) :
    Outcome.SoundFor ⟨action,env.block,env.block⟩ lhs rhs value taken :=
  ⟨fun _ => ⟨consistent.left.block,consistent.right.block⟩,fun _ => ⟨consistent.left.block,consistent.right.block⟩,goto,
    removed⟩

theorem finishSound (tracks : Tracks t lhs rhs value taken s) : (finish env s).SoundFor lhs rhs value taken := by
  unfold finish
  split
  · exact ⟨tracks.edge,tracks.block,nofun,fun _ => tracks.branch (by simp_all)⟩
  · split
    · exact ⟨tracks.edge,tracks.block,fun _ => tracks.fallThrough (by simp_all),nofun⟩
    · exact ⟨tracks.edge,tracks.block,nofun,nofun⟩

theorem signedSound (wide : t ≠ .Int16) (typedL : WellTyped env t lhs) (typedR : WellTyped env t rhs)
    (consistent : Consistent env t lhs rhs value) (orEqual : Bool) :
    (constrainIfcmplessthan env t false lhs rhs orEqual).SoundFor lhs rhs value (signedLess value lhs rhs orEqual) := by
  have right := foldBranchRight wide typedL typedR consistent orEqual
  unfold constrainIfcmplessthan
  split
  · exact blockSound consistent nofun nofun
  · simp only
    split
    · rename_i known
      exact blockSound consistent nofun fun _ => right.branch known.1
    · split
      · rename_i known
        exact blockSound consistent (fun _ => right.fallThrough known.1) nofun
      · exact finishSound (constrainEdgesTracks typedL typedR consistent right)

end Steps

section Unsigned
variable {env : Surroundings} {lhs rhs : Nat} {orEqual : Bool}

def UnsignedSafe (env : Surroundings) (lhs rhs : Nat) (orEqual : Bool) : Prop :=
  env.sameTarget = true ∨ env.isGlobalPropagation = false ∨
    takenLeftBoundary env .Int64 true lhs rhs orEqual = DataType.Int64.getMaxSigned ∨
    (env.performTransformation .removeBranch = false ∧
      ∀ v, 0 ≤ v → v ≤ takenLeftBoundary env .Int64 true lhs rhs orEqual →
        ¬ (Meets env.globals lhs v ∧ Meets env.block lhs v)) ∨
    ∀ value, Consistent env .Int64 lhs rhs value →
      0 ≤ value rhs ∨ (value lhs ≤ takenLeftBoundary env .Int64 true lhs rhs orEqual ∧
        (0 ≤ value lhs ∨ value rhs + (1 - adjustment orEqual) ≤ value lhs))

-- Read as unsigned, the negative values stand above the others in their own order.
theorem unsignedTaken {x y : Int} (left : InRange 64 x) (right : InRange 64 y) :
    Operand.lu.less orEqual x y = true ↔
      (0 ≤ x ∧ y < 0) ∨ ((0 ≤ x ↔ 0 ≤ y) ∧ x + adjustment orEqual ≤ y) := by
  have mod := modulusHalf (w := 64) (by decide)
  have readX := unsignedOfSigned (w := 64) (by decide) left
  have readY := unsignedOfSigned (w := 64) (by decide) right
  have reads : ∀ v, Operand.lu.read v = toUnsigned 64 v := fun v => rfl
  simp only [InRange,minSigned,maxSigned] at left right
  cases orEqual with
  | false =>
    simp only [Operand.less,adjustment,reads,readX,readY,Bool.false_eq_true,if_false,decide_eq_true_eq]
    split <;> split <;> omega
  | true =>
    simp only [Operand.less,adjustment,reads,readX,readY,if_true,decide_eq_true_eq]
    split <;> split <;> omega

theorem unsignedBoundary {value : Nat → Int} (typed : WellTyped env .Int64 rhs) (known : Known env .Int64 value rhs)
    (kept : takenLeftBoundary env .Int64 true lhs rhs orEqual ≠ DataType.Int64.getMaxSigned) :
    0 ≤ takenLeftBoundary env .Int64 true lhs rhs orEqual ∧
    value rhs ≤ takenLeftBoundary env .Int64 true lhs rhs orEqual + adjustment orEqual := by
  have bounds := childBounds lhs rhs typed known
  have step := adjustmentStep orEqual
  unfold takenLeftBoundary at kept ⊢
  simp only [true_and] at kept ⊢
  split at kept
  · exact absurd rfl kept
  · rename_i nonneg
    rw [if_neg nonneg]
    obtain ⟨read,_,_⟩ := boundaryDown (by omega) bounds.2.2.2 step kept
    omega

theorem unsignedPair {value : Nat → Int} (typed : WellTyped env .Int64 rhs)
    (consistent : Consistent env .Int64 lhs rhs value)
    (kept : takenLeftBoundary env .Int64 true lhs rhs orEqual ≠ DataType.Int64.getMaxSigned) :
    (Operand.lu.less orEqual (value lhs) (value rhs) = true →
      0 ≤ value lhs ∧ value lhs ≤ takenLeftBoundary env .Int64 true lhs rhs orEqual) ↔
    (0 ≤ value rhs ∨ (value lhs ≤ takenLeftBoundary env .Int64 true lhs rhs orEqual ∧
      (0 ≤ value lhs ∨ value rhs + (1 - adjustment orEqual) ≤ value lhs))) := by
  obtain ⟨nonneg,bound⟩ := unsignedBoundary typed consistent.right kept
  have step := adjustmentStep orEqual
  rw [unsignedTaken consistent.left.inside consistent.right.inside]
  omega

theorem unsignedBoundaryRange (env : Surroundings) (lhs rhs : Nat) (orEqual : Bool) :
    0 ≤ takenLeftBoundary env .Int64 true lhs rhs orEqual ∧
    takenLeftBoundary env .Int64 true lhs rhs orEqual ≤ DataType.Int64.getMaxSigned := by
  have range := wrapRange DataType.Int64.bitsPos
    (highOf .Int64 (childConstraint env lhs rhs rhs) - adjustment orEqual)
  have max : 0 ≤ DataType.Int64.getMaxSigned := by decide
  unfold takenLeftBoundary
  simp only [true_and]
  split
  · exact ⟨max,Int.le_refl _⟩
  · exact ⟨by omega,range.2⟩

-- The only range that an unsigned compare adds is the one of the left child on the edge.
theorem unsignedRun (different : lhs ≠ rhs) :
    constrainIfcmplessthan env .Int64 true lhs rhs orEqual =
      if env.sameTarget then ⟨.kept,env.block,env.block⟩
      else finish env (takenLeft env .Int64 true lhs rhs orEqual ⟨env.block,env.block,false,false⟩) := by
  simp [constrainIfcmplessthan,foldBranch,different,constrainEdges,takenRight,fallThroughLeft,fallThroughRight]

/- How the edge of an unsigned compare comes out: nothing is added, the added
range leaves no value, or the left child gets it. -/
theorem unsignedCases (orEqual : Bool) (typed : WellTyped env .Int64 lhs) (different : lhs ≠ rhs) (target : env.sameTarget = false)
    (propagation : env.isGlobalPropagation = true)
    (kept : takenLeftBoundary env .Int64 true lhs rhs orEqual ≠ DataType.Int64.getMaxSigned) :
    ((∀ v, 0 ≤ v → v ≤ takenLeftBoundary env .Int64 true lhs rhs orEqual →
        ¬ (Meets env.globals lhs v ∧ Meets env.block lhs v)) ∧
      constrainIfcmplessthan env .Int64 true lhs rhs orEqual =
        ⟨if env.performTransformation .removeBranch then .removed else .kept,env.block,env.block⟩) ∨
    ((∀ v, Meets env.globals lhs v → Meets env.block lhs v →
        ∃ u, (Meets env.globals lhs u ∧ Meets env.block lhs u) ∧
          0 ≤ u ∧ u ≤ takenLeftBoundary env .Int64 true lhs rhs orEqual) ∧
      ∃ edge, constrainIfcmplessthan env .Int64 true lhs rhs orEqual = ⟨.kept,edge,env.block⟩ ∧ edge rhs = env.block rhs ∧
        ∀ v, Meets env.globals lhs v → Meets env.block lhs v →
          (Meets edge lhs v ↔ 0 ≤ v ∧ v ≤ takenLeftBoundary env .Int64 true lhs rhs orEqual)) := by
  obtain ⟨nonneg,below⟩ := unsignedBoundaryRange env lhs rhs orEqual
  have min : DataType.Int64.getMinSigned < 0 := by decide
  obtain ⟨c,made,valid,contains⟩ := rangeMade (t := .Int64) (Int.le_of_lt min) nonneg below (.inl min)
  obtain ⟨failed,meets,inhabited,_,other⟩ :=
    addConstraintAdded typed.globals typed.block (show (VPConstraint.integral c).Valid .Int64 from valid)
  have inside : ∀ v, (VPConstraint.integral c).Contains v ↔ _ := contains
  rw [unsignedRun different,if_neg (by simp [target]),takenLeft]
  simp only [if_true,made,addEdgeConstraint,propagation]
  rw [if_pos ⟨kept,.inl trivial⟩]
  cases result : addConstraintToList env.globals lhs (.integral c) env.block with
  | mk added edge =>
    rw [result] at failed meets inhabited other
    cases added with
    | none =>
      refine .inl ⟨fun v lower upper known => failed rfl v known ((inside v).mpr ⟨lower,upper⟩),?_⟩
      cases permit : env.performTransformation .removeBranch <;> simp [finish,permit]
    | some d =>
      refine .inr ⟨fun v global block => ?_,edge,by simp [finish],other rhs different.symm,fun v global block => ?_⟩
      · obtain ⟨u,known,hu⟩ := inhabited d rfl ⟨v,global,block⟩
        exact ⟨u,known,(inside u).mp hu⟩
      · exact (meets d rfl v ⟨global,block⟩).trans (inside v)

theorem unsignedSoundIff (typedL : WellTyped env .Int64 lhs) (typedR : WellTyped env .Int64 rhs) (different : lhs ≠ rhs) :
    (∀ value, Consistent env .Int64 lhs rhs value →
      (constrainIfcmplessthan env .Int64 true lhs rhs orEqual).SoundFor lhs rhs value
        (Operand.lu.less orEqual (value lhs) (value rhs))) ↔ UnsignedSafe env lhs rhs orEqual := by
  unfold UnsignedSafe
  by_cases target : env.sameTarget = true
  · refine iff_of_true (fun value consistent => ?_) (.inl target)
    rw [unsignedRun different,if_pos target]
    exact blockSound consistent nofun nofun
  by_cases propagation : env.isGlobalPropagation = false
  · refine iff_of_true (fun value consistent => ?_) (.inr (.inl propagation))
    obtain ⟨nonneg,below⟩ := unsignedBoundaryRange env lhs rhs orEqual
    have min : DataType.Int64.getMinSigned < 0 := by decide
    obtain ⟨c,made,_,_⟩ := rangeMade (t := .Int64) (Int.le_of_lt min) nonneg below (.inl min)
    have run : constrainIfcmplessthan env .Int64 true lhs rhs orEqual = ⟨.kept,env.block,env.block⟩ := by
      simp [unsignedRun different,target,takenLeft,made,addEdgeConstraint,propagation,finish]
    rw [run]
    exact blockSound consistent nofun nofun
  by_cases kept : takenLeftBoundary env .Int64 true lhs rhs orEqual = DataType.Int64.getMaxSigned
  · refine iff_of_true (fun value consistent => ?_) (.inr (.inr (.inl kept)))
    have run : constrainIfcmplessthan env .Int64 true lhs rhs orEqual = ⟨.kept,env.block,env.block⟩ := by
      simp [unsignedRun different,target,takenLeft,kept,finish]
    rw [run]
    exact blockSound consistent nofun nofun
  rw [or_iff_right target,or_iff_right propagation,or_iff_right kept]
  rw [Bool.not_eq_false] at propagation
  rw [Bool.not_eq_true] at target
  rcases unsignedCases orEqual typedL different target propagation kept with ⟨nowhere,run⟩ | ⟨somewhere,edge,run,right,exact⟩
  · rw [run]
    cases permit : env.performTransformation .removeBranch with
    | false =>
      refine iff_of_true (fun value consistent => blockSound consistent nofun nofun) (.inl ⟨rfl,nowhere⟩)
    | true =>
      rw [or_iff_right (fun h => Bool.noConfusion h.1)]
      refine forall₂_congr fun value consistent => ?_
      rw [← unsignedPair typedR consistent kept]
      constructor
      · intro sound yes
        rw [sound.removed rfl] at yes
        cases yes
      · intro inside
        refine blockSound consistent nofun fun _ => ?_
        by_contra yes
        have bounds := inside (by simpa using yes)
        exact nowhere _ bounds.1 bounds.2 ⟨consistent.left.globals,consistent.left.block⟩
  · rw [run]
    constructor
    · intro sound
      refine .inr fun value consistent => (unsignedPair typedR consistent kept).mp fun yes => ?_
      exact (exact _ consistent.left.globals consistent.left.block).mp ((sound value consistent).edge yes).1
    · intro safe value consistent
      have inside : Operand.lu.less orEqual (value lhs) (value rhs) = true →
          0 ≤ value lhs ∧ value lhs ≤ takenLeftBoundary env .Int64 true lhs rhs orEqual := by
        rcases safe with ⟨_,nowhere⟩ | safe
        · obtain ⟨u,known,lower,upper⟩ := somewhere _ consistent.left.globals consistent.left.block
          exact absurd known (nowhere u lower upper)
        · exact (unsignedPair typedR consistent kept).mpr (safe value consistent)
      refine ⟨fun yes => ⟨?_,?_⟩,fun _ => ⟨consistent.left.block,consistent.right.block⟩,nofun,nofun⟩
      · exact (exact _ consistent.left.globals consistent.left.block).mpr (inside yes)
      · exact meetsLocal rhs right consistent.right.block

theorem lessSelf (orEqual : Bool) (x : Int) : Operand.lu.less orEqual x x = orEqual := by
  cases orEqual <;> simp [Operand.less]

theorem sameBoundary (env : Surroundings) (child : Nat) :
    takenLeftBoundary env .Int64 true child child true = DataType.Int64.getMaxSigned := by
  have read : wrap DataType.Int64.bits DataType.Int64.getMaxSigned = DataType.Int64.getMaxSigned := by decide
  simp [takenLeftBoundary,childConstraint,highOf,adjustment,read]

-- A value compared with itself: nothing that is added to the edge matters.
theorem sameSound {child : Nat} (typed : WellTyped env .Int64 child) {value : Nat → Int}
    (consistent : Consistent env .Int64 child child value) :
    (constrainIfcmplessthan env .Int64 true child child orEqual).SoundFor child child value orEqual := by
  have fold : foldBranch env .Int64 true child child orEqual = if orEqual then .cannotFallThrough else .cannotBranch := by
    simp [foldBranch]
  have known := consistent.left
  unfold constrainIfcmplessthan
  rw [fold]
  cases orEqual with
  | true =>
    have edges : constrainEdges env .Int64 true child child true .cannotFallThrough = ⟨env.block,env.block,false,true⟩ := by
      simp [constrainEdges,takenRight,fallThroughLeft,fallThroughRight,takenLeft,sameBoundary]
    simp only [if_true,edges]
    split
    · exact blockSound consistent nofun nofun
    · rw [if_neg (by simp)]
      split
      · exact blockSound consistent (fun _ => rfl) nofun
      · unfold finish
        rw [if_neg (by simp)]
        split
        · exact blockSound consistent (fun _ => rfl) nofun
        · exact blockSound consistent nofun nofun
  | false =>
    have edges : constrainEdges env .Int64 true child child false .cannotBranch =
        takenLeft env .Int64 true child child false ⟨env.block,env.block,true,false⟩ := by
      simp [constrainEdges,takenRight,fallThroughLeft,fallThroughRight]
    have start : Tracks .Int64 child child value false ⟨env.block,env.block,true,false⟩ :=
      ⟨⟨typed.block,typed.block⟩,⟨typed.block,typed.block⟩,nofun,fun _ => ⟨known.block,known.block⟩,fun _ => rfl,nofun⟩
    simp only [Bool.false_eq_true,if_false,edges]
    split
    · exact blockSound consistent nofun nofun
    · split
      · exact blockSound consistent nofun (fun _ => rfl)
      · rw [if_neg (by simp)]
        refine finishSound (t := .Int64) ?_
        obtain ⟨nonneg,below⟩ := unsignedBoundaryRange env child child false
        have min : DataType.Int64.getMinSigned < 0 := by decide
        obtain ⟨c,made,valid,_⟩ := rangeMade (t := .Int64) (Int.le_of_lt min) nonneg below (.inl min)
        unfold takenLeft
        simp only [if_true,made]
        split
        · exact addEdgeTracks (.inl rfl) typed known valid nofun start
        · exact start

theorem sameSafe (env : Surroundings) (child : Nat) (orEqual : Bool) : UnsignedSafe env child child orEqual := by
  cases orEqual with
  | true => exact .inr (.inr (.inl (sameBoundary env child)))
  | false =>
    have nonneg := (unsignedBoundaryRange env child child false).1
    refine .inr (.inr (.inr (.inr fun value _ => ?_)))
    simp only [adjustment,Bool.false_eq_true,if_false]
    omega

theorem unsignedLessthanIff (typedL : WellTyped env .Int64 lhs) (typedR : WellTyped env .Int64 rhs) :
    (∀ value, Consistent env .Int64 lhs rhs value →
      (constrainIfcmplessthan env .Int64 true lhs rhs orEqual).SoundFor lhs rhs value
        (Operand.lu.less orEqual (value lhs) (value rhs))) ↔ UnsignedSafe env lhs rhs orEqual := by
  by_cases same : lhs = rhs
  · subst same
    refine iff_of_true (fun value consistent => ?_) (sameSafe env lhs orEqual)
    rw [lessSelf]
    exact sameSound typedL consistent
  · exact unsignedSoundIff typedL typedR same

end Unsigned

theorem consistentSwap {env : Surroundings} {t : DataType} {first second : Nat} {value : Nat → Int}
    (h : Consistent env t first second value) : Consistent env t second first value := ⟨h.right,h.left,h.backward,h.forward⟩

theorem soundForSwap {o : Outcome} {first second : Nat} {value : Nat → Int} {taken : Bool}
    (h : o.SoundFor first second value taken) : o.SoundFor second first value taken :=
  ⟨fun yes => (h.edge yes).symm,fun no => (h.fallThrough no).symm,h.goto,h.removed⟩

-- The operands that the handler of the row gets, in the order it gets them.
def lessChildren (relation : Relation) (first second : Nat) : Option (Nat × Nat × Bool) :=
  match relation with
  | .lt => some (first,second,false)
  | .le => some (first,second,true)
  | .gt => some (second,first,false)
  | .ge => some (second,first,true)
  | _ => none

def BranchSafe (env : Surroundings) (op : CompareOp) (first second : Nat) : Prop :=
  op.operand.isUnsigned = true →
    ∀ lhs rhs orEqual, lessChildren op.relation first second = some (lhs,rhs,orEqual) → UnsignedSafe env lhs rhs orEqual

theorem childRow {operand : Operand} {t : DataType} (type : childType operand = some t) (relation : Relation) :
    branchTable ⟨operand,relation⟩ = ifRow relation := by
  cases operand <;> first | rfl | cases type

theorem handlerRun {env : Surroundings} {operand : Operand} {t : DataType} (type : childType operand = some t)
    (relation : Relation) (first second : Nat) :
    (branchTable ⟨operand,relation⟩).outcome env t operand.isUnsigned first second =
      (lessChildren relation first second).map fun (lhs,rhs,orEqual) =>
        constrainIfcmplessthan env t operand.isUnsigned lhs rhs orEqual := by
  rw [childRow type]
  cases relation <;> rfl

theorem evalLess {operand : Operand} {relation : Relation} {first second lhs rhs : Nat} {orEqual : Bool}
    (h : lessChildren relation first second = some (lhs,rhs,orEqual)) (value : Nat → Int) :
    CompareOp.eval ⟨operand,relation⟩ (value first) (value second) = operand.less orEqual (value lhs) (value rhs) := by
  cases relation <;> simp only [lessChildren,Option.some.injEq,Prod.mk.injEq,reduceCtorEq] at h <;>
    obtain ⟨rfl,rfl,rfl⟩ := h <;> rfl

theorem childrenOf {relation : Relation} {first second lhs rhs : Nat} {orEqual : Bool}
    (h : lessChildren relation first second = some (lhs,rhs,orEqual)) :
    (lhs = first ∧ rhs = second) ∨ (lhs = second ∧ rhs = first) := by
  cases relation <;> simp only [lessChildren,Option.some.injEq,Prod.mk.injEq,reduceCtorEq] at h <;>
    obtain ⟨rfl,rfl,rfl⟩ := h <;> simp

theorem childTypeBits {operand : Operand} {t : DataType} (type : childType operand = some t) :
    operand.bits = t.bits ∧ t ≠ .Int16 ∧ (operand.isUnsigned = true → operand = .lu ∧ t = .Int64) := by
  cases operand <;> cases type <;> decide

theorem lessSigned {operand : Operand} {t : DataType} (type : childType operand = some t)
    (signed : operand.isUnsigned = false) {value : Nat → Int} {lhs rhs : Nat} (left : InRange t.bits (value lhs))
    (right : InRange t.bits (value rhs)) (orEqual : Bool) :
    operand.less orEqual (value lhs) (value rhs) = signedLess value lhs rhs orEqual := by
  have bits := (childTypeBits type).1
  have reads : ∀ v, InRange t.bits v → operand.read v = v := by
    intro v inside
    simp [Operand.read,signed,bits,wrapSelf t.bitsPos inside]
  simp only [Operand.less,signedLess,reads _ left,reads _ right]

/- The refinement by ordered branches holds for every signed opcode, and for the
unsigned ones exactly when BranchSafe says so. -/
theorem branchesSound {env : Surroundings} {operand : Operand} {relation : Relation} {t : DataType} {first second : Nat}
    (type : childType operand = some t) (typedFirst : WellTyped env t first) (typedSecond : WellTyped env t second) :
    BranchSound env ⟨operand,relation⟩ t first second ↔ BranchSafe env ⟨operand,relation⟩ first second := by
  unfold BranchSound BranchSafe
  simp only [handlerRun type]
  cases children : lessChildren relation first second with
  | none => exact iff_of_true nofun fun _ _ _ _ => nofun
  | some triple =>
    obtain ⟨lhs,rhs,orEqual⟩ := triple
    have order := childrenOf children
    simp only [Option.map_some,Option.some.injEq,forall_eq',evalLess children]
    -- The statement in the order of the handler's operands.
    have swap : (∀ value, Consistent env t first second value →
          (constrainIfcmplessthan env t operand.isUnsigned lhs rhs orEqual).SoundFor first second value
            (operand.less orEqual (value lhs) (value rhs))) ↔
        ∀ value, Consistent env t lhs rhs value →
          (constrainIfcmplessthan env t operand.isUnsigned lhs rhs orEqual).SoundFor lhs rhs value
            (operand.less orEqual (value lhs) (value rhs)) := by
      rcases order with ⟨rfl,rfl⟩ | ⟨rfl,rfl⟩
      · rfl
      · exact ⟨fun h value consistent => soundForSwap (h value (consistentSwap consistent)),
          fun h value consistent => soundForSwap (h value (consistentSwap consistent))⟩
    have typedL : WellTyped env t lhs := by rcases order with ⟨rfl,_⟩ | ⟨rfl,_⟩ <;> assumption
    have typedR : WellTyped env t rhs := by rcases order with ⟨_,rfl⟩ | ⟨_,rfl⟩ <;> assumption
    obtain ⟨_,wide,long⟩ := childTypeBits type
    rw [swap]
    cases unsigned : operand.isUnsigned with
    | false =>
      refine iff_of_true (fun value consistent => ?_) nofun
      rw [lessSigned type unsigned consistent.left.inside consistent.right.inside]
      exact signedSound wide typedL typedR consistent orEqual
    | true =>
      obtain ⟨rfl,rfl⟩ := long unsigned
      rw [unsignedLessthanIff typedL typedR]
      constructor
      · rintro safe _ _ _ _ ⟨⟩
        exact safe
      · intro safe
        exact safe rfl lhs rhs orEqual rfl

def knownRange : VPConstraint := .integral (.range .Int32 0 10 .no false)

def rangeFound : ValueConstraints := fun v => if v = 0 then some knownRange else none

def rangeSurroundings : Surroundings :=
  ⟨fun _ => none,rangeFound,rangeFound,fun _ _ => some ⟨.equal,-3,false⟩,true,false,fun _ => true⟩

theorem rangeTyped (child : Nat) : WellTyped rangeSurroundings .Int32 child := by
  have found : ListValid .Int32 rangeFound child := by
    intro c h
    simp only [rangeFound] at h
    split at h
    · cases Option.some.inj h
      decide
    · cases h
  exact ⟨nofun,found,found⟩

theorem branchesSoundSample :
    WellTyped rangeSurroundings .Int32 0 ∧ WellTyped rangeSurroundings .Int32 1 ∧
    BranchSound rangeSurroundings ⟨.i,.lt⟩ .Int32 0 1 :=
  ⟨rangeTyped 0,rangeTyped 1,
    (branchesSound rfl (rangeTyped 0) (rangeTyped 1)).mpr nofun⟩

def unknownSurroundings : Surroundings :=
  ⟨fun _ => none,fun _ => none,fun _ => none,fun _ _ => none,true,false,fun _ => true⟩

/- With nothing known, iflucmplt puts [0, 2^63 - 2] on the left child of the taken
edge, which is also taken for 2^64 - 2 and 2^64 - 1. -/
theorem branchesUnsound : ¬ BranchSound unknownSurroundings ⟨.lu,.lt⟩ .Int64 0 1 := by
  intro sound
  let value : Nat → Int := fun v => if v = 0 then -2 else -1
  have known : ∀ v, Known unknownSurroundings .Int64 value v := by
    intro v
    refine ⟨?_,nofun,nofun,nofun⟩
    simp only [value]
    split <;> decide
  have edge := ((sound _ rfl value ⟨known 0,known 1,nofun,nofun⟩).edge (by decide)).1
  have inside : (-2 : Int) ≥ 0 := (edge (.integral (.range .Int64 0 9223372036854775806 .no false)) (by decide)).1
  omega

end OmrCompiler.BranchHandlers
