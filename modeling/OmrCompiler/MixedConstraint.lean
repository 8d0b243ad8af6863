import OmrCompiler.ConstraintMerge
import OmrCompiler.ConstraintIntersect

/-! Merging and intersecting an Int32 constraint with an Int64 constraint: the
int with long and long with int branches of merge1, intersect1, intMerge,
longMerge, intIntersect and longIntersect in VPConstraint.cpp. An int expression
that overflows wraps around. -/
namespace OmrCompiler.MixedConstraint
open MachineInt Constraint IntervalList

-- VPIntRange::create(vp, (int32_t)low, (int32_t)high).
def intRange (low high : Int) : Option IntegralConstraint := rangeOf .Int32 (wrap 32 low) (wrap 32 high)

def longRange (low high : Int) : Option IntegralConstraint := rangeOf .Int64 low high

def outsideInt (c : IntegralConstraint) : Bool := c.getLow < minSigned 32 ∨ c.getHigh > maxSigned 32

def pairOf (first second : Option IntegralConstraint) : Option VPConstraint := do
  let first ← first
  let second ← second
  some (VPMergedConstraints.create2 first second)

-- VPIntConstraint::merge1 with a long. The test for an overlap adds in 32 bits.
def intMerge1 (this otherLong : IntegralConstraint) : Option VPConstraint :=
  if outsideInt otherLong then none
  else
    let lowVal := if otherLong.getLow < this.getLow then otherLong.getLow else this.getLow
    let highVal := if otherLong.getHigh ≤ this.getHigh then this.getHigh else otherLong.getHigh
    if otherLong.getLow ≤ wrap 32 (this.getHigh + 1) then
      if this.getLow = minSigned 32 ∧ otherLong.getHigh = maxSigned 32 then none
      else (intRange lowVal highVal).map .integral
    else if otherLong.getLow < this.getLow then pairOf (intRange otherLong.getLow otherLong.getHigh) (some this)
    else pairOf (some this) (intRange otherLong.getLow otherLong.getHigh)

-- VPIntConstraint::intersect1 with a long.
def intIntersect1 (this otherLong : IntegralConstraint) : Option VPConstraint :=
  let lowVal := if otherLong.getLow < this.getLow then this.getLow else otherLong.getLow
  let highVal := if otherLong.getHigh ≤ this.getHigh then otherLong.getHigh else this.getHigh
  (longRange (wrap 32 lowVal) (wrap 32 highVal)).map .integral

-- A list loop ends early with NULL, or reads through a NULL pointer.
inductive Stop where
  | null
  | crash
  deriving DecidableEq, Repr

/- The result list of intMerge is held last entry first. An entry may turn out
NULL, or become a list of its own, and is then not read as an int again. -/
abbrev Entries := List (Option VPConstraint)

def join (made : Option VPConstraint) (rest : Entries) : Except Stop Entries :=
  match made with
  | none => .error .null
  | some result => .ok (some result :: rest)

-- One turn of the loop for the current int.
def takeInt (result : Entries) (cur : IntegralConstraint) : Except Stop Entries :=
  match result with
  | [] => .ok [some (.integral cur)]
  | some (.integral lastResult) :: rest =>
      if lastResult.getHigh = maxSigned 32 ∨ cur.getLow ≤ lastResult.getHigh + 1 then
        join (ConstraintMerge.merge (.integral lastResult) (.integral cur)) rest
      else .ok (some (.integral cur) :: some (.integral lastResult) :: rest)
  | _ => .error .crash

-- And for the current long.
def takeLong (result : Entries) (otherCur : IntegralConstraint) : Except Stop Entries :=
  match result with
  | [] =>
      if outsideInt otherCur then .error .null
      else .ok [(intRange otherCur.getLow otherCur.getHigh).map .integral]
  | some (.integral lastResult) :: rest =>
      if lastResult.getHigh = maxSigned 32 ∨ otherCur.getLow ≤ lastResult.getHigh + 1 then
        join (intMerge1 lastResult otherCur) rest
      else if outsideInt otherCur then .error .null
      else .ok ((intRange otherCur.getLow otherCur.getHigh).map .integral :: some (.integral lastResult) :: rest)
  | _ => .error .crash

def intMergeLoop : List IntegralConstraint → List IntegralConstraint → Entries → Except Stop Entries
  | [], [], result => .ok result
  | cur :: next, [], result => do
      let result ← takeInt result cur
      intMergeLoop next [] result
  | [], otherCur :: otherNext, result => do
      let result ← takeLong result otherCur
      intMergeLoop [] otherNext result
  | cur :: next, otherCur :: otherNext, result =>
      if cur.getLow ≤ otherCur.getLow then do
        let result ← takeInt result cur
        intMergeLoop next (otherCur :: otherNext) result
      else do
        let result ← takeLong result otherCur
        intMergeLoop (cur :: next) otherNext result

-- What a merge comes to: a constraint or NULL, a list that holds a list, or a crash.
inductive Merged where
  | constraint (c : Option VPConstraint)
  | nested (entries : Entries)
  | crash
  deriving DecidableEq, Repr

def flat : Option VPConstraint → Option IntegralConstraint
  | some (.integral c) => some c
  | _ => none

def finish : Entries → Merged
  | [entry] => .constraint entry
  | entries =>
      match entries.mapM flat with
      | some list => .constraint (some (VPMergedConstraints.create list))
      | none => .nested entries

def intMerge (list others : List IntegralConstraint) : Merged :=
  match intMergeLoop list others [] with
  | .ok result => finish result.reverse
  | .error .null => .constraint none
  | .error .crash => .crash

-- An int is read as a long of the same bounds.
def widen (c : IntegralConstraint) : Option IntegralConstraint := longRange c.getLow c.getHigh

def longMerge (list others : List IntegralConstraint) : Merged :=
  .constraint (ConstraintMerge.listMerge .Int64 list (others.filterMap widen))

def merge1 (this other : VPConstraint) : Merged :=
  match this, other with
  | .merged list, other =>
      match VPConstraint.listType list with
      | .Int32 => intMerge list other.entries
      | .Int64 => longMerge list other.entries
      | .Int16 => .constraint none
  | .integral c, .integral other => .constraint (intMerge1 c other)
  | .integral _, .merged _ => .constraint none

def merge (this other : VPConstraint) : Merged :=
  if other.priority > this.priority then merge1 other this else merge1 this other

/- intIntersect with longs. Each turn reads both current entries anew, and drops
those that end where the piece it made ends. -/
def intSweep : Nat → List (Int × Int) → List (Int × Int) → List (Int × Int)
  | fuel + 1, (curLow,curHigh) :: next, (otherLow,otherHigh) :: otherNext =>
      if curHigh < otherLow then intSweep fuel next ((otherLow,otherHigh) :: otherNext)
      else if otherHigh < curLow then intSweep fuel ((curLow,curHigh) :: next) otherNext
      else
        let resultLow := if curLow > otherLow then curLow else wrap 32 otherLow
        let resultHigh := if curHigh < otherHigh then curHigh else wrap 32 otherHigh
        (resultLow,resultHigh) ::
          if resultHigh = maxSigned 32 then []
          else
            intSweep fuel (if resultHigh + 1 > curHigh then next else (curLow,curHigh) :: next)
              (if resultHigh + 1 > otherHigh then otherNext else (otherLow,otherHigh) :: otherNext)
  | _, _, _ => []

/- longIntersect with ints. The bounds are reduced from turn to turn, the int's
lower bound in 32 bits. -/
def longSweep : Nat → List (Int × Int) → List (Int × Int) → List (Int × Int)
  | fuel + 1, (curLow,curHigh) :: next, (otherLow,otherHigh) :: otherNext =>
      if curHigh < otherLow then longSweep fuel next ((otherLow,otherHigh) :: otherNext)
      else if otherHigh < curLow then longSweep fuel ((curLow,curHigh) :: next) otherNext
      else
        let resultLow := if curLow > otherLow then curLow else otherLow
        let resultHigh := if curHigh < otherHigh then curHigh else otherHigh
        (resultLow,resultHigh) ::
          if resultHigh = maxSigned 64 then []
          else
            longSweep fuel (if resultHigh + 1 > curHigh then next else (resultHigh + 1,curHigh) :: next)
              (if wrap 32 (resultHigh + 1) > otherHigh then otherNext else (wrap 32 (resultHigh + 1),otherHigh) :: otherNext)
  | _, _, _ => []

-- Every turn but one of longSweep drops an entry.
def turns (list others : List IntegralConstraint) : Nat := list.length + others.length + 1

def pieces (t : DataType) (made : List (Int × Int)) : Option VPConstraint :=
  match made.filterMap (ConstraintIntersect.makePiece t) with
  | [] => none
  | result => some (collapse result)

def intIntersect (list others : List IntegralConstraint) : Option VPConstraint :=
  pieces .Int32 (intSweep (turns list others) (list.map ConstraintIntersect.bounds) (others.map ConstraintIntersect.bounds))

def longIntersect (list others : List IntegralConstraint) : Option VPConstraint :=
  pieces .Int64 (longSweep (turns list others) (list.map ConstraintIntersect.bounds) (others.map ConstraintIntersect.bounds))

def intersect1 (this other : VPConstraint) : Option VPConstraint :=
  match this, other with
  | .merged list, other =>
      match VPConstraint.listType list with
      | .Int32 => intIntersect list other.entries
      | .Int64 => longIntersect list other.entries
      | .Int16 => none
  | .integral c, .integral other => intIntersect1 c other
  | .integral _, .merged _ => none

def intersect (this other : VPConstraint) : Option VPConstraint :=
  if other.priority > this.priority then intersect1 other this else intersect1 this other

-- A range has its bounds in order, and the entries of a list ascend without overlap.
def WellFormed : VPConstraint → Prop
  | .integral c => c.getLow ≤ c.getHigh
  | .merged list => (∀ c ∈ list, c.getLow ≤ c.getHigh) ∧ list.Pairwise (fun a b => a.getHigh < b.getLow)

instance (c : VPConstraint) : Decidable (WellFormed c) :=
  match c with
  | .integral c => Int.decLe c.getLow c.getHigh
  | .merged list => @instDecidableAnd _ _ (@List.decidableBAll _ _ (fun c => Int.decLe c.getLow c.getHigh) list)
      (@List.instDecidablePairwise _ _ (fun a b => Int.decLt a.getHigh b.getLow) list)

/- NULL for no common value, else a well formed constraint for the common
values. -/
def IntersectRight (a b : VPConstraint) (result : Option VPConstraint) : Prop :=
  (result = none ↔ ¬ ∃ v, a.Contains v ∧ b.Contains v) ∧
  ∀ c, result = some c → WellFormed c ∧ ∀ v, c.Contains v ↔ a.Contains v ∧ b.Contains v

-- NULL says nothing; anything else holds every value and is well formed down to its entries.
def MergeRight (a b : VPConstraint) : Merged → Prop
  | .constraint result => ∀ c, result = some c → WellFormed c ∧ ∀ v, a.Contains v ∨ b.Contains v → c.Contains v
  | .nested entries => (∀ e ∈ entries, ∃ c, e = some c ∧ WellFormed c) ∧
      ∀ v, a.Contains v ∨ b.Contains v → ∃ c, some c ∈ entries ∧ c.Contains v
  | .crash => False

end OmrCompiler.MixedConstraint
