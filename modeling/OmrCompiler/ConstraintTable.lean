import OmrCompiler.Constraint

/-! The hash table through which constraints are shared, and the factories that
look a constraint up before they make it. A key names the type, the bounds and
the overflow mark, so sharing is invisible but for the power-of-two mark: a new
VPLongRange leaves it as the memory it gets has it, and a shared one keeps it. -/
namespace OmrCompiler.ConstraintTable
open MachineInt Constraint

def VP_HASH_TABLE_SIZE : Nat := 251

-- memory n is the mark byte of the n-th new VPLongRange before anything is stored there.
structure Table where
  bucket : Nat → List IntegralConstraint
  memory : Nat → Bool
  allocated : Nat

def emptyTable : Table := ⟨fun _ => [],fun _ => false,0⟩

def Table.addConstraint (table : Table) (c : IntegralConstraint) (hash : Nat) : Table :=
  {table with bucket := fun i => if i = hash then c :: table.bucket i else table.bucket i}

def uint32 (x : Int) : Nat := (x % 2 ^ 32).toNat

def constHash : DataType → Int → Nat
  | .Int16, v => uint32 v % VP_HASH_TABLE_SIZE
  | .Int32, v => uint32 v % VP_HASH_TABLE_SIZE
  | .Int64, v => uint32 (v / 2 ^ 32 + v) % VP_HASH_TABLE_SIZE

def rangeHash : DataType → Int → Int → Nat
  | .Int16, low, high => uint32 (low * 2 ^ 8 + high) % VP_HASH_TABLE_SIZE
  | .Int32, low, high => uint32 (low * 2 ^ 16 + high) % VP_HASH_TABLE_SIZE
  | .Int64, low, high => uint32 (low + high) % VP_HASH_TABLE_SIZE

def isConstOf (t : DataType) (v : Int) : IntegralConstraint → Bool
  | .const t' v' => t' = t ∧ v' = v
  | .range _ _ _ _ _ => false

def isRangeOf (t : DataType) (low high : Int) (canOverflow : YesNoMaybe) : IntegralConstraint → Bool
  | .const _ _ => false
  | .range t' low' high' overflow _ => t' = t ∧ low' = low ∧ high' = high ∧ overflow = canOverflow

def findConst (table : Table) (t : DataType) (v : Int) : Option IntegralConstraint :=
  (table.bucket (constHash t v)).find? (isConstOf t v)

def findRange (table : Table) (t : DataType) (low high : Int) (canOverflow : YesNoMaybe) : Option IntegralConstraint :=
  (table.bucket (rangeHash t low high)).find? (isRangeOf t low high canOverflow)

-- The int zero has an object of its own outside the table.
def createConst (table : Table) (t : DataType) (v : Int) : IntegralConstraint × Table :=
  if t = .Int32 ∧ v = 0 then (.const .Int32 0,table)
  else
    match findConst table t v with
    | some found => (found,table)
    | none => (.const t v,table.addConstraint (.const t v) (constHash t v))

def createRange (t : DataType) (table : Table) (low high : Int) (canOverflow : YesNoMaybe) :
    Option IntegralConstraint × Table :=
  if low = t.getMinSigned ∧ high = t.getMaxSigned then (none,table)
  else if low = high then ((createConst table t low).1,(createConst table t low).2)
  else
    match findRange table t low high canOverflow with
    | some found => (some found,table)
    | none =>
        (some (.range t low high canOverflow false),
          table.addConstraint (.range t low high canOverflow false) (rangeHash t low high))

def VPShortRange.create := createRange .Int16

def VPIntRange.create := createRange .Int32

def VPLongRange.create (table : Table) (low high : Int) (powerOfTwo : Bool) (canOverflow : YesNoMaybe) :
    Option IntegralConstraint × Table :=
  if low = DataType.Int64.getMinSigned ∧ high = DataType.Int64.getMaxSigned ∧ powerOfTwo = false then (none,table)
  else if low = high then ((createConst table .Int64 low).1,(createConst table .Int64 low).2)
  else
    match findRange table .Int64 low high canOverflow with
    | some found => (some found,table)
    | none =>
        let constraint := .range .Int64 low high canOverflow (powerOfTwo || table.memory table.allocated)
        (some constraint,
          {table.addConstraint constraint (rangeHash .Int64 low high) with allocated := table.allocated + 1})

/- Sharing is invisible: what a factory hands out differs from a new constraint
in the power-of-two mark at most. -/
def unmarked : IntegralConstraint → IntegralConstraint
  | .const t v => .const t v
  | .range t low high overflow _ => .range t low high overflow false

theorem findConstUnmarked {table : Table} {t : DataType} {v : Int} {c : IntegralConstraint}
    (h : findConst table t v = some c) : c = .const t v := by
  have found := List.find?_some h
  cases c with
  | const t' v' =>
    simp only [isConstOf,decide_eq_true_eq] at found
    rw [found.1,found.2]
  | range t' low high overflow mark => simp [isConstOf] at found

theorem findRangeUnmarked {table : Table} {t : DataType} {low high : Int} {canOverflow : YesNoMaybe}
    {c : IntegralConstraint} (h : findRange table t low high canOverflow = some c) :
    ∃ mark, c = .range t low high canOverflow mark := by
  have found := List.find?_some h
  cases c with
  | const t' v => simp [isRangeOf] at found
  | range t' low' high' overflow mark =>
    simp only [isRangeOf,decide_eq_true_eq] at found
    obtain ⟨type,lower,upper,flag⟩ := found
    exact ⟨mark,by rw [type,lower,upper,flag]⟩

theorem createConstShared (table : Table) (t : DataType) (v : Int) : (createConst table t v).1 = .const t v := by
  unfold createConst
  split
  · rename_i zero
    rw [zero.1,zero.2]
  · split
    · rename_i found
      exact findConstUnmarked found
    · rfl

theorem createRangeShared (t : DataType) (table : Table) (low high : Int) (canOverflow : YesNoMaybe) :
    (createRange t table low high canOverflow).1.map unmarked = Constraint.createRange t low high canOverflow := by
  unfold createRange Constraint.createRange
  split
  · rfl
  · split
    · simp [createConstShared,unmarked,Constraint.createConst]
    · split
      · rename_i found
        obtain ⟨mark,same⟩ := findRangeUnmarked found
        simp [same,unmarked]
      · rfl

theorem createLongRangeShared (table : Table) (low high : Int) (powerOfTwo : Bool) (canOverflow : YesNoMaybe) :
    (VPLongRange.create table low high powerOfTwo canOverflow).1.map unmarked =
      (Constraint.VPLongRange.create low high powerOfTwo canOverflow).map unmarked := by
  unfold VPLongRange.create Constraint.VPLongRange.create
  split
  · rfl
  · split
    · simp [createConstShared,unmarked,Constraint.createConst]
    · split
      · rename_i found
        obtain ⟨mark,same⟩ := findRangeUnmarked found
        simp [same,unmarked]
      · rfl

theorem madeUnmarked {t : DataType} {low high : Int} {made : Option IntegralConstraint} :
    MadeFor t low high (made.map unmarked) ↔ MadeFor t low high made := by
  match made with
  | none => rfl
  | some (.const _ _) => rfl
  | some (.range _ _ _ _ _) => rfl

theorem sharedRangeMade (t : DataType) (table : Table) (low high : Int) (canOverflow : YesNoMaybe) :
    MadeFor t low high (createRange t table low high canOverflow).1 := by
  rw [← madeUnmarked,createRangeShared]
  exact createRangeMade t low high canOverflow

theorem sharedLongRangeMade (table : Table) (low high : Int) (powerOfTwo : Bool) (canOverflow : YesNoMaybe) :
    MadeFor .Int64 low high (VPLongRange.create table low high powerOfTwo canOverflow).1 := by
  rw [← madeUnmarked,createLongRangeShared,madeUnmarked]
  exact createLongRangeMade low high powerOfTwo canOverflow

theorem sharedRangeCases {t : DataType} {table : Table} {low high : Int} {canOverflow : YesNoMaybe}
    {c : IntegralConstraint} (made : (createRange t table low high canOverflow).1 = some c) :
    (low = high ∧ c = .const t low) ∨ (low ≠ high ∧ ∃ mark, c = .range t low high canOverflow mark) := by
  unfold createRange at made
  split at made
  · cases made
  · split at made
    · rename_i same
      rw [createConstShared] at made
      exact .inl ⟨same,(Option.some.inj made).symm⟩
    · rename_i differ
      split at made
      · rename_i found
        cases Option.some.inj made
        exact .inr ⟨differ,findRangeUnmarked found⟩
      · exact .inr ⟨differ,false,(Option.some.inj made).symm⟩

theorem sharedLongRangeCases {table : Table} {low high : Int} {powerOfTwo : Bool} {canOverflow : YesNoMaybe}
    {c : IntegralConstraint} (made : (VPLongRange.create table low high powerOfTwo canOverflow).1 = some c) :
    (low = high ∧ c = .const .Int64 low) ∨ (low ≠ high ∧ ∃ mark, c = .range .Int64 low high canOverflow mark) := by
  unfold VPLongRange.create at made
  split at made
  · cases made
  · split at made
    · rename_i same
      rw [createConstShared] at made
      exact .inl ⟨same,(Option.some.inj made).symm⟩
    · rename_i differ
      split at made
      · rename_i found
        cases Option.some.inj made
        exact .inr ⟨differ,findRangeUnmarked found⟩
      · exact .inr ⟨differ,_,(Option.some.inj made).symm⟩

/- The mark of the range that VPLongRange::create hands out, read off the table. -/
def Table.marks (table : Table) (low high : Int) (powerOfTwo : Bool) (canOverflow : YesNoMaybe) : Bool :=
  match findRange table .Int64 low high canOverflow with
  | some (.range _ _ _ _ mark) => mark
  | _ => powerOfTwo || table.memory table.allocated

theorem createLongRangeMarks {table : Table} {low high : Int} {powerOfTwo : Bool} {canOverflow : YesNoMaybe}
    (notFull : ¬ (low = DataType.Int64.getMinSigned ∧ high = DataType.Int64.getMaxSigned ∧ powerOfTwo = false))
    (proper : low ≠ high) :
    (VPLongRange.create table low high powerOfTwo canOverflow).1 =
      some (.range .Int64 low high canOverflow (table.marks low high powerOfTwo canOverflow)) := by
  unfold VPLongRange.create Table.marks
  rw [if_neg notFull,if_neg proper]
  split
  · rename_i found
    obtain ⟨mark,same⟩ := findRangeUnmarked found
    subst same
    rw [found]
  · rename_i missing
    rw [missing]

theorem findRangeAdded {table : Table} {c : IntegralConstraint} {hash : Nat} {t : DataType} {low high : Int}
    {canOverflow : YesNoMaybe} (other : isRangeOf t low high canOverflow c = false) :
    findRange (table.addConstraint c hash) t low high canOverflow = findRange table t low high canOverflow := by
  unfold findRange Table.addConstraint
  by_cases here : rangeHash t low high = hash
  · simp only [here,if_true]
    rw [List.find?_cons_of_neg (by simp [other])]
  · simp only [here,if_false]

theorem marksAfterConst (table : Table) (t : DataType) (v low high : Int) (powerOfTwo : Bool)
    (canOverflow : YesNoMaybe) :
    (createConst table t v).2.marks low high powerOfTwo canOverflow = table.marks low high powerOfTwo canOverflow := by
  unfold createConst
  split
  · rfl
  · split
    · rfl
    · simp only [Table.marks,findRangeAdded (c := .const t v) rfl]
      rfl

-- A mark that is asked for does not depend on the memory, so other ranges do not disturb it.
theorem marksAfterRange {low high : Int} (table : Table) (low' high' : Int) (powerOfTwo : Bool)
    (canOverflow : YesNoMaybe) (other : low' ≠ low) :
    (VPLongRange.create table low' high' powerOfTwo canOverflow).2.marks low high true canOverflow =
      table.marks low high true canOverflow := by
  unfold VPLongRange.create
  split
  · rfl
  · split
    · exact marksAfterConst ..
    · split
      · rfl
      · have differs : ∀ mark, isRangeOf .Int64 low high canOverflow (.range .Int64 low' high' canOverflow mark) = false := by
          simp [isRangeOf,other]
        have same : ∀ mark hash, findRange (table.addConstraint (.range .Int64 low' high' canOverflow mark) hash) .Int64
            low high canOverflow = findRange table .Int64 low high canOverflow := fun mark _ => findRangeAdded (differs mark)
        simp only [Table.marks,findRange,Table.addConstraint] at same ⊢
        rw [same]
        simp

end OmrCompiler.ConstraintTable
