import OmrCompiler.ConstraintCompare

/-! Compare nodes in value propagation: the integer rows of the handler table of
ValuePropagationTable.hpp and the constants that constrainCmpeqne and
constrainCmplessthan of VPHandlers.cpp put in place of a compare. -/
namespace OmrCompiler.CompareHandlers
open MachineInt Constraint ConstraintCompare

-- The operand types of the compare opcodes: icmp, iucmp, lcmp, lucmp, bcmp, bucmp, scmp, sucmp, acmp.
inductive Operand where
  | i
  | iu
  | l
  | lu
  | b
  | bu
  | s
  | su
  | a
  deriving DecidableEq, Repr

inductive Relation where
  | eq
  | ne
  | lt
  | ge
  | gt
  | le
  deriving DecidableEq, Repr

structure CompareOp where
  operand : Operand
  relation : Relation
  deriving DecidableEq, Repr

def Operand.bits : Operand → Nat
  | .i => 32
  | .iu => 32
  | .l => 64
  | .lu => 64
  | .b => 8
  | .bu => 8
  | .s => 16
  | .su => 16
  | .a => 64

def Operand.isUnsigned : Operand → Bool
  | .iu => true
  | .lu => true
  | .bu => true
  | .su => true
  | .a => true
  | _ => false

def Relation.holds : Relation → Int → Int → Bool
  | .eq, x, y => x = y
  | .ne, x, y => x ≠ y
  | .lt, x, y => x < y
  | .ge, x, y => x ≥ y
  | .gt, x, y => x > y
  | .le, x, y => x ≤ y

/- What the opcode computes: it reads the bits of its operands as signed or as
unsigned numbers. -/
def Operand.read (o : Operand) (v : Int) : Int := if o.isUnsigned then toUnsigned o.bits v else wrap o.bits v

def CompareOp.eval (op : CompareOp) (x y : Int) : Bool :=
  op.relation.holds (op.operand.read x) (op.operand.read y)

inductive Handler where
  | constrainCmpeq
  | constrainCmpne
  | constrainCmplt
  | constrainCmpge
  | constrainCmpgt
  | constrainCmple
  | constrainCmp
  deriving DecidableEq, Repr

def signedRow : Relation → Handler
  | .eq => .constrainCmpeq
  | .ne => .constrainCmpne
  | .lt => .constrainCmplt
  | .ge => .constrainCmpge
  | .gt => .constrainCmpgt
  | .le => .constrainCmple

def unsignedRow : Relation → Handler
  | .eq => .constrainCmpeq
  | .ne => .constrainCmpne
  | _ => .constrainCmp

-- The rows of the unsigned short compares are those of the signed ones.
def handlerTable (op : CompareOp) : Handler :=
  match op.operand with
  | .i => signedRow op.relation
  | .iu => unsignedRow op.relation
  | .l => signedRow op.relation
  | .lu => unsignedRow op.relation
  | .b => signedRow op.relation
  | .bu => unsignedRow op.relation
  | .s => signedRow op.relation
  | .su => signedRow op.relation
  | .a => unsignedRow op.relation

-- The result of a handler is the constant 0 or 1, or none for -1.
def constrainCmpeqne (lhs rhs : Option VPConstraint) (testEqual : Bool) : Option Bool := do
  let lhs ← lhs
  let rhs ← rhs
  if mustBeEqual lhs rhs then some testEqual
  else if mustBeNotEqual lhs rhs then some (!testEqual)
  else none

def constrainCmplessthan (lhs rhs : Option VPConstraint) (orEqual : Bool) : Option Bool := do
  let lhs ← lhs
  let rhs ← rhs
  if orEqual then
    if mustBeLessThanOrEqual lhs rhs then some true
    else if mustBeLessThan rhs lhs then some false
    else none
  else
    if mustBeLessThan lhs rhs then some true
    else if mustBeLessThanOrEqual rhs lhs then some false
    else none

def Handler.result (first second : Option VPConstraint) : Handler → Option Bool
  | constrainCmpeq => constrainCmpeqne first second true
  | constrainCmpne => constrainCmpeqne first second false
  | constrainCmplt => constrainCmplessthan first second false
  | constrainCmple => constrainCmplessthan first second true
  | constrainCmpgt => constrainCmplessthan second first false
  | constrainCmpge => constrainCmplessthan second first true
  | constrainCmp => none

def FoldSound (op : CompareOp) (a b : VPConstraint) : Prop :=
  ∀ result, (handlerTable op).result (some a) (some b) = some result →
    ∀ x y, a.Contains x → b.Contains y → op.eval x y = result

/- The values of the children are values of the operand type, in the signed or,
for an unsigned opcode, in the unsigned reading. -/
def Operands (op : CompareOp) (a b : VPConstraint) : Prop :=
  (∀ v, a.Contains v ∨ b.Contains v → InRange op.operand.bits v) ∨
    (op.operand.isUnsigned = true ∧ ∀ v, a.Contains v ∨ b.Contains v → 0 ≤ v ∧ v < modulus op.operand.bits)

-- a is below b in the unsigned order too.
def UnsignedLess (t u : DataType) (a b : VPConstraint) : Prop :=
  (0 ≤ a.headLow t ∧ a.lastHigh t < b.headLow u) ∨
    (b.lastHigh u < 0 ∧ ∀ x, a.Contains x → ¬ (b.headLow u ≤ x ∧ x < 0))

def UnsignedLessOrEqual (t u : DataType) (a b : VPConstraint) : Prop := 0 ≤ a.headLow t ∨ b.lastHigh u < 0

/- When a less-than handler may fold lhs against rhs. -/
def OrderSafe (unsigned orEqual : Bool) (t u : DataType) (lhs rhs : VPConstraint) : Prop :=
  match unsigned, orEqual with
  | false, false => ¬ HeadDefect t u lhs rhs ∧ ¬ FloorDefect u t rhs lhs
  | false, true => ¬ FloorDefect t u lhs rhs ∧ ¬ HeadDefect u t rhs lhs
  | true, false =>
      (mustBeLessThan lhs rhs = true → UnsignedLess t u lhs rhs) ∧
        (mustBeLessThanOrEqual rhs lhs = true → UnsignedLessOrEqual u t rhs lhs)
  | true, true =>
      (mustBeLessThanOrEqual lhs rhs = true → UnsignedLessOrEqual t u lhs rhs) ∧
        (mustBeLessThan rhs lhs = true → UnsignedLess u t rhs lhs)

def FoldSafe (op : CompareOp) (t u : DataType) (a b : VPConstraint) : Prop :=
  match handlerTable op with
  | .constrainCmplt => OrderSafe op.operand.isUnsigned false t u a b
  | .constrainCmple => OrderSafe op.operand.isUnsigned true t u a b
  | .constrainCmpgt => OrderSafe op.operand.isUnsigned false u t b a
  | .constrainCmpge => OrderSafe op.operand.isUnsigned true u t b a
  | _ => True

theorem Operand.bitsPos (o : Operand) : 0 < o.bits := by cases o <;> decide

/- Under either reading a negative value stands on top of the unsigned order, and
where there is one every value is read as signed. -/
structure Unsigned (op : CompareOp) (a b : VPConstraint) (v : Int) : Prop where
  negative : v < 0 → toUnsigned op.operand.bits v = v + modulus op.operand.bits
  nonneg : 0 ≤ v → toUnsigned op.operand.bits v = v
  lower : -half op.operand.bits ≤ v
  upper : ∀ x, a.Contains x ∨ b.Contains x → x < 0 → v < half op.operand.bits

theorem unsignedReading {op : CompareOp} {a b : VPConstraint} (operands : Operands op a b) {v : Int}
    (hv : a.Contains v ∨ b.Contains v) : Unsigned op a b v := by
  have hw := op.operand.bitsPos
  have mod := modulusHalf hw
  have pos := halfPos op.operand.bits
  rcases operands with signed | ⟨_,unsigned⟩
  · have inside := signed v hv
    have reads := unsignedOfSigned hw inside
    simp only [InRange,minSigned,maxSigned] at inside
    exact ⟨fun neg => by rw [reads,if_pos neg],fun nonneg => by rw [reads,if_neg (by omega)],by omega,fun _ _ _ => by omega⟩
  · obtain ⟨lower,upper⟩ := unsigned v hv
    refine ⟨fun neg => by omega,fun _ => unsignedBelow lower upper,by omega,fun x hx neg => ?_⟩
    have := unsigned x hx
    omega

theorem readSigned {op : CompareOp} {a b : VPConstraint} (operands : Operands op a b)
    (signed : op.operand.isUnsigned = false) {v : Int} (hv : a.Contains v ∨ b.Contains v) : op.operand.read v = v := by
  rcases operands with inside | ⟨unsigned,_⟩
  · simp [Operand.read,signed,wrapSelf op.operand.bitsPos (inside v hv)]
  · rw [signed] at unsigned
    cases unsigned

theorem readInjective {op : CompareOp} {a b : VPConstraint} (operands : Operands op a b) {x y : Int}
    (hx : a.Contains x) (hy : b.Contains y) : op.operand.read x = op.operand.read y ↔ x = y := by
  cases signed : op.operand.isUnsigned with
  | false => rw [readSigned operands signed (.inl hx),readSigned operands signed (.inr hy)]
  | true =>
    have mod := modulusHalf op.operand.bitsPos
    obtain ⟨negX,nonnegX,lowX,highX⟩ := unsignedReading operands (.inl hx)
    obtain ⟨negY,nonnegY,lowY,highY⟩ := unsignedReading operands (.inr hy)
    have ofX := highX y (.inr hy)
    have ofY := highY x (.inl hx)
    simp only [Operand.read,signed,if_true]
    exact ⟨fun same => by omega,fun same => by rw [same]⟩

theorem cmpeqneSound {op : CompareOp} {a b : VPConstraint} (operands : Operands op a b) (testEqual : Bool)
    (relation : op.relation = if testEqual then .eq else .ne) {result : Bool}
    (h : constrainCmpeqne (some a) (some b) testEqual = some result) {x y : Int} (hx : a.Contains x)
    (hy : b.Contains y) : op.eval x y = result := by
  have reads := readInjective operands hx hy
  rw [CompareOp.eval,relation]
  simp only [constrainCmpeqne,Option.bind_eq_bind,Option.bind_some] at h
  split at h
  · rename_i equal
    have same := mustBeEqualSound equal hx hy
    cases Option.some.inj h
    cases testEqual <;> simp [Relation.holds,same]
  · split at h
    · rename_i notEqual
      have differ := mustBeNotEqualSound notEqual hx hy
      cases Option.some.inj h
      cases testEqual <;> simp [Relation.holds,reads,differ]
    · cases h

theorem cmplessthanIff {t u : DataType} {l r : VPConstraint} (left : l.Valid t) (right : r.Valid u) (orEqual : Bool)
    (p : Bool → Prop) :
    (∀ result, constrainCmplessthan (some l) (some r) orEqual = some result → p result) ↔
      match orEqual with
      | false => (mustBeLessThan l r = true → p true) ∧ (mustBeLessThanOrEqual r l = true → p false)
      | true => (mustBeLessThanOrEqual l r = true → p true) ∧ (mustBeLessThan r l = true → p false) := by
  have forward := queriesExclusive left right
  have backward := queriesExclusive right left
  cases orEqual with
  | false =>
    simp only [constrainCmplessthan,Option.bind_eq_bind,Option.bind_some,Bool.false_eq_true,if_false]
    cases less : mustBeLessThan l r with
    | true => simp [forward less]
    | false => cases notLess : mustBeLessThanOrEqual r l <;> simp
  | true =>
    simp only [constrainCmplessthan,Option.bind_eq_bind,Option.bind_some,if_true]
    cases less : mustBeLessThan r l with
    | true => simp [backward less]
    | false => cases notLess : mustBeLessThanOrEqual l r <;> simp

theorem operandsSymm {op : CompareOp} {a b : VPConstraint} (h : Operands op a b) : Operands op b a := by
  rcases h with signed | ⟨unsigned,inside⟩
  · exact .inl fun v hv => signed v hv.symm
  · exact .inr ⟨unsigned,fun v hv => inside v hv.symm⟩

section Unsigned
variable {op : CompareOp} {t u : DataType} {l r : VPConstraint}

theorem unsignedLessIff (left : l.Valid t) (right : r.Valid u) (operands : Operands op l r) {z : Int}
    (hz : l.Contains z) (below : z < r.headLow u) :
    (∀ x y, l.Contains x → r.Contains y → toUnsigned op.operand.bits x < toUnsigned op.operand.bits y) ↔
      UnsignedLess t u l r := by
  have mod := modulusHalf op.operand.bitsPos
  obtain ⟨lowIn,highIn,leftBounds⟩ := validBounds left
  obtain ⟨lowIn',highIn',rightBounds⟩ := validBounds right
  have order := (rightBounds _ lowIn').2
  constructor
  · intro all
    obtain ⟨negLow,nonnegLow,_,_⟩ := unsignedReading operands (.inr lowIn')
    by_cases negative : r.lastHigh u < 0
    · refine .inr ⟨negative,fun x hx between => ?_⟩
      have less := all x _ hx lowIn'
      have := (unsignedReading operands (.inl hx)).negative between.2
      omega
    · -- A negative value on the left would stand above the upper end of the right.
      have nonneg : ∀ x, l.Contains x → 0 ≤ x := by
        intro x hx
        by_contra neg
        have less := all x _ hx highIn'
        obtain ⟨negX,_,lowX,_⟩ := unsignedReading operands (.inl hx)
        obtain ⟨_,nonnegY,_,highY⟩ := unsignedReading operands (.inr highIn')
        have := highY x (.inl hx)
        omega
      have less := all _ _ highIn lowIn'
      have := nonneg _ highIn
      have := nonneg z hz
      have := (unsignedReading operands (.inl highIn)).nonneg
      exact .inl ⟨nonneg _ lowIn,by omega⟩
  · intro safe x y hx hy
    have inLeft := leftBounds x hx
    have inRight := rightBounds y hy
    obtain ⟨negX,nonnegX,lowX,highX⟩ := unsignedReading operands (.inl hx)
    obtain ⟨negY,nonnegY,lowY,highY⟩ := unsignedReading operands (.inr hy)
    rcases safe with ⟨nonneg,less⟩ | ⟨negative,clear⟩
    · omega
    · have := clear x hx
      have := highX y (.inr hy)
      omega

theorem unsignedLessOrEqualIff (left : l.Valid t) (right : r.Valid u) (operands : Operands op l r)
    (order : l.lastHigh t ≤ r.headLow u) :
    (∀ x y, l.Contains x → r.Contains y → toUnsigned op.operand.bits x ≤ toUnsigned op.operand.bits y) ↔
      UnsignedLessOrEqual t u l r := by
  have mod := modulusHalf op.operand.bitsPos
  obtain ⟨lowIn,highIn,leftBounds⟩ := validBounds left
  obtain ⟨lowIn',highIn',rightBounds⟩ := validBounds right
  constructor
  · intro all
    have less := all _ _ lowIn highIn'
    obtain ⟨negX,nonnegX,lowX,highX⟩ := unsignedReading operands (.inl lowIn)
    obtain ⟨negY,nonnegY,lowY,highY⟩ := unsignedReading operands (.inr highIn')
    have := highY _ (.inl lowIn)
    simp only [UnsignedLessOrEqual]
    omega
  · intro safe x y hx hy
    have inLeft := leftBounds x hx
    have inRight := rightBounds y hy
    obtain ⟨negX,nonnegX,lowX,highX⟩ := unsignedReading operands (.inl hx)
    obtain ⟨negY,nonnegY,lowY,highY⟩ := unsignedReading operands (.inr hy)
    have := highX y (.inr hy)
    simp only [UnsignedLessOrEqual] at safe
    omega

-- The fallback of a short query is a true bound of short values.
theorem shortOrder (left : l.Valid t) (right : r.Valid u) (operands : Operands op l r) (short : op.operand.bits = 16)
    (h : mustBeLessThanOrEqual l r = true) : l.lastHigh t ≤ r.headLow u := by
  rcases mustBeLessThanOrEqualFires left right h with order | ⟨other,lowest⟩
  · exact order
  · have ofLeft := (unsignedReading operands (.inl (validBounds left).2.1)).lower
    have ofRight := (unsignedReading operands (.inr (validBounds right).1)).lower
    rw [short] at ofLeft ofRight
    have bound : t.getMinSigned ≤ -half 16 := by cases t <;> decide
    omega

end Unsigned

-- The order test of an opcode on its operands, children swapped for gt and ge.
def Operand.less (o : Operand) (orEqual : Bool) (x y : Int) : Bool :=
  if orEqual then o.read x ≤ o.read y else o.read x < o.read y

def LessSound (o : Operand) (orEqual : Bool) (l r : VPConstraint) : Prop :=
  ∀ result, constrainCmplessthan (some l) (some r) orEqual = some result →
    ∀ x y, l.Contains x → r.Contains y → o.less orEqual x y = result

theorem lessSoundIff {t u : DataType} {l r : VPConstraint} (left : l.Valid t) (right : r.Valid u) (o : Operand)
    (orEqual : Bool) :
    LessSound o orEqual l r ↔
      match orEqual with
      | false =>
          (mustBeLessThan l r = true → ∀ x y, l.Contains x → r.Contains y → o.read x < o.read y) ∧
            (mustBeLessThanOrEqual r l = true → ∀ y x, r.Contains y → l.Contains x → o.read y ≤ o.read x)
      | true =>
          (mustBeLessThanOrEqual l r = true → ∀ x y, l.Contains x → r.Contains y → o.read x ≤ o.read y) ∧
            (mustBeLessThan r l = true → ∀ y x, r.Contains y → l.Contains x → o.read y < o.read x) := by
  unfold LessSound
  rw [cmplessthanIff left right orEqual]
  cases orEqual with
  | false =>
    simp only [Operand.less,Bool.false_eq_true,if_false,decide_eq_true_eq,decide_eq_false_iff_not,Int.not_lt]
    exact and_congr_right fun _ => imp_congr_right fun _ => ⟨fun h y x hy hx => h x y hx hy,fun h x y hx hy => h y x hy hx⟩
  | true =>
    simp only [Operand.less,if_true,decide_eq_true_eq,decide_eq_false_iff_not,Int.not_le]
    exact and_congr_right fun _ => imp_congr_right fun _ => ⟨fun h y x hy hx => h x y hx hy,fun h x y hx hy => h y x hy hx⟩

theorem signedLessSound {op : CompareOp} {t u : DataType} {l r : VPConstraint} (left : l.Valid t) (right : r.Valid u)
    (operands : Operands op l r) (signed : op.operand.isUnsigned = false) (orEqual : Bool) :
    LessSound op.operand orEqual l r ↔ OrderSafe false orEqual t u l r := by
  have inLeft : ∀ x, l.Contains x → op.operand.read x = x := fun x hx => readSigned operands signed (.inl hx)
  have inRight : ∀ y, r.Contains y → op.operand.read y = y := fun y hy => readSigned operands signed (.inr hy)
  rw [lessSoundIff left right]
  cases orEqual with
  | false =>
    simp only [OrderSafe,← mustBeLessThanSound left right,← mustBeLessThanOrEqualSound right left]
    exact and_congr (imp_congr_right fun _ => forall₄_congr fun x y hx hy => by rw [inLeft x hx,inRight y hy])
      (imp_congr_right fun _ => forall₄_congr fun y x hy hx => by rw [inLeft x hx,inRight y hy])
  | true =>
    simp only [OrderSafe,← mustBeLessThanOrEqualSound left right,← mustBeLessThanSound right left]
    exact and_congr (imp_congr_right fun _ => forall₄_congr fun x y hx hy => by rw [inLeft x hx,inRight y hy])
      (imp_congr_right fun _ => forall₄_congr fun y x hy hx => by rw [inLeft x hx,inRight y hy])

theorem unsignedLessSound {op : CompareOp} {t u : DataType} {l r : VPConstraint} (left : l.Valid t) (right : r.Valid u)
    (operands : Operands op l r) (unsigned : op.operand.isUnsigned = true) (short : op.operand.bits = 16)
    (orEqual : Bool) : LessSound op.operand orEqual l r ↔ OrderSafe true orEqual t u l r := by
  have swapped := operandsSymm operands
  have reads : ∀ v, op.operand.read v = toUnsigned op.operand.bits v := fun v => by simp [Operand.read,unsigned]
  rw [lessSoundIff left right]
  simp only [reads]
  cases orEqual with
  | false =>
    refine and_congr (imp_congr_right fun less => ?_) (imp_congr_right fun notLess => ?_)
    · exact unsignedLessIff left right operands (queryHighContained left) (mustBeLessThanFires left right less).2
    · exact unsignedLessOrEqualIff right left swapped (shortOrder right left swapped short notLess)
  | true =>
    refine and_congr (imp_congr_right fun less => ?_) (imp_congr_right fun notLess => ?_)
    · exact unsignedLessOrEqualIff left right operands (shortOrder left right operands short less)
    · exact unsignedLessIff right left swapped (queryHighContained right) (mustBeLessThanFires right left notLess).2

theorem lessSound {op : CompareOp} {t u : DataType} {l r : VPConstraint} (left : l.Valid t) (right : r.Valid u)
    (operands : Operands op l r) (short : op.operand.isUnsigned = true → op.operand.bits = 16) (orEqual : Bool) :
    LessSound op.operand orEqual l r ↔ OrderSafe op.operand.isUnsigned orEqual t u l r := by
  cases unsigned : op.operand.isUnsigned with
  | false => exact signedLessSound left right operands unsigned orEqual
  | true => exact unsignedLessSound left right operands unsigned (short unsigned) orEqual

theorem handlerRow (op : CompareOp) : handlerTable op = signedRow op.relation ∨ handlerTable op = .constrainCmp := by
  obtain ⟨operand,relation⟩ := op
  cases operand <;> cases relation <;> simp [handlerTable,unsignedRow,signedRow]

-- Only the short unsigned compares reach an ordered handler.
theorem orderedShort {op : CompareOp} (row : handlerTable op = signedRow op.relation)
    (order : op.relation ≠ .eq ∧ op.relation ≠ .ne) (unsigned : op.operand.isUnsigned = true) : op.operand.bits = 16 := by
  obtain ⟨operand,relation⟩ := op
  cases operand <;> cases relation <;> simp_all [handlerTable,unsignedRow,signedRow,Operand.isUnsigned,Operand.bits]

/- A compare is folded rightly exactly when FoldSafe says so. -/
theorem foldSoundIff {op : CompareOp} {t u : DataType} {a b : VPConstraint} (left : a.Valid t) (right : b.Valid u)
    (operands : Operands op a b) : FoldSound op a b ↔ FoldSafe op t u a b := by
  have swapped := operandsSymm operands
  rcases handlerRow op with row | row
  · have short := orderedShort row
    unfold FoldSound FoldSafe
    cases relation : op.relation with
    | eq =>
      rw [row,relation]
      exact iff_of_true (fun result h x y hx hy => cmpeqneSound operands true relation h hx hy) trivial
    | ne =>
      rw [row,relation]
      exact iff_of_true (fun result h x y hx hy => cmpeqneSound operands false relation h hx hy) trivial
    | lt =>
      rw [row,relation]
      refine Iff.trans ?_ (lessSound left right operands (short (by simp [relation])) false)
      simp only [CompareOp.eval,relation]
      rfl
    | le =>
      rw [row,relation]
      refine Iff.trans ?_ (lessSound left right operands (short (by simp [relation])) true)
      simp only [CompareOp.eval,relation]
      rfl
    | gt =>
      rw [row,relation]
      refine Iff.trans ?_ (lessSound right left swapped (short (by simp [relation])) false)
      simp only [CompareOp.eval,relation]
      exact forall₂_congr fun result h => ⟨fun all y x hy hx => all x y hx hy,fun all x y hx hy => all y x hy hx⟩
    | ge =>
      rw [row,relation]
      refine Iff.trans ?_ (lessSound right left swapped (short (by simp [relation])) true)
      simp only [CompareOp.eval,relation]
      exact forall₂_congr fun result h => ⟨fun all y x hy hx => all x y hx hy,fun all x y hx hy => all y x hy hx⟩
  · unfold FoldSound FoldSafe
    rw [row]
    exact iff_of_true (fun result h => by cases h) trivial

theorem comparesSound {t u : DataType} {a b : VPConstraint} (left : a.Valid t) (right : b.Valid u) :
    (QueriesSound a b ↔ ¬ HeadDefect t u a b ∧ ¬ FloorDefect t u a b) ∧
    ∀ op, Operands op a b → (FoldSound op a b ↔ FoldSafe op t u a b) :=
  ⟨queriesSoundIff left right,fun _ operands => foldSoundIff left right operands⟩

def minusOne : VPConstraint := .integral (.const .Int16 (-1))

def zero : VPConstraint := .integral (.const .Int16 0)

theorem comparesSoundSample :
    minusOne.Valid .Int16 ∧ zero.Valid .Int16 ∧ QueriesSound minusOne zero :=
  ⟨by decide,by decide,(comparesSound (t := .Int16) (u := .Int16) (by decide) (by decide)).1.mpr (by decide)⟩

def shortList : VPConstraint := .merged [.range .Int16 0 1 .no false,.range .Int16 10 11 .no false]

def five : VPConstraint := .integral (.const .Int16 5)

/- A short list is said to be below a value in its gap, and the unsigned short
compare of 65535 with 0 is folded to true. -/
theorem comparesUnsound :
    (shortList.Valid .Int16 ∧ five.Valid .Int16 ∧ ¬ QueriesSound shortList five) ∧
    (Operands ⟨.su,.lt⟩ minusOne zero ∧ ¬ FoldSound ⟨.su,.lt⟩ minusOne zero) := by
  refine ⟨⟨by decide,by decide,fun h => ?_⟩,.inl fun v hv => ?_,fun h => ?_⟩
  · have less := h.2.2.1 (by decide) 10 5 (by decide) (by decide)
    omega
  · simp only [minusOne,zero,VPConstraint.Contains,IntegralConstraint.Contains,IntegralConstraint.getLow,
      IntegralConstraint.getHigh] at hv
    have : v = -1 ∨ v = 0 := by omega
    rcases this with rfl | rfl <;> decide
  · have wrong := h true (by decide) (-1) 0 (by decide) (by decide)
    revert wrong
    decide

end OmrCompiler.CompareHandlers
