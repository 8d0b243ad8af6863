import OmrCompiler.BitwiseBranch
import OmrCompiler.CompareArithmetic
import OmrCompiler.ILTree
import OmrCompiler.PowerOfTwo

/-! Compares of extended operands that become compares of the operands: longCompareNarrower,
intCompareNarrower and unsignedIntCompareNarrower of OMRSimplifierHandlers.cpp, with the
opcodes that the branch handlers supply. -/
namespace OmrCompiler.CompareNarrowing
open MachineInt CompareHandlers
open CompareArithmetic (isCompareForEquality)

inductive Conversion where
  | i2l
  | s2l
  | b2l
  | su2l
  | su2i
  | s2i
  | b2i
  deriving DecidableEq, Repr

inductive Constant where
  | lconst
  | iconst
  | iuconst
  | cconst
  | sconst
  | bconst
  deriving DecidableEq, Repr

def Conversion.bits : Conversion → Nat
  | .i2l => 64
  | .s2l => 64
  | .b2l => 64
  | .su2l => 64
  | .su2i => 32
  | .s2i => 32
  | .b2i => 32

def Conversion.extend : Conversion → Int → Int
  | .i2l,x => wrap 32 x
  | .s2l,x => wrap 16 x
  | .b2l,x => wrap 8 x
  | .su2l,x => toUnsigned 16 x
  | .su2i,x => toUnsigned 16 x
  | .s2i,x => wrap 16 x
  | .b2i,x => wrap 8 x

-- getLongInt(), getInt(), getUnsignedInt() and so on, by the type of the constant.
def Constant.read : Constant → Int → Int
  | .lconst,field => wrap 64 field
  | .iconst,field => wrap 32 field
  | .iuconst,field => toUnsigned 32 field
  | .cconst,field => toUnsigned 16 field
  | .sconst,field => wrap 16 field
  | .bconst,field => wrap 8 field

/- leaf is any other node; land has an lconst as its second child, and narrowedAnd is an iand of
an l2i of the node and an iconst. -/
inductive Child where
  | leaf (n : Nat)
  | convert (op : Conversion) (n : Nat) (referenceCount : Nat)
  | const (op : Constant) (field : Int) (referenceCount : Nat)
  | land (n : Nat) (mask : Int)
  | narrowedAnd (n : Nat) (mask : Int)
  deriving DecidableEq, Repr

structure Branch where
  op : CompareOp
  firstChild : Child
  secondChild : Child
  deriving DecidableEq, Repr

-- The branch with its new opcode and children, and whether the constant was recreated in place.
structure Narrowed where
  branch : Branch
  recreated : Bool
  deriving DecidableEq, Repr

/- One conversion of one narrower: the second child may be the same conversion, a constant of the
narrow type, which stays, or a wide constant within bounds. isUnsigned tells which reading of the
wide constant is tested, single whether the conversion has to be unshared. -/
structure Case where
  conversion : Conversion
  kept : Option Constant
  wide : Constant
  isUnsigned : Bool
  lowest : Int
  highest : Int
  narrow : Constant
  op : CompareOp
  single : Bool
  deriving DecidableEq, Repr

def Case.reads (c : Case) (field : Int) : Int := if c.isUnsigned then toUnsigned 32 field else c.wide.read field

def Case.apply (c : Case) (node : Branch) : Option Narrowed :=
  match node.firstChild with
  | .convert firstOp n referenceCount =>
    if firstOp ≠ c.conversion || (c.single && referenceCount ≠ 1) then none
    else
      match node.secondChild with
      | .convert secondOp m _ => if secondOp = c.conversion then some ⟨⟨c.op,.leaf n,.leaf m⟩,false⟩ else none
      | .const secondOp field referenceCount =>
        if some secondOp = c.kept then some ⟨⟨c.op,.leaf n,.const secondOp field referenceCount⟩,false⟩
        else if secondOp = c.wide && c.lowest ≤ c.reads field && c.reads field ≤ c.highest then
          some ⟨⟨c.op,.leaf n,.const c.narrow (c.narrow.read (c.reads field)) 1⟩,referenceCount = 1⟩
        else none
      | _ => none
  | _ => none

/- performTransformation at its three calls, the properties of the code generator, and whether it
is the one of z, which has its own least short and byte. -/
structure Options where
  performInt : Bool
  performMask : Bool
  performShort : Bool
  supportsEfficientNarrowIntComputation : Bool
  supportsEfficientNarrowUnsignedIntComputation : Bool
  isZ : Bool
  deriving DecidableEq, Repr

def getMinShortForLongCompareNarrower (o : Options) : Int := if o.isZ then 0 else -32768

def getMinByteForLongCompareNarrower (o : Options) : Int := if o.isZ then 0 else -128

def isI2l : Child → Bool
  | .convert .i2l _ _ => true
  | _ => false

-- The operand, the mask and the constant of an equality with a masked long.
def maskedEquality (node : Branch) : Option (Nat × Int × Int) :=
  match node.firstChild,node.secondChild with
  | .land n val1,.const .lconst val2 _ => if isCompareForEquality node.op.relation then some (n,val1,val2) else none
  | _,_ => none

def noUpperBits (val : Int) : Bool := BitVec.ofInt 64 val &&& 0xffffffff00000000#64 = 0#64

def longCompareNarrower (o : Options) (intOp charOp shortOp byteOp : CompareOp) (node : Branch) : Option Narrowed :=
  if isI2l node.firstChild && o.performInt then
    Case.apply ⟨.i2l,some .iconst,.lconst,false,-2147483648,2147483647,.iconst,intOp,false⟩ node
  else
    match maskedEquality node with
    | some (n,val1,val2) =>
      if noUpperBits val1 && noUpperBits val2 && o.performMask then
        some ⟨⟨intOp,.narrowedAnd n (wrap 32 val1),.const .iconst (wrap 32 val2) 1⟩,false⟩
      else none
    | none =>
      if o.supportsEfficientNarrowIntComputation && o.performShort then
        Case.apply ⟨.su2l,some .cconst,.lconst,false,0,65535,.cconst,charOp,false⟩ node <|>
        Case.apply ⟨.s2l,some .sconst,.lconst,false,getMinShortForLongCompareNarrower o,32767,.sconst,shortOp,false⟩ node <|>
        Case.apply ⟨.b2l,some .bconst,.lconst,false,getMinByteForLongCompareNarrower o,127,.bconst,byteOp,false⟩ node
      else none

def intCompareNarrower (o : Options) (ushortOp shortOp byteOp : CompareOp) (node : Branch) : Option Narrowed :=
  if o.supportsEfficientNarrowIntComputation then
    Case.apply ⟨.su2i,none,.iconst,false,0,65535,.cconst,ushortOp,true⟩ node <|>
    Case.apply ⟨.s2i,none,.iconst,false,-32768,32767,.sconst,shortOp,true⟩ node <|>
    Case.apply ⟨.b2i,none,.iconst,false,-128,127,.bconst,byteOp,true⟩ node
  else none

-- The constant of the short case is an iconst, those of the two others are iuconst.
def unsignedIntCompareNarrower (o : Options) (ushortOp ubyteOp : CompareOp) (node : Branch) : Option Narrowed :=
  if o.supportsEfficientNarrowUnsignedIntComputation then
    Case.apply ⟨.su2i,none,.iuconst,true,0,65535,.cconst,ushortOp,true⟩ node <|>
    Case.apply ⟨.s2i,none,.iconst,true,0,32767,.sconst,ushortOp,true⟩ node <|>
    Case.apply ⟨.b2i,none,.iuconst,true,0,127,.bconst,ubyteOp,true⟩ node
  else none

/- The part of the handlers that calls a narrower. ificmpeq and ificmpne test for their own opcode
and take every other one for its unsigned form; bitwiseToLogical has been called before. -/
def ificmpeqSimplifier (o : Options) (node : Branch) : Option Narrowed :=
  if node.op = ⟨.i,.eq⟩ then intCompareNarrower o ⟨.su,.eq⟩ ⟨.s,.eq⟩ ⟨.b,.eq⟩ node
  else unsignedIntCompareNarrower o ⟨.s,.eq⟩ ⟨.b,.eq⟩ node

def ificmpneSimplifier (o : Options) (node : Branch) : Option Narrowed :=
  if node.op = ⟨.i,.ne⟩ then intCompareNarrower o ⟨.su,.ne⟩ ⟨.s,.ne⟩ ⟨.b,.ne⟩ node
  else unsignedIntCompareNarrower o ⟨.s,.ne⟩ ⟨.b,.ne⟩ node

-- ificmplt, ificmple, ificmpgt and ificmpge, with the relation of the handler in each opcode.
def ificmpOrderSimplifier (r : Relation) (o : Options) (node : Branch) : Option Narrowed :=
  if node.op = ⟨.i,r⟩ then intCompareNarrower o ⟨.su,r⟩ ⟨.s,r⟩ ⟨.b,r⟩ node
  else if node.op = ⟨.iu,r⟩ then unsignedIntCompareNarrower o ⟨.su,r⟩ ⟨.bu,r⟩ node
  else none

def iflcmpSimplifier (r : Relation) (o : Options) (node : Branch) : Option Narrowed :=
  if node.op = ⟨.l,r⟩ then longCompareNarrower o ⟨.i,r⟩ ⟨.su,r⟩ ⟨.s,r⟩ ⟨.b,r⟩ node else none

inductive Handler where
  | ificmp (r : Relation)
  | iflcmp (r : Relation)
  deriving DecidableEq, Repr

def Handler.relation : Handler → Relation
  | .ificmp r => r
  | .iflcmp r => r

def Handler.narrow (o : Options) (node : Branch) : Handler → Option Narrowed
  | .ificmp .eq => ificmpeqSimplifier o node
  | .ificmp .ne => ificmpneSimplifier o node
  | .ificmp r => ificmpOrderSimplifier r o node
  | .iflcmp r => iflcmpSimplifier r o node

section Values
variable (v : Nat → Int)

def Child.value : Child → Int
  | .leaf n => v n
  | .convert op n _ => op.extend (v n)
  | .const op field _ => op.read field
  | .land n mask => (BitVec.ofInt 64 (v n) &&& BitVec.ofInt 64 mask).toInt
  | .narrowedAnd n mask => (BitVec.ofInt 32 (v n) &&& BitVec.ofInt 32 mask).toInt

def Branch.taken (node : Branch) : Bool := node.op.eval (node.firstChild.value v) (node.secondChild.value v)

end Values

-- A conversion has the type of the operands of the compare.
def Branch.Typed (node : Branch) : Prop :=
  ∀ op n referenceCount, node.firstChild = .convert op n referenceCount → node.op.operand.bits = op.bits

-- The least and the greatest of the extended values, as the compare reads them.
def extremes (conversion : Conversion) (o : Operand) : Int × Int :=
  match conversion,o.isUnsigned with
  | .su2i,_ => (0,65535)
  | .s2i,false => (-32768,32767)
  | .b2i,false => (-128,127)
  | _,_ => (0,4294967295)

/- The opcode supplied stands for the relation of the branch. Else one node is on both sides and
the two relations have the same answer for equals, or the constant is the least or the greatest
value, where an order is an equality. -/
def RightOpcode (h : Relation) (node : Branch) : Prop :=
  node.op.relation = h ∨
  match node.firstChild,node.secondChild with
  | .convert _ n _,.convert _ m _ => n = m ∧ node.op.relation.holds 0 0 = h.holds 0 0
  | .convert conversion _ _,.const op field _ =>
    let c := node.op.operand.read (op.read field)
    let (least,greatest) := extremes conversion node.op.operand
    h = .eq ∧ (node.op.relation = .le ∧ c = least ∨ node.op.relation = .ge ∧ c = greatest) ∨
    h = .ne ∧ (node.op.relation = .gt ∧ c = least ∨ node.op.relation = .lt ∧ c = greatest)
  | _,_ => False

section Cases

-- The constants of a case: what its test lets through is an extended value.
structure Case.Fits (c : Case) : Prop where
  extended : ∀ field, c.conversion.extend (c.narrow.read field) = c.narrow.read field
  again : ∀ field, c.narrow.read (c.narrow.read field) = c.narrow.read field
  inside : ∀ field, c.lowest ≤ c.reads field → c.reads field ≤ c.highest → c.narrow.read (c.reads field) = c.wide.read field
  same : c.kept = none ∨ c.kept = some c.narrow

theorem readAgain (op : Constant) (field : Int) : op.read (op.read field) = op.read field := by
  cases op with
  | iuconst => exact Int.emod_emod _ _
  | cconst => exact Int.emod_emod _ _
  | _ => exact Int.bmod_bmod

-- A first child x and a second child y under the conversion, before and after.
structure Applied (c : Case) (node : Branch) (r : Narrowed) where
  n : Nat
  referenceCount : Nat
  first : node.firstChild = .convert c.conversion n referenceCount
  op : r.branch.op = c.op
  leaf : r.branch.firstChild = .leaf n
  y : (Nat → Int) → Int
  before : ∀ v, node.secondChild.value v = c.conversion.extend (y v)
  after : ∀ v, r.branch.secondChild.value v = y v
  shape : (∃ m k, node.secondChild = .convert c.conversion m k ∧ ∀ v, y v = v m) ∨
    ∃ op field k, node.secondChild = .const op field k

theorem applied {c : Case} (fits : c.Fits) {node : Branch} {r : Narrowed} (found : c.apply node = some r) :
    Nonempty (Applied c node r) := by
  unfold Case.apply at found
  split at found
  · rename_i firstOp n referenceCount first
    split at found
    · cases found
    rename_i guard
    have same : firstOp = c.conversion := by
      simp only [Bool.or_eq_true,decide_eq_true_eq,not_or,not_not] at guard
      exact guard.1
    rw [same] at first
    split at found
    · rename_i secondOp m k second
      split at found
      · rename_i equal
        rw [equal] at second
        cases found
        refine ⟨⟨n,referenceCount,first,rfl,rfl,fun v => v m,?_,fun _ => rfl,Or.inl ⟨m,k,second,fun _ => rfl⟩⟩⟩
        intro v
        rw [second]
        rfl
      · cases found
    · rename_i secondOp field k second
      split at found
      · rename_i kept
        have narrow : secondOp = c.narrow := by
          rcases fits.same with none | some
          · rw [none] at kept
            cases kept
          · rw [some] at kept
            exact Option.some.inj kept
        cases found
        refine ⟨⟨n,referenceCount,first,rfl,rfl,fun _ => secondOp.read field,?_,fun _ => rfl,Or.inr ⟨_,_,_,second⟩⟩⟩
        intro v
        rw [second,narrow,fits.extended]
        rfl
      · split at found
        · rename_i bounds
          simp only [Bool.and_eq_true,decide_eq_true_eq] at bounds
          obtain ⟨⟨wide,lower⟩,upper⟩ := bounds
          cases found
          refine ⟨⟨n,referenceCount,first,rfl,rfl,fun _ => c.narrow.read (c.reads field),?_,?_,Or.inr ⟨_,_,_,second⟩⟩⟩
          · intro v
            rw [second,fits.extended,fits.inside field lower upper,wide]
            rfl
          · intro v
            exact fits.again _
        · cases found
    · cases found
  · cases found

theorem Applied.truths {c : Case} {node : Branch} {r : Narrowed} (a : Applied c node r) (v : Nat → Int) :
    node.taken v = node.op.eval (c.conversion.extend (v a.n)) (c.conversion.extend (a.y v)) ∧
    r.branch.taken v = c.op.eval (v a.n) (a.y v) := by
  constructor
  · rw [Branch.taken,a.before,a.first]
    rfl
  · rw [Branch.taken,a.after,a.op,a.leaf]
    rfl

end Cases

section Reading

-- The wide compare reads an extended value as the narrow compare reads the value.
def Widens (wide : Operand) (conversion : Conversion) (narrow : Operand) : Prop :=
  ∀ x, wide.read (conversion.extend x) = narrow.read x

theorem widensEval {wide narrow : Operand} {conversion : Conversion} (widens : Widens wide conversion narrow) (r : Relation) (x y : Int) :
    CompareOp.eval ⟨wide,r⟩ (conversion.extend x) (conversion.extend y) = CompareOp.eval ⟨narrow,r⟩ x y := by
  simp only [CompareOp.eval,widens x,widens y]

theorem readInside {o : Operand} (isSigned : o.isUnsigned = false) {x : Int} (inside : InRange o.bits x) : o.read x = x := by
  rw [Operand.read,isSigned]
  exact wrapSelf (by cases o <;> decide) inside

theorem widensI2l : Widens .l .i2l .i := fun x =>
  readInside rfl (rangeWider (by decide) (by decide) (wrapRange (by decide : 0 < 32) x))

theorem widensSu2l : Widens .l .su2l .su := fun x => readInside rfl (unsignedWider (by decide) (by decide) x)

theorem widensS2l : Widens .l .s2l .s := fun x =>
  readInside rfl (rangeWider (by decide) (by decide) (wrapRange (by decide : 0 < 16) x))

theorem widensB2l : Widens .l .b2l .b := fun x =>
  readInside rfl (rangeWider (by decide) (by decide) (wrapRange (by decide : 0 < 8) x))

theorem widensSu2i : Widens .i .su2i .su := fun x => readInside rfl (unsignedWider (by decide) (by decide) x)

theorem widensS2i : Widens .i .s2i .s := fun x =>
  readInside rfl (rangeWider (by decide) (by decide) (wrapRange (by decide : 0 < 16) x))

theorem widensB2i : Widens .i .b2i .b := fun x =>
  readInside rfl (rangeWider (by decide) (by decide) (wrapRange (by decide : 0 < 8) x))

theorem widensUnsigned : Widens .iu .su2i .su := by
  intro x
  have range := toUnsignedRange (by decide : 0 < 16) x
  exact unsignedBelow range.1 (Int.lt_trans range.2 (by decide))

-- An unsigned compare of sign extended operands orders them as their bits.
theorem orderExtended (r : Relation) {x y a b : Int} (less : x < y ↔ a < b) (equal : x = y ↔ a = b) :
    r.holds x y = r.holds a b := by
  cases r <;> simp only [Relation.holds,decide_eq_decide] <;> omega

theorem equalityOnly {rel : Relation} (equality : isCompareForEquality rel = true) {x y a b : Int} (equal : x = y ↔ a = b) :
    rel.holds x y = rel.holds a b := by
  cases rel with
  | eq => exact decide_eq_decide.mpr equal
  | ne => exact decide_eq_decide.mpr (not_congr equal)
  | _ => cases equality

theorem shortOrder (r : Relation) (x y : Int) :
    CompareOp.eval ⟨.iu,r⟩ (Conversion.extend .s2i x) (Conversion.extend .s2i y) = CompareOp.eval ⟨.su,r⟩ x y := by
  simp only [CompareOp.eval,Operand.read,Operand.isUnsigned,if_true,Conversion.extend,Operand.bits]
  have left := wrapRemainder (by decide : 0 < 16) x
  have right := wrapRemainder (by decide : 0 < 16) y
  simp only [toUnsigned,modulus,half] at left right ⊢
  apply orderExtended <;> omega

theorem byteOrder (r : Relation) (x y : Int) :
    CompareOp.eval ⟨.iu,r⟩ (Conversion.extend .b2i x) (Conversion.extend .b2i y) = CompareOp.eval ⟨.bu,r⟩ x y := by
  simp only [CompareOp.eval,Operand.read,Operand.isUnsigned,if_true,Conversion.extend,Operand.bits]
  have left := wrapRemainder (by decide : 0 < 8) x
  have right := wrapRemainder (by decide : 0 < 8) y
  simp only [toUnsigned,modulus,half] at left right ⊢
  apply orderExtended <;> omega

-- The cases of the three narrowers meet the conditions on their constants.
theorem fitsSigned {conversion : Conversion} {kept : Option Constant} {wide narrow : Constant} {lowest highest : Int} {op : CompareOp}
    {single : Bool} {w : Nat} (hw : 0 < w) (extends' : ∀ x, conversion.extend x = wrap w x) (reads : ∀ x, narrow.read x = wrap w x)
    (bounds : minSigned w ≤ lowest ∧ highest ≤ maxSigned w) (same : kept = none ∨ kept = some narrow) :
    Case.Fits ⟨conversion,kept,wide,false,lowest,highest,narrow,op,single⟩ := by
  refine ⟨?_,readAgain narrow,?_,same⟩
  · intro field
    rw [extends',reads]
    exact Int.bmod_bmod
  · intro field lower upper
    rw [reads]
    exact wrapSelf hw ⟨Int.le_trans bounds.1 lower,Int.le_trans upper bounds.2⟩

theorem fitsUnsigned {conversion : Conversion} {kept : Option Constant} {wide : Constant} {op : CompareOp} {single : Bool}
    (extends' : ∀ x, conversion.extend x = toUnsigned 16 x) (same : kept = none ∨ kept = some .cconst) :
    Case.Fits ⟨conversion,kept,wide,false,0,65535,.cconst,op,single⟩ := by
  refine ⟨?_,readAgain .cconst,?_,same⟩
  · intro field
    rw [extends']
    exact Int.emod_emod _ _
  · intro field lower upper
    exact unsignedBelow lower (Int.lt_of_le_of_lt upper (by decide : (65535 : Int) < modulus 16))

theorem fitsUnsignedConst {op : CompareOp} : Case.Fits ⟨.su2i,none,.iuconst,true,0,65535,.cconst,op,true⟩ := by
  refine ⟨?_,readAgain .cconst,?_,Or.inl rfl⟩
  · intro field
    exact Int.emod_emod _ _
  · intro field lower upper
    exact unsignedBelow lower (Int.lt_of_le_of_lt upper (by decide : (65535 : Int) < modulus 16))

theorem fitsByteConst {op : CompareOp} : Case.Fits ⟨.b2i,none,.iuconst,true,0,127,.bconst,op,true⟩ := by
  refine ⟨?_,readAgain .bconst,?_,Or.inl rfl⟩
  · intro field
    exact Int.bmod_bmod
  · intro field lower upper
    exact wrapSelf (by decide) ⟨Int.le_trans (by decide : minSigned 8 ≤ 0) lower,upper⟩

-- Here the constant tested by its unsigned reading is a signed one.
theorem fitsShortConst {op : CompareOp} : Case.Fits ⟨.s2i,none,.iconst,true,0,32767,.sconst,op,true⟩ := by
  refine ⟨?_,readAgain .sconst,?_,Or.inl rfl⟩
  · intro field
    exact Int.bmod_bmod
  · intro field lower upper
    have self : wrap 16 (toUnsigned 32 field) = toUnsigned 32 field :=
      wrapSelf (by decide) ⟨Int.le_trans (by decide : minSigned 16 ≤ 0) lower,upper⟩
    have small : toUnsigned 32 field < half 32 := Int.lt_of_le_of_lt upper (by decide : (32767 : Int) < half 32)
    exact self.trans (by rw [Constant.read,wrapRemainder (by decide),if_pos small])

end Reading

section Narrowers
variable {o : Options} {node : Branch} {r : Narrowed}

-- What a narrower does that stands for its branch: whenever it rewrites, the truth is the same.
def SameTruth (node : Branch) (r : Narrowed) : Prop := ∀ v, node.taken v = r.branch.taken v

theorem caseSame {c : Case} (fits : c.Fits) (found : c.apply node = some r)
    (exact' : ∀ x y, node.op.eval (c.conversion.extend x) (c.conversion.extend y) = c.op.eval x y) : SameTruth node r := by
  obtain ⟨a⟩ := applied fits found
  intro v
  obtain ⟨before,after⟩ := a.truths v
  rw [before,after]
  exact exact' _ _

theorem orElseSome {α : Type} {a b : Option α} {x : α} (found : (a <|> b) = some x) : a = some x ∨ b = some x := by
  cases a with
  | none => exact Or.inr found
  | some y => exact Or.inl found

theorem intCompareSame {rel : Relation} (op : node.op = ⟨.i,rel⟩)
    (found : intCompareNarrower o ⟨.su,rel⟩ ⟨.s,rel⟩ ⟨.b,rel⟩ node = some r) : SameTruth node r := by
  unfold intCompareNarrower at found
  split at found
  · rcases orElseSome found with char | found
    · refine caseSame (fitsUnsigned (fun _ => rfl) (Or.inl rfl)) char ?_
      rw [op]
      exact widensEval widensSu2i rel
    rcases orElseSome found with short | byte
    · refine caseSame (fitsSigned (by decide) (fun _ => rfl) (fun _ => rfl) (by decide) (Or.inl rfl)) short ?_
      rw [op]
      exact widensEval widensS2i rel
    · refine caseSame (fitsSigned (by decide) (fun _ => rfl) (fun _ => rfl) (by decide) (Or.inl rfl)) byte ?_
      rw [op]
      exact widensEval widensB2i rel
  · cases found

theorem unsignedCompareSame {rel : Relation} (op : node.op = ⟨.iu,rel⟩)
    (found : unsignedIntCompareNarrower o ⟨.su,rel⟩ ⟨.bu,rel⟩ node = some r) : SameTruth node r := by
  unfold unsignedIntCompareNarrower at found
  split at found
  · rcases orElseSome found with char | found
    · refine caseSame fitsUnsignedConst char ?_
      rw [op]
      exact widensEval widensUnsigned rel
    rcases orElseSome found with short | byte
    · refine caseSame fitsShortConst short ?_
      rw [op]
      exact shortOrder rel
    · refine caseSame fitsByteConst byte ?_
      rw [op]
      exact byteOrder rel
  · cases found

theorem upperBits {val : Int} (none : noUpperBits val = true) {i : Nat} (high : 32 ≤ i) : (BitVec.ofInt 64 val).getLsbD i = false := by
  simp only [noUpperBits,decide_eq_true_eq] at none
  by_cases inside : i < 64
  · have ones : ∀ j : Fin 64, 32 ≤ j.val → (0xffffffff00000000#64).getLsbD j = true := by decide
    have bit := congrArg (fun d : BitVec 64 => d.getLsbD i) none
    simp only [BitVec.getLsbD_and,BitVec.getLsbD_zero,ones ⟨i,inside⟩ high,Bool.and_true] at bit
    exact bit
  · exact BitVec.getLsbD_of_ge _ _ (by omega)

theorem truncated (x : Int) : BitVec.ofInt 32 x = (BitVec.ofInt 64 x).setWidth 32 := by
  apply BitVec.eq_of_toNat_eq
  rw [BitVec.toNat_setWidth,BitVec.toNat_ofInt,BitVec.toNat_ofInt]
  omega

-- The masked word and the constant have no bit the narrow compare does not see.
theorem maskedEqual (x : Int) {val1 val2 : Int} (upper1 : noUpperBits val1 = true) (upper2 : noUpperBits val2 = true) :
    BitVec.ofInt 64 x &&& BitVec.ofInt 64 val1 = BitVec.ofInt 64 val2 ↔
    BitVec.ofInt 32 x &&& BitVec.ofInt 32 val1 = BitVec.ofInt 32 val2 := by
  rw [truncated x,truncated val1,truncated val2]
  constructor
  · intro same
    rw [← BitVec.setWidth_and,same]
  · intro same
    apply BitVec.eq_of_getLsbD_eq
    intro i _
    rw [BitVec.getLsbD_and]
    by_cases low : i < 32
    · have bit := congrArg (fun d : BitVec 32 => d.getLsbD i) same
      simpa [low] using bit
    · rw [upperBits upper1 (by omega),upperBits upper2 (by omega),Bool.and_false]

theorem maskedSame {n : Nat} {val1 val2 : Int} {rel : Relation} (op : node.op = ⟨.l,rel⟩)
    (masked : maskedEquality node = some (n,val1,val2)) (upper : noUpperBits val1 = true ∧ noUpperBits val2 = true) :
    SameTruth node ⟨⟨⟨.i,rel⟩,.narrowedAnd n (wrap 32 val1),.const .iconst (wrap 32 val2) 1⟩,false⟩ := by
  unfold maskedEquality at masked
  split at masked
  · rename_i n' val1' val2' k first second
    split at masked
    · rename_i equality
      cases masked
      rw [op] at equality
      intro v
      have wide : CompareOp.eval ⟨.l,rel⟩ (node.firstChild.value v) (node.secondChild.value v) =
          rel.holds (BitVec.ofInt 64 (v n) &&& BitVec.ofInt 64 val1).toInt (BitVec.ofInt 64 val2).toInt := by
        rw [first,second,BitVec.toInt_ofInt]
        exact CompareArithmetic.evalSigned rfl (ILTree.andRange (w := 64) (by decide)) (wrapRange (w := 64) (by decide) val2)
      have narrow : CompareOp.eval ⟨.i,rel⟩ (Child.value v (.narrowedAnd n (wrap 32 val1))) (Child.value v (.const .iconst (wrap 32 val2) 1)) =
          rel.holds (BitVec.ofInt 32 (v n) &&& BitVec.ofInt 32 val1).toInt (BitVec.ofInt 32 val2).toInt := by
        have constant : Child.value v (.const .iconst (wrap 32 val2) 1) = wrap 32 val2 := readAgain .iconst val2
        rw [constant,Child.value,PowerOfTwo.ofIntWrap,BitVec.toInt_ofInt]
        exact CompareArithmetic.evalSigned rfl (ILTree.andRange (w := 32) (by decide)) (wrapRange (w := 32) (by decide) val2)
      rw [Branch.taken,op,wide]
      refine Eq.trans ?_ narrow.symm
      refine equalityOnly equality ?_
      rw [BitVec.toInt_inj,BitVec.toInt_inj]
      exact maskedEqual (v n) upper.1 upper.2
    · cases masked
  · cases masked

theorem longCompareSame {rel : Relation} (op : node.op = ⟨.l,rel⟩)
    (found : longCompareNarrower o ⟨.i,rel⟩ ⟨.su,rel⟩ ⟨.s,rel⟩ ⟨.b,rel⟩ node = some r) : SameTruth node r := by
  unfold longCompareNarrower at found
  split at found
  · refine caseSame (fitsSigned (by decide) (fun _ => rfl) (fun _ => rfl) (by decide) (Or.inr rfl)) found ?_
    rw [op]
    exact widensEval widensI2l rel
  split at found
  · rename_i n val1 val2 masked
    split at found
    · rename_i guard
      simp only [Bool.and_eq_true] at guard
      cases found
      exact maskedSame op masked guard.1
    · cases found
  split at found
  · rcases orElseSome found with char | found
    · refine caseSame (fitsUnsigned (fun _ => rfl) (Or.inr rfl)) char ?_
      rw [op]
      exact widensEval widensSu2l rel
    rcases orElseSome found with short | byte
    · have bounds : minSigned 16 ≤ getMinShortForLongCompareNarrower o := by
        unfold getMinShortForLongCompareNarrower
        split <;> decide
      refine caseSame (fitsSigned (by decide) (fun _ => rfl) (fun _ => rfl) ⟨bounds,by decide⟩ (Or.inr rfl)) short ?_
      rw [op]
      exact widensEval widensS2l rel
    · have bounds : minSigned 8 ≤ getMinByteForLongCompareNarrower o := by
        unfold getMinByteForLongCompareNarrower
        split <;> decide
      refine caseSame (fitsSigned (by decide) (fun _ => rfl) (fun _ => rfl) ⟨bounds,by decide⟩ (Or.inr rfl)) byte ?_
      rw [op]
      exact widensEval widensB2l rel
  · cases found

end Narrowers

section Equality

-- The extended value as the branch reads it.
def seen (o : Operand) (conversion : Conversion) (x : Int) : Int := o.read (conversion.extend x)

-- The conversions of an int operand, with the operand whose equality their narrower supplies.
inductive IntCase : Conversion → Operand → Prop where
  | char : IntCase .su2i .s
  | short : IntCase .s2i .s
  | byte : IntCase .b2i .b

theorem readSeen {o narrow : Operand} {conversion : Conversion} (int : o = .i ∨ o = .iu) (known : IntCase conversion narrow) (x : Int) :
    narrow.read (seen o conversion x) = narrow.read x := by
  have inner : narrow.read (conversion.extend x) = narrow.read x := by
    cases known with
    | char => exact wrapUnsigned (Nat.le_refl 16) x
    | short => exact Int.bmod_bmod
    | byte => exact Int.bmod_bmod
  rw [← inner]
  rcases int with rfl | rfl
  · cases known
    · exact Int.bmod_bmod_of_dvd (by decide : 2 ^ 16 ∣ 2 ^ 32)
    · exact Int.bmod_bmod_of_dvd (by decide : 2 ^ 16 ∣ 2 ^ 32)
    · exact Int.bmod_bmod_of_dvd (by decide : 2 ^ 8 ∣ 2 ^ 32)
  · cases known
    · exact wrapUnsigned (by decide : 16 ≤ 32) _
    · exact wrapUnsigned (by decide : 16 ≤ 32) _
    · exact wrapUnsigned (by decide : 8 ≤ 32) _

theorem extendRead {narrow : Operand} {conversion : Conversion} (known : IntCase conversion narrow) (x : Int) :
    conversion.extend (narrow.read x) = conversion.extend x := by
  cases known with
  | char => exact Int.bmod_emod
  | short => exact Int.bmod_bmod
  | byte => exact Int.bmod_bmod

theorem seenEqual {o narrow : Operand} {conversion : Conversion} (int : o = .i ∨ o = .iu) (known : IntCase conversion narrow) (x y : Int) :
    seen o conversion x = seen o conversion y ↔ narrow.read x = narrow.read y := by
  refine ⟨fun same => ?_,fun same => ?_⟩
  · rw [← readSeen int known x,same,readSeen int known]
  · rw [seen,seen,← extendRead known x,same,extendRead known]

theorem seenBetween {o narrow : Operand} {conversion : Conversion} (int : o = .i ∨ o = .iu) (known : IntCase conversion narrow) (x : Int) :
    (extremes conversion o).1 ≤ seen o conversion x ∧ seen o conversion x ≤ (extremes conversion o).2 := by
  have short := wrapRemainder (by decide : 0 < 16)
  have byte := wrapRemainder (by decide : 0 < 8)
  have wide := wrapRemainder (by decide : 0 < 32)
  rcases int with rfl | rfl <;> cases known <;>
    simp only [extremes,seen,Operand.read,Operand.isUnsigned,if_true,Bool.false_eq_true,if_false,Conversion.extend,Operand.bits,short,byte,wide,
      toUnsigned,modulus,half] <;>
    omega

theorem seenExtremes {o narrow : Operand} {conversion : Conversion} (int : o = .i ∨ o = .iu) (known : IntCase conversion narrow) :
    (∃ x, seen o conversion x = (extremes conversion o).1) ∧ ∃ x, seen o conversion x = (extremes conversion o).2 := by
  rcases int with rfl | rfl <;> cases known
  · exact ⟨⟨0,by decide⟩,⟨65535,by decide⟩⟩
  · exact ⟨⟨-32768,by decide⟩,⟨32767,by decide⟩⟩
  · exact ⟨⟨-128,by decide⟩,⟨127,by decide⟩⟩
  · exact ⟨⟨0,by decide⟩,⟨65535,by decide⟩⟩
  · exact ⟨⟨0,by decide⟩,⟨-1,by decide⟩⟩
  · exact ⟨⟨0,by decide⟩,⟨-1,by decide⟩⟩

theorem seenSmall {o narrow : Operand} {conversion : Conversion} (int : o = .i ∨ o = .iu) (known : IntCase conversion narrow) :
    seen o conversion 0 = 0 ∧ seen o conversion 1 = 1 := by
  rcases int with rfl | rfl <;> cases known <;> decide

-- Two relations that agree on equals and on both orders of 0 and 1.
theorem sameRelation {r h : Relation} (equal : r.holds 0 0 = h.holds 0 0) (less : r.holds 0 1 = h.holds 0 1)
    (more : r.holds 1 0 = h.holds 1 0) : r = h := by
  revert equal less more
  cases r <;> cases h <;> decide

theorem reflexive (r : Relation) (x : Int) : r.holds x x = r.holds 0 0 := by
  cases r <;> simp [Relation.holds]

-- Against a constant that is a value itself, only its place among the values counts.
theorem constantAgrees {r h : Relation} (equality : h = .eq ∨ h = .ne) {least greatest c : Int} (value : Int → Int)
    (between : ∀ x, least ≤ value x ∧ value x ≤ greatest) (reached : (∃ x, value x = least) ∧ ∃ x, value x = greatest)
    (among : ∃ x, value x = c) :
    (∀ x, r.holds (value x) c = h.holds (value x) c) ↔ r = h ∨ h = .eq ∧ (r = .le ∧ c = least ∨ r = .ge ∧ c = greatest) ∨
      h = .ne ∧ (r = .gt ∧ c = least ∨ r = .lt ∧ c = greatest) := by
  obtain ⟨⟨low,atLow⟩,high,atHigh⟩ := reached
  obtain ⟨same,atSame⟩ := among
  have lowest := (between same).1
  have highest := (between same).2
  constructor
  · intro agree
    have first := agree low
    have second := agree high
    have third := agree same
    rw [atLow] at first
    rw [atHigh] at second
    rw [atSame] at third lowest highest
    rcases equality with rfl | rfl <;> cases r <;> simp only [Relation.holds,decide_eq_decide] at first second third <;>
      simp only [true_and,false_and,reduceCtorEq,false_or,or_false] <;> omega
  · intro condition x
    have inside := between x
    rw [atSame] at lowest highest
    rcases condition with rfl | ⟨rfl,⟨rfl,rfl⟩ | ⟨rfl,rfl⟩⟩ | ⟨rfl,⟨rfl,rfl⟩ | ⟨rfl,rfl⟩⟩
    · rfl
    · simp only [Relation.holds,decide_eq_decide]
      omega
    · simp only [Relation.holds,decide_eq_decide]
      omega
    · simp only [Relation.holds,decide_eq_decide]
      omega
    · simp only [Relation.holds,decide_eq_decide]
      omega

variable {o : Options} {node : Branch} {r : Narrowed} {h : Relation}

theorem intOperand {narrow : Operand} {c : Case} (typed : node.Typed) (a : Applied c node r) (known : IntCase c.conversion narrow) :
    node.op.operand = .i ∨ node.op.operand = .iu := by
  have bits := typed _ _ _ a.first
  have int : c.conversion.bits = 32 := by
    generalize c.conversion = conversion at known
    cases known <;> rfl
  rw [int] at bits
  cases operand : node.op.operand <;> simp [operand,Operand.bits] at bits ⊢

theorem suppliedTruth {narrow : Operand} {c : Case} (equality : h = .eq ∨ h = .ne) (a : Applied c node r)
    (known : IntCase c.conversion narrow) (op : c.op = ⟨narrow,h⟩) (int : node.op.operand = .i ∨ node.op.operand = .iu) (v : Nat → Int) :
    node.taken v = r.branch.taken v ↔
      node.op.relation.holds (seen node.op.operand c.conversion (v a.n)) (seen node.op.operand c.conversion (a.y v)) =
      h.holds (seen node.op.operand c.conversion (v a.n)) (seen node.op.operand c.conversion (a.y v)) := by
  obtain ⟨before,after⟩ := a.truths v
  have equalityOf : isCompareForEquality h = true := by rcases equality with rfl | rfl <;> rfl
  rw [before,after,op]
  simp only [CompareOp.eval]
  rw [equalityOnly equalityOf (seenEqual int known (v a.n) (a.y v)).symm]
  rfl

theorem caseSupplied {narrow : Operand} {c : Case} (fits : c.Fits) (equality : h = .eq ∨ h = .ne) (typed : node.Typed)
    (found : c.apply node = some r) (known : IntCase c.conversion narrow) (op : c.op = ⟨narrow,h⟩) :
    SameTruth node r ↔ RightOpcode h node := by
  obtain ⟨a⟩ := applied fits found
  have int := intOperand typed a known
  have truth := suppliedTruth equality a known op int
  simp only [SameTruth,truth,RightOpcode,a.first]
  obtain ⟨zero,one⟩ := seenSmall int known
  rcases a.shape with ⟨m,k,second,y⟩ | ⟨constOp,field,k,second⟩
  · simp only [second,y]
    constructor
    · intro agree
      by_cases apart : a.n = m
      · have atZero := agree (fun _ => 0)
        simp only [zero] at atZero
        exact Or.inr ⟨apart,atZero⟩
      · have atEqual := agree (fun _ => 0)
        have atLess := agree (fun i => if i = m then 1 else 0)
        have atMore := agree (fun i => if i = m then 0 else 1)
        simp only [apart,if_true,if_false,zero,one] at atEqual atLess atMore
        exact Or.inl (sameRelation atEqual atLess atMore)
    · rintro (rfl | ⟨same,equals⟩) v
      · rfl
      · rw [same,reflexive,reflexive h]
        exact equals
  · have constant : ∀ v, seen node.op.operand c.conversion (a.y v) = node.op.operand.read (constOp.read field) := by
      intro v
      rw [seen,← a.before v,second]
      rfl
    simp only [second,constant]
    have agrees := constantAgrees (r := node.op.relation) (c := node.op.operand.read (constOp.read field)) equality
      (seen node.op.operand c.conversion) (seenBetween int known) (seenExtremes int known) ⟨a.y (fun _ => 0),constant _⟩
    rw [← agrees]
    constructor
    · intro agree x
      exact agree (fun _ => x)
    · intro agree v
      exact agree _

theorem equalitySupplied (equality : h = .eq ∨ h = .ne) (typed : node.Typed)
    (found : unsignedIntCompareNarrower o ⟨.s,h⟩ ⟨.b,h⟩ node = some r) : SameTruth node r ↔ RightOpcode h node := by
  unfold unsignedIntCompareNarrower at found
  split at found
  · rcases orElseSome found with char | found
    · exact caseSupplied fitsUnsignedConst equality typed char IntCase.char rfl
    rcases orElseSome found with short | byte
    · exact caseSupplied fitsShortConst equality typed short IntCase.short rfl
    · exact caseSupplied fitsByteConst equality typed byte IntCase.byte rfl
  · cases found

theorem exactSupplied (op : node.op.relation = h) (same : SameTruth node r) : SameTruth node r ↔ RightOpcode h node :=
  ⟨fun _ => Or.inl op,fun _ => same⟩

-- The narrowed branch is taken just when the original is, for all values, where the opcode supplied is right.
theorem narrowedBranch {handler : Handler} (typed : node.Typed) (found : handler.narrow o node = some r) :
    (∀ v, node.taken v = r.branch.taken v) ↔ RightOpcode handler.relation node := by
  cases handler with
  | iflcmp rel =>
    simp only [Handler.narrow,iflcmpSimplifier] at found
    split at found
    · rename_i op
      exact exactSupplied (by rw [op]; rfl) (longCompareSame op found)
    · cases found
  | ificmp rel =>
    have order : ificmpOrderSimplifier rel o node = some r → (SameTruth node r ↔ RightOpcode rel node) := by
      intro found
      unfold ificmpOrderSimplifier at found
      split at found
      · rename_i op
        exact exactSupplied (by rw [op]) (intCompareSame op found)
      split at found
      · rename_i op
        exact exactSupplied (by rw [op]) (unsignedCompareSame op found)
      · cases found
    cases rel with
    | eq =>
      simp only [Handler.narrow,ificmpeqSimplifier] at found
      split at found
      · rename_i op
        exact exactSupplied (by rw [op]; rfl) (intCompareSame op found)
      · exact equalitySupplied (Or.inl rfl) typed found
    | ne =>
      simp only [Handler.narrow,ificmpneSimplifier] at found
      split at found
      · rename_i op
        exact exactSupplied (by rw [op]; rfl) (intCompareSame op found)
      · exact equalitySupplied (Or.inr rfl) typed found
    | lt => exact order found
    | ge => exact order found
    | gt => exact order found
    | le => exact order found

end Equality

-- if ((a < b) | (z == w)) != 0, with a and b extended from unsigned shorts.
def extendedLess : Branch := ⟨⟨.i,.lt⟩,.convert .su2i 0 1,.convert .su2i 1 1⟩

def efficient : Options := ⟨true,true,true,true,true,false⟩

def narrowedLess : Narrowed := ⟨⟨⟨.s,.ne⟩,.leaf 0,.leaf 1⟩,false⟩

theorem narrowedBranchSample : (∀ v, extendedLess.taken v = narrowedLess.branch.taken v) ↔ RightOpcode .ne extendedLess := by
  have typed : extendedLess.Typed := by
    intro op n k first
    cases first
    rfl
  have found : (Handler.ificmp .ne).narrow efficient extendedLess = some narrowedLess := by decide
  exact narrowedBranch typed found

/- bitwiseToLogical makes an ificmplt of the ificmpne, and its handler goes on to narrow it to an
ifscmpne: with 3 and 2 the compare was false and the branch is taken. -/
theorem narrowedAfterBitwise :
    (BitwiseBranch.bitwiseToLogical true (BitwiseBranch.orFlow [(1,3),(1,2)]) (BitwiseBranch.orBranch 3)).map (fun s => s.branch.op) =
      some (some (.integral extendedLess.op)) ∧
    (Handler.ificmp .ne).narrow efficient extendedLess = some narrowedLess ∧
    extendedLess.taken (fun n => if n = 0 then 3 else 2) = false ∧
    narrowedLess.branch.taken (fun n => if n = 0 then 3 else 2) = true := by
  decide

end OmrCompiler.CompareNarrowing
