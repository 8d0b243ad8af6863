import Mathlib.Tactic.LinearCombination
import OmrCompiler.ILTree
import OmrCompiler.PowerOfTwo

/-! The multiplication by a constant as shifts, additions and subtractions: decomposeConstant,
generateDecomposedTree and decomposeMultiply of OMRSimplifierHandlers.cpp. -/
namespace OmrCompiler.DecomposedMultiply
open MachineInt Constraint ILTree

inductive Operation where
  | plus
  | minus
  deriving DecidableEq, Repr

def Operation.flip : Operation → Operation
  | plus => minus
  | minus => plus

def Operation.sign : Operation → Int
  | plus => 1
  | minus => -1

-- An entry of the two arrays.
structure Digit where
  operationType : Operation
  bitPosition : Int
  deriving DecidableEq, Repr

def Digit.value (d : Digit) : Int := d.operationType.sign * 2 ^ d.bitPosition.toNat

def Digit.flip (d : Digit) : Digit := {d with operationType := d.operationType.flip}

def arraySlots : Nat := 64

/- The arrays up to count, the newest entry first; a write outside of them has no result. -/
def put (digits : List Digit) (d : Digit) : Option (List Digit) :=
  if digits.length < arraySlots then some (d :: digits) else none

def setLast (op : Operation) : List Digit → Option (List Digit)
  | [] => none
  | d::rest => some ({d with operationType := op}::rest)

structure DecomposeState where
  digits : List Digit
  value : Int
  pos : Nat
  subsequentCount : Nat
  lastBit : Bool
  deriving DecidableEq, Repr

-- The end of a run of ones; of one bit, two bits or more.
def endRun (opPlus : Operation) (digits : List Digit) (pos subsequentCount : Nat) : Option (List Digit) :=
  if subsequentCount > 1 then (setLast opPlus.flip digits).bind fun digits => put digits ⟨opPlus,pos⟩
  else if subsequentCount = 1 then put digits ⟨opPlus,pos - 1⟩
  else some digits

def decomposeBit (opPlus : Operation) (s : DecomposeState) : Option DecomposeState :=
  if s.value % 2 = 1 then
    if s.lastBit then some ⟨s.digits,s.value / 2,s.pos + 1,s.subsequentCount + 1,true⟩
    else (put s.digits ⟨opPlus,s.pos⟩).map fun digits => ⟨digits,s.value / 2,s.pos + 1,0,true⟩
  else (endRun opPlus s.digits s.pos s.subsequentCount).map fun digits => ⟨digits,s.value / 2,s.pos + 1,0,false⟩

-- left counts the bits up to the word size.
def decomposeBits (opPlus : Operation) : Nat → DecomposeState → Option DecomposeState
  | 0,s => some s
  | left + 1,s => if s.value = 0 then some s else (decomposeBit opPlus s).bind (decomposeBits opPlus left)

def putRun (opPlus : Operation) : Nat → Int → List Digit → Option (List Digit)
  | 0,_,digits => some digits
  | left + 1,pos,digits => (put digits ⟨opPlus,pos⟩).bind (putRun opPlus left (pos + 1))

-- A last run of several ones that reaches the limit of the word size is put bit by bit.
def lastSet (opPlus : Operation) (wordSize : Nat) (s : DecomposeState) : Option (List Digit) :=
  if s.subsequentCount > 1 ∧ s.pos + 1 ≥ wordSize then putRun opPlus s.subsequentCount (wordSize - 1 - s.subsequentCount) s.digits
  else endRun opPlus s.digits s.pos s.subsequentCount

def decomposeConstant (value : Int) (wordSize : Nat) : Option (List Digit) :=
  let negative := value / 2 ^ (wordSize - 1) % 2 = 1
  let opPlus := if negative then .minus else .plus
  let value := if negative then wrap 64 (-value) else value
  ((decomposeBits opPlus wordSize ⟨[],value,0,0,false⟩).bind (lastSet opPlus wordSize)).map List.reverse

def shifted (t : DataType) (multiplierChild : Tree) (bitPosition : Int) : Tree :=
  if bitPosition = 0 then multiplierChild
  else .binary .mul t multiplierChild (constOf t (wrap t.bits (2 ^ bitPosition.toNat)))

def generatePair (t : DataType) (multiplierChild : Tree) (d e : Digit) : Tree :=
  if e.operationType = .minus then
    .binary .sub t (if d.operationType = .minus then .neg t (shifted t multiplierChild d.bitPosition) else shifted t multiplierChild d.bitPosition)
      (shifted t multiplierChild e.bitPosition)
  else if d.operationType = .minus then .binary .sub t (shifted t multiplierChild e.bitPosition) (shifted t multiplierChild d.bitPosition)
  else .binary .add t (shifted t multiplierChild d.bitPosition) (shifted t multiplierChild e.bitPosition)

def startsMinus (digits : List Digit) : Bool := (digits.head?.map Digit.operationType) = some .minus

-- Where the second half starts with a minus its signs change.
def secondHalf (digits : List Digit) : List Digit := if startsMinus digits then digits.map Digit.flip else digits

theorem secondHalfLength (digits : List Digit) : (secondHalf digits).length = digits.length := by
  unfold secondHalf
  split
  · exact List.length_map _
  · rfl

-- The digits between from and to.
def generateDecomposedTree (t : DataType) (multiplierChild : Tree) : List Digit → Option Tree
  | [] => none
  | [d] => some (if d.operationType = .minus then .neg t (shifted t multiplierChild d.bitPosition) else shifted t multiplierChild d.bitPosition)
  | [d,e] => some (generatePair t multiplierChild d e)
  | a::b::c::rest => do
      let mid := (a::b::c::rest).length / 2 + 1
      let first ← generateDecomposedTree t multiplierChild ((a::b::c::rest).take mid)
      let second ← generateDecomposedTree t multiplierChild (secondHalf ((a::b::c::rest).drop mid))
      some (.binary (if startsMinus ((a::b::c::rest).drop mid) then .sub else .add) t first second)
  termination_by digits => digits.length
  decreasing_by
    · simp only [List.length_take,List.length_cons]
      omega
    · simp only [secondHalfLength,List.length_drop,List.length_cons]
      omega

-- The node takes the opcode and the children of the tree; a node without children cannot be taken.
def recreate : Tree → Option Tree
  | .neg t child => some (.neg t child)
  | .i2l child => some (.i2l child)
  | .binary op t first second => some (.binary op t first second)
  | _ => none

-- What the optimizer and the target decide: whether the node may be changed here, and whether it pays.
structure Env where
  transforms : Bool
  costIsJustified : List Digit → Int → Bool

def decomposeMultiply (env : Env) (t : DataType) (firstChild : Tree) (c : Int) : Option Tree := do
  let digits := (← decomposeConstant c t.bits).reverse
  if env.transforms && env.costIsJustified digits c then
    (generateDecomposedTree t firstChild digits).bind recreate
  else some (.binary .mul t firstChild (constOf t c))

def total (digits : List Digit) : Int := (digits.map Digit.value).sum

section Digits
variable {opPlus : Operation} {digits : List Digit} {d : Digit} {v low : Int} {s : DecomposeState} {w : Nat}

theorem totalCons (d : Digit) (digits : List Digit) : total (d::digits) = d.value + total digits := List.sum_cons

theorem totalAppend (front back : List Digit) : total (front ++ back) = total front + total back := by
  rw [total,List.map_append,List.sum_append]
  rfl

theorem flipValue (d : Digit) : d.flip.value = -d.value := by
  unfold Digit.flip Digit.value
  cases d.operationType <;> simp [Operation.flip,Operation.sign]

theorem totalFlip (digits : List Digit) : total (digits.map Digit.flip) = -total digits := by
  induction digits with
  | nil => rfl
  | cons d digits ih =>
      rw [List.map_cons,totalCons,totalCons,flipValue,ih]
      omega

theorem totalReverse (digits : List Digit) : total digits.reverse = total digits := by
  induction digits with
  | nil => rfl
  | cons d digits ih =>
      rw [List.reverse_cons,totalAppend,totalCons,ih,totalCons]
      simp only [total,List.map_nil,List.sum_nil]
      omega

theorem putSome (room : digits.length < arraySlots) (d : Digit) : put digits d = some (d::digits) := if_pos room

/- The digits stand for the low bits that have been read, but for the run of ones that the
next bit goes on with or ends. -/
structure Recoded (opPlus : Operation) (v : Int) (s : DecomposeState) (low : Int) : Prop where
  value : v = s.value * 2 ^ s.pos + low
  nonneg : 0 ≤ s.value
  bits : 0 ≤ low ∧ low < 2 ^ s.pos
  count : s.digits.length + s.subsequentCount ≤ s.pos
  positions : ∀ d ∈ s.digits, 0 ≤ d.bitPosition ∧ d.bitPosition < s.pos
  idle : s.lastBit = false → s.subsequentCount = 0 ∧ total s.digits = opPlus.sign * low
  run : s.lastBit = true → ∃ (p : Nat) (rest : List Digit), s.pos = p + 1 + s.subsequentCount ∧ s.digits = ⟨opPlus,p⟩::rest ∧
    total s.digits + opPlus.sign * (2 ^ s.pos - 2 ^ (p + 1)) = opPlus.sign * low ∧ 2 ^ (p + s.subsequentCount) ≤ low

theorem plusValue (opPlus : Operation) (p : Nat) : Digit.value ⟨opPlus,p⟩ = opPlus.sign * 2 ^ p := rfl

theorem flippedValue (opPlus : Operation) (p : Nat) : Digit.value ⟨opPlus.flip,p⟩ = -(opPlus.sign * 2 ^ p) := flipValue ⟨opPlus,p⟩

/- A run that ends leaves the digits of the bits read. -/
theorem endRunRecoded (recoded : Recoded opPlus v s low) (small : s.pos ≤ 64) :
    ∃ digits, endRun opPlus s.digits s.pos s.subsequentCount = some digits ∧ total digits = opPlus.sign * low ∧ digits.length ≤ s.pos ∧
      ∀ d ∈ digits, 0 ≤ d.bitPosition ∧ d.bitPosition ≤ s.pos ∧ (s.subsequentCount ≤ 1 → d.bitPosition < s.pos) := by
  have count := recoded.count
  have positions := recoded.positions
  cases last : s.lastBit with
  | false =>
      obtain ⟨none',sum⟩ := recoded.idle last
      refine ⟨s.digits,by simp [endRun,none'],sum,by omega,fun d member => ?_⟩
      have := positions d member
      omega
  | true =>
      obtain ⟨p,rest,pos,head,sum,_⟩ := recoded.run last
      unfold endRun
      by_cases many : s.subsequentCount > 1
      · rw [if_pos many,head]
        rw [head] at count sum positions
        simp only [List.length_cons] at count
        have room : (⟨opPlus.flip,p⟩::rest : List Digit).length < arraySlots := by
          simp only [List.length_cons,arraySlots]
          omega
        simp only [setLast,Option.bind_some,putSome room]
        refine ⟨_,rfl,?_,by simp only [List.length_cons]; omega,fun d member => ?_⟩
        · rw [totalCons,totalCons,plusValue,flippedValue]
          rw [totalCons,plusValue,Int.pow_succ] at sum
          linear_combination sum
        · rcases List.mem_cons.mp member with rfl | member
          · exact ⟨Int.natCast_nonneg _,Int.le_refl _,fun single => by omega⟩
          · have range : 0 ≤ d.bitPosition ∧ d.bitPosition < s.pos := by
              rcases List.mem_cons.mp member with rfl | member
              · exact positions ⟨opPlus,p⟩ List.mem_cons_self
              · exact positions d (List.mem_cons_of_mem _ member)
            omega
      · by_cases two : s.subsequentCount = 1
        · rw [two] at pos count
          have room : s.digits.length < arraySlots := by
            simp only [arraySlots]
            omega
          rw [if_neg many,if_pos two,putSome room]
          have place : ((s.pos : Int) - 1) = ((p + 1 : Nat) : Int) := by omega
          refine ⟨_,rfl,?_,by simp only [List.length_cons]; omega,fun d member => ?_⟩
          · rw [totalCons,place,plusValue]
            rw [pos,Int.pow_succ _ (p + 1)] at sum
            linear_combination sum
          · rcases List.mem_cons.mp member with rfl | member
            · simp only
              omega
            · have := positions d member
              omega
        · rw [if_neg many,if_neg two]
          have single : s.pos = p + 1 := by omega
          refine ⟨_,rfl,?_,by omega,fun d member => ?_⟩
          · rw [single] at sum
            linear_combination sum
          · have := positions d member
            omega

theorem decomposeBitRecoded (recoded : Recoded opPlus v s low) (small : s.pos < 64) :
    ∃ s' low', decomposeBit opPlus s = some s' ∧ Recoded opPlus v s' low' ∧ s'.pos = s.pos + 1 := by
  have count := recoded.count
  have positions := recoded.positions
  have nonneg := recoded.nonneg
  obtain ⟨lowNonneg,lowBelow⟩ := recoded.bits
  have pow : (2 : Int) ^ (s.pos + 1) = 2 ^ s.pos * 2 := Int.pow_succ _ _
  have halves := Int.emod_add_mul_ediv s.value 2
  unfold decomposeBit
  by_cases bit : s.value % 2 = 1
  · have split : v = s.value / 2 * 2 ^ (s.pos + 1) + (low + 2 ^ s.pos) := by
      rw [pow,recoded.value]
      have whole : s.value = 1 + 2 * (s.value / 2) := by omega
      linear_combination (2 : Int) ^ s.pos * whole
    rw [if_pos bit]
    cases last : s.lastBit with
    | true =>
        obtain ⟨p,rest,pos,head,sum,top⟩ := recoded.run last
        refine ⟨_,low + 2 ^ s.pos,rfl,⟨split,by dsimp only; omega,by dsimp only; omega,by dsimp only; omega,fun d member => ?_,nofun,fun _ => ⟨p,rest,?_,head,?_,?_⟩⟩,rfl⟩
        · have := positions d member
          dsimp only
          omega
        · dsimp only
          omega
        · dsimp only
          rw [pow]
          linear_combination sum
        · dsimp only
          rw [show p + (s.subsequentCount + 1) = s.pos by omega]
          omega
    | false =>
        obtain ⟨none',sum⟩ := recoded.idle last
        have room : s.digits.length < arraySlots := by
          simp only [arraySlots]
          omega
        simp only [Bool.false_eq_true,if_false,putSome room,Option.map_some]
        refine ⟨_,low + 2 ^ s.pos,rfl,⟨split,by dsimp only; omega,by dsimp only; omega,by simp only [List.length_cons]; omega,fun d member => ?_,nofun,
          fun _ => ⟨s.pos,s.digits,rfl,rfl,?_,?_⟩⟩,rfl⟩
        · dsimp only at member ⊢
          rcases List.mem_cons.mp member with rfl | member
          · simp only
            omega
          · have := positions d member
            omega
        · dsimp only
          rw [totalCons,plusValue,sum]
          ring
        · dsimp only
          rw [Nat.add_zero]
          omega
  · have split : v = s.value / 2 * 2 ^ (s.pos + 1) + low := by
      rw [pow,recoded.value]
      have whole : s.value = 2 * (s.value / 2) := by omega
      linear_combination (2 : Int) ^ s.pos * whole
    obtain ⟨digits,ended,sum,length,range⟩ := endRunRecoded recoded (by omega)
    rw [if_neg bit,ended]
    refine ⟨_,low,rfl,⟨split,by dsimp only; omega,by dsimp only; omega,by dsimp only; omega,fun d member => ?_,fun _ => ⟨rfl,sum⟩,nofun⟩,rfl⟩
    have := range d member
    dsimp only
    omega

theorem decomposeBitsRecoded (small : v < 2 ^ (w - 1)) (width : w ≤ 64) : ∀ left s low, s.pos + left = w → Recoded opPlus v s low →
    ∃ s' low', decomposeBits opPlus left s = some s' ∧ Recoded opPlus v s' low' ∧ s'.value = 0 ∧ s'.pos ≤ w := by
  intro left
  induction left with
  | zero =>
      intro s low whole recoded
      refine ⟨s,low,rfl,recoded,?_,by omega⟩
      -- All bits below the word size have been read.
      by_contra some'
      have nonneg := recoded.nonneg
      have least : 1 * 2 ^ s.pos ≤ s.value * 2 ^ s.pos := Int.mul_le_mul_of_nonneg_right (by omega) (Int.le_of_lt (Int.pow_pos (by decide)))
      have value := recoded.value
      have lowNonneg := recoded.bits.1
      have wide : (2 : Int) ^ (w - 1) ≤ 2 ^ s.pos := by exact_mod_cast Nat.pow_le_pow_right (by decide : 0 < 2) (show w - 1 ≤ s.pos by omega)
      omega
  | succ left ih =>
      intro s low whole recoded
      unfold decomposeBits
      by_cases done : s.value = 0
      · rw [if_pos done]
        exact ⟨s,low,rfl,recoded,done,by omega⟩
      · obtain ⟨next,low',stepped,again,pos⟩ := decomposeBitRecoded recoded (by omega)
        rw [if_neg done,stepped]
        exact ih next low' (by omega) again

theorem putRunSum (opPlus : Operation) : ∀ (count : Nat) (start : Nat) (digits : List Digit), digits.length + count ≤ arraySlots →
    ∃ after, putRun opPlus count start digits = some after ∧ after.length = digits.length + count ∧
      total after = total digits + opPlus.sign * (2 ^ (start + count) - 2 ^ start) ∧
      ∀ d ∈ after, d ∈ digits ∨ (0 ≤ d.bitPosition ∧ d.bitPosition < start + count) := by
  intro count
  induction count with
  | zero =>
      intro start digits room
      exact ⟨digits,rfl,rfl,by simp,fun d member => .inl member⟩
  | succ count ih =>
      intro start digits room
      obtain ⟨after,made,length,sum,range⟩ := ih (start + 1) (⟨opPlus,start⟩::digits) (by simp only [List.length_cons]; omega)
      refine ⟨after,?_,?_,?_,fun d member => ?_⟩
      · rw [putRun,putSome (by omega)]
        exact_mod_cast made
      · rw [length,List.length_cons]
        omega
      · rw [sum,totalCons,plusValue,show start + 1 + count = start + (count + 1) by omega,Int.pow_succ _ start]
        ring
      · rcases range d member with old | new
        · rcases List.mem_cons.mp old with rfl | old
          · exact .inr ⟨Int.natCast_nonneg _,by simp only; omega⟩
          · exact .inl old
        · exact .inr (by omega)

theorem lastSetRecoded (small : v < 2 ^ (w - 1)) (width : w ≤ 64) (recoded : Recoded opPlus v s low) (done : s.value = 0) (inside : s.pos ≤ w) :
    ∃ digits, lastSet opPlus w s = some digits ∧ total digits = opPlus.sign * v ∧ digits.length ≤ arraySlots ∧
      ∀ d ∈ digits, 0 ≤ d.bitPosition ∧ d.bitPosition < w := by
  have all : v = low := by
    rw [recoded.value,done]
    omega
  have count := recoded.count
  unfold lastSet
  split
  · rename_i limit
    have last : s.lastBit = true := by
      by_contra idle
      have := (recoded.idle (by simpa using idle)).1
      omega
    obtain ⟨p,rest,pos,head,sum,top⟩ := recoded.run last
    -- The run cannot reach the sign bit.
    have below : p + s.subsequentCount < w - 1 := by
      rw [← all] at top
      have : (2 : Nat) ^ (p + s.subsequentCount) < 2 ^ (w - 1) := by exact_mod_cast Int.lt_of_le_of_lt top small
      exact (Nat.pow_lt_pow_iff_right (by decide)).mp this
    have start : ((w : Int) - 1 - s.subsequentCount) = ((p + 1 : Nat) : Int) := by omega
    obtain ⟨digits,made,length,after,range⟩ := putRunSum opPlus s.subsequentCount (p + 1) s.digits (by simp only [arraySlots]; omega)
    rw [start]
    refine ⟨digits,made,?_,by simp only [arraySlots]; omega,fun d member => ?_⟩
    · rw [after,all,← sum,show p + 1 + s.subsequentCount = s.pos by omega]
    · rcases range d member with old | new
      · have := recoded.positions d old
        omega
      · omega
  · rename_i within
    obtain ⟨digits,made,after,length,range⟩ := endRunRecoded recoded (by omega)
    refine ⟨digits,made,by rw [after,all],by simp only [arraySlots]; omega,fun d member => ?_⟩
    obtain ⟨low,high,single⟩ := range d member
    refine ⟨low,?_⟩
    by_cases many : s.subsequentCount > 1
    · omega
    · have := single (by omega)
      omega

theorem startRecoded (opPlus : Operation) (nonneg : 0 ≤ v) : Recoded opPlus v ⟨[],v,0,0,false⟩ 0 :=
  ⟨by simp,nonneg,⟨Int.le_refl _,Int.zero_lt_one⟩,Nat.le_refl _,nofun,fun _ => ⟨rfl,by simp [total]⟩,nofun⟩

theorem decomposed (opPlus : Operation) (nonneg : 0 ≤ v) (small : v < 2 ^ (w - 1)) (width : w ≤ 64) :
    ∃ digits, (decomposeBits opPlus w ⟨[],v,0,0,false⟩).bind (lastSet opPlus w) = some digits ∧ total digits = opPlus.sign * v ∧
      digits.length ≤ arraySlots ∧ ∀ d ∈ digits, 0 ≤ d.bitPosition ∧ d.bitPosition < w := by
  obtain ⟨s,low,ended,recoded,done,inside⟩ := decomposeBitsRecoded small width w _ 0 (Nat.zero_add w) (startRecoded opPlus nonneg)
  rw [ended]
  exact lastSetRecoded small width recoded done inside

end Digits

-- What the recoding promises: its writes stay inside the arrays, and the digits make the constant.
structure Recodes (w : Nat) (c : Int) (digits : List Digit) : Prop where
  slots : digits.length ≤ arraySlots
  positions : ∀ d ∈ digits, 0 ≤ d.bitPosition ∧ d.bitPosition < w
  sum : total digits = c

theorem constantRecodes {w : Nat} (pos : 0 < w) (width : w ≤ 64) {c : Int} (inside : InRange w c) (proper : c ≠ minSigned w) :
    ∃ digits, decomposeConstant c w = some digits ∧ Recodes w c digits := by
  have half : MachineInt.half w = 2 ^ (w - 1) := rfl
  have positive := halfPos w
  have wide : MachineInt.half w ≤ MachineInt.half 64 := by
    change (2 : Int) ^ (w - 1) ≤ 2 ^ (64 - 1)
    exact_mod_cast Nat.pow_le_pow_right (by decide : 0 < 2) (show w - 1 ≤ 64 - 1 by omega)
  simp only [InRange,minSigned,maxSigned] at inside proper
  have sign : c / 2 ^ (w - 1) % 2 = 1 ↔ c < 0 := by
    rw [← half]
    rcases lt_or_ge c 0 with negative | nonneg
    · have quotient : c / MachineInt.half w = -1 :=
        Int.le_antisymm (Int.lt_add_one_iff.mp ((Int.ediv_lt_iff_lt_mul positive).mpr (by omega))) ((Int.le_ediv_iff_mul_le positive).mpr (by omega))
      simp [quotient,negative]
    · have quotient : c / MachineInt.half w = 0 := Int.ediv_eq_zero_of_lt nonneg (by omega)
      simp only [quotient]
      omega
  have reversed : ∀ {digits : List Digit}, total digits = c → digits.length ≤ arraySlots →
      (∀ d ∈ digits, 0 ≤ d.bitPosition ∧ d.bitPosition < w) → Recodes w c digits.reverse := fun sum slots range =>
    ⟨by rw [List.length_reverse]; exact slots,fun d member => range d (List.mem_reverse.mp member),by rw [totalReverse]; exact sum⟩
  unfold decomposeConstant
  by_cases negative : c < 0
  · have bit := sign.mpr negative
    have exact' : wrap 64 (-c) = -c := wrapSelf (by decide) ⟨by simp only [minSigned]; omega,by simp only [maxSigned]; omega⟩
    simp only [bit,if_true,exact']
    obtain ⟨digits,made,sum,slots,range⟩ := decomposed (v := -c) .minus (by omega) (by omega) width
    rw [made]
    exact ⟨_,rfl,reversed (by rw [sum]; simp [Operation.sign]) slots range⟩
  · have bit : ¬ c / 2 ^ (w - 1) % 2 = 1 := fun h => negative (sign.mp h)
    simp only [bit,if_false]
    obtain ⟨digits,made,sum,slots,range⟩ := decomposed (v := c) .plus (by omega) (by omega) width
    rw [made]
    exact ⟨_,rfl,reversed (by rw [sum]; simp [Operation.sign]) slots range⟩

section Trees
variable {t : DataType} {child : Tree} {memory : Nat → Int}

theorem shiftedEval (typed : child.Typed t) (bitPosition : Int) :
    (shifted t child bitPosition).eval memory = wrap t.bits (child.eval memory * 2 ^ bitPosition.toNat) := by
  unfold shifted
  split
  · rename_i zero
    rw [zero]
    simp only [Int.toNat_zero,Int.pow_zero,Int.mul_one]
    exact (wrapSelf t.bitsPos (evalRange memory typed)).symm
  · simp only [Tree.eval,constOf,BinaryOp.eval]
    exact Int.mul_bmod_bmod

theorem negatedEval (typed : child.Typed t) (d : Digit) :
    (if d.operationType = .minus then Tree.neg t (shifted t child d.bitPosition) else shifted t child d.bitPosition).eval memory =
      wrap t.bits (child.eval memory * d.value) := by
  unfold Digit.value
  cases d.operationType with
  | plus =>
      rw [if_neg (by decide),shiftedEval typed,Operation.sign,Int.one_mul]
  | minus =>
      rw [if_pos rfl]
      simp only [Tree.eval,shiftedEval typed,Operation.sign]
      rw [wrap,wrap,Int.bmod_neg_bmod,wrap]
      congr 1
      ring

theorem generatePairEval (typed : child.Typed t) (d e : Digit) :
    (generatePair t child d e).eval memory = wrap t.bits (child.eval memory * (d.value + e.value)) := by
  have first := @negatedEval t child memory typed d
  have plain := @shiftedEval t child memory typed
  unfold generatePair
  by_cases second : e.operationType = .minus
  · rw [if_pos second]
    simp only [Tree.eval,BinaryOp.eval,first,plain]
    rw [wrap,wrap,wrap,Int.bmod_sub_bmod,Int.sub_bmod_bmod,wrap]
    congr 1
    simp only [Digit.value,second,Operation.sign]
    ring
  · have plus : e.operationType = .plus := by cases h : e.operationType with
      | plus => rfl
      | minus => exact absurd h second
    rw [if_neg second]
    by_cases minus : d.operationType = .minus
    · rw [if_pos minus]
      simp only [Tree.eval,BinaryOp.eval,plain]
      rw [wrap,wrap,wrap,Int.bmod_sub_bmod,Int.sub_bmod_bmod,wrap]
      congr 1
      simp only [Digit.value,plus,minus,Operation.sign]
      ring
    · rw [if_neg minus] at first ⊢
      simp only [Tree.eval,BinaryOp.eval,first,plain]
      rw [wrap,wrap,wrap,Int.bmod_add_bmod,Int.add_bmod_bmod,wrap]
      congr 1
      simp only [Digit.value,plus,Operation.sign]
      ring

theorem secondHalfTotal (digits : List Digit) :
    total (secondHalf digits) = if startsMinus digits then -total digits else total digits := by
  unfold secondHalf
  split
  · exact totalFlip digits
  · rfl

/- The tree of a segment multiplies by the sum of its digits. -/
theorem generateEval (typed : child.Typed t) (digits : List Digit) (some' : digits ≠ []) :
    ∃ tree, generateDecomposedTree t child digits = some tree ∧ ∀ memory, tree.eval memory = wrap t.bits (child.eval memory * total digits) := by
  induction digits using generateDecomposedTree.induct with
  | case1 => exact absurd rfl some'
  | case2 d =>
      refine ⟨_,by rw [generateDecomposedTree],fun memory => ?_⟩
      rw [negatedEval typed,total,List.map_singleton,List.sum_singleton]
  | case3 d e =>
      refine ⟨_,by rw [generateDecomposedTree],fun memory => ?_⟩
      rw [generatePairEval typed,totalCons,totalCons]
      simp only [total,List.map_nil,List.sum_nil,Int.add_zero]
  | case4 a b c rest mid ihFirst ihSecond =>
      have bound : 0 < mid ∧ mid < (a::b::c::rest).length := by
        simp only [mid,List.length_cons]
        omega
      have size : mid = (a::b::c::rest).length / 2 + 1 := rfl
      generalize shape : a::b::c::rest = digits at *
      have front : digits.take mid ≠ [] := by
        rw [ne_eq,List.take_eq_nil_iff]
        rintro (none' | none')
        · omega
        · exact some' none'
      have back : secondHalf (digits.drop mid) ≠ [] := by
        refine List.ne_nil_of_length_pos ?_
        rw [secondHalfLength,List.length_drop]
        omega
      obtain ⟨first,madeFirst,evalFirst⟩ := ihFirst front
      obtain ⟨second,madeSecond,evalSecond⟩ := ihSecond back
      have whole : total digits = total (digits.take mid) + total (digits.drop mid) := by
        rw [← totalAppend,List.take_append_drop]
      refine ⟨.binary (if startsMinus (digits.drop mid) then .sub else .add) t first second,?_,fun memory => ?_⟩
      · rw [← shape,generateDecomposedTree]
        simp only [shape]
        rw [← size,madeFirst,madeSecond]
        rfl
      · simp only [Tree.eval,evalFirst,evalSecond,secondHalfTotal,whole]
        split
        · simp only [BinaryOp.eval]
          rw [wrap,wrap,wrap,Int.bmod_sub_bmod,Int.sub_bmod_bmod,wrap]
          congr 1
          ring
        · simp only [BinaryOp.eval]
          rw [wrap,wrap,wrap,Int.bmod_add_bmod,Int.add_bmod_bmod,wrap]
          congr 1
          ring

-- Only the constant one leaves the multiplied tree as it is.
theorem generateRecreates (digits : List Digit) {tree : Tree} (made : generateDecomposedTree t child digits = some tree)
    (range : ∀ d ∈ digits, 0 ≤ d.bitPosition) (proper : total digits ≠ 1) : recreate tree = some tree := by
  match digits, made with
  | [], made =>
      rw [generateDecomposedTree] at made
      cases made
  | [d], made =>
      rw [generateDecomposedTree] at made
      cases made
      split
      · rfl
      · rename_i plus
        have isPlus : d.operationType = .plus := by cases h : d.operationType with
          | plus => rfl
          | minus => exact absurd h plus
        unfold shifted
        split
        · rename_i zero
          refine absurd ?_ proper
          simp [total,Digit.value,isPlus,zero,Operation.sign]
        · rfl
  | [d,e], made =>
      rw [generateDecomposedTree] at made
      cases made
      unfold generatePair
      split
      · rfl
      · split <;> rfl
  | a::b::c::rest, made =>
      rw [generateDecomposedTree] at made
      simp only [Option.bind_eq_bind,Option.bind_eq_some_iff] at made
      obtain ⟨first,_,second,_,same⟩ := made
      cases same
      rfl

end Trees

-- The constants for which the callers decompose.
def Admitted (t : DataType) (c : Int) : Prop :=
  c ≠ 0 ∧ PowerOfTwo.isNonNegativePowerOf2 t.bits c = false ∧ c ≠ t.getMinSigned

instance (t : DataType) (c : Int) : Decidable (Admitted t c) := inferInstanceAs (Decidable (_ ∧ _))

/- The recoding stays in its arrays and makes the constant, and the node keeps its value
whether or not it is decomposed. -/
theorem multiplyByDigits {t : DataType} {c : Int} (inside : InRange t.bits c) (admitted : Admitted t c) :
    ∃ digits, decomposeConstant c t.bits = some digits ∧ Recodes t.bits c digits ∧
      ∀ (env : Env) (child : Tree), child.Typed t → ∃ node, decomposeMultiply env t child c = some node ∧
        ∀ memory, node.eval memory = wrap t.bits (child.eval memory * c) := by
  obtain ⟨nonzero,notPower,proper⟩ := admitted
  obtain ⟨digits,made,recodes⟩ := constantRecodes t.bitsPos (by cases t <;> decide) inside proper
  refine ⟨digits,made,recodes,fun env child typed => ?_⟩
  have notOne : c ≠ 1 := by
    rintro rfl
    have power := (PowerOfTwo.isNonNegativePowerOf2Iff t.bitsPos inside nonzero).mpr ⟨by decide,0,rfl⟩
    rw [notPower] at power
    cases power
  have sum : total digits.reverse = c := by
    rw [totalReverse]
    exact recodes.sum
  have some' : digits.reverse ≠ [] := by
    intro none'
    rw [none'] at sum
    exact nonzero sum.symm
  unfold decomposeMultiply
  simp only [made,Option.bind_eq_bind,Option.bind_some]
  split
  · obtain ⟨tree,generated,evaluates⟩ := generateEval typed digits.reverse some'
    have whole := generateRecreates digits.reverse generated (fun d member => (recodes.positions d (List.mem_reverse.mp member)).1)
      (by rw [sum]; exact notOne)
    refine ⟨tree,by rw [generated]; exact whole,fun memory => ?_⟩
    rw [evaluates,sum]
  · exact ⟨_,rfl,fun memory => rfl⟩

theorem multiplyByDigitsSample : ∃ node, decomposeMultiply ⟨true,fun _ _ => true⟩ .Int64 (.load .Int64 0) (-105) = some node ∧
    ∀ memory, node.eval memory = wrap 64 (wrap 64 (memory 0) * -105) := by
  obtain ⟨_,_,_,every⟩ := @multiplyByDigits .Int64 (-105) (by decide) (by decide)
  exact every ⟨true,fun _ _ => true⟩ (.load .Int64 0) rfl

end OmrCompiler.DecomposedMultiply
