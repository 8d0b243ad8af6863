import Mathlib

/-! Loads of AArch64 constants (OMRTreeEvaluator.cpp of the AArch64 code generator):
the move-wide instructions that are emitted, their encoding, and what a processor
makes of the encoded words. -/
namespace OmrCompiler.MoveWide

inductive Mnemonic where
  | movnw
  | movzw
  | movkw
  | movnx
  | movzx
  | movkx
  deriving DecidableEq, Repr

-- OpBinary.cpp.
def Mnemonic.binary : Mnemonic → BitVec 32
  | .movnw => 0x12800000
  | .movzw => 0x52800000
  | .movkw => 0x72800000
  | .movnx => 0x92800000
  | .movzx => 0xD2800000
  | .movkx => 0xF2800000

def MOV_LSL16 : BitVec 32 := 0x10000

-- A target register is one of x0 to x30; the number 31 means the zero register.
structure Register where
  number : BitVec 5
  general : number ≠ 31
  deriving DecidableEq

structure Instruction where
  op : Mnemonic
  treg : Register
  sourceImmediate : BitVec 32
  deriving DecidableEq

-- The binary of the mnemonic with the target register and the immediate field.
def Instruction.generateBinaryEncoding (i : Instruction) : BitVec 32 :=
  i.op.binary ||| i.treg.number.setWidth 32 ||| ((i.sourceImmediate &&& 0x3FFFF#32) <<< 5)

/- The processor: a move-wide word has the size in bit 31, the operation in bits 29
and 30, the position in bits 21 and 22, sixteen immediate bits and a register. -/

def movedWide {w : Nat} (opc : BitVec 2) (pos : Nat) (imm : BitVec 16) (old : BitVec w) : Option (BitVec w) :=
  if opc = 0 then some (~~~(imm.setWidth w <<< pos))
  else if opc = 2 then some (imm.setWidth w <<< pos)
  else if opc = 3 then some ((old &&& ~~~((0xFFFF#16).setWidth w <<< pos)) ||| (imm.setWidth w <<< pos))
  else none

abbrev Registers := BitVec 5 → BitVec 64

def execute (word : BitVec 32) (x : Registers) : Option Registers :=
  let rd := word.extractLsb' 0 5
  let imm := word.extractLsb' 5 16
  let hw := word.extractLsb' 21 2
  let opc := word.extractLsb' 29 2
  if word.extractLsb' 23 6 ≠ 0b100101 ∨ rd = 31 then none
  else if word.getLsbD 31 then (movedWide opc (16 * hw.toNat) imm (x rd)).map (Function.update x rd)
  else if hw.getLsbD 1 then none
  else (movedWide opc (16 * hw.toNat) imm ((x rd).setWidth 32)).map fun v => Function.update x rd (v.setWidth 64)

def executeAll (code : List Instruction) (x : Registers) : Option Registers :=
  code.foldlM (fun x i => execute i.generateBinaryEncoding x) x

-- An instruction is put after the first `preced` ones and is the next cursor.
def generateTrg1ImmInstruction (op : Mnemonic) (treg : Register) (imm : BitVec 32) (code : List Instruction) (preced : Nat) :
    List Instruction × Nat :=
  (code.take preced ++ ⟨op,treg,imm⟩::code.drop preced,preced + 1)

-- The cursor that is supplied, or the append instruction.
def startOf (code : List Instruction) (cursor : Option (Fin (code.length + 1))) : Nat := (cursor.map Fin.val).getD code.length

def loadConstant32 (value : BitVec 32) (trgReg : Register) (code : List Instruction) (cursor : Option (Fin (code.length + 1))) :
    List Instruction × Nat :=
  let cursor := startOf code cursor
  let chosen :=
    if 0 ≤ value.toInt ∧ value.toInt ≤ 65535 then some (Mnemonic.movzw,value &&& 0xFFFF)
    else if -65535 ≤ value.toInt ∧ value.toInt < 0 then some (.movnw,~~~value &&& 0xFFFF)
    else if value &&& 0xFFFF = 0 then some (.movzw,(value.sshiftRight 16 &&& 0xFFFF) ||| MOV_LSL16)
    else if value &&& 0xFFFF = 0xFFFF then some (.movnw,((~~~value).sshiftRight 16 &&& 0xFFFF) ||| MOV_LSL16)
    else none
  match chosen with
  | some (op,imm) => generateTrg1ImmInstruction op trgReg imm code cursor
  | none =>
      let (code,cursor) := generateTrg1ImmInstruction .movzw trgReg (value &&& 0xFFFF) code cursor
      generateTrg1ImmInstruction .movkw trgReg ((value.sshiftRight 16 &&& 0xFFFF) ||| MOV_LSL16) code cursor

def halfWord (value : BitVec 64) (i : Nat) : BitVec 16 := (value.sshiftRight (i * 16) &&& 0xFFFF).setWidth 16

-- One turn of the loop over the half-words.
def loadHalf (value : BitVec 64) (trgReg : Register) (useMovz : Bool) (start : Nat) (st : List Instruction × Nat) (i : Nat) :
    List Instruction × Nat :=
  let (code,cursor) := st
  let h := halfWord value i
  let shift := MOV_LSL16 * BitVec.ofNat 32 i
  if useMovz = true ∧ h ≠ 0 then
    generateTrg1ImmInstruction (if cursor ≠ start then .movkx else .movzx) trgReg (h.setWidth 32 ||| shift) code cursor
  else if useMovz = false ∧ h ≠ 0xFFFF then
    if cursor ≠ start then generateTrg1ImmInstruction .movkx trgReg (h.setWidth 32 ||| shift) code cursor
    else generateTrg1ImmInstruction .movnx trgReg ((~~~(h.setWidth 32) &&& 0xFFFF) ||| shift) code cursor
  else st

def loadConstant64 (value : BitVec 64) (trgReg : Register) (code : List Instruction) (cursor : Option (Fin (code.length + 1))) :
    List Instruction × Nat :=
  let cursor := startOf code cursor
  if value = 0 then generateTrg1ImmInstruction .movzx trgReg 0 code cursor
  else if ~~~value = 0 then generateTrg1ImmInstruction .movnx trgReg 0 code cursor
  else
    let h := (List.range 4).map (halfWord value)
    let useMovz := decide ((h.filter (· = 0)).length ≥ (h.filter (· = 0xFFFF)).length)
    (List.range 4).foldl (loadHalf value trgReg useMovz cursor) (code,cursor)

/- The half-words of a value. -/

def half {w : Nat} (x : BitVec w) (j : Nat) : BitVec 16 := x.extractLsb' (16 * j) 16

section Halves
variable {w n : Nat} {imm : BitVec 16} {x y old : BitVec w} {j p : Nat}

theorem halfBit {k : Nat} (below : k < 16) : (half x j).getLsbD k = x.getLsbD (16 * j + k) := by
  rw [half,BitVec.getLsbD_extractLsb',decide_eq_true below,Bool.true_and]

theorem halvesEqual (size : w = 16 * n) (same : ∀ j < n, half x j = half y j) : x = y := by
  refine BitVec.eq_of_getLsbD_eq fun i hi => ?_
  have below : i % 16 < 16 := Nat.mod_lt _ (by decide)
  have bit := congrArg (fun h => h.getLsbD (i % 16)) (same (i / 16) (by omega))
  simp only [halfBit below,Nat.div_add_mod] at bit
  exact bit

theorem placedHalf (inside : 16 * j + 16 ≤ w) : half (imm.setWidth w <<< (16 * p)) j = if j = p then imm else 0 := by
  refine BitVec.eq_of_getLsbD_eq fun k hk => ?_
  rw [halfBit hk,BitVec.getLsbD_shiftLeft,BitVec.getLsbD_setWidth,decide_eq_true (show 16 * j + k < w by omega)]
  rcases Nat.lt_trichotomy j p with less | rfl | more
  · rw [decide_eq_true (show 16 * j + k < 16 * p by omega),if_neg (Nat.ne_of_lt less)]
    simp
  · rw [decide_eq_false (show ¬ 16 * j + k < 16 * j by omega),Nat.add_sub_cancel_left,if_pos rfl,
      decide_eq_true (show k < w by omega)]
    simp
  · rw [if_neg (Nat.ne_of_gt more),BitVec.getLsbD_of_ge imm _ (show 16 ≤ 16 * j + k - 16 * p by omega)]
    simp

theorem halfWidened (h : BitVec 16) (wide : 16 ≤ w) : half (h.setWidth w) 0 = h := by
  refine BitVec.eq_of_getLsbD_eq fun k hk => ?_
  rw [halfBit hk,BitVec.getLsbD_setWidth,decide_eq_true (show 16 * 0 + k < w by omega),Nat.mul_zero,Nat.zero_add,Bool.true_and]

theorem halfNot (inside : 16 * j + 16 ≤ w) : half (~~~x) j = ~~~half x j := by
  refine BitVec.eq_of_getLsbD_eq fun k hk => ?_
  rw [halfBit hk,BitVec.getLsbD_not,BitVec.getLsbD_not,halfBit hk,decide_eq_true hk,decide_eq_true (show 16 * j + k < w by omega)]

theorem halfAnd : half (x &&& y) j = half x j &&& half y j := by
  refine BitVec.eq_of_getLsbD_eq fun k hk => ?_
  rw [halfBit hk,BitVec.getLsbD_and,BitVec.getLsbD_and,halfBit hk,halfBit hk]

theorem halfOr : half (x ||| y) j = half x j ||| half y j := by
  refine BitVec.eq_of_getLsbD_eq fun k hk => ?_
  rw [halfBit hk,BitVec.getLsbD_or,BitVec.getLsbD_or,halfBit hk,halfBit hk]

-- What the other two operations leave in each half-word.
theorem onesHalf (inside : 16 * j + 16 ≤ w) : half (~~~(imm.setWidth w <<< (16 * p))) j = if j = p then ~~~imm else 0xFFFF := by
  rw [halfNot inside,placedHalf inside]
  split <;> rfl

theorem keptHalf (inside : 16 * j + 16 ≤ w) :
    half ((old &&& ~~~((0xFFFF#16).setWidth w <<< (16 * p))) ||| (imm.setWidth w <<< (16 * p))) j = if j = p then imm else half old j := by
  rw [halfOr,halfAnd,halfNot inside,placedHalf inside,placedHalf inside]
  split
  · have mask : half old j &&& ~~~0xFFFF#16 = 0 := by rw [show ~~~0xFFFF#16 = 0#16 from rfl,BitVec.and_zero]; rfl
    rw [mask]
    exact BitVec.zero_or
  · rw [show ~~~(0 : BitVec 16) = BitVec.allOnes 16 from rfl,BitVec.and_allOnes]
    exact BitVec.or_zero

-- The bits of one half-word, as the code takes them out of the value.
theorem halfTaken (inside : 16 * j + 16 ≤ w) : x.sshiftRight (16 * j) &&& BitVec.ofNat w 0xFFFF = (half x j).setWidth w := by
  refine BitVec.eq_of_getLsbD_eq fun k hk => ?_
  have mask : (BitVec.ofNat w 0xFFFF).getLsbD k = decide (k < 16) := by
    rw [BitVec.getLsbD_ofNat,decide_eq_true hk,Bool.true_and,show 0xFFFF = 2 ^ 16 - 1 from rfl,Nat.testBit_two_pow_sub_one]
  rw [BitVec.getLsbD_and,mask,BitVec.getLsbD_setWidth,decide_eq_true hk,Bool.true_and]
  by_cases below : k < 16
  · rw [decide_eq_true below,Bool.and_true,halfBit below,BitVec.getLsbD_sshiftRight,decide_eq_false (Nat.not_le.mpr hk),
      if_pos (show 16 * j + k < w by omega)]
    rfl
  · rw [decide_eq_false below,Bool.and_false,BitVec.getLsbD_of_ge _ _ (by omega)]

end Halves

/- Encoding. -/

theorem encodedBit (i : Instruction) {k : Nat} (hk : k < 32) :
    i.generateBinaryEncoding.getLsbD k =
      (i.op.binary.getLsbD k || i.treg.number.getLsbD k || (decide (5 ≤ k) && (i.sourceImmediate.getLsbD (k - 5) && decide (k < 23)))) := by
  have mask : ∀ j < 32, (0x3FFFF#32).getLsbD j = decide (j < 18) := by decide
  rw [Instruction.generateBinaryEncoding,BitVec.getLsbD_or,BitVec.getLsbD_or,BitVec.getLsbD_setWidth,BitVec.getLsbD_shiftLeft,
    BitVec.getLsbD_and,mask (k - 5) (by omega),decide_eq_true hk,Bool.true_and,Bool.true_and]
  by_cases low : k < 5
  · rw [decide_eq_true low,decide_eq_false (Nat.not_le.mpr low)]
    rfl
  · rw [decide_eq_false low,decide_eq_true (Nat.not_lt.mp low)]
    congr 3
    exact decide_eq_decide.mpr (by omega)

theorem encodedRegister (i : Instruction) : i.generateBinaryEncoding.extractLsb' 0 5 = i.treg.number := by
  have binary : ∀ k < 5, i.op.binary.getLsbD k = false := by cases i.op <;> decide
  refine BitVec.eq_of_getLsbD_eq fun k hk => ?_
  rw [BitVec.getLsbD_extractLsb',Nat.zero_add,encodedBit i (by omega),binary k hk,decide_eq_true hk,decide_eq_false (Nat.not_le.mpr hk)]
  simp

theorem encodedImmediate (i : Instruction) :
    i.generateBinaryEncoding.extractLsb' 5 16 = i.sourceImmediate.extractLsb' 0 16 ∧
      i.generateBinaryEncoding.extractLsb' 21 2 = i.sourceImmediate.extractLsb' 16 2 := by
  have binary : ∀ k < 18, i.op.binary.getLsbD (5 + k) = false := by cases i.op <;> decide
  have field : ∀ k < 18, i.generateBinaryEncoding.getLsbD (5 + k) = i.sourceImmediate.getLsbD k := by
    intro k hk
    rw [encodedBit i (by omega),binary k hk,BitVec.getLsbD_of_ge _ _ (show 5 ≤ 5 + k by omega),Nat.add_sub_cancel_left,
      decide_eq_true (show 5 ≤ 5 + k by omega),decide_eq_true (show 5 + k < 23 by omega)]
    simp
  constructor
  · refine BitVec.eq_of_getLsbD_eq fun k hk => ?_
    rw [BitVec.getLsbD_extractLsb',BitVec.getLsbD_extractLsb',field k (by omega),Nat.zero_add]
  · refine BitVec.eq_of_getLsbD_eq fun k hk => ?_
    rw [BitVec.getLsbD_extractLsb',BitVec.getLsbD_extractLsb',show 21 + k = 5 + (16 + k) by omega,field _ (by omega)]

-- The bits from 23 on are those of the mnemonic.
theorem encodedAbove (i : Instruction) {k : Nat} (low : 23 ≤ k) (high : k < 32) :
    i.generateBinaryEncoding.getLsbD k = i.op.binary.getLsbD k := by
  rw [encodedBit i high,BitVec.getLsbD_of_ge i.treg.number _ (by omega),decide_eq_false (show ¬ k < 23 by omega)]
  simp

theorem encodedOperation (i : Instruction) :
    i.generateBinaryEncoding.extractLsb' 23 6 = 0b100101 ∧ i.generateBinaryEncoding.extractLsb' 29 2 = i.op.binary.extractLsb' 29 2 ∧
      i.generateBinaryEncoding.getLsbD 31 = i.op.binary.getLsbD 31 := by
  have family : i.op.binary.extractLsb' 23 6 = 0b100101 := by cases i.op <;> decide
  refine ⟨?_,?_,encodedAbove i (by decide) (by decide)⟩
  · rw [← family]
    refine BitVec.eq_of_getLsbD_eq fun k hk => ?_
    rw [BitVec.getLsbD_extractLsb',BitVec.getLsbD_extractLsb',encodedAbove i (by omega) (by omega)]
  · refine BitVec.eq_of_getLsbD_eq fun k hk => ?_
    rw [BitVec.getLsbD_extractLsb',BitVec.getLsbD_extractLsb',encodedAbove i (by omega) (by omega)]

theorem executeWide (i : Instruction) (x : Registers) (wide : i.op.binary.getLsbD 31 = true) :
    execute i.generateBinaryEncoding x =
      (movedWide (i.op.binary.extractLsb' 29 2) (16 * (i.sourceImmediate.extractLsb' 16 2).toNat) (i.sourceImmediate.extractLsb' 0 16)
        (x i.treg.number)).map (Function.update x i.treg.number) := by
  obtain ⟨imm,hw⟩ := encodedImmediate i
  obtain ⟨family,opc,size⟩ := encodedOperation i
  simp only [execute,encodedRegister,imm,hw,family,opc,size,wide,i.treg.general,ne_eq,not_true_eq_false,or_self,if_false,if_true]

theorem executeShort (i : Instruction) (x : Registers) (short : i.op.binary.getLsbD 31 = false)
    (low : (i.sourceImmediate.extractLsb' 16 2).getLsbD 1 = false) :
    execute i.generateBinaryEncoding x =
      (movedWide (i.op.binary.extractLsb' 29 2) (16 * (i.sourceImmediate.extractLsb' 16 2).toNat) (i.sourceImmediate.extractLsb' 0 16)
        ((x i.treg.number).setWidth 32)).map fun v => Function.update x i.treg.number (v.setWidth 64) := by
  obtain ⟨imm,hw⟩ := encodedImmediate i
  obtain ⟨family,opc,size⟩ := encodedOperation i
  simp only [execute,encodedRegister,imm,hw,family,opc,size,short,low,i.treg.general,ne_eq,not_true_eq_false,or_self,if_false,
    Bool.false_eq_true]

/- The sixteen bits and the position that an immediate is made of. -/

theorem immediateFields {h : BitVec 16} {p : Nat} (few : p < 4) :
    (h.setWidth 32 ||| MOV_LSL16 * BitVec.ofNat 32 p).extractLsb' 0 16 = h ∧
      (h.setWidth 32 ||| MOV_LSL16 * BitVec.ofNat 32 p).extractLsb' 16 2 = BitVec.ofNat 2 p := by
  have shift : ∀ p < 4, ∀ k < 18, (MOV_LSL16 * BitVec.ofNat 32 p).getLsbD k = (decide (16 ≤ k) && p.testBit (k - 16)) := by decide
  constructor
  · refine BitVec.eq_of_getLsbD_eq fun k hk => ?_
    rw [BitVec.getLsbD_extractLsb',Nat.zero_add,BitVec.getLsbD_or,shift p few k (by omega),BitVec.getLsbD_setWidth,decide_eq_true hk,
      decide_eq_true (show k < 32 by omega),decide_eq_false (Nat.not_le.mpr hk)]
    simp
  · refine BitVec.eq_of_getLsbD_eq fun k hk => ?_
    rw [BitVec.getLsbD_extractLsb',BitVec.getLsbD_or,shift p few _ (by omega),BitVec.getLsbD_setWidth,BitVec.getLsbD_of_ge h _ (by omega),
      decide_eq_true (show 16 ≤ 16 + k by omega),Nat.add_sub_cancel_left,BitVec.getLsbD_ofNat]
    simp

theorem notMasked (h : BitVec 16) : ~~~(h.setWidth 32) &&& 0xFFFF = (~~~h).setWidth 32 := by
  refine BitVec.eq_of_getLsbD_eq fun k hk => ?_
  have mask : ∀ k < 32, (0xFFFF : BitVec 32).getLsbD k = decide (k < 16) := by decide
  rw [BitVec.getLsbD_and,mask k hk,BitVec.getLsbD_not,BitVec.getLsbD_setWidth,BitVec.getLsbD_setWidth,BitVec.getLsbD_not,decide_eq_true hk]
  by_cases low : k < 16
  · simp [low]
  · simp [low]

/- Where the instructions go. -/

structure Placed (code : List Instruction) (start : Nat) (emitted : List Instruction) (st : List Instruction × Nat) : Prop where
  code : st.1 = code.take start ++ emitted ++ code.drop start
  cursor : st.2 = start + emitted.length

section Placing
variable {code emitted : List Instruction} {start : Nat} {st : List Instruction × Nat}

theorem startWithin (code : List Instruction) (cursor : Option (Fin (code.length + 1))) : startOf code cursor ≤ code.length := by
  cases cursor with
  | none => exact Nat.le_refl _
  | some k => exact Nat.le_of_lt_succ k.isLt

theorem placedStart (code : List Instruction) (start : Nat) : Placed code start [] (code,start) :=
  ⟨by rw [List.append_nil,List.take_append_drop],rfl⟩

theorem Placed.generate (placed : Placed code start emitted st) (within : start ≤ code.length) (op : Mnemonic) (treg : Register)
    (imm : BitVec 32) :
    Placed code start (emitted ++ [⟨op,treg,imm⟩]) (generateTrg1ImmInstruction op treg imm st.1 st.2) := by
  have length : (code.take start ++ emitted).length = start + emitted.length := by
    rw [List.length_append,List.length_take,Nat.min_eq_left within]
  refine ⟨?_,?_⟩
  · rw [generateTrg1ImmInstruction,placed.code,placed.cursor,← length,List.take_left,List.drop_left]
    simp only [List.append_assoc,List.cons_append,List.nil_append]
  · rw [generateTrg1ImmInstruction,placed.cursor,List.length_append]
    rfl

end Placing

/- The value in the target register, whatever the registers held. -/

def Leaves (emitted : List Instruction) (treg : Register) (v : BitVec 64) : Prop :=
  ∀ x, executeAll emitted x = some (Function.update x treg.number v)

section Leaving
variable {emitted : List Instruction} {op : Mnemonic} {treg : Register} {imm : BitVec 32} {v v' : BitVec 64}

theorem leavesFirst
    (first : ∀ x, execute (Instruction.generateBinaryEncoding ⟨op,treg,imm⟩) x = some (Function.update x treg.number v)) :
    Leaves [⟨op,treg,imm⟩] treg v := by
  intro x
  change (execute (Instruction.generateBinaryEncoding ⟨op,treg,imm⟩) x).bind some = _
  rw [first,Option.bind_some]

theorem Leaves.next (before : Leaves emitted treg v)
    (last : ∀ x, x treg.number = v →
      execute (Instruction.generateBinaryEncoding ⟨op,treg,imm⟩) x = some (Function.update x treg.number v')) :
    Leaves (emitted ++ [⟨op,treg,imm⟩]) treg v' := by
  intro x
  rw [executeAll,List.foldlM_append]
  change (executeAll emitted x).bind (fun x => (execute (Instruction.generateBinaryEncoding ⟨op,treg,imm⟩) x).bind some) = _
  rw [before x,Option.bind_some,last _ (Function.update_self _ _ _),Option.bind_some,Function.update_idem]

end Leaving

section Moves
variable {treg : Register} {h : BitVec 16} {p : Nat}

theorem moveWide (op : Mnemonic) (x : Registers) (wide : op.binary.getLsbD 31 = true) (few : p < 4) :
    execute (Instruction.generateBinaryEncoding ⟨op,treg,h.setWidth 32 ||| MOV_LSL16 * BitVec.ofNat 32 p⟩) x =
      (movedWide (op.binary.extractLsb' 29 2) (16 * p) h (x treg.number)).map (Function.update x treg.number) := by
  obtain ⟨imm,hw⟩ := @immediateFields h p few
  rw [executeWide ⟨op,treg,_⟩ x wide,imm,hw,BitVec.toNat_ofNat,Nat.mod_eq_of_lt few]

theorem moveShort (op : Mnemonic) (x : Registers) (short : op.binary.getLsbD 31 = false) (few : p < 2) :
    execute (Instruction.generateBinaryEncoding ⟨op,treg,h.setWidth 32 ||| MOV_LSL16 * BitVec.ofNat 32 p⟩) x =
      (movedWide (op.binary.extractLsb' 29 2) (16 * p) h ((x treg.number).setWidth 32)).map
        fun v => Function.update x treg.number (v.setWidth 64) := by
  obtain ⟨imm,hw⟩ := @immediateFields h p (by omega)
  have low : (BitVec.ofNat 2 p).getLsbD 1 = false := by
    have : ∀ p < 2, (BitVec.ofNat 2 p).getLsbD 1 = false := by decide
    exact this p few
  rw [executeShort ⟨op,treg,_⟩ x short (by rw [hw]; exact low),imm,hw,BitVec.toNat_ofNat,Nat.mod_eq_of_lt (by omega)]

end Moves

section Values32
variable {value : BitVec 32} {treg : Register}

theorem lowTaken (value : BitVec 32) : value &&& 0xFFFF = (half value 0).setWidth 32 ||| MOV_LSL16 * BitVec.ofNat 32 0 := by
  have taken := @halfTaken 32 value 0 (by decide)
  rw [Nat.mul_zero,BitVec.sshiftRight_zero] at taken
  rw [show MOV_LSL16 * BitVec.ofNat 32 0 = 0#32 from rfl,BitVec.or_zero,← taken]
  rfl

theorem highTaken (value : BitVec 32) :
    (value.sshiftRight 16 &&& 0xFFFF) ||| MOV_LSL16 = (half value 1).setWidth 32 ||| MOV_LSL16 * BitVec.ofNat 32 1 := by
  rw [← @halfTaken 32 value 1 (by decide)]
  rfl

theorem halvesEqual32 {v : BitVec 32} (low : half v 0 = half value 0) (high : half v 1 = half value 1) : v = value :=
  halvesEqual (n := 2) rfl fun j few => by
    obtain rfl | rfl : j = 0 ∨ j = 1 := by omega
    · exact low
    · exact high

theorem halfNat (value : BitVec 32) (j : Nat) : (half value j).toNat = value.toNat / 2 ^ (16 * j) % 2 ^ 16 := by
  rw [half,BitVec.extractLsb'_toNat,Nat.shiftRight_eq_div_pow]

theorem highZero (low : 0 ≤ value.toInt) (high : value.toInt ≤ 65535) : half value 1 = 0 := by
  rw [BitVec.toInt_eq_toNat_cond] at low high
  refine BitVec.eq_of_toNat_eq ?_
  rw [halfNat]
  have := value.isLt
  split at low <;> change _ = 0 <;> omega

theorem highOnes (low : -65535 ≤ value.toInt) (high : value.toInt < 0) : half value 1 = 0xFFFF := by
  rw [BitVec.toInt_eq_toNat_cond] at low high
  refine BitVec.eq_of_toNat_eq ?_
  rw [halfNat]
  have := value.isLt
  split at low <;> change _ = 65535 <;> omega

theorem lowIs {h : BitVec 16} (same : value &&& 0xFFFF = h.setWidth 32) : half value 0 = h := by
  rw [lowTaken,show MOV_LSL16 * BitVec.ofNat 32 0 = 0#32 from rfl,BitVec.or_zero] at same
  have narrow := congrArg (fun v => v.setWidth 16) same
  simpa using narrow

-- One instruction is enough when the other half-word is what the operation leaves there.
theorem leavesZeroes {p : Nat} (few : p < 2) (rest : ∀ j < 2, j ≠ p → half value j = 0) :
    Leaves [⟨.movzw,treg,(half value p).setWidth 32 ||| MOV_LSL16 * BitVec.ofNat 32 p⟩] treg (value.setWidth 64) := by
  refine leavesFirst fun x => ?_
  rw [moveShort .movzw x rfl few]
  refine congrArg (fun v : BitVec 32 => some (Function.update x treg.number (v.setWidth 64))) ?_
  refine halvesEqual (n := 2) rfl fun j below => ?_
  rw [placedHalf (by omega)]
  split
  · rename_i same
    rw [same]
  · rename_i other
    exact (rest j below other).symm

theorem leavesOnes {p : Nat} (few : p < 2) (rest : ∀ j < 2, j ≠ p → half value j = 0xFFFF) :
    Leaves [⟨.movnw,treg,(half (~~~value) p).setWidth 32 ||| MOV_LSL16 * BitVec.ofNat 32 p⟩] treg (value.setWidth 64) := by
  refine leavesFirst fun x => ?_
  rw [moveShort .movnw x rfl few]
  refine congrArg (fun v : BitVec 32 => some (Function.update x treg.number (v.setWidth 64))) ?_
  refine halvesEqual (n := 2) rfl fun j below => ?_
  rw [onesHalf (by omega),halfNot (by omega),BitVec.not_not]
  split
  · rename_i same
    rw [same]
  · rename_i other
    exact (rest j below other).symm

theorem leavesBoth : Leaves ([⟨.movzw,treg,(half value 0).setWidth 32 ||| MOV_LSL16 * BitVec.ofNat 32 0⟩] ++
    [⟨.movkw,treg,(half value 1).setWidth 32 ||| MOV_LSL16 * BitVec.ofNat 32 1⟩]) treg (value.setWidth 64) := by
  have first : Leaves [⟨.movzw,treg,(half value 0).setWidth 32 ||| MOV_LSL16 * BitVec.ofNat 32 0⟩] treg
      (((half value 0).setWidth 32).setWidth 64) := by
    refine leavesFirst fun x => ?_
    rw [moveShort .movzw x rfl (by decide),← BitVec.shiftLeft_zero ((half value 0).setWidth 32)]
    rfl
  refine Leaves.next first fun x held => ?_
  rw [moveShort .movkw x rfl (by decide),held]
  refine congrArg (fun v : BitVec 32 => some (Function.update x treg.number (v.setWidth 64))) ?_
  refine halvesEqual32 ?_ ?_
  · rw [keptHalf (by decide),if_neg (by decide),BitVec.setWidth_setWidth_of_le _ (by decide),BitVec.setWidth_eq]
    exact halfWidened _ (by decide)
  · rw [keptHalf (by decide),if_pos rfl]

-- The instructions that are put in at the start leave the value.
structure Loads (v : BitVec 64) (treg : Register) (code : List Instruction) (start : Nat) (st : List Instruction × Nat) : Prop where
  emitted : ∃ emitted, Placed code start emitted st ∧ Leaves emitted treg v

theorem loads32 (value : BitVec 32) (treg : Register) (code : List Instruction) (cursor : Option (Fin (code.length + 1))) :
    Loads (value.setWidth 64) treg code (startOf code cursor) (loadConstant32 value treg code cursor) := by
  have within := startWithin code cursor
  have placed := placedStart code (startOf code cursor)
  have two {p : Nat} {j : Nat} (few : p < 2) (below : j < 2) (other : j ≠ p) : j = 1 - p := by omega
  simp only [loadConstant32]
  split_ifs with small negative low low'
  · rw [lowTaken value]
    refine ⟨_,placed.generate within .movzw treg _,leavesZeroes (p := 0) (by decide) fun j below other => ?_⟩
    rw [two (by decide) below other]
    exact highZero small.1 small.2
  · rw [lowTaken (~~~value)]
    refine ⟨_,placed.generate within .movnw treg _,leavesOnes (p := 0) (by decide) fun j below other => ?_⟩
    rw [two (by decide) below other]
    exact highOnes negative.1 negative.2
  · rw [highTaken value]
    refine ⟨_,placed.generate within .movzw treg _,leavesZeroes (p := 1) (by decide) fun j below other => ?_⟩
    rw [two (by decide) below other]
    exact lowIs low
  · rw [highTaken (~~~value)]
    refine ⟨_,placed.generate within .movnw treg _,leavesOnes (p := 1) (by decide) fun j below other => ?_⟩
    rw [two (by decide) below other]
    exact lowIs low'
  · rw [lowTaken value,highTaken value]
    exact ⟨_,(placed.generate within .movzw treg _).generate within .movkw treg _,leavesBoth⟩

end Values32

section Values64
variable {value : BitVec 64} {treg : Register} {code emitted : List Instruction} {start n : Nat} {st : List Instruction × Nat} {useMovz : Bool}

theorem halfWordHalf {i : Nat} (few : i < 4) : halfWord value i = half value i := by
  have taken := @halfTaken 64 value i (by omega)
  rw [Nat.mul_comm] at taken
  rw [halfWord,show (0xFFFF : BitVec 64) = BitVec.ofNat 64 0xFFFF from rfl,taken,BitVec.setWidth_setWidth_of_le _ (by decide),
    BitVec.setWidth_eq]

-- What the first instruction leaves in the other half-words.
def fill (useMovz : Bool) : BitVec 16 := if useMovz then 0 else 0xFFFF

/- After the half-words below n: all of them are as the first instruction would leave
them, or the register has them. -/
def Loaded (value : BitVec 64) (treg : Register) (useMovz : Bool) (n : Nat) (emitted : List Instruction) : Prop :=
  (emitted = [] ∧ ∀ j < n, half value j = fill useMovz) ∨
    (emitted ≠ [] ∧ ∃ v, Leaves emitted treg v ∧ ∀ j < 4, half v j = if j < n then half value j else fill useMovz)

theorem loadedSkip (loaded : Loaded value treg useMovz n emitted) (same : half value n = fill useMovz) :
    Loaded value treg useMovz (n + 1) emitted := by
  rcases loaded with ⟨none',before⟩ | ⟨some',v,leaves,halves⟩
  · refine .inl ⟨none',fun j below => ?_⟩
    rcases Nat.lt_succ_iff_lt_or_eq.mp below with less | rfl
    · exact before j less
    · exact same
  · refine .inr ⟨some',v,leaves,fun j below => ?_⟩
    rw [halves j below]
    rcases Nat.lt_trichotomy j n with less | rfl | more
    · rw [if_pos less,if_pos (Nat.lt_succ_of_lt less)]
    · rw [if_neg (Nat.lt_irrefl _),if_pos (Nat.lt_succ_self _),same]
    · rw [if_neg (by omega),if_neg (by omega)]

theorem loadedFirst (before : ∀ j < n, half value j = fill useMovz) (few : n < 4) {op : Mnemonic} {imm : BitVec 32} {v : BitVec 64}
    (leaves : Leaves [⟨op,treg,imm⟩] treg v) (halves : ∀ j < 4, half v j = if j = n then half value n else fill useMovz) :
    Loaded value treg useMovz (n + 1) [⟨op,treg,imm⟩] := by
  refine .inr ⟨List.cons_ne_nil _ _,v,leaves,fun j below => ?_⟩
  rw [halves j below]
  rcases Nat.lt_trichotomy j n with less | rfl | more
  · rw [if_neg (Nat.ne_of_lt less),if_pos (Nat.lt_succ_of_lt less),before j less]
  · rw [if_pos rfl,if_pos (Nat.lt_succ_self _)]
  · rw [if_neg (by omega),if_neg (by omega)]

theorem loadedNext {v : BitVec 64} (leaves : Leaves emitted treg v) (few : n < 4)
    (halves : ∀ j < 4, half v j = if j < n then half value j else fill useMovz) :
    Loaded value treg useMovz (n + 1) (emitted ++ [⟨.movkx,treg,(half value n).setWidth 32 ||| MOV_LSL16 * BitVec.ofNat 32 n⟩]) := by
  refine .inr ⟨by simp,_,leaves.next fun x held => (moveWide .movkx x rfl few).trans (by rw [held]; rfl),fun j below => ?_⟩
  rw [keptHalf (by omega)]
  rcases Nat.lt_trichotomy j n with less | rfl | more
  · rw [if_neg (Nat.ne_of_lt less),halves j below,if_pos less,if_pos (Nat.lt_succ_of_lt less)]
  · rw [if_pos rfl,if_pos (Nat.lt_succ_self _)]
  · rw [if_neg (by omega),halves j below,if_neg (by omega),if_neg (by omega)]

theorem cursorMoved (placed : Placed code start emitted st) : st.2 ≠ start ↔ emitted ≠ [] := by
  rw [placed.cursor,← List.length_pos_iff]
  omega

theorem loadHalfLoaded (within : start ≤ code.length) (placed : Placed code start emitted st) (few : n < 4)
    (loaded : Loaded value treg useMovz n emitted) :
    ∃ emitted', Placed code start emitted' (loadHalf value treg useMovz start st n) ∧ Loaded value treg useMovz (n + 1) emitted' := by
  simp only [loadHalf,halfWordHalf few]
  by_cases same : half value n = fill useMovz
  · refine ⟨emitted,?_,loadedSkip loaded same⟩
    cases useMovz <;> simp only [fill,Bool.false_eq_true,if_false,if_true] at same <;> simpa [same] using placed
  · rcases loaded with ⟨rfl,before⟩ | ⟨some',v,leaves,halves⟩
    · have still : ¬ st.2 ≠ start := fun moved => (cursorMoved placed).mp moved rfl
      cases useMovz with
      | true =>
        rw [if_pos ⟨rfl,same⟩,if_neg still]
        refine ⟨_,placed.generate within _ _ _,loadedFirst before few (leavesFirst fun x => moveWide .movzx x rfl few) fun j below => ?_⟩
        rw [placedHalf (by omega)]
        rfl
      | false =>
        rw [if_neg (by simp),if_pos ⟨rfl,same⟩,if_neg still,notMasked]
        refine ⟨_,placed.generate within _ _ _,loadedFirst before few (leavesFirst fun x => moveWide .movnx x rfl few) fun j below => ?_⟩
        rw [onesHalf (by omega),BitVec.not_not]
        rfl
    · have moved := (cursorMoved placed).mpr some'
      cases useMovz with
      | true =>
        rw [if_pos ⟨rfl,same⟩,if_pos moved]
        exact ⟨_,placed.generate within _ _ _,loadedNext leaves few halves⟩
      | false =>
        rw [if_neg (by simp),if_pos ⟨rfl,same⟩,if_pos moved]
        exact ⟨_,placed.generate within _ _ _,loadedNext leaves few halves⟩

theorem loopLoaded (within : start ≤ code.length) (few : n ≤ 4) :
    ∃ emitted, Placed code start emitted ((List.range n).foldl (loadHalf value treg useMovz start) (code,start)) ∧
      Loaded value treg useMovz n emitted := by
  induction n with
  | zero => exact ⟨[],placedStart code start,.inl ⟨rfl,fun j below => absurd below (Nat.not_lt_zero j)⟩⟩
  | succ n ih =>
    obtain ⟨emitted,placed,loaded⟩ := ih (by omega)
    rw [List.range_succ,List.foldl_append]
    exact loadHalfLoaded within placed (by omega) loaded

theorem loads64 (value : BitVec 64) (treg : Register) (code : List Instruction) (cursor : Option (Fin (code.length + 1))) :
    Loads value treg code (startOf code cursor) (loadConstant64 value treg code cursor) := by
  have within := startWithin code cursor
  have placed := placedStart code (startOf code cursor)
  have none' : (0 : BitVec 16).setWidth 32 ||| MOV_LSL16 * BitVec.ofNat 32 0 = 0 := rfl
  simp only [loadConstant64]
  split_ifs with zero ones
  · refine ⟨_,placed.generate within _ _ _,leavesFirst fun x => ?_⟩
    rw [← none',moveWide .movzx x rfl (by decide),zero]
    rfl
  · refine ⟨_,placed.generate within _ _ _,leavesFirst fun x => ?_⟩
    rw [← none',moveWide .movnx x rfl (by decide),← BitVec.not_not (b := value),ones]
    rfl
  · obtain ⟨emitted,placed,loaded⟩ := @loopLoaded value treg code (startOf code cursor) 4 _ within (Nat.le_refl 4)
    refine ⟨emitted,placed,?_⟩
    rcases loaded with ⟨-,all⟩ | ⟨-,v,leaves,halves⟩
    · -- Every half-word alike means zero or minus one.
      generalize decide (((List.map (halfWord value) (List.range 4)).filter (· = 0)).length ≥
      ((List.map (halfWord value) (List.range 4)).filter (· = 0xFFFF)).length) = useMovz at all
      cases useMovz with
      | true => exact absurd (halvesEqual (n := 4) rfl fun j below => (all j below).trans (by revert j; decide)) zero
      | false =>
        have minus : value = BitVec.allOnes 64 := halvesEqual (n := 4) rfl fun j below => (all j below).trans (by revert j; decide)
        exact absurd (by rw [minus]; rfl) ones
    · have same : v = value := halvesEqual (n := 4) rfl fun j below => (halves j below).trans (if_pos below)
      exact same ▸ leaves

end Values64

theorem constantsLoaded :
    (∀ (value : BitVec 32) treg code cursor,
      Loads (value.setWidth 64) treg code (startOf code cursor) (loadConstant32 value treg code cursor)) ∧
    ∀ (value : BitVec 64) treg code cursor, Loads value treg code (startOf code cursor) (loadConstant64 value treg code cursor) :=
  ⟨loads32,loads64⟩

end OmrCompiler.MoveWide
