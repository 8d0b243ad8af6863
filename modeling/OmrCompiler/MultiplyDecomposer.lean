import OmrCompiler.BitCounts
import OmrCompiler.PowerOfTwo

/-! The x86 integer multiply decomposer: the table of hand-written sequences, the
emission of a sequence for a constant multiplier, and the meaning of the
instructions it emits. Registers are virtual and named by numbers. -/
namespace OmrCompiler.Multiply
open MachineInt

inductive Operation where
  | shlRegImm | addRegReg | subRegReg | movRegReg
  | leaRegReg2 | leaRegReg4 | leaRegReg8
  | leaRegRegReg | leaRegRegReg2 | leaRegRegReg4 | leaRegRegReg8
  | done
  deriving DecidableEq, Repr

structure ComponentOperation where
  operation : Operation
  target : Nat
  baseOrImmed : Nat
  index : Nat
  deriving DecidableEq, Repr

structure IntegerMultiplyComposition where
  multiplier : Int
  sourceDisjointWithFirstRegister : Bool
  mustClobberSource : Bool
  subsequentShiftTooExpensive : Bool
  numAdditionalRegistersNeeded : Nat
  components : List ComponentOperation
  deriving DecidableEq, Repr

def integerMultiplySolutions : List IntegerMultiplyComposition :=
  [⟨1,true,true,false,0,[⟨.done,0,0,0⟩]⟩,
   ⟨3,true,false,false,1,[⟨.leaRegRegReg2,1,0,0⟩,⟨.done,1,0,0⟩]⟩,
   ⟨5,true,false,false,1,[⟨.leaRegRegReg4,1,0,0⟩,⟨.done,1,0,0⟩]⟩,
   ⟨6,false,false,false,1,[⟨.leaRegRegReg4,1,0,0⟩,⟨.addRegReg,1,0,0⟩,⟨.done,1,0,0⟩]⟩,
   ⟨7,false,false,false,1,[⟨.leaRegReg8,1,0,0⟩,⟨.subRegReg,1,0,0⟩,⟨.done,1,0,0⟩]⟩,
   ⟨9,true,false,false,1,[⟨.leaRegRegReg8,1,0,0⟩,⟨.done,1,0,0⟩]⟩,
   ⟨10,false,false,false,1,[⟨.leaRegRegReg8,1,0,0⟩,⟨.addRegReg,1,0,0⟩,⟨.done,1,0,0⟩]⟩,
   ⟨11,false,false,false,1,[⟨.leaRegRegReg8,1,0,0⟩,⟨.addRegReg,1,0,0⟩,⟨.addRegReg,1,0,0⟩,⟨.done,1,0,0⟩]⟩,
   ⟨13,false,false,false,1,[⟨.leaRegRegReg8,1,0,0⟩,⟨.leaRegRegReg4,1,1,0⟩,⟨.done,1,0,0⟩]⟩,
   ⟨15,true,false,false,1,[⟨.leaRegRegReg2,1,0,0⟩,⟨.leaRegRegReg4,1,1,1⟩,⟨.done,1,0,0⟩]⟩,
   ⟨17,false,false,false,1,[⟨.leaRegRegReg8,1,0,0⟩,⟨.addRegReg,1,1,0⟩,⟨.subRegReg,1,0,0⟩,⟨.done,1,0,0⟩]⟩,
   ⟨19,false,false,false,1,[⟨.leaRegRegReg8,1,0,0⟩,⟨.addRegReg,1,1,0⟩,⟨.addRegReg,1,0,0⟩,⟨.done,1,0,0⟩]⟩,
   ⟨21,false,false,false,1,[⟨.leaRegReg8,1,0,0⟩,⟨.subRegReg,1,0,0⟩,⟨.leaRegRegReg2,1,1,1⟩,⟨.done,1,0,0⟩]⟩,
   ⟨23,false,false,false,1,[⟨.leaRegRegReg2,1,0,0⟩,⟨.addRegReg,1,1,0⟩,⟨.addRegReg,1,1,0⟩,⟨.addRegReg,1,1,0⟩,
     ⟨.subRegReg,1,0,0⟩,⟨.done,1,0,0⟩]⟩,
   ⟨25,false,true,false,1,[⟨.leaRegRegReg8,1,0,0⟩,⟨.shlRegImm,0,4,0⟩,⟨.addRegReg,0,1,0⟩,⟨.done,0,0,0⟩]⟩,
   ⟨26,false,false,false,1,[⟨.leaRegRegReg2,1,0,0⟩,⟨.leaRegRegReg8,1,1,1⟩,⟨.subRegReg,1,0,0⟩,⟨.done,1,0,0⟩]⟩,
   ⟨27,true,true,false,1,[⟨.leaRegRegReg4,1,0,0⟩,⟨.shlRegImm,0,5,0⟩,⟨.subRegReg,0,1,0⟩,⟨.done,0,0,0⟩]⟩,
   ⟨29,true,true,false,1,[⟨.leaRegRegReg2,1,0,0⟩,⟨.shlRegImm,0,5,0⟩,⟨.subRegReg,0,1,0⟩,⟨.done,0,0,0⟩]⟩,
   ⟨30,false,true,true,1,[⟨.movRegReg,1,0,0⟩,⟨.addRegReg,0,0,0⟩,⟨.shlRegImm,1,5,0⟩,⟨.subRegReg,1,0,0⟩,⟨.done,1,0,0⟩]⟩,
   ⟨31,false,false,true,1,[⟨.movRegReg,1,0,0⟩,⟨.shlRegImm,1,5,0⟩,⟨.subRegReg,1,0,0⟩,⟨.done,1,0,0⟩]⟩,
   ⟨33,false,false,true,1,[⟨.movRegReg,1,0,0⟩,⟨.shlRegImm,1,5,0⟩,⟨.addRegReg,1,0,0⟩,⟨.done,1,0,0⟩]⟩,
   ⟨34,false,true,true,1,[⟨.movRegReg,1,0,0⟩,⟨.addRegReg,0,0,0⟩,⟨.shlRegImm,1,5,0⟩,⟨.addRegReg,1,0,0⟩,⟨.done,1,0,0⟩]⟩,
   ⟨35,false,true,false,1,[⟨.leaRegRegReg2,1,0,0⟩,⟨.shlRegImm,0,5,0⟩,⟨.addRegReg,1,0,0⟩,⟨.done,1,0,0⟩]⟩,
   ⟨36,false,false,true,1,[⟨.movRegReg,1,0,0⟩,⟨.shlRegImm,1,5,0⟩,⟨.leaRegRegReg4,1,1,0⟩,⟨.done,1,0,0⟩]⟩,
   ⟨37,false,true,false,1,[⟨.leaRegRegReg4,1,0,0⟩,⟨.shlRegImm,0,5,0⟩,⟨.addRegReg,1,0,0⟩,⟨.done,1,0,0⟩]⟩,
   ⟨41,false,true,false,1,[⟨.leaRegRegReg8,1,0,0⟩,⟨.shlRegImm,0,5,0⟩,⟨.addRegReg,1,0,0⟩,⟨.done,1,0,0⟩]⟩,
   ⟨45,true,false,false,1,[⟨.leaRegRegReg4,1,0,0⟩,⟨.leaRegRegReg8,1,1,1⟩,⟨.done,1,0,0⟩]⟩,
   ⟨49,false,false,true,1,[⟨.leaRegRegReg4,1,0,0⟩,⟨.leaRegRegReg8,1,1,1⟩,⟨.leaRegRegReg4,1,1,0⟩,⟨.done,1,0,0⟩]⟩,
   ⟨51,false,false,false,1,[⟨.leaRegRegReg4,1,0,0⟩,⟨.leaRegRegReg4,1,1,1⟩,⟨.addRegReg,1,1,0⟩,⟨.addRegReg,1,0,0⟩,
     ⟨.done,1,0,0⟩]⟩,
   ⟨52,false,false,false,1,[⟨.leaRegRegReg4,1,0,0⟩,⟨.leaRegRegReg4,1,1,1⟩,⟨.addRegReg,1,1,0⟩,⟨.addRegReg,1,0,0⟩,
     ⟨.addRegReg,1,0,0⟩,⟨.done,1,0,0⟩]⟩,
   ⟨53,false,false,true,1,[⟨.leaRegRegReg4,1,0,0⟩,⟨.leaRegRegReg8,1,1,1⟩,⟨.leaRegRegReg8,1,1,0⟩,⟨.done,1,0,0⟩]⟩,
   ⟨54,false,false,true,1,[⟨.leaRegRegReg4,1,0,0⟩,⟨.leaRegRegReg4,1,1,1⟩,⟨.addRegReg,1,1,0⟩,⟨.leaRegRegReg4,1,1,0⟩,
     ⟨.done,1,0,0⟩]⟩,
   ⟨55,false,true,false,1,[⟨.leaRegRegReg8,1,0,0⟩,⟨.shlRegImm,0,6,0⟩,⟨.subRegReg,0,1,0⟩,⟨.done,0,0,0⟩]⟩,
   ⟨59,false,true,false,1,[⟨.leaRegRegReg4,1,0,0⟩,⟨.shlRegImm,0,6,0⟩,⟨.subRegReg,0,1,0⟩,⟨.done,0,0,0⟩]⟩,
   ⟨61,false,true,false,1,[⟨.leaRegRegReg2,1,0,0⟩,⟨.shlRegImm,0,6,0⟩,⟨.subRegReg,0,1,0⟩,⟨.done,0,0,0⟩]⟩,
   ⟨67,false,true,false,1,[⟨.leaRegRegReg2,1,0,0⟩,⟨.shlRegImm,0,6,0⟩,⟨.addRegReg,0,1,0⟩,⟨.done,0,0,0⟩]⟩,
   ⟨69,false,true,false,1,[⟨.leaRegRegReg4,1,0,0⟩,⟨.shlRegImm,0,6,0⟩,⟨.addRegReg,0,1,0⟩,⟨.done,0,0,0⟩]⟩,
   ⟨70,false,true,false,1,[⟨.leaRegRegReg2,1,0,0⟩,⟨.shlRegImm,0,6,0⟩,⟨.addRegReg,0,1,0⟩,⟨.addRegReg,0,1,0⟩,
     ⟨.done,0,0,0⟩]⟩,
   ⟨73,false,true,false,1,[⟨.leaRegRegReg8,1,0,0⟩,⟨.shlRegImm,0,6,0⟩,⟨.addRegReg,0,1,0⟩,⟨.done,0,0,0⟩]⟩,
   ⟨74,false,true,false,1,[⟨.leaRegRegReg4,1,0,0⟩,⟨.shlRegImm,0,6,0⟩,⟨.addRegReg,0,1,0⟩,⟨.addRegReg,0,1,0⟩,
     ⟨.done,0,0,0⟩]⟩,
   ⟨75,true,false,true,1,[⟨.leaRegRegReg4,1,0,0⟩,⟨.leaRegRegReg4,1,1,1⟩,⟨.leaRegRegReg2,1,1,1⟩,⟨.done,1,0,0⟩]⟩,
   ⟨79,false,false,false,1,[⟨.leaRegRegReg4,1,0,0⟩,⟨.shlRegImm,1,4,0⟩,⟨.subRegReg,1,0,0⟩,⟨.done,1,0,0⟩]⟩,
   ⟨81,true,false,false,1,[⟨.leaRegRegReg8,1,0,0⟩,⟨.leaRegRegReg8,1,1,1⟩,⟨.done,1,0,0⟩]⟩,
   ⟨82,false,false,false,1,[⟨.leaRegRegReg8,1,0,0⟩,⟨.leaRegRegReg8,1,1,1⟩,⟨.addRegReg,1,0,0⟩,⟨.done,1,0,0⟩]⟩,
   ⟨83,false,false,false,1,[⟨.leaRegRegReg8,1,0,0⟩,⟨.leaRegRegReg8,1,1,1⟩,⟨.addRegReg,1,0,0⟩,⟨.addRegReg,1,0,0⟩,
     ⟨.done,1,0,0⟩]⟩,
   ⟨90,false,false,false,1,[⟨.leaRegRegReg8,1,0,0⟩,⟨.addRegReg,1,0,0⟩,⟨.leaRegRegReg8,1,1,1⟩,⟨.done,1,0,0⟩]⟩,
   ⟨99,false,true,false,1,[⟨.leaRegRegReg8,1,0,0⟩,⟨.addRegReg,0,0,0⟩,⟨.addRegReg,1,0,0⟩,⟨.leaRegRegReg8,1,1,1⟩,
     ⟨.done,1,0,0⟩]⟩,
   ⟨102,false,false,false,1,[⟨.movRegReg,1,0,0⟩,⟨.shlRegImm,1,5,0⟩,⟨.addRegReg,1,0,0⟩,⟨.addRegReg,1,0,0⟩,
     ⟨.leaRegRegReg2,1,1,1⟩,⟨.done,1,0,0⟩]⟩,
   ⟨125,false,true,false,1,[⟨.leaRegRegReg2,1,0,0⟩,⟨.shlRegImm,0,7,0⟩,⟨.subRegReg,0,1,0⟩,⟨.done,0,0,0⟩]⟩,
   ⟨225,true,false,true,1,[⟨.leaRegRegReg4,1,0,0⟩,⟨.leaRegRegReg4,1,1,1⟩,⟨.leaRegRegReg8,1,1,1⟩,⟨.done,1,0,0⟩]⟩,
   ⟨243,true,false,true,1,[⟨.leaRegRegReg8,1,0,0⟩,⟨.leaRegRegReg8,1,1,1⟩,⟨.leaRegRegReg2,1,1,1⟩,⟨.done,1,0,0⟩]⟩,
   ⟨250,false,true,false,1,[⟨.leaRegRegReg2,1,0,0⟩,⟨.addRegReg,1,1,0⟩,⟨.shlRegImm,0,8,0⟩,⟨.subRegReg,0,1,0⟩,
     ⟨.done,0,0,0⟩]⟩,
   ⟨341,false,false,true,1,[⟨.leaRegRegReg8,1,0,0⟩,⟨.addRegReg,1,1,0⟩,⟨.addRegReg,1,0,0⟩,⟨.addRegReg,1,1,0⟩,
     ⟨.leaRegRegReg8,1,1,1⟩,⟨.subRegReg,1,0,0⟩,⟨.done,1,0,0⟩]⟩,
   ⟨342,false,false,true,1,[⟨.leaRegRegReg8,1,0,0⟩,⟨.addRegReg,1,1,0⟩,⟨.addRegReg,1,0,0⟩,⟨.addRegReg,1,1,0⟩,
     ⟨.leaRegRegReg8,1,1,1⟩,⟨.done,1,0,0⟩]⟩,
   ⟨365,false,true,true,1,[⟨.leaRegRegReg8,1,0,0⟩,⟨.shlRegImm,0,6,0⟩,⟨.addRegReg,1,0,0⟩,⟨.leaRegRegReg4,1,1,1⟩,
     ⟨.done,1,0,0⟩]⟩,
   ⟨375,false,true,true,1,[⟨.leaRegRegReg2,1,0,0⟩,⟨.shlRegImm,0,7,0⟩,⟨.subRegReg,0,1,0⟩,⟨.leaRegRegReg2,0,0,0⟩,
     ⟨.done,0,0,0⟩]⟩,
   ⟨405,true,false,true,1,[⟨.leaRegRegReg8,1,0,0⟩,⟨.leaRegRegReg8,1,1,1⟩,⟨.leaRegRegReg4,1,1,1⟩,⟨.done,1,0,0⟩]⟩,
   ⟨487,false,true,true,1,[⟨.leaRegRegReg4,1,0,0⟩,⟨.shlRegImm,0,9,0⟩,⟨.leaRegRegReg4,1,1,1⟩,⟨.subRegReg,0,1,0⟩,
     ⟨.done,0,0,0⟩]⟩,
   ⟨500,false,true,false,1,[⟨.leaRegRegReg2,1,0,0⟩,⟨.addRegReg,1,1,0⟩,⟨.addRegReg,1,1,0⟩,⟨.shlRegImm,0,9,0⟩,
     ⟨.subRegReg,0,1,0⟩,⟨.done,0,0,0⟩]⟩,
   ⟨625,false,true,true,1,[⟨.leaRegRegReg2,1,0,0⟩,⟨.shlRegImm,0,7,0⟩,⟨.subRegReg,0,1,0⟩,⟨.leaRegRegReg4,0,0,0⟩,
     ⟨.done,0,0,0⟩]⟩,
   ⟨729,true,false,true,1,[⟨.leaRegRegReg8,1,0,0⟩,⟨.leaRegRegReg8,1,1,1⟩,⟨.leaRegRegReg8,1,1,1⟩,⟨.done,1,0,0⟩]⟩,
   ⟨750,false,true,true,1,[⟨.leaRegRegReg2,1,0,0⟩,⟨.shlRegImm,0,7,0⟩,⟨.subRegReg,0,1,0⟩,⟨.leaRegRegReg2,0,0,0⟩,
     ⟨.addRegReg,0,0,0⟩,⟨.done,0,0,0⟩]⟩,
   ⟨1000,false,true,true,1,[⟨.leaRegReg8,1,0,0⟩,⟨.shlRegImm,0,10,0⟩,⟨.leaRegRegReg2,1,1,1⟩,⟨.subRegReg,0,1,0⟩,
     ⟨.done,0,0,0⟩]⟩,
   ⟨1125,false,true,true,1,[⟨.leaRegRegReg2,1,0,0⟩,⟨.shlRegImm,0,7,0⟩,⟨.subRegReg,0,1,0⟩,⟨.leaRegRegReg8,0,0,0⟩,
     ⟨.done,0,0,0⟩]⟩,
   ⟨1250,false,true,true,1,[⟨.leaRegRegReg2,1,0,0⟩,⟨.shlRegImm,0,7,0⟩,⟨.subRegReg,0,1,0⟩,⟨.leaRegRegReg4,0,0,0⟩,
     ⟨.addRegReg,0,0,0⟩,⟨.done,0,0,0⟩]⟩,
   ⟨1461,false,true,true,1,[⟨.leaRegRegReg4,1,0,0⟩,⟨.shlRegImm,0,9,0⟩,⟨.leaRegRegReg4,1,1,1⟩,⟨.subRegReg,0,1,0⟩,
     ⟨.leaRegRegReg2,0,0,0⟩,⟨.done,0,0,0⟩]⟩,
   ⟨1500,false,true,true,1,[⟨.leaRegRegReg2,1,0,0⟩,⟨.addRegReg,1,1,0⟩,⟨.addRegReg,1,1,0⟩,⟨.shlRegImm,0,9,0⟩,
     ⟨.subRegReg,0,1,0⟩,⟨.leaRegRegReg2,0,0,0⟩,⟨.done,0,0,0⟩]⟩,
   ⟨2000,false,true,true,1,[⟨.leaRegReg8,1,0,0⟩,⟨.shlRegImm,0,10,0⟩,⟨.leaRegRegReg2,1,1,1⟩,⟨.subRegReg,0,1,0⟩,
     ⟨.addRegReg,0,0,0⟩,⟨.done,0,0,0⟩]⟩,
   ⟨2250,false,true,true,1,[⟨.leaRegRegReg2,1,0,0⟩,⟨.shlRegImm,0,7,0⟩,⟨.subRegReg,0,1,0⟩,⟨.leaRegRegReg8,0,0,0⟩,
     ⟨.addRegReg,0,0,0⟩,⟨.done,0,0,0⟩]⟩,
   ⟨2500,false,true,true,1,[⟨.leaRegRegReg2,1,0,0⟩,⟨.addRegReg,1,1,0⟩,⟨.addRegReg,1,1,0⟩,⟨.shlRegImm,0,9,0⟩,
     ⟨.subRegReg,0,1,0⟩,⟨.leaRegRegReg4,0,0,0⟩,⟨.done,0,0,0⟩]⟩,
   ⟨4500,false,true,true,1,[⟨.leaRegRegReg2,1,0,0⟩,⟨.addRegReg,1,1,0⟩,⟨.addRegReg,1,1,0⟩,⟨.shlRegImm,0,9,0⟩,
     ⟨.subRegReg,0,1,0⟩,⟨.leaRegRegReg8,0,0,0⟩,⟨.done,0,0,0⟩]⟩,
   ⟨8189,false,true,false,1,[⟨.leaRegRegReg2,1,0,0⟩,⟨.shlRegImm,0,13,0⟩,⟨.subRegReg,0,1,0⟩,⟨.done,0,0,0⟩]⟩,
   ⟨8195,false,true,false,1,[⟨.leaRegRegReg2,1,0,0⟩,⟨.shlRegImm,0,13,0⟩,⟨.addRegReg,1,0,0⟩,⟨.done,1,0,0⟩]⟩]

def maxNumComponents : Nat := 10

def numConstsDecomposed : Nat := 100

-- The entries after the last one that is written out are zero.
def solutionTable : List IntegerMultiplyComposition :=
  integerMultiplySolutions ++
    List.replicate (numConstsDecomposed - integerMultiplySolutions.length) ⟨0,false,false,false,0,[]⟩

-- Components that are not written out are zero, and zero is the code of shlRegImm.
def allComponents (composition : IntegerMultiplyComposition) : List ComponentOperation :=
  composition.components ++ List.replicate (maxNumComponents - composition.components.length) ⟨.shlRegImm,0,0,0⟩

inductive Instruction where
  | movRegReg (target source : Nat)
  | addRegReg (target source : Nat)
  | subRegReg (target source : Nat)
  | shlRegImm1 (target immediate : Nat)
  | leaRegMem (target : Nat) (base : Option Nat) (index stride : Nat)
  | negReg (target : Nat)
  deriving DecidableEq, Repr

-- What the decomposer is given and what it asks the code generator and the machine.
structure Site where
  multiplier : Int
  nodeIs64Bit : Bool
  canClobberSource : Bool
  numLiveRegs : Int
  numGPRRegs : Int
  disableIntMulDecomp : Bool
  shiftsQuickly : Bool
  childRegister : Nat
  canClobberChild : Bool
  deriving DecidableEq, Repr

structure CodeState where
  sourceRegister : Option Nat
  nextRegister : Nat
  tempRegArray : Option (List Nat)
  instructions : List Instruction
  stopped : List Nat
  deriving DecidableEq, Repr

def width (site : Site) : Nat := if site.nodeIs64Bit then 64 else 32

def emit (s : CodeState) (i : Instruction) : CodeState := { s with instructions := s.instructions ++ [i] }

def emitAll (s : CodeState) (is : List Instruction) : CodeState := { s with instructions := s.instructions ++ is }

def allocateRegister (s : CodeState) : Nat × CodeState := (s.nextRegister,{ s with nextRegister := s.nextRegister + 1 })

def stopUsingRegister (s : CodeState) (register : Nat) : CodeState := { s with stopped := s.stopped ++ [register] }

-- allocateRegister, and the entry of the new register in tempRegArray unless that is null.
def allocateTemp (s : CodeState) : Nat × CodeState :=
  let (temp,s) := allocateRegister s
  (temp,{ s with tempRegArray := s.tempRegArray.map (· ++ [temp]) })

def gprClobberEvaluate (site : Site) (s : CodeState) : Nat × CodeState :=
  if site.canClobberChild then (site.childRegister,s)
  else
    let (targetRegister,s) := allocateRegister s
    (targetRegister,emit s (.movRegReg targetRegister site.childRegister))

-- The test and the copy that precede a sequence that works on the source register.
def clobberableSource (site : Site) (copy : Bool) (s : CodeState) : Nat × CodeState :=
  match s.sourceRegister with
  | some source =>
      if ¬ site.canClobberSource ∧ copy then
        let (temp,s) := allocateTemp s
        (temp,{ emit s (.movRegReg temp source) with sourceRegister := some temp })
      else (source,s)
  | none =>
      let (source,s) := gprClobberEvaluate site s
      (source,{ s with sourceRegister := some source })

def findDecomposition (site : Site) (multiplier : Int) : Option IntegerMultiplyComposition := do
  let composition ← solutionTable.find? fun c => ¬ c.multiplier < multiplier
  if composition.multiplier = multiplier then
    let correction : Int := if site.canClobberSource ∧ composition.sourceDisjointWithFirstRegister then 1 else 0
    let registerCost := composition.numAdditionalRegistersNeeded - correction
    if registerCost ≤ 1 ∨ registerCost < site.numGPRRegs - site.numLiveRegs - 1 then some composition else none
  else none

def allocateTemps : Nat → CodeState → List Nat × CodeState
  | 0,s => ([],s)
  | n+1,s =>
      let (first,s) := allocateTemp s
      let (rest,s) := allocateTemps n s
      (first::rest,s)

-- The instruction of a component; none where the component names a register that the map does not have.
def componentInstruction (registerMap : List Nat) (component : ComponentOperation) : Option Instruction := do
  let target ← registerMap[component.target]?
  match component.operation with
  | .shlRegImm => some (.shlRegImm1 target component.baseOrImmed)
  | .addRegReg => return .addRegReg target (← registerMap[component.baseOrImmed]?)
  | .subRegReg => return .subRegReg target (← registerMap[component.baseOrImmed]?)
  | .movRegReg => return .movRegReg target (← registerMap[component.baseOrImmed]?)
  | .leaRegReg2 => return .leaRegMem target none (← registerMap[component.index]?) 1
  | .leaRegReg4 => return .leaRegMem target none (← registerMap[component.index]?) 2
  | .leaRegReg8 => return .leaRegMem target none (← registerMap[component.index]?) 3
  | .leaRegRegReg => return .leaRegMem target (← registerMap[component.baseOrImmed]?) (← registerMap[component.index]?) 0
  | .leaRegRegReg2 => return .leaRegMem target (← registerMap[component.baseOrImmed]?) (← registerMap[component.index]?) 1
  | .leaRegRegReg4 => return .leaRegMem target (← registerMap[component.baseOrImmed]?) (← registerMap[component.index]?) 2
  | .leaRegRegReg8 => return .leaRegMem target (← registerMap[component.baseOrImmed]?) (← registerMap[component.index]?) 3
  | .done => none

-- stopUsingRegister for every register of the sequence but the target.
def stopOthers (site : Site) (registerMap : List Nat) (component : ComponentOperation) (s : CodeState) : CodeState :=
  let source := registerMap.headD 0
  let s := if component.target ≠ 0 ∧ source ≠ site.childRegister then stopUsingRegister s source else s
  ((registerMap.zipIdx).tail.filter (·.2 ≠ component.target)).foldl (fun s r => stopUsingRegister s r.1) s

-- The outer none is the use of an undefined register, the inner one the NULL after the last component.
def generateComponents (site : Site) (registerMap : List Nat) :
    List ComponentOperation → CodeState → Option (Option Nat × CodeState)
  | [],s => some (none,s)
  | component::rest,s =>
      if component.operation = .done then do
        let target ← registerMap[component.target]?
        some (some target,stopOthers site registerMap component s)
      else do
        let i ← componentInstruction registerMap component
        generateComponents site registerMap rest (emit s i)

def generateDecompositionInstructions (site : Site) (composition : IntegerMultiplyComposition) (s : CodeState) :
    Option (Option Nat × CodeState) :=
  let (source,s) :=
    if composition.mustClobberSource then clobberableSource site true s
    else match s.sourceRegister with
      | some source => (source,s)
      | none => (site.childRegister,{ s with sourceRegister := some site.childRegister })
  let (temps,s) := allocateTemps composition.numAdditionalRegistersNeeded s
  generateComponents site (source::temps) (allComponents composition) s

-- NEGReg of the target when _multiplier != absMultiplier.
def negateTarget (site : Site) (absMultiplier : Int) (target : Nat) (s : CodeState) : CodeState :=
  if site.multiplier ≠ absMultiplier then emit s (.negReg target) else s

def shiftInstructions (site : Site) (target shiftAmount : Nat) : List Instruction :=
  if shiftAmount < 3 ∧ ¬ site.shiftsQuickly then List.replicate shiftAmount (.addRegReg target target)
  else [.shlRegImm1 target shiftAmount]

open BitCounts (trailingZeroes leadingZeroes populationCount)

def sumInstructions (absMultiplier : BitVec 64) (target source : Nat) : List Instruction :=
  if absMultiplier &&& 1 ≠ 0 then
    [.shlRegImm1 target (trailingZeroes (absMultiplier - 1)),.addRegReg target source]
  else if absMultiplier &&& 2 ≠ 0 then
    [.shlRegImm1 target (trailingZeroes (absMultiplier - 2)),.addRegReg source source,.addRegReg target source]
  else if absMultiplier &&& 4 ≠ 0 then
    [.shlRegImm1 target (trailingZeroes (absMultiplier - 4)),.addRegReg source source,.addRegReg source source,
      .addRegReg target source]
  else
    let shiftAmount := trailingZeroes absMultiplier
    [.shlRegImm1 target shiftAmount,.shlRegImm1 source (trailingZeroes (absMultiplier - 1#64 <<< shiftAmount)),
      .addRegReg target source]

def differenceInstructions (absMultiplier : BitVec 64) (target source : Nat) : List Instruction :=
  if absMultiplier &&& 1 ≠ 0 then
    [.shlRegImm1 target (trailingZeroes (absMultiplier + 1)),.subRegReg target source]
  else if absMultiplier &&& 2 ≠ 0 then
    [.shlRegImm1 target (trailingZeroes (absMultiplier + 2)),.addRegReg source source,.subRegReg target source]
  else if absMultiplier &&& 4 ≠ 0 then
    [.shlRegImm1 target (trailingZeroes (absMultiplier + 4)),.addRegReg source source,.addRegReg source source,
      .subRegReg target source]
  else
    let shiftAmount := trailingZeroes absMultiplier
    [.shlRegImm1 source shiftAmount,.shlRegImm1 target (trailingZeroes (absMultiplier + 1#64 <<< shiftAmount)),
      .subRegReg target source]

-- The frame that the sum and the difference of two powers of two share.
def twoPowers (site : Site) (absMultiplier : Int) (body : BitVec 64 → Nat → Nat → List Instruction) (s : CodeState) :
    Nat × CodeState :=
  let bits := BitVec.ofInt 64 absMultiplier
  let (source,s) := clobberableSource site (bits &&& 1 = 0) s
  let (target,s) := allocateTemp s
  let s := emitAll (emit s (.movRegReg target source)) (body bits target source)
  (target,s)

def releaseSource (site : Site) (s : CodeState) : CodeState :=
  match s.sourceRegister with
  | some source => if source ≠ site.childRegister then stopUsingRegister s source else s
  | none => s

def decomposeIntegerMultiplier (site : Site) (s : CodeState) : Option (Option Nat × CodeState) :=
  let absMultiplier := if site.multiplier < 0 then wrap 64 (-site.multiplier) else site.multiplier
  if site.disableIntMulDecomp ∧ absMultiplier ≠ 3 ∧ absMultiplier ≠ 5 ∧ absMultiplier ≠ 9 ∧
      PowerOfTwo.isPowerOf2 64 absMultiplier = false then some (none,s)
  else
    match findDecomposition site absMultiplier with
    | some composition =>
        match generateDecompositionInstructions site composition s with
        | none => none
        | some (none,s) => if site.multiplier ≠ absMultiplier then none else some (none,s)
        | some (some target,s) => some (some target,negateTarget site absMultiplier target s)
    | none =>
        let bits := BitVec.ofInt 64 absMultiplier
        let shiftAmount := trailingZeroes bits
        match (findDecomposition site (bits >>> (shiftAmount % 64)).toInt).filter
            (fun composition => ¬ composition.subsequentShiftTooExpensive) with
        | some composition =>
            match generateDecompositionInstructions site composition s with
            | some (some target,s) =>
                some (some target,negateTarget site absMultiplier target (emitAll s (shiftInstructions site target shiftAmount)))
            | _ => none
        | none =>
            let onesCount := populationCount bits
            if onesCount = 2 then
              let (target,s) := twoPowers site absMultiplier sumInstructions s
              some (some target,releaseSource site (negateTarget site absMultiplier target s))
            else if onesCount + trailingZeroes bits + leadingZeroes bits = 64 then
              let (target,s) := twoPowers site absMultiplier differenceInstructions s
              some (some target,negateTarget site absMultiplier target (releaseSource site s))
            else some (none,s)

end OmrCompiler.Multiply
