import OmrCompiler.MaskArithmetic
import OmrCompiler.PowerOfTwo
import OmrCompiler.ShiftSimplifier
import OmrCompiler.SimplifierNodes

/-! The amount of a shift: its reduction below the width, the shifts it makes superfluous, and the
shifts to the left that become multiplications. -/
namespace OmrCompiler.ShiftAmounts
open MachineInt SharedGraph ReferenceBalance SimplifierTrees SimplifierNodes ShiftSimplifier
open MaskArithmetic (word wordReads)
open PowerOfTwo (ofIntWrap toIntWrap)

section Words
variable {w k l r n : Nat} {x y : Int}

theorem unsignedWrap (w : Nat) (x : Int) : toUnsigned w (wrap w x) = toUnsigned w x := by
  obtain ⟨k,turns⟩ := wrapShift w x
  rw [turns,toUnsigned,toUnsigned,Int.add_mul_emod_self_right]

theorem powSplit (short : k ≤ w) : modulus w = 2 ^ k * 2 ^ (w - k) := by
  rw [modulus,← Int.pow_add]
  congr 1
  omega

-- The low bits are read before or after the value is cut to its width.
theorem lowWrap (short : k ≤ w) (x : Int) : wrap w x % 2 ^ k = x % 2 ^ k := by
  obtain ⟨j,turns⟩ := wrapShift w x
  rw [turns,powSplit short,Int.mul_comm (2 ^ k),← Int.mul_assoc,Int.add_mul_emod_self_right]

theorem lowUnsigned (short : k ≤ w) (x : Int) : toUnsigned w x % 2 ^ k = x % 2 ^ k := by
  rw [toUnsigned,powSplit short]
  exact Int.emod_emod_of_dvd x (Int.dvd_mul_right _ _)

theorem andLow (short : k ≤ w) (x : Int) : (BitVec.ofInt w x &&& BitVec.ofInt w (2 ^ k - 1)).toInt = wrap w (x % 2 ^ k) := by
  have small : (2 : Nat) ^ k ≤ 2 ^ w := Nat.pow_le_pow_right (by decide) short
  have pos : 0 < 2 ^ k := Nat.two_pow_pos k
  have cast : ((2 ^ k - 1 : Nat) : Int) = 2 ^ k - 1 := by
    rw [Int.natCast_sub pos]
    simp
  have mask : (BitVec.ofInt w (2 ^ k - 1)).toNat = 2 ^ k - 1 := by
    rw [← cast]
    exact PowerOfTwo.ofIntToNat (by omega)
  have reads : ((BitVec.ofInt w x).toNat : Int) = toUnsigned w x := wordReads w x
  rw [toIntWrap,BitVec.toNat_and,mask,Nat.and_two_pow_sub_one_eq_mod]
  push_cast
  rw [reads,lowUnsigned short]

theorem shiftByLow {w : Nat} (wide : w = 2 ^ k) (long : 32 ≤ w) (y : Int) : shiftBy w y = (y % 2 ^ k).toNat := by
  rw [shiftBy,Nat.max_eq_left long,wide]
  push_cast
  rfl

-- A shift to the left and back leaves the low bits.
theorem shiftBack (short : l ≤ r) (fits : r ≤ w) (x : Int) :
    toUnsigned w (wrap w (x * 2 ^ l)) / 2 ^ r = x % 2 ^ (w - l) / 2 ^ (r - l) := by
  have pos : (0 : Int) < 2 ^ l := Int.pow_pos (by decide)
  have split : (2 : Int) ^ r = 2 ^ l * 2 ^ (r - l) := by
    rw [← Int.pow_add]
    congr 1
    omega
  rw [unsignedWrap,toUnsigned,powSplit (Nat.le_trans short fits),Int.mul_comm x,Int.mul_emod_mul_of_pos _ _ pos,split,
    Int.mul_ediv_mul_of_pos _ _ pos]

theorem evalAmount {op : BinaryOp} (isShift : op.isShift = true) (same : shiftBy w x = shiftBy w y) (z : Int) : op.eval w z x = op.eval w z y := by
  cases op <;> simp [BinaryOp.isShift] at isShift <;> simp only [BinaryOp.eval,same]

end Words

section Amounts
variable {others : DataType → Nat → List Int → Int} {g g' : Trees} {roots : Nat → Nat} {node f s : Nat} {op : BinaryOp} {t : DataType} {u : Bool}

-- A shift at a word type, with its operands.
structure Shifts (g : Trees) (roots : Nat → Nat) (node f s : Nat) (op : BinaryOp) (t : DataType) (u : Bool) : Prop where
  formed : WellFormed g roots
  live : 0 < g.referenceCount node
  two : g.children node = [f,s]
  isOp : opCode g node = .binary op t u
  isShift : op.isShift = true
  typeF : (opCode g f).type = t
  typeS : (opCode g s).type = .Int32
  word : t = .Int32 ∨ t = .Int64

namespace Shifts
variable (i : Shifts g roots node f s op t u)
include i

theorem reads : getFirstChild g node = f ∧ getSecondChild g node = s := by simp [getFirstChild,getSecondChild,i.two]

theorem first : Operand g node f := operandOf i.formed i.live (by simp [i.two])

theorem second : Operand g node s := operandOf i.formed i.live (by simp [i.two])

theorem values {v : Int} (evaluates : Evaluates (meaning others) g node v) :
    ∃ x y, Evaluates (meaning others) g f x ∧ Evaluates (meaning others) g s y ∧ v = wrap t.bits (op.eval t.bits x y) :=
  binaryOperands evaluates i.two i.isOp

theorem amount (isConst : isLoadConst g s = true) : Evaluates (meaning others) g s (getInt g s) := by
  have value := @constValue others g roots s i.formed i.second.live isConst
  rw [i.typeS] at value
  exact value

theorem long : 32 ≤ t.bits := by
  rcases i.word with rfl | rfl
  · exact Nat.le_refl 32
  · decide

theorem wide : ∃ k, t.bits = 2 ^ k ∧ t.bits ≤ 64 ∧ shiftMask t + 1 = t.bits := by
  rcases i.word with rfl | rfl
  · exact ⟨5,rfl,by decide,rfl⟩
  · exact ⟨6,rfl,by decide,rfl⟩

theorem amountReads : amountOf g node t = shiftBy t.bits (getInt g s) := by
  obtain ⟨k,_,_,mask⟩ := i.wide
  rw [amountOf,i.reads.2,masked,mask,shiftBy,Nat.max_eq_left i.long]

theorem otherConst {c : Nat} (isConst : isLoadConst g c = true) : node ≠ c := by
  rintro rfl
  rw [isLoadConst,i.isOp] at isConst
  cases isConst

end Shifts

theorem frameRefl : Frame (meaning others) g g node [] := ⟨fun _ _ _ _ => ⟨fun _ => rfl,rfl⟩,by simp⟩

-- What the normalization of a constant amount leaves.
structure Normalized (others : DataType → Nat → List Int → Int) (g g' : Trees) (roots : Nat → Nat) (node f s s' : Nat) (op : BinaryOp) (t : DataType)
    (u : Bool) (mutated : List Nat) : Prop where
  shifts : Shifts g' roots node f s' op t u
  frame : Frame (meaning others) g g' node mutated
  fixed : f ∉ mutated
  payload : g'.payload node = g.payload node
  amount : ∀ y, Evaluates (meaning others) g s y → ∃ y', Evaluates (meaning others) g' s' y' ∧ shiftBy t.bits y' = shiftBy t.bits y

theorem shiftByMasked (i : Shifts g roots node f s op t u) : shiftBy t.bits (wrap 32 (masked (getInt g s) (shiftMask t))) = shiftBy t.bits (getInt g s) := by
  obtain ⟨k,wide,short,mask⟩ := i.wide
  have low : k ≤ 32 := by
    have := Nat.lt_two_pow_self (n := k)
    by_contra more
    have := Nat.pow_le_pow_right (n := 2) (by decide) (show 33 ≤ k by omega)
    omega
  rw [shiftByLow wide i.long,shiftByLow wide i.long,lowWrap low,masked,mask,wide]
  push_cast
  exact congrArg Int.toNat (Int.emod_emod_of_dvd _ (Int.dvd_refl _))

theorem reducedInPlace (i : Shifts g roots node f s op t u) (isConst : isLoadConst g s = true) (once : g.referenceCount s = 1) :
    Normalized others g (setConst g s (masked (getInt g s) (shiftMask t))) roots node f s s op t u [s] := by
  have other := i.otherConst isConst
  have op' : ∀ m, opCode (setConst g s (masked (getInt g s) (shiftMask t))) m = opCode g m := by
    intro m
    simp only [opCode,setConstPayload]
    split <;> simp [*]
  have none := constChildren i.formed i.second.live isConst
  refine ⟨⟨?_,?_,?_,?_,i.isShift,?_,?_,i.word⟩,⟨fun m _ _ fixed => ?_,fun m on => List.mem_singleton.mp on ▸ consumedSecond i.two once⟩,?_,?_,fun y evaluates => ?_⟩
  · refine WellFormed.edited i.formed [] ?_ (fun m _ => by rw [op']) (fun m _ live => ?_) (by simp)
    · exact ((Balanced.ofCounted i.formed.counted).setPayload _).counted fun _ => Int.le_refl _
    · rw [setConstCount] at live
      exact ⟨live,op' m,setConstChildren g s m _⟩
  · simpa using i.live
  · simpa using i.two
  · rw [op',i.isOp]
  · rw [op',i.typeF]
  · rw [op',i.typeS]
  · have other : m ≠ s := fun same => fixed (by simp [same])
    simp [other]
  · simpa using distinctOnce i.formed i.live i.two once
  · simp [other]
  · have made := @constMade others (setConst g s (masked (getInt g s) (shiftMask t))) s (by simpa using none) (by rw [isLoadConst,op']; exact isConst)
    rw [op',i.typeS,setConstPayload,if_pos rfl] at made
    exact ⟨_,made,(shiftByMasked i).trans (congrArg _ ((i.amount isConst).unique evaluates))⟩

-- The amount is another node now, which only this shift uses.
def reduceApart (g : Trees) (node s : Nat) (value : Int) : Trees :=
  setConst ((create (g.decReferenceCount s) iconst 0).setAndIncChild node 1 g.size) g.size value

theorem apartPayload (value : Int) (m : Nat) : (reduceApart g node s value).payload m = if m = g.size then ⟨iconst,value,false⟩ else g.payload m := by
  by_cases here : m = g.size
  · simp [reduceApart,here]
  · simp [reduceApart,here]

theorem apartCount (value : Int) (m : Nat) : (reduceApart g node s value).referenceCount m =
    if m = g.size then 1 else if m = s then g.referenceCount s - 1 else g.referenceCount m := by
  by_cases here : m = g.size
  · simp [reduceApart,here]
  · simp [reduceApart,here]

section Apart
variable (i : Shifts g roots node f s op t u) (value : Int)
include i

theorem apartChildren (m : Nat) : (reduceApart g node s value).children m = if m = node then [f,g.size] else if m = g.size then [] else g.children m := by
  have inside := i.formed.counted.allocated i.live
  have before := Nat.ne_of_lt inside
  by_cases here : m = node
  · simp [reduceApart,here,before,i.two,NodeGraph.setAt]
  · simp [reduceApart,here]

theorem apartBalanced (other : node ≠ s) (shared : g.referenceCount s ≠ 1) : Counted (reduceApart g node s value) roots := by
  have inside := i.formed.counted.allocated i.live
  have before := Nat.ne_of_lt inside
  have dropped := (Balanced.ofCounted i.formed.counted).dec i.second.live
  have liveNode : 0 < ((g.decReferenceCount s).create ⟨iconst,0,false⟩).referenceCount node := by
    rw [createCount,decSize,if_neg before,decCount,if_neg other]
    exact i.live
  have placed := (dropped.create ⟨iconst,0,false⟩).setAndInc (c := g.size) 1 liveNode (by simp) (.inr (by simp))
  refine (placed.setPayload _).counted fun m => ?_
  simp only [createChildren,decSize,decChildren,if_neg before,i.two,NodeGraph.setAtSecond,if_neg shared,List.count_cons,List.count_nil,beq_iff_eq]
  split_ifs <;> omega

theorem apartNormalized (isConst : isLoadConst g s = true) (shared : g.referenceCount s ≠ 1) :
    Normalized others g (reduceApart g node s (masked (getInt g s) (shiftMask t))) roots node f s g.size op t u [] := by
  have inside := i.formed.counted.allocated i.live
  have insideF := i.formed.counted.allocated i.first.live
  have insideS := i.formed.counted.allocated i.second.live
  have other := i.otherConst isConst
  have op' : ∀ m < g.size, opCode (reduceApart g node s (masked (getInt g s) (shiftMask t))) m = opCode g m := by
    intro m before
    rw [opCode,apartPayload,if_neg (Nat.ne_of_lt before),opCode]
  have opNew : opCode (reduceApart g node s (masked (getInt g s) (shiftMask t))) g.size = iconst := by rw [opCode,apartPayload,if_pos rfl]
  have two : (reduceApart g node s (masked (getInt g s) (shiftMask t))).children node = [f,g.size] := by rw [apartChildren i,if_pos rfl]
  have none : (reduceApart g node s (masked (getInt g s) (shiftMask t))).children g.size = [] := by
    rw [apartChildren i,if_neg (Nat.ne_of_gt inside),if_pos rfl]
  refine ⟨⟨?_,?_,two,?_,i.isShift,?_,?_,i.word⟩,⟨fun m before away _ => ?_,by simp⟩,by simp,?_,fun y evaluates => ?_⟩
  · refine WellFormed.edited i.formed [node,g.size] (apartBalanced i _ other shared) (fun m before => by rw [op' m before]) (fun m fixed live => ?_)
      fun m on types fixed => ?_
    · simp only [List.mem_cons,List.not_mem_nil,or_false,not_or] at fixed
      rw [apartCount,if_neg fixed.2] at live
      have alive : 0 < g.referenceCount m := by
        split at live
        · rename_i same
          rw [same]
          exact i.second.live
        · exact live
      have before := i.formed.counted.allocated alive
      exact ⟨alive,op' m before,by rw [apartChildren i,if_neg fixed.1,if_neg fixed.2]⟩
    · simp only [List.mem_cons,List.not_mem_nil,or_false] at on
      rcases on with rfl | rfl
      · rw [op' m inside,i.isOp,OpCode.operands,i.isShift,if_pos rfl,Option.some.injEq] at fixed
        rw [two,← fixed,List.map_cons,List.map_cons,List.map_nil,op' f insideF,i.typeF,opNew]
        rfl
      · rw [opNew,OpCode.operands,Option.some.injEq] at fixed
        rw [none,← fixed,List.map_nil]
  · rw [apartCount,if_neg (Nat.ne_of_lt inside),if_neg other]
    exact i.live
  · rw [op' node inside,i.isOp]
  · rw [op' f insideF,i.typeF]
  · rw [opNew]
    rfl
  · rw [apartPayload,if_neg (Nat.ne_of_lt before),apartChildren i,if_neg away,if_neg (Nat.ne_of_lt before)]
    exact ⟨fun _ => rfl,rfl⟩
  · rw [apartPayload,if_neg (Nat.ne_of_lt inside)]
  · have made := @constMade others _ g.size none (by rw [isLoadConst,opNew]; rfl)
    rw [opNew,apartPayload,if_pos rfl] at made
    exact ⟨_,made,(shiftByMasked i).trans (congrArg _ ((i.amount isConst).unique evaluates))⟩

-- Whatever branch the normalization of a constant amount takes.
theorem normalizedShifts (env : Env) : ∃ s' mutated, Normalized others g (normalizeConstantShiftAmount env g node (shiftMask t)) roots node f s s' op t u mutated := by
  have same : Normalized others g g roots node f s s op t u [] := ⟨i,frameRefl,by simp,rfl,fun y evaluates => ⟨y,evaluates,rfl⟩⟩
  unfold normalizeConstantShiftAmount
  simp only [i.reads.2]
  split
  · rename_i isConst
    split
    · split
      · rename_i shared
        exact ⟨g.size,[],apartNormalized i isConst (by omega)⟩
      · rename_i once
        have live := i.second.live
        exact ⟨s,[s],reducedInPlace i isConst (by omega)⟩
    · exact ⟨s,[],same⟩
  · exact ⟨s,[],same⟩

end Apart

section Steps

theorem Normalized.preserved {s' : Nat} {mutated : List Nat} (i : Shifts g roots node f s op t u)
    (n : Normalized others g g' roots node f s s' op t u mutated) : Preserved (meaning others) g roots node g' node := by
  refine n.frame.preserved i.formed.counted i.live fun v evaluates => ?_
  obtain ⟨x,y,first,second,same⟩ := i.values evaluates
  obtain ⟨y',second',amount⟩ := n.amount y second
  have first' := i.first.kept i.formed i.live evaluates.acyclic n.frame n.fixed first
  rw [same,← evalAmount i.isShift amount]
  exact binaryMade n.shifts.two n.shifts.isOp first' second'

-- A shift by zero.
theorem identityValue (i : Shifts g roots node f s op t u) (identity : isIdentity g node = true) {v : Int} (evaluates : Evaluates (meaning others) g node v) :
    Evaluates (meaning others) g f v := by
  obtain ⟨x,y,first,second,same⟩ := i.values evaluates
  rw [isIdentity,i.reads.2,Bool.and_eq_true,decide_eq_true_eq] at identity
  have zero : y = 0 := by rw [← identity.2,second.unique (i.amount identity.1)]
  have range := valueRange first
  rw [i.typeF] at range
  have kept : wrap t.bits (op.eval t.bits x 0) = x := by
    have none : shiftBy t.bits 0 = 0 := by simp [shiftBy]
    have shift := i.isShift
    cases op <;> simp [BinaryOp.isShift] at shift <;> simp only [BinaryOp.eval,none,Int.pow_zero,Int.mul_one,Int.ediv_one]
    · exact wrapSelf (bitsPos t) range
    · exact wrapSelf (bitsPos t) range
    · rw [wrapUnsigned (Nat.le_refl _)]
      exact wrapSelf (bitsPos t) range
  rw [same,zero,kept]
  exact first

theorem replacedPreserved (env : Env) (i : Shifts g roots node f s op t u) (identity : isIdentity g node = true) :
    Preserved (meaning others) g roots node (ShiftSimplifier.replaceNode env g node (getFirstChild g node)).1
      (ShiftSimplifier.replaceNode env g node (getFirstChild g node)).2 := by
  rw [i.reads.1]
  unfold ShiftSimplifier.replaceNode
  split
  · exact replacePreserved fun v evaluates => identityValue i identity evaluates
  · rw [if_neg (Nat.ne_of_gt i.first.live)]
    exact Preserved.refl _ _ _ _

theorem foldOrNormalizePreserved (env : Env) (i : Shifts g roots node f s op t u) {constant : OpCode} {value : Int} {rest : Trees → Trees × Nat}
    (isConst : constant.isLoadConst = true) (type : constant.type = t)
    (folds : isLoadConst g f = true → isLoadConst g s = true →
      wrap t.bits (op.eval t.bits (wrap t.bits (g.payload f).constValue) (getInt g s)) = wrap t.bits value)
    (next : ∀ g' s', Shifts g' roots node f s' op t u → Preserved (meaning others) g' roots node (rest g').1 (rest g').2) :
    Preserved (meaning others) g roots node (foldOrNormalize env g node t constant value rest).1 (foldOrNormalize env g node t constant value rest).2 := by
  unfold foldOrNormalize
  simp only [i.reads.1,i.reads.2]
  split
  · rename_i constants
    dsimp only [fold]
    split
    · refine foldPreserved i.formed i.live isConst fun v evaluates => ?_
      obtain ⟨x,y,first,second,same⟩ := i.values evaluates
      have valueF := @constValue others g roots f i.formed i.first.live constants.1
      rw [i.typeF] at valueF
      rw [same,first.unique valueF,second.unique (i.amount constants.2),folds constants.1 constants.2,type]
    · exact Preserved.refl _ _ _ _
  · obtain ⟨s',mutated,n⟩ := @normalizedShifts others g roots node f s op t u i env
    refine n.frame.andThen i.formed.counted i.live (n.preserved i) ?_
    have reads := n.shifts.reads.1
    split
    · rename_i identity
      have replaced := @replacedPreserved others _ roots node f s' op t u env n.shifts identity
      exact replaced
    · exact next _ s' n.shifts

end Steps

section Rewrites
variable {v : Int}

theorem multiplierReads (i : Shifts g roots node f s op t u) (other : node ≠ s) :
    (masked (getInt (recreate g node (.binary .mul t false)) s) (shiftMask t)).toNat = shiftBy t.bits (getInt g s) := by
  rw [← i.amountReads,amountOf,i.reads.2,getInt,recreatePayload,if_neg (Ne.symm other),getInt]

-- The product by the power, with the constant the node has now.
theorem multiplied (i : Shifts g roots node f s .shl t u) (isConst : isLoadConst g s = true) {k : Nat} {mutated : List Nat}
    (frame : Frame (meaning others) g g' node mutated) (fixed : f ∉ mutated) (two : g'.children node = [f,k]) (isMul : opCode g' node = .binary .mul t false)
    (power : Evaluates (meaning others) g' k (wrap t.bits (wrap t.bits (2 ^ shiftBy t.bits (getInt g s))))) : Preserved (meaning others) g roots node g' node := by
  refine frame.preserved i.formed.counted i.live fun v evaluates => ?_
  obtain ⟨x,y,first,second,same⟩ := i.values evaluates
  have made := binaryMade two isMul (i.first.kept i.formed i.live evaluates.acyclic frame fixed first) power
  have product : wrap t.bits (x * wrap t.bits (wrap t.bits (2 ^ shiftBy t.bits (getInt g s)))) = v := by
    rw [same,second.unique (i.amount isConst)]
    simp only [wrap,BinaryOp.eval,Int.mul_bmod_bmod]
  rw [← product]
  exact made

theorem multiplyPreserved (i : Shifts g roots node f s .shl t u) (isConst : isLoadConst g s = true) :
    Preserved (meaning others) g roots node (multiplyByPower g node t) node := by
  have other := i.otherConst isConst
  have inside := i.formed.counted.allocated i.live
  have before := Nat.ne_of_lt inside
  have none := constChildren i.formed i.second.live isConst
  have live := i.second.live
  unfold multiplyByPower
  simp only [i.reads.2,multiplierReads i other,recreateCount]
  split
  · refine multiplied i isConst (k := g.size) ⟨fun m old away _ => ?_,by simp⟩ (by simp : f ∉ []) ?_ ?_ ?_
    · have fresh := Nat.ne_of_lt old
      simp [away,fresh]
    · simp [before,i.two]
    · simp [opCode,before]
    · have made := @constMade others (setConst ((create ((recreate g node (.binary .mul t false)).decReferenceCount s) (.const t false) 0).setAndIncChild node 1 g.size)
        g.size (wrap t.bits (2 ^ shiftBy t.bits (getInt g s)))) g.size (by simp [Ne.symm before]) (by simp [isLoadConst,opCode,OpCode.isLoadConst])
      simpa [opCode,OpCode.type] using made
  · rename_i once
    have once : g.referenceCount s = 1 := by omega
    refine multiplied i isConst (k := s) ⟨fun m old away fixed => ?_,fun m on => List.mem_singleton.mp on ▸ consumedSecond i.two once⟩
      (by simpa using distinctOnce i.formed i.live i.two once : f ∉ [s]) ?_ ?_ ?_
    · have apart : m ≠ s := fun same => fixed (by simp [same])
      split <;> simp [away,apart]
    · split <;> simp [i.two]
    · split <;> simp [opCode,other]
    · split
      · rename_i long
        subst long
        have made := @constMade others (setConst (recreate (recreate g node (.binary .mul .Int64 false)) s lconst) s
          (wrap 64 (2 ^ shiftBy 64 (getInt g s)))) s (by simpa using none) (by simp [isLoadConst,opCode,OpCode.isLoadConst])
        simp only [opCode,setConstPayload,recreatePayload,↓reduceIte] at made
        exact made
      · rename_i short
        have int : t = .Int32 := i.word.resolve_right short
        subst int
        have constS : (g.payload s).opCode.isLoadConst = true := isConst
        have typeS : (g.payload s).opCode.type = .Int32 := i.typeS
        have made := @constMade others (setConst (recreate g node (.binary .mul .Int32 false)) s (wrap 32 (2 ^ shiftBy 32 (getInt g s)))) s
          (by simpa using none) (by simp [isLoadConst,opCode,Ne.symm other,constS])
        simp only [opCode,setConstPayload,recreatePayload,↓reduceIte,if_neg (Ne.symm other),typeS] at made
        exact made

-- The amount is and-ed with the mask that its shift reads.
theorem normalizedPreserved (env : Env) (i : Shifts g roots node f s op t u) :
    Preserved (meaning others) g roots node (normalizeShiftAmount env g node (shiftMask t)) node := by
  have before := i.formed.counted.allocated i.live
  have notNew : node ≠ g.size ∧ node ≠ g.size + 1 := by omega
  have insideS := i.formed.counted.allocated i.second.live
  unfold normalizeShiftAmount
  simp only [i.reads.2]
  split
  · generalize made : setNormalizedShift _ node true = g'
    have children : ∀ m, g'.children m = if m = node then [f,g.size + 1] else if m = g.size + 1 then [s,g.size] else if m = g.size then [] else g.children m := by
      intro m
      rw [← made]
      by_cases here : m = node
      · simp [here,notNew,i.two]
      · simp [here]
    have payload : ∀ m, m ≠ node → g'.payload m = if m = g.size + 1 then ⟨iand,0,false⟩ else if m = g.size then ⟨iconst,shiftMask t,false⟩ else g.payload m := by
      intro m away
      rw [← made]
      simp [away]
    have frame : Frame (meaning others) g g' node [] := by
      refine ⟨fun m old away _ => ?_,by simp⟩
      have fresh : m ≠ g.size ∧ m ≠ g.size + 1 := by omega
      rw [children,payload m away]
      simp [away,fresh]
    have isOp : opCode g' node = .binary op t u := by
      rw [← made]
      simpa [opCode,notNew] using i.isOp
    refine frame.preserved i.formed.counted i.live fun v evaluates => ?_
    obtain ⟨x,y,first,second,same⟩ := i.values evaluates
    have first' := i.first.kept i.formed i.live evaluates.acyclic frame (by simp) first
    have second' := i.second.kept i.formed i.live evaluates.acyclic frame (by simp) second
    have new : g.size ≠ node ∧ g.size + 1 ≠ node := by omega
    have mask := @constMade others g' g.size (by rw [children]; simp [new]) (by rw [isLoadConst,opCode,payload _ new.1]; simp [OpCode.isLoadConst])
    rw [opCode,payload _ new.1] at mask
    simp only [Nat.left_eq_add,Nat.succ_ne_self,↓reduceIte] at mask
    have both := @binaryMade others g' (g.size + 1) s g.size .and .Int32 false _ _ (by rw [children]; simp [new]) (by rw [opCode,payload _ new.2]; simp) second' mask
    have whole := binaryMade (by rw [children,if_pos rfl]) isOp first' both
    rw [same]
    rw [evalAmount i.isShift (y := y) ?_] at whole
    · exact whole
    · obtain ⟨k,wide,short,last⟩ := i.wide
      have low : k ≤ 32 := by
        have := Nat.lt_two_pow_self (n := k)
        by_contra more
        have := Nat.pow_le_pow_right (n := 2) (by decide) (show 33 ≤ k by omega)
        omega
      have maskIs : shiftMask t = 2 ^ k - 1 := by
        rw [wide] at last
        push_cast at last
        omega
      have bits : DataType.Int32.bits = 32 := rfl
      have type : OpCode.type iconst = .Int32 := rfl
      rw [BinaryOp.eval,type,bits,ofIntWrap,maskIs,andLow low,shiftByLow wide i.long,shiftByLow wide i.long,lowWrap low,lowWrap low]
      exact congrArg Int.toNat (Int.emod_emod_of_dvd _ (Int.dvd_refl _))
  · exact Preserved.refl _ _ _ _

end Rewrites

end Amounts

end OmrCompiler.ShiftAmounts
