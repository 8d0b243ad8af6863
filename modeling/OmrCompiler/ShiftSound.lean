import OmrCompiler.ShiftAmounts

/-! The handlers of shifts keep the value of the node and of what is used elsewhere. -/
namespace OmrCompiler.ShiftSound
open MachineInt SharedGraph ReferenceBalance SimplifierTrees SimplifierNodes ShiftSimplifier ShiftAmounts
open PowerOfTwo (ofIntWrap)

section Amounts
variable {others : DataType → Nat → List Int → Int} {g g' : Trees} {roots : Nat → Nat} {node f s : Nat} {op : BinaryOp} {t : DataType} {u : Bool}

section Pairs
variable {q c : Nat}

-- A multiplication by the power of two that the shift divides by.
structure Pair (g : Trees) (roots : Nat → Nat) (node f s q c : Nat) (t : DataType) (u : Bool) : Prop where
  shifts : Shifts g roots node f s .ushr t u
  inner : g.children f = [q,c]
  isMul : opCode g f = .binary .mul t false
  constC : opCode g c = .const t false
  constS : opCode g s = iconst
  power : wrap t.bits (g.payload c).constValue = wrap t.bits (2 ^ amountOf g node t)

theorem pairOf (i : Shifts g roots node f s .ushr t u) (found : matchesPower g node t = true) : ∃ q c, Pair g roots node f s q c t u := by
  simp only [matchesPower,i.reads.1,i.reads.2,decide_eq_true_eq] at found
  obtain ⟨constS,isMul,constC,power⟩ := found
  obtain ⟨q,c,inner,_,_⟩ := @binaryChildren g roots f i.formed i.first.live t t (by rw [isMul]; rfl)
  have readC : getSecondChild g f = c := by simp [getSecondChild,inner]
  rw [readC] at constC power
  exact ⟨q,c,i,inner,isMul,constC,constS,power⟩

namespace Pair
variable (p : Pair g roots node f s q c t u)
include p

theorem amountShort : amountOf g node t < t.bits := by
  rw [p.shifts.amountReads,shiftBy,Nat.max_eq_left p.shifts.long]
  have pos : (0 : Int) < t.bits := by exact_mod_cast bitsPos t
  have := Int.emod_lt_of_pos (getInt g s) pos
  have := Int.emod_nonneg (getInt g s) (Int.ne_of_gt pos)
  omega

theorem scaled : Operand g node q := p.shifts.first.step p.shifts.formed (by simp [p.inner])

theorem readsPair : getFirstChild g f = q := by simp [getFirstChild,p.inner]

-- The two shifts leave the low bits of the operand.
theorem value {v : Int} (evaluates : Evaluates (meaning others) g node v) :
    ∃ z, Evaluates (meaning others) g q z ∧ v = wrap t.bits (z % 2 ^ (t.bits - amountOf g node t)) := by
  obtain ⟨x,y,first,second,same⟩ := p.shifts.values evaluates
  obtain ⟨z,k,scaled,const,product⟩ := binaryOperands first p.inner p.isMul
  have isConstS : isLoadConst g s = true := by rw [isLoadConst,p.constS]; rfl
  have isConstC : isLoadConst g c = true := by rw [isLoadConst,p.constC]; rfl
  have liveC : 0 < g.referenceCount c := p.shifts.formed.counted.live p.shifts.first.live (by simp [p.inner])
  have powerOf := @constValue others g roots c p.shifts.formed liveC isConstC
  rw [p.constC] at powerOf
  have amount := second.unique (p.shifts.amount isConstS)
  have short := p.amountShort
  refine ⟨z,scaled,?_⟩
  rw [same,product,amount,const.unique powerOf,show (OpCode.const t false).type = t from rfl,p.power]
  have shifted : wrap t.bits (BinaryOp.mul.eval t.bits z (wrap t.bits (2 ^ amountOf g node t))) = wrap t.bits (z * 2 ^ amountOf g node t) := by
    simp only [wrap,BinaryOp.eval,Int.mul_bmod_bmod]
  rw [shifted,BinaryOp.eval,← p.shifts.amountReads,shiftBack (Nat.le_refl _) (Nat.le_of_lt short),Nat.sub_self,Int.pow_zero,Int.ediv_one]

end Pair

theorem zeroExtensionSpec {env : Env} {r : Nat} {op op' : OpCode} (found : zeroExtension env t op r = some op') :
    ∃ n : DataType, op = .convert n t false ∧ op' = .convert n t true ∧ r + n.bits = t.bits := by
  unfold zeroExtension at found
  split at found
  · obtain ⟨⟨rfl,_⟩,same⟩ := Option.ite_none_right_eq_some.mp found
    cases same
    exact ⟨.Int16,rfl,rfl,rfl⟩
  · obtain ⟨⟨rfl,_⟩,same⟩ := Option.ite_none_right_eq_some.mp found
    cases same
    exact ⟨.Int8,rfl,rfl,rfl⟩
  · obtain ⟨⟨rfl,_⟩,same⟩ := Option.ite_none_right_eq_some.mp found
    cases same
    exact ⟨.Int32,rfl,rfl,rfl⟩
  · obtain ⟨⟨rfl,_⟩,same⟩ := Option.ite_none_right_eq_some.mp found
    cases same
    exact ⟨.Int16,rfl,rfl,rfl⟩
  · obtain ⟨⟨rfl,_⟩,same⟩ := Option.ite_none_right_eq_some.mp found
    cases same
    exact ⟨.Int8,rfl,rfl,rfl⟩
  · cases found

theorem extendedPreserved (p : Pair g roots node f s q c t u) {n : DataType} (extends_ : opCode g q = .convert n t false)
    (fits : amountOf g node t + n.bits = t.bits) : Preserved (meaning others) g roots node (extendByZero g node t (.convert n t true)) node := by
  obtain ⟨d,one,typeD⟩ := @unaryChild g roots q p.shifts.formed p.scaled.live n (by rw [extends_]; rfl)
  have operandD := p.scaled.step p.shifts.formed (d := d) (by simp [one])
  have readD : getFirstChild g q = d := by simp [getFirstChild,one]
  generalize made : extendByZero g node t (.convert n t true) = g'
  have children : ∀ m, g'.children m = if m = node then [d] else g.children m := by
    intro m
    rw [← made]
    simp only [extendByZero,p.shifts.reads.1,p.shifts.reads.2,p.readsPair,readD]
    by_cases here : m = node
    · split <;> simp [here,p.shifts.two]
    · split <;> simp [here]
  have payload : ∀ m, g'.payload m = if m = node then {g.payload node with opCode := .convert n t true} else g.payload m := by
    intro m
    rw [← made]
    simp only [extendByZero]
    split <;> simp
  have frame : Frame (meaning others) g g' node [] := by
    refine ⟨fun m _ away _ => ?_,by simp⟩
    rw [children,payload,if_neg away,if_neg away]
    exact ⟨fun _ => rfl,rfl⟩
  refine frame.preserved p.shifts.formed.counted p.shifts.live fun v evaluates => ?_
  obtain ⟨z,scaled,same⟩ := p.value evaluates
  obtain ⟨e,operand,extended⟩ := convertOperand scaled one extends_
  have operand' := operandD.kept p.shifts.formed p.shifts.live evaluates.acyclic frame (by simp) operand
  have whole := @convertMade others g' node d n t true e (by rw [children,if_pos rfl]) (by rw [opCode,payload,if_pos rfl]) operand'
  have narrow : t.bits - amountOf g node t = n.bits := by omega
  rw [same,extended,narrow,if_neg (by decide),lowWrap (by omega)]
  exact whole

theorem maskedPreserved (p : Pair g roots node f s q c t u) : Preserved (meaning others) g roots node (maskHighBits g node t (amountOf g node t)) node := by
  have isConstS : isLoadConst g s = true := by rw [isLoadConst,p.constS]; rfl
  have other := p.shifts.otherConst isConstS
  have none := constChildren p.shifts.formed p.shifts.second.live isConstS
  have before := p.shifts.formed.counted.allocated p.shifts.live
  have notNew := Nat.ne_of_lt before
  generalize made : maskHighBits g node t (amountOf g node t) = g'
  have shape : ∃ k mutated, Frame (meaning others) g g' node mutated ∧ q ∉ mutated ∧ g'.children node = [q,k] ∧ opCode g' node = .binary .and t false ∧
      Evaluates (meaning others) g' k (wrap t.bits (wrap t.bits (2 ^ (t.bits - amountOf g node t) - 1))) := by
    rw [← made]
    simp only [maskHighBits,p.shifts.reads.1,p.shifts.reads.2,p.readsPair,recreateCount]
    split
    · rename_i once
      have consumed := consumedSecond p.shifts.two once
      refine ⟨s,[s],⟨fun m _ away fixed => ?_,fun m on => List.mem_singleton.mp on ▸ consumed⟩,?_,?_,?_,?_⟩
      · have apart : m ≠ s := fun same => fixed (by simp [same])
        split <;> simp [away,apart]
      · intro on
        refine p.shifts.formed.counted.consumedOnly p.shifts.live consumed (.inr ⟨f,?_,p.shifts.first.live,?_⟩)
        · rintro rfl
          have same := p.isMul.symm.trans p.shifts.isOp
          cases same
        · rw [← List.mem_singleton.mp on]
          simp [p.inner]
      · split <;> simp [p.shifts.two]
      · split <;> simp [opCode,other]
      · have constS : (g.payload s).opCode = iconst := p.constS
        refine constIs (o := .const t false) ?_ ?_ rfl ?_
        · split <;> simpa [Ne.symm other] using none
        · rcases p.shifts.word with rfl | rfl
          · simp [opCode,constS,Ne.symm other]
          · simp [opCode]
        · split <;> simp
    · refine ⟨g.size,[],⟨fun m old away _ => ?_,by simp⟩,by simp,?_,?_,?_⟩
      · have fresh := Nat.ne_of_lt old
        simp [away,fresh]
      · simp [notNew,p.shifts.two]
      · simp [opCode,notNew]
      · refine constIs (o := .const t false) ?_ ?_ rfl ?_
        · simp [Ne.symm notNew]
        · simp [opCode]
        · simp
  obtain ⟨k,mutated,frame,fixed,two,isAnd,mask⟩ := shape
  refine frame.preserved p.shifts.formed.counted p.shifts.live fun v evaluates => ?_
  obtain ⟨z,scaled,same⟩ := p.value evaluates
  have whole := binaryMade two isAnd (p.scaled.kept p.shifts.formed p.shifts.live evaluates.acyclic frame fixed scaled) mask
  rw [BinaryOp.eval,ofIntWrap,ofIntWrap,andLow (Nat.sub_le _ _)] at whole
  have again : wrap t.bits (wrap t.bits (z % 2 ^ (t.bits - amountOf g node t))) = v := by
    rw [same]
    exact Int.bmod_bmod
  rw [← again]
  exact whole

-- The arms of the logical right shifts that find a shift to the left below.
theorem pairPreserved (env : Env) (i : Shifts g roots node f s .ushr t u) :
    Preserved (meaning others) g roots node ((shiftLeftThenRight env g node t).getD (normalizeShiftAmount env g node (shiftMask t),node)).1
      ((shiftLeftThenRight env g node t).getD (normalizeShiftAmount env g node (shiftMask t),node)).2 := by
  unfold shiftLeftThenRight
  dsimp only
  split
  · rename_i found
    obtain ⟨q,c,p⟩ := pairOf i found
    rw [p.shifts.reads.1,p.readsPair]
    split
    · rename_i op extension
      split at extension
      · obtain ⟨n,source,target,fits⟩ := zeroExtensionSpec extension
        rw [target]
        exact extendedPreserved p source fits
      · cases extension
    · split
      · exact maskedPreserved p
      · exact normalizedPreserved env i
  · exact normalizedPreserved env i

end Pairs

section Conversions
variable {x c : Nat} {left right : Int}

theorem bitsBetween (a : Int) (d n : Nat) : a / 2 ^ d % 2 ^ n = a % 2 ^ (d + n) / 2 ^ d := by
  have pos : (0 : Int) < 2 ^ d := Int.pow_pos (by decide)
  have whole := Int.emod_add_mul_ediv a (2 ^ (d + n))
  have parts := Int.emod_add_mul_ediv (a / 2 ^ d) (2 ^ n)
  rw [Int.ediv_ediv_of_nonneg (Int.le_of_lt pos),← Int.pow_add] at parts
  have turned : a % 2 ^ (d + n) = a + 2 ^ d * -(2 ^ n * (a / 2 ^ (d + n))) := by
    rw [Int.pow_add,Int.mul_assoc,← Int.pow_add] at whole
    rw [Int.mul_neg]
    omega
  rw [turned,Int.add_mul_ediv_left _ _ (Int.ne_of_gt pos)]
  omega

theorem conversionsSpec {down up : OpCode} (found : conversions right = some (down,up)) :
    ∃ n : DataType, down = .convert .Int64 n false ∧ up = .convert n .Int64 true ∧ right + n.bits = 64 := by
  unfold conversions at found
  split at found
  · cases found
    exact ⟨.Int8,rfl,rfl,by subst right; rfl⟩
  · split at found
    · cases found
      exact ⟨.Int16,rfl,rfl,by subst right; rfl⟩
    · obtain ⟨is32,same⟩ := Option.ite_none_right_eq_some.mp found
      cases same
      exact ⟨.Int32,rfl,rfl,by subst right; rfl⟩

-- The tree that replaces the two shifts, before it does.
def converted (g : Trees) (x : Nat) (amount : Int) (down up : OpCode) : Trees :=
  createWith (createWith (createWith (create g iconst amount) lushr [x,g.size]) down [g.size + 1]) up [g.size + 2]

theorem convertedChildren (g : Trees) (x : Nat) (amount : Int) (down up : OpCode) (m : Nat) : (converted g x amount down up).children m =
    if m = g.size + 3 then [g.size + 2] else if m = g.size + 2 then [g.size + 1] else if m = g.size + 1 then [x,g.size]
    else if m = g.size then [] else g.children m := by
  simp [converted]

theorem convertedPayload (g : Trees) (x : Nat) (amount : Int) (down up : OpCode) (m : Nat) : (converted g x amount down up).payload m =
    if m = g.size + 3 then ⟨up,0,false⟩ else if m = g.size + 2 then ⟨down,0,false⟩ else if m = g.size + 1 then ⟨lushr,0,false⟩
    else if m = g.size then ⟨iconst,amount,false⟩ else g.payload m := by
  simp [converted]

theorem convertedValue {n : DataType} {z : Int} (short : n.bits ≤ 64) (lower : 0 ≤ right - left) (upper : right - left < 64) {down up : OpCode}
    (isDown : down = .convert .Int64 n false) (isUp : up = .convert n .Int64 true)
    (operand : Evaluates (meaning others) (converted g x (right - left) down up) x z) :
    Evaluates (meaning others) (converted g x (right - left) down up) (g.size + 3) (wrap 64 (toUnsigned 64 z / 2 ^ (right - left).toNat % 2 ^ n.bits)) := by
  generalize made : converted g x (right - left) down up = g' at operand ⊢
  have children := convertedChildren g x (right - left) down up
  have payload := convertedPayload g x (right - left) down up
  rw [made] at children payload
  have amount := @constIs others g' g.size iconst (right - left) (by rw [children]; simp) (by rw [opCode,payload]; simp) rfl (by rw [payload]; simp)
  have shifted := @binaryMade others g' (g.size + 1) x g.size .ushr .Int64 false _ _ (by rw [children]; simp) (by rw [opCode,payload]; simp) operand amount
  have low := @convertMade others g' (g.size + 2) (g.size + 1) .Int64 n false _ (by rw [children]; simp) (by rw [opCode,payload]; simp [isDown]) shifted
  have whole := @convertMade others g' (g.size + 3) (g.size + 2) n .Int64 true _ (by rw [children]; simp) (by rw [opCode,payload]; simp [isUp]) low
  have by_ : shiftBy 64 (wrap 32 (right - left)) = (right - left).toNat := by
    have reads := shiftByLow (w := 64) (k := 6) rfl (by decide) (wrap 32 (right - left))
    rw [reads,lowWrap (by decide)]
    exact congrArg Int.toNat (Int.emod_eq_of_lt lower upper)
  have type : (OpCode.type iconst).bits = 32 := rfl
  have bits : DataType.Int64.bits = 64 := rfl
  rw [type,bits,BinaryOp.eval,by_,if_pos rfl,if_neg (by decide),unsignedWrap,toUnsigned,modulus,lowWrap short] at whole
  exact whole

theorem convertedPreserved (env : Env) (i : Shifts g roots node f s .ushr .Int64 u) (isConst : isLoadConst g s = true) (isShl : opCode g f = lshl)
    (isConstC : isLoadConst g (getSecondChild g f) = true) {down up : OpCode}
    (leftIs : left = masked (get64bitIntegralValue g (getSecondChild g f)) 63) (rightIs : right = masked (get64bitIntegralValue g s) 63)
    (more : right ≥ left) (found : conversions right = some (down,up)) :
    Preserved (meaning others) g roots node (shiftAndConvert env g node left right down up).1 (shiftAndConvert env g node left right down up).2 := by
  obtain ⟨x,c,inner,typeX,typeC⟩ := @binaryChildren g roots f i.formed i.first.live .Int64 .Int32 (by rw [isShl]; rfl)
  have readC : getSecondChild g f = c := by simp [getSecondChild,inner]
  rw [readC] at isConstC leftIs
  obtain ⟨n,isDown,isUp,fits⟩ := conversionsSpec found
  have inside := i.formed.counted.allocated i.live
  have operandX := i.first.step i.formed (d := x) (by simp [inner])
  have liveC : 0 < g.referenceCount c := i.formed.counted.live i.first.live (by simp [inner])
  have whole : shiftAndConvert env g node left right down up = ShiftSimplifier.replaceNode env (converted g x (right - left) down up) node (g.size + 3) := by
    have readX : getFirstChild (create g iconst (right - left)) f = x := by
      have insideF := i.formed.counted.allocated i.first.live
      simp [getFirstChild,Nat.ne_of_lt insideF,inner]
    simp only [shiftAndConvert,converted,i.reads.1,readX,createNodeSize,createOneSize,createTwoSize,Nat.add_sub_cancel]
  have old : ∀ m < g.size, (converted g x (right - left) down up).payload m = g.payload m ∧ (converted g x (right - left) down up).children m = g.children m := by
    intro m before
    have fresh : m ≠ g.size + 3 ∧ m ≠ g.size + 2 ∧ m ≠ g.size + 1 ∧ m ≠ g.size := by omega
    rw [convertedPayload,convertedChildren]
    simp [fresh]
  have frame : Frame (meaning others) g (converted g x (right - left) down up) node [] := by
    refine ⟨fun m before _ _ => ?_,by simp⟩
    rw [(old m before).1,(old m before).2]
    exact ⟨fun _ => rfl,rfl⟩
  have value : ∀ v, Evaluates (meaning others) g node v → Evaluates (meaning others) (converted g x (right - left) down up) (g.size + 3) v := by
    intro v evaluates
    obtain ⟨y,z,first,second,same⟩ := i.values evaluates
    obtain ⟨a,b,operand,amount,shifted⟩ := binaryOperands first inner isShl
    have amountC := @constValue others g roots c i.formed liveC isConstC
    rw [typeC] at amountC
    have readLeft : get64bitIntegralValue g c = b := by
      rw [get64bitIntegralValue,typeC]
      exact amountC.unique amount
    have readRight : get64bitIntegralValue g s = z := by
      rw [get64bitIntegralValue,i.typeS]
      exact (i.amount isConst).unique second
    have l : shiftBy 64 b = left.toNat := by rw [leftIs,readLeft]; rfl
    have r : shiftBy 64 z = right.toNat := by rw [rightIs,readRight]; rfl
    have lower : 0 ≤ left := by rw [leftIs]; exact Int.emod_nonneg _ (by decide)
    have upper : right < 64 := by rw [rightIs]; exact Int.emod_lt_of_pos _ (by decide)
    have short : n.bits ≤ 64 := by cases n <;> decide
    have made := convertedValue (g := g) short (by omega) (by omega) isDown isUp (operandX.kept i.formed i.live evaluates.acyclic frame (by simp) operand)
    have amounts : (right - left).toNat = right.toNat - left.toNat := by omega
    have width : right.toNat - left.toNat + n.bits = 64 - left.toNat := by omega
    rw [amounts,bitsBetween,width,lowUnsigned (Nat.sub_le _ _)] at made
    have bits : DataType.Int64.bits = 64 := rfl
    rw [same,shifted,bits,BinaryOp.eval,BinaryOp.eval,l,r,shiftBack (by omega) (by omega)]
    exact made
  rw [whole]
  unfold ShiftSimplifier.replaceNode
  split
  · have shape : SameShape (converted g x (right - left) down up) (SimplifierTrees.replaceNode (converted g x (right - left) down up) node (g.size + 3)).1 :=
      sameShapeTrans (countsOnly _ _ _) (decUpToShape _ _ node)
    have kept := @grownPreserved others g _ roots node i.formed i.live old
    exact ⟨fun v evaluates => sameValue shape (value v evaluates),fun m v which evaluates => sameValue shape (kept.shared m v which evaluates)⟩
  · refine grownPreserved i.formed i.live fun m before => ?_
    split
    · rw [removeAllPayload,removeAllChildrenChildren,if_neg (by omega)]
      exact old m before
    · exact old m before

end Conversions

section Handlers

theorem shiftsOf (formed : WellFormed g roots) (live : 0 < g.referenceCount node) (isOp : opCode g node = .binary op t u) (isShift : op.isShift = true)
    (word : t = .Int32 ∨ t = .Int64) : ∃ f s, Shifts g roots node f s op t u := by
  obtain ⟨f,s,two,typeF,typeS⟩ := @binaryChildren g roots node formed live t .Int32 (by rw [isOp,OpCode.operands,isShift]; rfl)
  exact ⟨f,s,formed,live,two,isOp,isShift,typeF,typeS,word⟩

theorem ishlPreserved (env : Env) (i : Shifts g roots node f s .shl .Int32 u) :
    Preserved (meaning others) g roots node (ishlSimplifier env g node).1 (ishlSimplifier env g node).2 := by
  refine foldOrNormalizePreserved env i rfl rfl (fun _ _ => ?_) fun g' s' i' => ?_
  · rw [i.amountReads,i.reads.1]
    exact Int.bmod_bmod.symm
  · split
    · rename_i const
      rw [i'.reads.2] at const
      exact multiplyPreserved i' const.1
    · exact normalizedPreserved env i'

theorem lshlPreserved (env : Env) (i : Shifts g roots node f s .shl .Int64 u) :
    Preserved (meaning others) g roots node (lshlSimplifier env g node).1 (lshlSimplifier env g node).2 := by
  refine foldOrNormalizePreserved env i rfl rfl (fun _ _ => ?_) fun g' s' i' => ?_
  · rw [i.amountReads,i.reads.1]
    exact Int.bmod_bmod.symm
  · split
    · rename_i const
      rw [i'.reads.2] at const
      exact multiplyPreserved i' const
    · exact normalizedPreserved env i'

theorem ishrPreserved (env : Env) (i : Shifts g roots node f s .shr .Int32 u) :
    Preserved (meaning others) g roots node (ishrSimplifier env g node).1 (ishrSimplifier env g node).2 := by
  refine foldOrNormalizePreserved env i rfl rfl (fun _ _ => ?_) fun g' s' i' => normalizedPreserved env i'
  rw [i.amountReads,i.reads.1]
  rfl

theorem lshrPreserved (env : Env) (i : Shifts g roots node f s .shr .Int64 u) :
    Preserved (meaning others) g roots node (lshrSimplifier env g node).1 (lshrSimplifier env g node).2 := by
  refine foldOrNormalizePreserved env i rfl rfl (fun _ _ => ?_) fun g' s' i' => normalizedPreserved env i'
  rw [i.amountReads,i.reads.1]
  rfl

theorem iushrPreserved (env : Env) (i : Shifts g roots node f s .ushr .Int32 u) :
    Preserved (meaning others) g roots node (iushrSimplifier env g node).1 (iushrSimplifier env g node).2 := by
  refine foldOrNormalizePreserved env i rfl rfl (fun _ _ => ?_) fun g' s' i' => pairPreserved env i'
  rw [i.amountReads,i.reads.1]
  rfl

theorem lushrPreserved (env : Env) (i : Shifts g roots node f s .ushr .Int64 u) :
    Preserved (meaning others) g roots node (lushrSimplifier env g node).1 (lushrSimplifier env g node).2 := by
  unfold lushrSimplifier
  simp only [i.reads.1,i.reads.2]
  split
  · rename_i down up found
    obtain ⟨⟨isConst,isShl,isConstC,more,_⟩,found⟩ := Option.ite_none_right_eq_some.mp found
    exact convertedPreserved env i isConst isShl isConstC rfl rfl more found
  · refine foldOrNormalizePreserved env i rfl rfl (fun _ _ => ?_) fun g' s' i' => pairPreserved env i'
    rw [i.amountReads]
    rfl

-- Every handler, on every node over operands without a cycle.
theorem shiftsKept (formed : WellFormed g roots) (live : 0 < g.referenceCount node) (acyclic : ∀ m, m = node ∨ Below g m node → ¬ Below g m m)
    {simplifier : Env → Trees → Nat → Trees × Nat} (handled : handlerOf op t = some simplifier) (isOp : opCode g node = .binary op t u) (env : Env) :
    (∃ v, Evaluates (meaning others) g node v) ∧ Preserved (meaning others) g roots node (simplifier env g node).1 (simplifier env g node).2 := by
  refine ⟨formed.counted.evaluates (formed.counted.allocated live) acyclic,?_⟩
  unfold handlerOf at handled
  split at handled
  · obtain ⟨f,s,i⟩ := shiftsOf formed live isOp rfl (.inl rfl)
    cases handled
    exact ishlPreserved env i
  · obtain ⟨f,s,i⟩ := shiftsOf formed live isOp rfl (.inr rfl)
    cases handled
    exact lshlPreserved env i
  · obtain ⟨f,s,i⟩ := shiftsOf formed live isOp rfl (.inl rfl)
    cases handled
    exact ishrPreserved env i
  · obtain ⟨f,s,i⟩ := shiftsOf formed live isOp rfl (.inr rfl)
    cases handled
    exact lshrPreserved env i
  · obtain ⟨f,s,i⟩ := shiftsOf formed live isOp rfl (.inl rfl)
    cases handled
    exact iushrPreserved env i
  · obtain ⟨f,s,i⟩ := shiftsOf formed live isOp rfl (.inr rfl)
    cases handled
    exact lushrPreserved env i
  · cases handled

-- s2i of a load, times 65536 and shifted back.
def sampleList : List (Vertex Node) :=
  [⟨⟨.other .Int16 0,0,false⟩,[],1⟩,⟨⟨s2i,0,false⟩,[0],1⟩,⟨⟨iconst,65536,false⟩,[],1⟩,⟨⟨imul,0,false⟩,[1,2],1⟩,⟨⟨iconst,16,false⟩,[],1⟩,
    ⟨⟨.binary .ushr .Int32 false,0,false⟩,[3,4],1⟩]

theorem sampleChecked : Checked sampleList [5] := by decide

theorem shiftsKeptSample : Preserved (meaning fun _ _ _ => -2) (listed sampleList) (rootsOf [5]) 5
    (iushrSimplifier ⟨fun _ => true,true⟩ (listed sampleList) 5).1 (iushrSimplifier ⟨fun _ => true,true⟩ (listed sampleList) 5).2 :=
  (shiftsKept (g := listed sampleList) sampleChecked.formed (by decide) (fun m _ => sampleChecked.acyclic m)
    (show handlerOf .ushr .Int32 = some iushrSimplifier from rfl) (show opCode (listed sampleList) 5 = .binary .ushr .Int32 false from rfl) ⟨fun _ => true,true⟩).2

end Handlers

end Amounts



end OmrCompiler.ShiftSound
