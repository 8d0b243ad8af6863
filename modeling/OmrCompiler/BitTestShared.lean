import OmrCompiler.BitTestExact

/-! Removing the shift of a test of bits on shared nodes: the branch and the nodes used elsewhere
keep their values exactly under a condition on the constants and on the sharing. -/
namespace OmrCompiler.BitTestShared
open MachineInt SharedGraph SimplifierTrees SimplifierNodes BitTest BitTestWords BitTestExact
open CompareHandlers (CompareOp)
open MaskArithmetic (word wordReads wordBelow)
open PowerOfTwo (ofIntWrap)

def removesShift (transforms : Bool) (g : Trees) (node : Nat) : Bool :=
  isBitTest g node && keepsBits g node (bitAmount g node) && keepsBits g node (cmpAmount g node) && transforms

def bitwiseOf : OpCode → BinaryOp
  | .binary op _ _ => op
  | _ => .and

-- Used by another tree, or by the operand that loses its shift.
def Reused (g : Trees) (roots : Nat → Nat) (node x c : Nat) : Prop := Elsewhere g roots node c ∨ c = x ∨ Below g c x

def unshifted (g : Trees) (node : Nat) : Nat := getFirstChild g (getFirstChild g (getFirstChild g node))

structure RemovesSoundly (g : Trees) (roots : Nat → Nat) (node : Nat) (compare : CompareOp) : Prop where
  test : agrees (bitwiseOf (opCode g (getFirstChild g node))) compare (shiftAmount g node).toNat (bitAmount g node) (cmpAmount g node) = true
  bitwise : Elsewhere g roots node (getFirstChild g node) →
    shiftAmount g node % 32 = 0 ∨ bitwiseOf (opCode g (getFirstChild g node)) = .and ∧ bitAmount g node = 0
  bits : Reused g roots node (unshifted g node) (getSecondChild g (getFirstChild g node)) → shiftAmount g node = 0 ∨ bitAmount g node = 0
  cmp : Reused g roots node (unshifted g node) (getSecondChild g node) → shiftAmount g node = 0 ∨ cmpAmount g node = 0

section Words
variable {op : BinaryOp} {compare : CompareOp} {s bits cmp x : Int} {w : Nat}

theorem powMore {d n : Nat} (moves : 1 ≤ d) (same : 2 ^ d * n = n) : n = 0 := by
  have double : 2 ≤ 2 ^ d := Nat.pow_le_pow_right (n := 2) (by decide) moves
  have grows := Nat.mul_le_mul_right n double
  omega

theorem constSame (narrow : w ≤ 16) (pos : 0 < w) (inside : InRange w bits) (lower : 0 ≤ s) (below : s < 64)
    (keeps : bits / 2 ^ s.toNat * 2 ^ s.toNat = bits) : wrap w (toUnsigned w bits / 2 ^ s.toNat) = bits ↔ s = 0 ∨ bits = 0 := by
  refine ⟨fun same => ?_,fun which => ?_⟩
  · by_cases still : s % 32 = 0
    · have kept := (keptConst narrow pos inside keeps).1
      omega
    · obtain ⟨n,_,scaled,new⟩ := scaledConst narrow pos inside keeps (by omega) (by omega) (show w - min (s.toNat % 32) w + min (s.toNat % 32) w = w by omega) rfl
      rw [same,scaled] at new
      exact .inr ((scaledZero pos inside scaled).mpr (powMore (by omega) new))
  · rcases which with zero | zero
    · rw [zero,Int.toNat_zero,Int.pow_zero,Int.ediv_one,wrapUnsigned (Nat.le_refl _)]
      exact wrapSelf pos inside
    · have nothing : toUnsigned w 0 = 0 := Int.zero_emod _
      rw [zero] at inside ⊢
      rw [nothing,Int.zero_ediv]
      exact wrapSelf pos inside

-- The values of the bitwise node before and after.
def bitwiseBefore (op : BinaryOp) (w : Nat) (s n x : Int) : Int := wrap w (op.eval w (wrap w (x * 2 ^ shiftBy w s)) n)

def bitwiseAfter (op : BinaryOp) (w : Nat) (s n x : Int) : Int := wrap w (op.eval w x (wrap w (toUnsigned w n / 2 ^ s.toNat)))

theorem beforeWrap (op : BinaryOp) (w : Nat) (s n x : Int) : bitwiseBefore op w s n (wrap w x) = bitwiseBefore op w s n x := by
  have same : wrap w (wrap w x * 2 ^ shiftBy w s) = wrap w (x * 2 ^ shiftBy w s) := Int.bmod_mul_bmod
  rw [bitwiseBefore,bitwiseBefore,same]

theorem afterWrap (bitwise : isBitwise op = true) (w : Nat) (s n x : Int) : bitwiseAfter op w s n (wrap w x) = bitwiseAfter op w s n x := by
  rcases bitwiseCases bitwise with rfl | rfl | rfl <;> simp only [bitwiseAfter,BinaryOp.eval,ofIntWrap]

theorem bitwiseStill (bitwise : isBitwise op = true) (pos : 0 < w) (narrow : w ≤ 16) (inside : InRange w bits) (lower : 0 ≤ s) (below : s < 64)
    (keeps : bits / 2 ^ s.toNat * 2 ^ s.toNat = bits) (still : s % 32 = 0) (x : Int) : bitwiseAfter op w s bits x = bitwiseBefore op w s bits x := by
  have amount : shiftBy w s = 0 := by
    rw [shiftBy,Nat.max_eq_right (by omega)]
    omega
  have same : wrap w (toUnsigned w bits / 2 ^ s.toNat) = bits := by
    rw [constSame narrow pos inside lower below keeps]
    have kept := (keptConst narrow pos inside keeps).1
    omega
  rw [← afterWrap bitwise,bitwiseAfter,bitwiseBefore,same,amount,Int.pow_zero,Int.mul_one]

theorem bitwiseExact (bitwise : isBitwise op = true) (pos : 1 < w) (narrow : w ≤ 16) (inside : InRange w bits) (lower : 0 ≤ s) (below : s < 64)
    (keeps : bits / 2 ^ s.toNat * 2 ^ s.toNat = bits) :
    (∀ x, bitwiseAfter op w s bits x = bitwiseBefore op w s bits x) ↔ s % 32 = 0 ∨ op = .and ∧ bits = 0 := by
  by_cases still : s % 32 = 0
  · simp only [still,true_or,iff_true]
    exact bitwiseStill bitwise (by omega) narrow inside lower below keeps still
  · obtain ⟨d,k,n,m,scaled⟩ := scaledOf narrow pos inside inside lower below still keeps keeps
    have moves := scaled.moves
    have split := scaled.split
    have before : ∀ x, word w (bitwiseBefore op w s bits x) = 2 ^ d * wordOp op (word w x % 2 ^ k) n := by
      intro x
      rw [bitwiseBefore,wordOpWord bitwise,scaled.original,scaled.words.1,wordOpScaled bitwise]
    have after : ∀ x, word w (bitwiseAfter op w s bits x) = wordOp op (word w x) n := by
      intro x
      rw [bitwiseAfter,wordOpWord bitwise,scaled.news.1]
    simp only [still,false_or]
    refine ⟨fun every => ?_,?_⟩
    · have words : ∀ x : Nat, x < 2 ^ w → wordOp op x n = 2 ^ d * wordOp op (x % 2 ^ k) n := by
        intro x short
        have same := congrArg (word w) (every x)
        rwa [after,before,wordNat x short] at same
      -- The operand that lost its shift can set the lowest bit.
      have even : ∀ x < 2 ^ w, wordOp op x n % 2 = 0 := by
        intro x short
        obtain ⟨e,rfl⟩ : ∃ e, d = e + 1 := ⟨d - 1,by omega⟩
        rw [words x short,Nat.pow_succ,Nat.mul_assoc,Nat.mul_left_comm]
        exact Nat.mul_mod_right _ _
      have two : 2 ^ 1 ≤ 2 ^ w := Nat.pow_le_pow_right (by decide) (by omega)
      have zero := even 0 (by omega)
      have one := even 1 (by omega)
      rcases bitwiseCases bitwise with rfl | rfl | rfl
      · have short := scaled.short.1
        have more : 2 ^ k ≤ 2 ^ w := Nat.pow_le_pow_right (by decide) (by omega)
        have same := words n (by omega)
        rw [Nat.mod_eq_of_lt short,wordOp,Nat.and_self] at same
        exact ⟨rfl,(scaledZero (by omega) inside scaled.words.1).mpr (powMore moves same.symm)⟩
      · have odd := Nat.or_mod_two_eq_one (a := 1) (b := n)
        simp only [wordOp] at one
        omega
      · have first := Nat.xor_mod_two_eq_one (a := 0) (b := n)
        have second := Nat.xor_mod_two_eq_one (a := 1) (b := n)
        simp only [wordOp] at zero one
        omega
    · rintro ⟨rfl,rfl⟩ x
      have nothing : wrap w 0 = 0 := Int.zero_bmod
      simp [bitwiseAfter,bitwiseBefore,BinaryOp.eval,toUnsigned,nothing]

end Words

section Nodes
variable {others : DataType → Nat → List Int → Int} {g : Trees} {roots : Nat → Nat} {node f c1 sh c2 x a : Nat} {op : BinaryOp} {compare : CompareOp}
  {t : DataType} {v : Int}

theorem narrowType (narrow : isByteOrShort compare = true) : ∃ t, OpCode.ofCompare compare.operand = some t ∧ t.bits = compare.operand.bits ∧
    (t.bits = 8 ∨ t.bits = 16) ∧ t ≠ .Int64 := by
  obtain ⟨operand,relation⟩ := compare
  rcases of_decide_eq_true narrow with rfl | rfl | rfl | rfl
  · exact ⟨.Int8,rfl,rfl,.inl rfl,by decide⟩
  · exact ⟨.Int8,rfl,rfl,.inl rfl,by decide⟩
  · exact ⟨.Int16,rfl,rfl,.inr rfl,by decide⟩
  · exact ⟨.Int16,rfl,rfl,.inr rfl,by decide⟩

-- A test of bits: compare (op (shl x a) c2) c1.
structure Shape (g : Trees) (roots : Nat → Nat) (node f c1 sh c2 x a : Nat) (op : BinaryOp) (compare : CompareOp) (t : DataType) : Prop where
  formed : WellFormed g roots
  live : 0 < g.referenceCount node
  isOp : opCode g node = .ifcmp compare
  two : g.children node = [f,c1]
  isBitwise : ∃ u, opCode g f = .binary op t u
  inner : g.children f = [sh,c2]
  isShift : ∃ u, opCode g sh = .binary .shl t u
  shifted : g.children sh = [x,a]
  constCmp : ∃ u, opCode g c1 = .const t u
  constBits : ∃ u, opCode g c2 = .const t u
  constAmount : ∃ u, opCode g a = .const .Int32 u
  typeX : (opCode g x).type = t
  bits : t.bits = compare.operand.bits
  narrow : t.bits = 8 ∨ t.bits = 16
  short : t ≠ .Int64
  bitwise : BitTestWords.isBitwise op = true

theorem compareMade {n b c : Nat} {y z : Int} (two : g.children n = [b,c]) (isOp : opCode g n = .ifcmp compare)
    (first : Evaluates (meaning others) g b y) (second : Evaluates (meaning others) g c z) :
    Evaluates (meaning others) g n (wrap 32 (if compare.eval y z then 1 else 0)) := by
  have made := Evaluates.binary two first second
  rw [opCode] at isOp
  rw [meaning,exactValue.eq_def,isOp] at made
  exact made

theorem constOf {n : Nat} (isConst : isLoadConst g n = true) (type : (opCode g n).type = t) : ∃ u, opCode g n = .const t u := by
  rw [isLoadConst] at isConst
  cases same : opCode g n with
  | const s u =>
      rw [same] at type
      exact ⟨u,by rw [show s = t from type]⟩
  | _ => simp [same,OpCode.isLoadConst] at isConst

theorem logicalSpec {o : OpCode} (logical : isBitwiseLogical o = true) : ∃ op t u, o = .binary op t u ∧ BitTestWords.isBitwise op = true := by
  unfold isBitwiseLogical at logical
  split at logical
  · exact ⟨_,_,_,rfl,rfl⟩
  · exact ⟨_,_,_,rfl,rfl⟩
  · exact ⟨_,_,_,rfl,rfl⟩
  · cases logical

theorem leftShiftSpec {o : OpCode} (shift : isLeftShift o = true) : ∃ t u, o = .binary .shl t u := by
  unfold isLeftShift at shift
  split at shift
  · exact ⟨_,_,rfl⟩
  · cases shift

theorem foldedType (u : Bool) : ∃ u', foldedOp (.const t u) = .const t u' := by
  unfold foldedOp
  split
  · rename_i same
    cases same
    exact ⟨_,rfl⟩
  · rename_i same
    cases same
    exact ⟨_,rfl⟩
  · exact ⟨_,rfl⟩

theorem shapeOf (formed : WellFormed g roots) (live : 0 < g.referenceCount node) (isOp : opCode g node = .ifcmp compare) (narrow : isByteOrShort compare = true)
    (tests : isBitTest g node = true) : ∃ f c1 sh c2 x a op t, Shape g roots node f c1 sh c2 x a op compare t := by
  obtain ⟨t,ofCompare,bits,width,short⟩ := narrowType narrow
  obtain ⟨f,c1,two,typeF,typeC⟩ := @binaryChildren g roots node formed live t t (by rw [isOp,OpCode.operands,ofCompare]; rfl)
  have liveF := formed.counted.live live (show f ∈ g.children node by simp [two])
  have readF : getFirstChild g node = f := by simp [getFirstChild,two]
  have readC : getSecondChild g node = c1 := by simp [getSecondChild,two]
  simp only [isBitTest,Bool.and_eq_true,readF,readC] at tests
  obtain ⟨⟨⟨⟨logical,isConstC⟩,isShl⟩,isConstA⟩,isConstB⟩ := tests
  obtain ⟨op,s,u,isBitwise,bitwise⟩ := logicalSpec logical
  have sameType : s = t := by rw [isBitwise] at typeF; exact typeF
  subst sameType
  have notShift : op.isShift = false := by rcases bitwiseCases bitwise with rfl | rfl | rfl <;> rfl
  obtain ⟨sh,c2,inner,typeS,typeB⟩ := @binaryChildren g roots f formed liveF s s (by rw [isBitwise,OpCode.operands,notShift]; rfl)
  have liveS := formed.counted.live liveF (show sh ∈ g.children f by simp [inner])
  have readS : getFirstChild g f = sh := by simp [getFirstChild,inner]
  have readB : getSecondChild g f = c2 := by simp [getSecondChild,inner]
  rw [readS] at isShl isConstA
  rw [readB] at isConstB
  obtain ⟨s',u',isShift⟩ := leftShiftSpec isShl
  have sameShift : s' = s := by rw [isShift] at typeS; exact typeS
  subst sameShift
  obtain ⟨x,a,shifted,typeX,typeA⟩ := @binaryChildren g roots sh formed liveS s' .Int32 (by rw [isShift]; rfl)
  have readA : getSecondChild g sh = a := by simp [getSecondChild,shifted]
  rw [readA] at isConstA
  exact ⟨f,c1,sh,c2,x,a,op,s',formed,live,isOp,two,⟨u,isBitwise⟩,inner,⟨u',isShift⟩,shifted,constOf isConstC typeC,constOf isConstB typeB,
    constOf isConstA typeA,typeX,bits,width,short,bitwise⟩

namespace Shape
variable (i : Shape g roots node f c1 sh c2 x a op compare t)
include i

theorem readF : getFirstChild g node = f := by simp [getFirstChild,i.two]

theorem readC : getSecondChild g node = c1 := by simp [getSecondChild,i.two]

theorem readS : getFirstChild g f = sh := by simp [getFirstChild,i.inner]

theorem readB : getSecondChild g f = c2 := by simp [getSecondChild,i.inner]

theorem readX : getFirstChild g sh = x := by simp [getFirstChild,i.shifted]

theorem readA : getSecondChild g sh = a := by simp [getSecondChild,i.shifted]

theorem liveF : 0 < g.referenceCount f := i.formed.counted.live i.live (by simp [i.two])

theorem liveS : 0 < g.referenceCount sh := i.formed.counted.live i.liveF (by simp [i.inner])

theorem constValueOf {n : Nat} {r : DataType} (live : 0 < g.referenceCount n) (isConst : ∃ u, opCode g n = .const r u) :
    g.children n = [] ∧ Evaluates (meaning others) g n (get64bitIntegralValue g n) ∧ get64bitIntegralValue g n = wrap r.bits (g.payload n).constValue := by
  obtain ⟨u,same⟩ := isConst
  have const : isLoadConst g n = true := by rw [isLoadConst,same]; rfl
  exact ⟨constChildren i.formed live const,constValue i.formed live const,by rw [get64bitIntegralValue,same]; rfl⟩

theorem amountValue : Evaluates (meaning others) g a (shiftAmount g node) := by
  have live := i.formed.counted.live i.liveS (show a ∈ g.children sh by simp [i.shifted])
  obtain ⟨_,evaluates,value⟩ := @constValueOf others g roots node f c1 sh c2 x a op compare t i a .Int32 live i.constAmount
  have again : shiftAmount g node = get64bitIntegralValue g a := by
    rw [shiftAmount,i.readF,i.readS,i.readA,value]
    exact Int.bmod_bmod
  rwa [again]

theorem bitsValue : g.children c2 = [] ∧ Evaluates (meaning others) g c2 (bitAmount g node) ∧ InRange t.bits (bitAmount g node) := by
  have live := i.formed.counted.live i.liveF (show c2 ∈ g.children f by simp [i.inner])
  obtain ⟨none,evaluates,value⟩ := @constValueOf others g roots node f c1 sh c2 x a op compare t i c2 t live i.constBits
  rw [bitAmount,i.readF,i.readB]
  exact ⟨none,evaluates,value ▸ wrapRange (bitsPos t) _⟩

theorem cmpValue : g.children c1 = [] ∧ Evaluates (meaning others) g c1 (cmpAmount g node) ∧ InRange t.bits (cmpAmount g node) := by
  have live := i.formed.counted.live i.live (show c1 ∈ g.children node by simp [i.two])
  obtain ⟨none,evaluates,value⟩ := @constValueOf others g roots node f c1 sh c2 x a op compare t i c1 t live i.constCmp
  rw [cmpAmount,i.readC]
  exact ⟨none,evaluates,value ▸ wrapRange (bitsPos t) _⟩

theorem apart : node ≠ f ∧ node ≠ c1 ∧ node ≠ c2 ∧ f ≠ c1 ∧ f ≠ c2 := by
  obtain ⟨_,opF⟩ := i.isBitwise
  obtain ⟨_,opC⟩ := i.constCmp
  obtain ⟨_,opB⟩ := i.constBits
  have opN := i.isOp
  refine ⟨?_,?_,?_,?_,?_⟩ <;> rintro rfl
  · exact nomatch opN.symm.trans opF
  · exact nomatch opN.symm.trans opC
  · exact nomatch opN.symm.trans opB
  · exact nomatch opF.symm.trans opC
  · exact nomatch opF.symm.trans opB

theorem typeF : (opCode g f).type = t := by
  obtain ⟨_,opF⟩ := i.isBitwise
  rw [opF]
  rfl

theorem bitwiseValue (evaluates : Evaluates (meaning others) g f v) :
    ∃ z, Evaluates (meaning others) g x z ∧ v = bitwiseBefore op t.bits (shiftAmount g node) (bitAmount g node) z := by
  obtain ⟨u,opF⟩ := i.isBitwise
  obtain ⟨u',opS⟩ := i.isShift
  obtain ⟨y,n,left,right,sameB⟩ := binaryOperands evaluates i.inner opF
  obtain ⟨z,k,operand,amount,sameY⟩ := binaryOperands left i.shifted opS
  have isN := right.unique i.bitsValue.2.1
  have isK := amount.unique i.amountValue
  subst isN isK sameY
  exact ⟨z,operand,sameB⟩

theorem values (evaluates : Evaluates (meaning others) g node v) :
    ∃ z, Evaluates (meaning others) g x z ∧ Evaluates (meaning others) g f (bitwiseBefore op t.bits (shiftAmount g node) (bitAmount g node) z) ∧
      v = wrap 32 (if originalTruth op compare (shiftAmount g node) (bitAmount g node) (cmpAmount g node) z then 1 else 0) := by
  obtain ⟨b,c,first,second,_⟩ := evaluates.ofBinary i.two
  obtain ⟨z,operand,same⟩ := i.bitwiseValue first
  have isC := second.unique i.cmpValue.2.1
  subst isC same
  refine ⟨z,operand,first,?_⟩
  rw [originalTruth,← i.bits]
  exact evaluates.unique (compareMade i.two i.isOp first second)

section Removed

theorem removed : removeShift g node = foldShifted (foldShifted ((g.setAndIncChild f 0 x).recursivelyDecReferenceCount sh) c2 t
    (shiftAmount g node).toNat (bitAmount g node)) c1 t (shiftAmount g node).toNat (cmpAmount g node) := by
  simp only [removeShift,i.readF,i.readS,i.readX,i.readB,i.readC,i.typeF]

theorem removedSame (m : Nat) (away : ¬ (m = f ∨ m = c1 ∨ m = c2)) :
    (removeShift g node).payload m = g.payload m ∧ (removeShift g node).children m = g.children m := by
  simp only [not_or] at away
  simp [i.removed,foldShifted,away]

theorem removedBitwise : (removeShift g node).payload f = g.payload f ∧ (removeShift g node).children f = [x,c2] := by
  have apart := i.apart
  simp [i.removed,foldShifted,apart,i.inner]

theorem removedConst {n : Nat} {amount : Int} (which : n = c1 ∧ amount = cmpAmount g node ∨ n = c2 ∧ amount = bitAmount g node) :
    Evaluates (meaning others) (removeShift g node) n (wrap t.bits (toUnsigned t.bits amount / 2 ^ (shiftAmount g node).toNat)) := by
  have isConst : ∃ u, opCode g n = .const t u := by
    rcases which with ⟨rfl,_⟩ | ⟨rfl,_⟩
    · exact i.constCmp
    · exact i.constBits
  have onlyF := i.apart
  have isN : n ≠ f := by rcases which with ⟨rfl,_⟩ | ⟨rfl,_⟩ <;> exact Ne.symm (by tauto)
  obtain ⟨u,op⟩ := isConst
  obtain ⟨u',folded⟩ := foldedType (t := t) u
  obtain ⟨u'',again⟩ := foldedType (t := t) u'
  have shape : (removeShift g node).children n = [] ∧ (∃ u, opCode (removeShift g node) n = .const t u) ∧
      ((removeShift g node).payload n).constValue = wrap t.bits (toUnsigned t.bits amount / 2 ^ (shiftAmount g node).toNat) := by
    rw [opCode] at op
    rw [i.removed]
    by_cases same : c1 = c2
    · subst same
      have amounts : bitAmount g node = cmpAmount g node := by rw [bitAmount,cmpAmount,i.readF,i.readB,i.readC]
      rcases which with ⟨rfl,rfl⟩ | ⟨rfl,rfl⟩ <;> simp [foldShifted,opCode,op,folded,again,BitTest.shifted,i.short,amounts]
    · rcases which with ⟨rfl,rfl⟩ | ⟨rfl,rfl⟩
      · simp [foldShifted,opCode,op,folded,BitTest.shifted,i.short,same]
      · simp [foldShifted,opCode,op,folded,BitTest.shifted,i.short,Ne.symm same]
  obtain ⟨none,⟨w,isOp⟩,value⟩ := shape
  have made := @constIs others _ n _ _ none isOp rfl value
  rwa [show (OpCode.const t w).type.bits = t.bits from rfl,show wrap t.bits (wrap t.bits _) = _ from Int.bmod_bmod] at made

end Removed

section Kept

theorem constKept {n : Nat} {amount : Int} (lower : 0 ≤ shiftAmount g node) (below : shiftAmount g node < 64) (keeps : keepsBits g node amount = true)
    (which : n = c1 ∧ amount = cmpAmount g node ∨ n = c2 ∧ amount = bitAmount g node) :
    (shiftAmount g node = 0 ∨ amount = 0) ↔ ∀ w, Evaluates (meaning others) g n w → Evaluates (meaning others) (removeShift g node) n w := by
  have before : Evaluates (meaning others) g n amount ∧ InRange t.bits amount := by
    rcases which with ⟨rfl,rfl⟩ | ⟨rfl,rfl⟩
    · exact i.cmpValue.2
    · exact i.bitsValue.2
  have narrow := i.narrow
  have after := @removedConst others g roots node f c1 sh c2 x a op compare t i n amount which
  rw [← constSame (by omega) (by omega) before.2 lower below (of_decide_eq_true keeps)]
  refine ⟨fun same w evaluates => ?_,fun kept => after.unique (kept amount before.1)⟩
  rw [evaluates.unique before.1]
  rwa [same] at after

theorem operandKept {z : Int} (lower : 0 ≤ shiftAmount g node) (below : shiftAmount g node < 64) (keepsB : keepsBits g node (bitAmount g node) = true)
    (keepsC : keepsBits g node (cmpAmount g node) = true) (acyclic : ¬ Below g f f)
    (bits : c2 = x ∨ Below g c2 x → shiftAmount g node = 0 ∨ bitAmount g node = 0)
    (cmp : c1 = x ∨ Below g c1 x → shiftAmount g node = 0 ∨ cmpAmount g node = 0) (evaluates : Evaluates (meaning others) g x z) :
    Evaluates (meaning others) (removeShift g node) x z := by
  refine keptUnder i.removedSame evaluates fun c which changed => ?_
  rcases changed with rfl | rfl | rfl
  · have under : Below g x c := Relation.TransGen.tail (.single (by simp [i.shifted])) (show sh ∈ g.children c by simp [i.inner])
    exact absurd (which.elim (fun same => same ▸ under) fun lower => lower.trans under) acyclic
  · exact (i.constKept lower below keepsC (.inl ⟨rfl,rfl⟩)).mp (cmp which)
  · exact (i.constKept lower below keepsB (.inr ⟨rfl,rfl⟩)).mp (bits which)

-- The bitwise node and the branch afterwards.
theorem removedValues {z : Int} (operand : Evaluates (meaning others) (removeShift g node) x z) :
    Evaluates (meaning others) (removeShift g node) f (bitwiseAfter op t.bits (shiftAmount g node) (bitAmount g node) z) ∧
    Evaluates (meaning others) (removeShift g node) node
      (wrap 32 (if rewrittenTruth op compare (shiftAmount g node) (bitAmount g node) (cmpAmount g node) z then 1 else 0)) := by
  obtain ⟨u,opF⟩ := i.isBitwise
  obtain ⟨payloadF,childrenF⟩ := i.removedBitwise
  obtain ⟨payloadN,childrenN⟩ := i.removedSame node (by have := i.apart; tauto)
  have first := binaryMade childrenF (by rw [opCode,payloadF]; exact opF) operand (i.removedConst (.inr ⟨rfl,rfl⟩))
  refine ⟨first,?_⟩
  rw [rewrittenTruth,← i.bits]
  exact compareMade (by rw [childrenN]; exact i.two) (by rw [opCode,payloadN]; exact i.isOp) first (i.removedConst (.inl ⟨rfl,rfl⟩))

theorem conditions (roots : Nat → Nat) : RemovesSoundly g roots node compare ↔
    agrees op compare (shiftAmount g node).toNat (bitAmount g node) (cmpAmount g node) = true ∧
    (Elsewhere g roots node f → shiftAmount g node % 32 = 0 ∨ op = .and ∧ bitAmount g node = 0) ∧
    (Reused g roots node x c2 → shiftAmount g node = 0 ∨ bitAmount g node = 0) ∧ (Reused g roots node x c1 → shiftAmount g node = 0 ∨ cmpAmount g node = 0) := by
  obtain ⟨u,opF⟩ := i.isBitwise
  have isOp : bitwiseOf (opCode g f) = op := by rw [opF]; rfl
  have isX : unshifted g node = x := by rw [unshifted,i.readF,i.readS,i.readX]
  constructor
  · rintro ⟨test,bitwise,bits,cmp⟩
    rw [i.readF,isOp] at test bitwise
    rw [i.readF,i.readB,isX] at bits
    rw [i.readC,isX] at cmp
    exact ⟨test,bitwise,bits,cmp⟩
  · rintro ⟨test,bitwise,bits,cmp⟩
    constructor
    · rwa [i.readF,isOp]
    · rwa [i.readF,isOp]
    · rwa [i.readF,i.readB,isX]
    · rwa [i.readC,isX]

theorem removedSound (lower : 0 ≤ shiftAmount g node) (below : shiftAmount g node < 64) (keepsB : keepsBits g node (bitAmount g node) = true)
    (keepsC : keepsBits g node (cmpAmount g node) = true) (sound : RemovesSoundly g roots node compare) :
    Preserved (meaning others) g roots node (removeShift g node) node := by
  obtain ⟨test,bitwise,bits,cmp⟩ := (i.conditions roots).mp sound
  have keptB := of_decide_eq_true keepsB
  have keptC := of_decide_eq_true keepsC
  have narrow := i.narrow
  have insideB := (@bitsValue (fun _ _ _ => 0) g roots node f c1 sh c2 x a op compare t i).2.2
  have insideC := (@cmpValue (fun _ _ _ => 0) g roots node f c1 sh c2 x a op compare t i).2.2
  have operand : ∀ z, ¬ Below g f f → Evaluates (meaning others) g x z → Evaluates (meaning others) (removeShift g node) x z := by
    intro z acyclic
    exact i.operandKept lower below keepsB keepsC acyclic (fun which => bits (.inr which)) fun which => cmp (.inr which)
  have value : ∀ v, Evaluates (meaning others) g node v → Evaluates (meaning others) (removeShift g node) node v := by
    intro v evaluates
    obtain ⟨z,first,second,same⟩ := i.values evaluates
    have every := agreesExact i.bitwise (i.bits ▸ narrow) (i.bits ▸ insideB) (i.bits ▸ insideC) lower below keptB keptC
    have after := (i.removedValues (operand z second.acyclic first)).2
    rwa [every.mp test z,← same] at after
  refine ⟨value,fun m v which evaluates => ?_⟩
  rcases which with rfl | elsewhere
  · exact value v evaluates
  · refine keptElsewhere i.removedSame value (fun c changed shared w evaluates => ?_) elsewhere evaluates
    rcases changed with rfl | rfl | rfl
    · obtain ⟨z,first,same⟩ := i.bitwiseValue evaluates
      have every := (bitwiseExact i.bitwise (by omega) (by omega) insideB lower below keptB).mpr (bitwise shared)
      have after := (i.removedValues (operand z evaluates.acyclic first)).1
      rwa [every z,← same] at after
    · exact (i.constKept lower below keepsC (.inl ⟨rfl,rfl⟩)).mp (cmp (.inl shared)) w evaluates
    · exact (i.constKept lower below keepsB (.inr ⟨rfl,rfl⟩)).mp (bits (.inl shared)) w evaluates

theorem valuesMade {z : Int} (operand : Evaluates (meaning others) g x z) :
    Evaluates (meaning others) g f (bitwiseBefore op t.bits (shiftAmount g node) (bitAmount g node) z) ∧
    Evaluates (meaning others) g node
      (wrap 32 (if originalTruth op compare (shiftAmount g node) (bitAmount g node) (cmpAmount g node) z then 1 else 0)) := by
  obtain ⟨u,opF⟩ := i.isBitwise
  obtain ⟨u',opS⟩ := i.isShift
  have shift := binaryMade i.shifted opS operand i.amountValue
  have first := binaryMade i.inner opF shift i.bitsValue.2.1
  refine ⟨first,?_⟩
  rw [originalTruth,← i.bits]
  exact compareMade i.two i.isOp first i.cmpValue.2.1

-- A load, of which nothing is known.
def opaqueLeaf (g : Trees) (x : Nat) : Prop := g.children x = [] ∧ ∃ t code, opCode g x = .other t code

theorem leafKept (leaf : opaqueLeaf g x) (z : Int) : Evaluates (meaning fun _ _ _ => z) g x (wrap t.bits z) ∧
    Evaluates (meaning fun _ _ _ => z) (removeShift g node) x (wrap t.bits z) := by
  obtain ⟨none,s,code,isOther⟩ := leaf
  obtain ⟨_,opF⟩ := i.isBitwise
  obtain ⟨_,opC⟩ := i.constCmp
  obtain ⟨_,opB⟩ := i.constBits
  have away : ¬ (x = f ∨ x = c1 ∨ x = c2) := by
    rintro (same | same | same) <;> rw [same] at isOther
    · exact nomatch opF.symm.trans isOther
    · exact nomatch opC.symm.trans isOther
    · exact nomatch opB.symm.trans isOther
  obtain ⟨payload,children⟩ := i.removedSame x away
  have type := i.typeX
  rw [isOther] at type
  have isType : s = t := type
  subst isType
  have means : meaning (fun _ _ _ => z) (g.payload x) [] = wrap s.bits z := by
    rw [opCode] at isOther
    rw [meaning,exactValue.eq_def,isOther]
    rfl
  have first : Evaluates (meaning fun _ _ _ => z) g x _ := Evaluates.leaf none
  have second : Evaluates (meaning fun _ _ _ => z) (removeShift g node) x _ := Evaluates.leaf (children.trans none)
  rw [payload] at second
  rw [means] at first second
  exact ⟨first,second⟩

theorem removedSharp (lower : 0 ≤ shiftAmount g node) (below : shiftAmount g node < 64) (keepsB : keepsBits g node (bitAmount g node) = true)
    (keepsC : keepsBits g node (cmpAmount g node) = true) (leaf : opaqueLeaf g x)
    (preserved : ∀ others, Preserved (meaning others) g roots node (removeShift g node) node) : RemovesSoundly g roots node compare := by
  have keptB := of_decide_eq_true keepsB
  have keptC := of_decide_eq_true keepsC
  have narrow := i.narrow
  have insideB := (@bitsValue (fun _ _ _ => 0) g roots node f c1 sh c2 x a op compare t i).2.2
  have insideC := (@cmpValue (fun _ _ _ => 0) g roots node f c1 sh c2 x a op compare t i).2.2
  have truth : ∀ z, rewrittenTruth op compare (shiftAmount g node) (bitAmount g node) (cmpAmount g node) z =
      originalTruth op compare (shiftAmount g node) (bitAmount g node) (cmpAmount g node) z := by
    intro z
    obtain ⟨before,after⟩ := i.leafKept leaf z
    have same := ((preserved fun _ _ _ => z).value _ (i.valuesMade before).2).unique (i.removedValues after).2
    have left : originalTruth op compare (shiftAmount g node) (bitAmount g node) (cmpAmount g node) (wrap t.bits z) =
        originalTruth op compare (shiftAmount g node) (bitAmount g node) (cmpAmount g node) z := by
      have := beforeWrap op compare.operand.bits (shiftAmount g node) (bitAmount g node) z
      rw [bitwiseBefore,bitwiseBefore] at this
      rw [originalTruth,originalTruth,i.bits,this]
    have right : rewrittenTruth op compare (shiftAmount g node) (bitAmount g node) (cmpAmount g node) (wrap t.bits z) =
        rewrittenTruth op compare (shiftAmount g node) (bitAmount g node) (cmpAmount g node) z := by
      have := afterWrap i.bitwise compare.operand.bits (shiftAmount g node) (bitAmount g node) z
      rw [bitwiseAfter,bitwiseAfter] at this
      rw [rewrittenTruth,rewrittenTruth,i.bits,this]
    rw [left,right] at same
    revert same
    cases rewrittenTruth op compare (shiftAmount g node) (bitAmount g node) (cmpAmount g node) z <;>
      cases originalTruth op compare (shiftAmount g node) (bitAmount g node) (cmpAmount g node) z <;> decide
  have notUnder : ∀ c, (∃ u, opCode g c = .const t u) → ¬ (c = x ∨ Below g c x) := by
    rintro c ⟨u,isConst⟩ which
    obtain ⟨none,s,code,isOther⟩ := leaf
    rcases which with rfl | under
    · cases isConst.symm.trans isOther
    · cases under with
      | single on => exact List.not_mem_nil (none ▸ on)
      | tail _ on => exact List.not_mem_nil (none ▸ on)
  refine (i.conditions roots).mpr ⟨?_,fun shared => ?_,fun reused => ?_,fun reused => ?_⟩
  · exact (agreesExact i.bitwise (i.bits ▸ narrow) (i.bits ▸ insideB) (i.bits ▸ insideC) lower below keptB keptC).mpr truth
  · refine (bitwiseExact i.bitwise (by omega) (by omega) insideB lower below keptB).mp fun z => ?_
    obtain ⟨before,after⟩ := i.leafKept leaf z
    have same := ((preserved fun _ _ _ => z).shared _ _ (.inr shared) (i.valuesMade before).1).unique (i.removedValues after).1
    rw [beforeWrap,afterWrap i.bitwise] at same
    exact same.symm
  · have shared := reused.resolve_right (notUnder c2 i.constBits)
    exact (i.constKept lower below keepsB (.inr ⟨rfl,rfl⟩)).mpr ((preserved fun _ _ _ => 0).shared c2 · (.inr shared))
  · have shared := reused.resolve_right (notUnder c1 i.constCmp)
    exact (i.constKept lower below keepsC (.inl ⟨rfl,rfl⟩)).mpr ((preserved fun _ _ _ => 0).shared c1 · (.inr shared))

end Kept

end Shape

theorem oneRelation (compare : CompareOp) : (isEqualCmp compare && isNotEqualCmp compare) = false := by
  obtain ⟨operand,relation⟩ := compare
  cases relation <;> simp [isEqualCmp,isNotEqualCmp]

theorem unremoved {g' : Trees} {transforms : Bool} (ran : bitTestingOp transforms g node compare = some g') (kept : ¬ removesShift transforms g node = true) : g' = g := by
  simp only [removesShift,Bool.and_eq_true] at kept
  simp only [bitTestingOp,oneRelation,Bool.false_eq_true,↓reduceIte,Bool.and_eq_true] at ran
  split at ran
  · rename_i tests
    obtain ⟨_,ran⟩ := Option.ite_none_left_eq_some.mp ran
    rw [if_neg (by tauto)] at ran
    exact (Option.some.inj ran).symm
  · exact (Option.some.inj ran).symm

theorem removedSpec {g' : Trees} {transforms : Bool} (ran : bitTestingOp transforms g node compare = some g') (removes : removesShift transforms g node = true) :
    (0 ≤ shiftAmount g node ∧ shiftAmount g node < 64) ∧ g' = removeShift g node := by
  simp only [removesShift,Bool.and_eq_true] at removes
  simp only [bitTestingOp,oneRelation,Bool.false_eq_true,↓reduceIte,Bool.and_eq_true,removes,and_self] at ran
  obtain ⟨range,ran⟩ := Option.ite_none_left_eq_some.mp ran
  exact ⟨by omega,(Option.some.inj ran).symm⟩

-- The branch keeps its truth, and what other trees use its value, exactly when the shift is removed soundly.
theorem bitTestExactly {g' : Trees} {transforms : Bool} (formed : WellFormed g roots) (live : 0 < g.referenceCount node)
    (isOp : opCode g node = .ifcmp compare) (narrow : isByteOrShort compare = true) (ran : bitTestingOp transforms g node compare = some g') :
    ((removesShift transforms g node = true → RemovesSoundly g roots node compare) → ∀ others, Preserved (meaning others) g roots node g' node) ∧
    (Shape.opaqueLeaf g (unshifted g node) → (∀ others, Preserved (meaning others) g roots node g' node) →
      removesShift transforms g node = true → RemovesSoundly g roots node compare) := by
  by_cases removes : removesShift transforms g node = true
  · obtain ⟨⟨lower,below⟩,rfl⟩ := removedSpec ran removes
    simp only [removesShift,Bool.and_eq_true] at removes
    obtain ⟨⟨⟨tests,keepsB⟩,keepsC⟩,rfl⟩ := removes
    obtain ⟨f,c1,sh,c2,x,a,op,t,i⟩ := shapeOf formed live isOp narrow tests
    have isX : unshifted g node = x := by rw [unshifted,i.readF,i.readS,i.readX]
    have flag : removesShift true g node = true := by simp [removesShift,tests,keepsB,keepsC]
    refine ⟨fun sound others => i.removedSound lower below keepsB keepsC (sound flag),fun leaf preserved _ => ?_⟩
    exact i.removedSharp lower below keepsB keepsC (isX ▸ leaf) preserved
  · rw [unremoved ran removes]
    exact ⟨fun _ _ => Preserved.refl _ _ _ _,fun _ _ now => absurd now removes⟩

-- ifbcmpne of a load shifted by one, its bit 1 tested.
def sampleList (op : BinaryOp) (relation : CompareHandlers.Relation) : List (Vertex Node) :=
  [⟨⟨.other .Int8 0,0,false⟩,[],1⟩,⟨⟨iconst,1,false⟩,[],1⟩,⟨⟨.binary .shl .Int8 false,0,false⟩,[0,1],1⟩,⟨⟨.const .Int8 false,2,false⟩,[],1⟩,
    ⟨⟨.binary op .Int8 false,0,false⟩,[2,3],1⟩,⟨⟨.const .Int8 false,2,false⟩,[],1⟩,⟨⟨.ifcmp ⟨.b,relation⟩,0,false⟩,[4,5],1⟩]

theorem sampleChecked : Checked (sampleList .and .ne) [6] ∧ Checked (sampleList .or .eq) [6] := ⟨by decide,by decide⟩

theorem sampleUnshared {op : BinaryOp} {relation : CompareHandlers.Relation} {m : Nat}
    (elsewhere : Elsewhere (listed (sampleList op relation)) (rootsOf [6]) 6 m) : False := by
  induction elsewhere with
  | @root m rooted other =>
      have on : m ∈ [6] := List.count_pos_iff.mp rooted
      exact other (List.mem_singleton.mp on)
  | child _ _ _ ih => exact ih

theorem bitTestExactlySample : Preserved (meaning fun _ _ _ => -3) (listed (sampleList .and .ne)) (rootsOf [6]) 6
    (removeShift (listed (sampleList .and .ne)) 6) 6 := by
  have ran : bitTestingOp true (listed (sampleList .and .ne)) 6 ⟨.b,.ne⟩ = some (removeShift (listed (sampleList .and .ne)) 6) := rfl
  have exactly := bitTestExactly sampleChecked.1.formed (by decide) (show opCode (listed (sampleList .and .ne)) 6 = .ifcmp ⟨.b,.ne⟩ from rfl) rfl ran
  have leaf : ∀ c, c ≠ 0 → ¬ (c = 0 ∨ Below (listed (sampleList .and .ne)) c 0) := by
    rintro c other (same | under)
    · exact other same
    · cases under with
      | single on => cases on
      | tail _ on => cases on
  refine exactly.1 (fun _ => ⟨by decide,fun shared => (sampleUnshared shared).elim,fun reused => ?_,fun reused => ?_⟩) fun _ _ _ => -3
  · exact absurd (reused.resolve_left (sampleUnshared)) (leaf 3 (by decide))
  · exact absurd (reused.resolve_left (sampleUnshared)) (leaf 5 (by decide))

-- ((x << 1) | 2) == 2 holds for -128, (x | 1) == 1 does not.
theorem orLosesBits : ¬ Preserved (meaning fun _ _ _ => -128) (listed (sampleList .or .eq)) (rootsOf [6]) 6
    (removeShift (listed (sampleList .or .eq)) 6) 6 := by
  intro preserved
  have i : Shape (listed (sampleList .or .eq)) (rootsOf [6]) 6 4 5 2 3 0 1 .or ⟨.b,.eq⟩ .Int8 :=
    ⟨sampleChecked.2.formed,by decide,rfl,rfl,⟨false,rfl⟩,rfl,⟨false,rfl⟩,rfl,⟨false,rfl⟩,⟨false,rfl⟩,⟨false,rfl⟩,rfl,rfl,.inl rfl,by decide,rfl⟩
  obtain ⟨before,after⟩ := i.leafKept ⟨rfl,.Int8,0,rfl⟩ (-128)
  have same := (preserved.value _ (i.valuesMade before).2).unique (i.removedValues after).2
  revert same
  decide

end Nodes

end OmrCompiler.BitTestShared
