import OmrCompiler.MultiplyNodes

/-! The rules of lmulSimplifier keep the value of the node and of what is used elsewhere. -/
namespace OmrCompiler.MultiplyRules
open MachineInt Constraint SharedGraph MultiplyDistribution MultiplyNodes

section Rules
variable {others : DataType → Nat → List Int → Int} {g : Trees} {roots : Nat → Nat} {node f s : Nat} {v : Int}

-- An operation that has a value, with its two operands.
structure Binary (others : DataType → Nat → List Int → Int) (g : Trees) (roots : Nat → Nat) (node f s : Nat) (v : Int) : Prop where
  formed : WellFormed g roots
  live : 0 < g.referenceCount node
  two : g.children node = [f,s]
  evaluates : Evaluates (meaning others) g node v

structure Multiplies (others : DataType → Nat → List Int → Int) (g : Trees) (roots : Nat → Nat) (node f s : Nat) (v : Int) : Prop
    extends Binary others g roots node f s v where
  op : opCode g node = .lmul

structure Operand (g : Trees) (node c : Nat) : Prop where
  below : Below g c node
  live : 0 < g.referenceCount c
  inside : c < g.size
  other : c ≠ node

theorem operandOf (formed : WellFormed g roots) (live : 0 < g.referenceCount node) (acyclic : ¬ Below g node node) {c : Nat}
    (on : c ∈ g.children node) : Operand g node c := by
  have liveC := formed.counted.live live on
  exact ⟨.single on,liveC,formed.counted.allocated liveC,by rintro rfl; exact acyclic (.single on)⟩

theorem Operand.step (formed : WellFormed g roots) (acyclic : ¬ Below g node node) {c d : Nat} (operand : Operand g node c)
    (on : d ∈ g.children c) : Operand g node d := by
  have liveD := formed.counted.live operand.live on
  have below : Below g d node := Relation.TransGen.head on operand.below
  exact ⟨below,liveD,formed.counted.allocated liveD,by rintro rfl; exact acyclic below⟩

theorem becomesConst {g' : Trees} {value : Int} (none : g'.children node = []) (isConst : isLoadConst g' node = true)
    (long : (opCode g' node).type = .Int64) (same : (g'.payload node).constValue = value) : Evaluates (meaning others) g' node (wrap 64 value) := by
  have leaf : Evaluates (meaning others) g' node (meaning others (g'.payload node) []) := Evaluates.leaf none
  rw [meaning,exactConst isConst,same] at leaf
  unfold opCode at long
  rw [long] at leaf
  exact leaf

theorem wrapAgain (w : Nat) (x : Int) : wrap w (wrap w x) = wrap w x := Int.bmod_bmod

theorem exactProduct {p : Node} (op : p.opCode = .lmul) (x y : Int) : meaning others p [x,y] = wrap 64 (x * y) := by
  simp only [meaning,exactValue,op]
  rfl

theorem exactSum {p : Node} (op : p.opCode = .ladd) (x y : Int) : meaning others p [x,y] = wrap 64 (x + y) := by
  simp only [meaning,exactValue,op]
  rfl

theorem exactDifference {p : Node} (op : p.opCode = .lsub) (x y : Int) : meaning others p [x,y] = wrap 64 (x - y) := by
  simp only [meaning,exactValue,op]
  rfl

theorem productMade {n a b : Nat} {x y : Int} (two : g.children n = [a,b]) (op : opCode g n = .lmul) (first : Evaluates (meaning others) g a x)
    (second : Evaluates (meaning others) g b y) : Evaluates (meaning others) g n (wrap 64 (x * y)) := by
  rw [← exactProduct op]
  exact Evaluates.binary two first second

theorem sumMade {n a b : Nat} {x y : Int} (two : g.children n = [a,b]) (op : opCode g n = .ladd) (first : Evaluates (meaning others) g a x)
    (second : Evaluates (meaning others) g b y) : Evaluates (meaning others) g n (wrap 64 (x + y)) := by
  rw [← exactSum op]
  exact Evaluates.binary two first second

theorem differenceMade {n a b : Nat} {x y : Int} (two : g.children n = [a,b]) (op : opCode g n = .lsub) (first : Evaluates (meaning others) g a x)
    (second : Evaluates (meaning others) g b y) : Evaluates (meaning others) g n (wrap 64 (x - y)) := by
  rw [← exactDifference op]
  exact Evaluates.binary two first second

namespace Binary
variable (m : Binary others g roots node f s v)
include m

theorem acyclic : ¬ Below g node node := m.evaluates.acyclic

theorem before : node < g.size := m.formed.counted.allocated m.live

theorem first : Operand g node f := operandOf m.formed m.live m.acyclic (by simp [m.two])

theorem second : Operand g node s := operandOf m.formed m.live m.acyclic (by simp [m.two])

theorem kept {g' : Trees} {mutated : List Nat} (frame : Frame (meaning others) g g' node mutated) {c : Nat} {x : Int} (operand : Operand g node c)
    (fixed : c ∉ mutated) (evaluates : Evaluates (meaning others) g c x) : Evaluates (meaning others) g' c x :=
  frame.operandKept m.formed.counted m.live m.acyclic operand.below operand.live fixed evaluates

theorem preserved {g' : Trees} {mutated : List Nat} (frame : Frame (meaning others) g g' node mutated) (value : Evaluates (meaning others) g' node v) :
    Preserved (meaning others) g roots node g' node := by
  refine frame.preserved m.formed.counted m.live fun w evaluates => ?_
  rw [evaluates.unique m.evaluates]
  exact value

-- Two uses by the node itself are counted twice.
theorem distinct (once : g.referenceCount f = 1) : s ≠ f := by
  have used := useCounted m.before m.live s
  have counts := m.formed.counted.counts s
  rintro rfl
  rw [m.two,List.count_cons_self,List.count_singleton_self] at used
  omega

theorem reads : getFirstChild g node = f ∧ getSecondChild g node = s := by simp [getFirstChild,getSecondChild,m.two]

end Binary

namespace Multiplies
variable (m : Multiplies others g roots node f s v)
include m

theorem types : (opCode g f).type = .Int64 ∧ (opCode g s).type = .Int64 := by
  obtain ⟨a,b,two,typeA,typeB⟩ := binaryChildren m.formed m.live (by rw [m.op]; rfl)
  rw [m.two] at two
  cases two
  exact ⟨typeA,typeB⟩

theorem factors : ∃ x y, Evaluates (meaning others) g f x ∧ Evaluates (meaning others) g s y ∧ v = wrap 64 (x * y) := by
  obtain ⟨x,y,first,second,same⟩ := m.evaluates.ofBinary m.two
  exact ⟨x,y,first,second,same.trans (exactProduct m.op x y)⟩

end Multiplies

theorem foldPreserved (env : Env) (m : Multiplies others g roots node f s v) (constF : isLoadConst g f = true) (constS : isLoadConst g s = true) :
    Preserved (meaning others) g roots node (foldLongIntConstant env g node (wrap 64 (getLongInt g f * getLongInt g s))) node := by
  unfold foldLongIntConstant
  split
  · have frame : Frame (meaning others) g (markHighWordZero (setConst (removeAllChildren (recreate g node .lconst) node) node
        (wrap 64 (getLongInt g f * getLongInt g s))) node) node [] := by
      refine ⟨fun k _ other _ => ?_,nofun⟩
      simp [other]
    refine m.preserved frame ?_
    obtain ⟨x,y,evalX,evalY,rfl⟩ := m.factors
    rw [evalX.unique (longConstValue m.formed m.first.live constF m.types.1),evalY.unique (longConstValue m.formed m.second.live constS m.types.2)]
    rw [← wrapAgain]
    refine becomesConst ?_ ?_ ?_ ?_
    · simp
    · simp [isLoadConst,opCode,OpCode.isLoadConst]
    · simp [opCode,OpCode.type]
    · simp only [markPayload,setConstPayload,if_true]
      exact wrapAgain 64 _
  · exact Preserved.refl _ _ _ _

theorem zeroPreserved (m : Multiplies others g roots node f s v) (constS : isLoadConst g s = true) (zero : getLongInt g s = 0) :
    Preserved (meaning others) g roots node (setConst (removeAllChildren (recreate g node (opCode g s)) node) node 0) node := by
  have frame : Frame (meaning others) g (setConst (removeAllChildren (recreate g node (opCode g s)) node) node 0) node [] := by
    refine ⟨fun k _ other _ => ?_,nofun⟩
    simp [other]
  refine m.preserved frame ?_
  obtain ⟨x,y,_,evalY,rfl⟩ := m.factors
  rw [evalY.unique (longConstValue m.formed m.second.live constS m.types.2),zero,Int.mul_zero]
  refine becomesConst ?_ ?_ ?_ ?_
  · simp
  · unfold isLoadConst opCode at constS ⊢
    simpa using constS
  · have long := m.types.2
    unfold opCode at long ⊢
    simpa using long
  · simp

theorem replacePreserved (env : Env) (m : Multiplies others g roots node f s v) (constS : isLoadConst g s = true) (one : getLongInt g s = 1) :
    Preserved (meaning others) g roots node (replaceNodeWithChild env g node f).1 (replaceNodeWithChild env g node f).2 := by
  unfold replaceNodeWithChild
  split
  · have frame : Frame (meaning others) g ((g.incReferenceCount f).recursivelyDecReferenceCount node) node [] := by
      refine ⟨fun k _ other _ => ?_,nofun⟩
      simp
    obtain ⟨x,y,evalX,evalY,same⟩ := m.factors
    have keptX := m.kept frame m.first (by simp) evalX
    have keptY := m.kept frame m.second (by simp) evalY
    have own : Evaluates (meaning others) ((g.incReferenceCount f).recursivelyDecReferenceCount node) node v := by
      have made := Evaluates.binary (n := node) (by simpa using m.two) keptX keptY
      rw [same,← exactProduct (p := g.payload node) m.op]
      simpa using made
    refine ⟨fun w evaluates => ?_,(m.preserved frame own).shared⟩
    have inside : InRange 64 x := by
      have range := valueRange evalX
      rw [m.types.1] at range
      exact range
    rw [evaluates.unique m.evaluates,same,evalY.unique (longConstValue m.formed m.second.live constS m.types.2),one,Int.mul_one,wrapSelf (by decide) inside]
    exact keptX
  · exact Preserved.refl _ _ _ _

-- The operands of the first child.
structure Inner (others : DataType → Nat → List Int → Int) (g : Trees) (roots : Nat → Nat) (node f s x c : Nat) (v : Int) : Prop where
  outer : Binary others g roots node f s v
  two : g.children f = [x,c]

namespace Inner
variable {x c : Nat} (i : Inner others g roots node f s x c v)
include i

theorem first : Operand g node x := i.outer.first.step i.outer.formed i.outer.acyclic (by simp [i.two])

theorem second : Operand g node c := i.outer.first.step i.outer.formed i.outer.acyclic (by simp [i.two])

-- The operands of the first child are used by it.
theorem unconsumed {d k : Nat} (on : d ∈ g.children f) (consumed : Consumed g node k) : d ≠ k := by
  rintro rfl
  exact i.outer.formed.counted.consumedOnly i.outer.live consumed (.inr ⟨f,i.outer.first.other,i.outer.first.live,on⟩)

theorem notFirst {d : Nat} (on : d ∈ g.children f) : d ≠ f := by
  rintro rfl
  obtain ⟨w,evaluates⟩ := i.outer.evaluates.operand (c := d) (by simp [i.outer.two])
  exact evaluates.acyclic (.single on)

end Inner

theorem constInner {x c : Nat} {z : Int} (i : Inner others g roots node f s x c v) (isConst : opCode g c = .lconst)
    (evaluates : Evaluates (meaning others) g c z) : z = getLongInt g c :=
  evaluates.unique (longConstValue i.outer.formed i.second.live (by rw [isLoadConst,isConst]; rfl) (by rw [isConst]; rfl))

theorem Inner.reads {x c : Nat} (i : Inner others g roots node f s x c v) :
    getFirstChild g node = f ∧ getSecondChild g node = s ∧ getFirstChild g f = x ∧ getSecondChild g f = c := by
  simp [getFirstChild,getSecondChild,i.outer.two,i.two]

theorem longConst {g : Trees} {n : Nat} (op : opCode g n = .lconst) : isLoadConst g n = true ∧ (opCode g n).type = .Int64 := by
  rw [isLoadConst,op]
  exact ⟨rfl,rfl⟩

theorem mergeShape {x c : Nat} (m : Multiplies others g roots node f s v) (inner : g.children f = [x,c]) (constS : opCode g s = .lconst) :
    ∃ k mutated, Frame (meaning others) g (mergeConstants g node) node mutated ∧ x ∉ mutated ∧ (mergeConstants g node).children node = [x,k] ∧
      opCode (mergeConstants g node) node = .lmul ∧
      Evaluates (meaning others) (mergeConstants g node) k (wrap 64 (wrap 64 (getLongInt g s * getLongInt g c))) := by
  have i : Inner others g roots node f s x c v := ⟨m.toBinary,inner⟩
  have noChildren := constChildren m.formed m.second.live (longConst constS).1
  have otherS := m.second.other
  have before := m.before
  have insideS := m.second.inside
  have op : (g.payload node).opCode = .lmul := m.op
  have const : (g.payload s).opCode = .lconst := constS
  obtain ⟨readF,readS,readX,readC⟩ := i.reads
  unfold mergeConstants
  simp only [readF,readS,readX,readC]
  by_cases once : g.referenceCount s = 1
  · rw [if_pos once]
    have consumed : Consumed g node s := ⟨by simp [m.two],once⟩
    have notS := i.unconsumed (d := x) (by simp [i.two]) consumed
    refine ⟨s,[s],⟨fun k _ other fixed => ?_,fun k on => List.mem_singleton.mp on ▸ consumed⟩,by simp [notS],?_,?_,becomesConst ?_ ?_ ?_ ?_⟩
    · have notS : k ≠ s := fun same => fixed (by simp [same])
      simp [other,notS]
    · simp [m.two,NodeGraph.setAt]
    · simp [opCode,Ne.symm otherS,op]
    · simp [otherS,noChildren]
    · simp [isLoadConst,opCode,const,OpCode.isLoadConst]
    · simp [opCode,const,OpCode.type]
    · simp
  · rw [if_neg once]
    refine ⟨g.size,[],⟨fun k inside other _ => ?_,by simp⟩,by simp,?_,?_,becomesConst ?_ ?_ ?_ ?_⟩
    · have notNew : k ≠ g.size := by omega
      simp [other,notNew]
    · simp [m.two,NodeGraph.setAt,Nat.ne_of_lt before]
    · simp [opCode,Nat.ne_of_lt before,op]
    · simp [Nat.ne_of_gt before]
    · simp [isLoadConst,opCode,OpCode.isLoadConst]
    · simp [opCode,OpCode.type]
    · simp

theorem mergeConstantsPreserved {x c : Nat} (m : Multiplies others g roots node f s v) (inner : g.children f = [x,c]) (isMul : opCode g f = .lmul) (constC : opCode g c = .lconst)
    (constS : opCode g s = .lconst) : Preserved (meaning others) g roots node (mergeConstants g node) node := by
  have i : Inner others g roots node f s x c v := ⟨m.toBinary,inner⟩
  obtain ⟨y,z,evalF,evalS,same⟩ := m.factors
  obtain ⟨u,w,evalX,evalC,inner⟩ := evalF.ofBinary i.two
  rw [exactProduct isMul,constInner i constC evalC] at inner
  have scalar := evalS.unique (longConstValue m.formed m.second.live (longConst constS).1 (longConst constS).2)
  obtain ⟨k,mutated,frame,fixed,two,op,evalK⟩ := mergeShape m i.two constS
  have value : v = wrap 64 (u * wrap 64 (wrap 64 (getLongInt g s * getLongInt g c))) := by
    rw [same,inner,scalar]
    simp only [wrap,Int.bmod_mul_bmod,Int.mul_bmod_bmod,Int.bmod_bmod]
    ring_nf
  refine m.preserved frame ?_
  rw [value]
  exact productMade two op (m.kept frame i.first fixed evalX) evalK

theorem moveConstantUpPreserved {x c : Nat} (m : Multiplies others g roots node f s v) (inner : g.children f = [x,c]) (isMul : opCode g f = .lmul)
    (once : g.referenceCount f = 1) : Preserved (meaning others) g roots node (moveConstantUp g node) node := by
  have i : Inner others g roots node f s x c v := ⟨m.toBinary,inner⟩
  obtain ⟨y,z,evalF,evalS,same⟩ := m.factors
  obtain ⟨u,w,evalX,evalC,inner⟩ := evalF.ofBinary i.two
  rw [exactProduct isMul] at inner
  have otherF := m.first.other
  have notF := i.notFirst (d := x) (by simp [i.two])
  have notF' := i.notFirst (d := c) (by simp [i.two])
  have notF'' := m.distinct once
  obtain ⟨readF,readS,readX,readC⟩ := i.reads
  have frame : Frame (meaning others) g (moveConstantUp g node) node [f] := by
    refine ⟨fun k _ other fixed => ?_,fun k on => List.mem_singleton.mp on ▸ ⟨by simp [m.two],once⟩⟩
    have notF : k ≠ f := fun same => fixed (by simp [same])
    simp [moveConstantUp,readF,other,notF]
  have payload : ∀ k, (moveConstantUp g node).payload k = g.payload k := fun k => by simp [moveConstantUp]
  have twoF : (moveConstantUp g node).children f = [x,s] := by simp [moveConstantUp,readF,readS,readC,otherF,i.two,NodeGraph.setAt]
  have twoN : (moveConstantUp g node).children node = [f,c] := by
    simp [moveConstantUp,readF,readC,Ne.symm otherF,m.two,NodeGraph.setAt]
  have evalF' : Evaluates (meaning others) (moveConstantUp g node) f (wrap 64 (u * z)) := by
    refine productMade twoF ?_ (m.kept frame i.first (by simp [notF]) evalX) (m.kept frame m.second (by simp [notF'']) evalS)
    rw [opCode,payload]
    exact isMul
  have value : v = wrap 64 (wrap 64 (u * z) * w) := by
    rw [same,inner]
    simp only [wrap,Int.bmod_mul_bmod]
    ring_nf
  refine m.preserved frame ?_
  rw [value]
  refine productMade twoN ?_ evalF' (m.kept frame i.second (by simp [notF']) evalC)
  rw [opCode,payload]
  exact m.op

-- What placing a product leaves: the node adds or subtracts a constant that only it uses.
structure Placed (g g' : Trees) (node f k : Nat) (mutated : List Nat) (product : Int) : Prop where
  size : g.size ≤ g'.size
  old : ∀ m < g.size, m ≠ node → m ∉ mutated → g'.payload m = g.payload m ∧ g'.children m = g.children m
  consumed : ∀ m ∈ mutated, Consumed g node m
  inside : k < g'.size
  other : k ≠ node
  two : g'.children node = [f,k]
  leaf : g'.children k = []
  const : opCode g' k = .lconst
  added : ¬ product > 0 → opCode g' node = .ladd ∧ (g'.payload k).constValue = product
  subtracted : product > 0 → opCode g' node = .lsub ∧ (g'.payload k).constValue = wrap 64 (-product)
  leaves : ∀ d ∈ mutated, g.children d = []
  place : k ∈ mutated ∨ g.size ≤ k

theorem placeProductShape (m : Multiplies others g roots node f s v) (constS : opCode g s = .lconst) (product : Int) :
    ∃ k mutated, Placed g (placeProduct g node product) node f k mutated product := by
  have noChildren := constChildren m.formed m.second.live (longConst constS).1
  have otherS := m.second.other
  have before := m.before
  have insideS := m.second.inside
  have const : (g.payload s).opCode = .lconst := constS
  have readS : getSecondChild g node = s := by simp [getSecondChild,m.two]
  unfold placeProduct
  simp only [readS]
  by_cases once : g.referenceCount s = 1
  · have consumed : Consumed g node s := ⟨by simp [m.two],once⟩
    refine ⟨s,[s],?_⟩
    simp only [if_pos once]
    split
    · rename_i positive
      refine ⟨by simp,fun k inside other fixed => ?_,fun k on => List.mem_singleton.mp on ▸ consumed,by simpa using insideS,otherS,?_,?_,?_,
        fun less => absurd positive less,fun _ => ?_,by simp [noChildren],.inl (by simp)⟩
      · have notS : k ≠ s := fun same => fixed (by simp [same])
        simp [other,notS]
      · simp [m.two]
      · simp [noChildren]
      · simp [opCode,otherS,const]
      · simp [opCode,otherS]
    · rename_i negative
      refine ⟨by simp,fun k inside other fixed => ?_,fun k on => List.mem_singleton.mp on ▸ consumed,by simpa using insideS,otherS,?_,?_,?_,
        fun _ => ?_,fun more => absurd more negative,by simp [noChildren],.inl (by simp)⟩
      · have notS : k ≠ s := fun same => fixed (by simp [same])
        simp [other,notS]
      · simp [m.two]
      · simp [noChildren]
      · simp [opCode,otherS,const]
      · simp [opCode,otherS]
  · refine ⟨g.size,[],?_⟩
    simp only [if_neg once]
    have notNew := Nat.ne_of_lt before
    split
    · rename_i positive
      refine ⟨by simp,fun k inside other _ => ?_,by simp,by simp,Ne.symm notNew,?_,?_,?_,fun less => absurd positive less,fun _ => ?_,by simp,.inr (Nat.le_refl _)⟩
      · have fresh : k ≠ g.size := by omega
        simp [other,fresh]
      · simp [m.two,notNew,NodeGraph.setAt]
      · simp [Ne.symm notNew]
      · simp [opCode,Ne.symm notNew]
      · simp [opCode,Ne.symm notNew]
    · rename_i negative
      refine ⟨by simp,fun k inside other _ => ?_,by simp,by simp,Ne.symm notNew,?_,?_,?_,fun _ => ?_,fun more => absurd more negative,by simp,.inr (Nat.le_refl _)⟩
      · have fresh : k ≠ g.size := by omega
        simp [other,fresh]
      · simp [m.two,notNew,NodeGraph.setAt]
      · simp [Ne.symm notNew]
      · simp [opCode,Ne.symm notNew]
      · simp [opCode,Ne.symm notNew]

-- Adding or subtracting the placed constant adds the product.
theorem Placed.total {g' g'' : Trees} {k newFirst : Nat} {mutated : List Nat} {product y : Int} (placed : Placed g g' node f k mutated product)
    (payload : ∀ d, d = node ∨ d = k → g''.payload d = g'.payload d) (leaf : g''.children k = []) (two : g''.children node = [newFirst,k])
    (first : Evaluates (meaning others) g'' newFirst y) : Evaluates (meaning others) g'' node (wrap 64 (y + product)) := by
  have constK : opCode g'' k = .lconst := by
    rw [opCode,payload k (.inr rfl)]
    exact placed.const
  have evalK : Evaluates (meaning others) g'' k (wrap 64 (g''.payload k).constValue) :=
    becomesConst leaf (longConst constK).1 (longConst constK).2 rfl
  rw [payload k (.inr rfl)] at evalK
  by_cases positive : product > 0
  · obtain ⟨op,value⟩ := placed.subtracted positive
    rw [value] at evalK
    have op' : opCode g'' node = .lsub := by
      rw [opCode,payload node (.inl rfl)]
      exact op
    have made := differenceMade two op' first evalK
    have same : wrap 64 (y - wrap 64 (wrap 64 (-product))) = wrap 64 (y + product) := by
      simp only [wrap,Int.bmod_bmod,Int.sub_bmod_bmod,Int.sub_neg]
    rw [same] at made
    exact made
  · obtain ⟨op,value⟩ := placed.added positive
    rw [value] at evalK
    have op' : opCode g'' node = .ladd := by
      rw [opCode,payload node (.inl rfl)]
      exact op
    have made := sumMade two op' first evalK
    have same : wrap 64 (y + wrap 64 product) = wrap 64 (y + product) := by simp only [wrap,Int.add_bmod_bmod]
    rw [same] at made
    exact made

-- The new multiplication scales its operand, and what was there stays.
theorem scaleShape {g' : Trees} {x c : Nat} (before : node < g'.size) (scale : Int) :
    ∃ g'', scaleBy (releaseSum (((create g' .lmul).setAndIncChild node 0 g'.size).setAndIncChild g'.size 0 x) f x c) g'.size scale = g'' ∧
      (∀ d < g'.size, g''.payload d = g'.payload d) ∧ (∀ d < g'.size, d ≠ node → g''.children d = g'.children d) ∧
      g''.children node = NodeGraph.setAt (g'.children node) 0 g'.size ∧
      ∀ y, Evaluates (meaning others) g'' x y → Evaluates (meaning others) g'' g'.size (wrap 64 (y * wrap 64 scale)) := by
  have notNew : node ≠ g'.size ∧ node ≠ g'.size + 1 := by omega
  refine ⟨_,rfl,fun d inside => ?_,fun d inside other => ?_,?_,fun y evaluates =>
    @productMade others _ _ x (g'.size + 1) y (wrap 64 scale) ?_ ?_ evaluates (becomesConst ?_ ?_ ?_ ?_)⟩
  · have fresh : d ≠ g'.size ∧ d ≠ g'.size + 1 := by omega
    simp [scaleBy,fresh]
  · have fresh : d ≠ g'.size ∧ d ≠ g'.size + 1 := by omega
    simp [scaleBy,fresh,other]
  · simp [scaleBy,notNew]
  · simp [scaleBy,Ne.symm notNew.1,NodeGraph.setAt]
  · simp [scaleBy,opCode]
  · simp [scaleBy]
  · simp [scaleBy,isLoadConst,opCode,OpCode.isLoadConst]
  · simp [scaleBy,opCode,OpCode.type]
  · simp [scaleBy]

theorem distributeLongPreserved {x c : Nat} (m : Multiplies others g roots node f s v) (inner : g.children f = [x,c]) (isSum : opCode g f = .ladd ∨ opCode g f = .lsub)
    (constC : opCode g c = .lconst) (constS : opCode g s = .lconst) : Preserved (meaning others) g roots node (distributeLong g node) node := by
  have i : Inner others g roots node f s x c v := ⟨m.toBinary,inner⟩
  obtain ⟨y,z,evalF,evalS,same⟩ := m.factors
  obtain ⟨u,w,evalX,evalC,inner⟩ := evalF.ofBinary i.two
  have scalar := evalS.unique (longConstValue m.formed m.second.live (longConst constS).1 (longConst constS).2)
  have scalarC := constInner i constC evalC
  obtain ⟨readF,readS,readX,readC⟩ := i.reads
  unfold distributeLong
  simp only [readF,readS,readX,readC]
  generalize chosen : (if opCode g f = .lsub then wrap 64 (-wrap 64 (getLongInt g c * getLongInt g s)) else wrap 64 (getLongInt g c * getLongInt g s)) = product
  obtain ⟨k,mutated,placed⟩ := placeProductShape m constS product
  generalize placeProduct g node product = g' at placed ⊢
  have size := placed.size
  have before := Nat.lt_of_lt_of_le m.before size
  obtain ⟨g'',built,payload,children,two,scales⟩ := @scaleShape others node f g' x c before (getLongInt g s)
  rw [built]
  have frame : Frame (meaning others) g g'' node mutated := by
    refine ⟨fun d inside other fixed => ?_,placed.consumed⟩
    obtain ⟨payload',children'⟩ := placed.old d inside other fixed
    rw [payload d (by omega),children d (by omega) other]
    exact ⟨fun values => by rw [payload'],children'⟩
  have fixed : x ∉ mutated := fun on => i.unconsumed (d := x) (by simp [i.two]) (placed.consumed x on) rfl
  have value : v = wrap 64 (wrap 64 (u * wrap 64 (getLongInt g s)) + product) := by
    rw [same,inner,scalar,← chosen,← scalarC]
    rcases isSum with op | op
    · rw [exactSum op,if_neg (by rw [op]; nofun)]
      simp only [wrap,Int.bmod_mul_bmod,Int.mul_bmod_bmod,Int.bmod_add_bmod,Int.add_bmod_bmod]
      ring_nf
    · rw [exactDifference op,if_pos op]
      simp only [wrap,Int.bmod_mul_bmod,Int.mul_bmod_bmod,Int.bmod_add_bmod,Int.add_bmod_bmod,Int.bmod_neg_bmod]
      ring_nf
  refine m.preserved frame ?_
  rw [value]
  refine placed.total (fun d which => payload d ?_) ?_ ?_ (scales u (m.kept frame i.first fixed evalX))
  · rcases which with rfl | rfl
    · exact before
    · exact placed.inside
  · rw [children k placed.inside placed.other]
    exact placed.leaf
  · rw [two,placed.two]
    rfl

theorem widenMade {n a : Nat} {x : Int} (one : g.children n = [a]) (op : opCode g n = .i2l) (evaluates : Evaluates (meaning others) g a x) :
    Evaluates (meaning others) g n (wrap 64 x) := by
  have made := Evaluates.unary one evaluates
  have same : meaning others (g.payload n) [x] = wrap 64 x := by
    unfold opCode at op
    simp only [meaning,exactValue,op]
    rfl
  rw [same] at made
  exact made

theorem meaningCore {p q : Node} (op : p.opCode = q.opCode) (const : p.constValue = q.constValue) (values : List Int) :
    meaning others p values = meaning others q values := by
  simp only [meaning,exactValue,op,const]

theorem widenShape {g' : Trees} {shared : Bool} {sum x c : Nat} (before : node < g'.size) (insideF : f < g'.size) (insideX : x < g'.size)
    (otherF : f ≠ node) (apart : x ≠ f) (op : opCode g' f = .i2l) (one : g'.children f = [sum]) (scale : Int) :
    ∃ g'', widenFirst g' shared node f sum x c scale = g'' ∧
      (∀ d < g'.size, (d ≠ f ∨ shared = true) → d ≠ x → g''.payload d = g'.payload d) ∧
      (∀ values, meaning others (g''.payload x) values = meaning others (g'.payload x) values) ∧
      (∀ d < g'.size, d ≠ node → (d ≠ f ∨ shared = true) → g''.children d = g'.children d) ∧
      g''.children node = NodeGraph.setAt (g'.children node) 0 g'.size ∧
      ∀ y, Evaluates (meaning others) g'' x y → Evaluates (meaning others) g'' g'.size (wrap 64 (wrap 64 y * wrap 64 scale)) := by
  have notNew : node ≠ g'.size ∧ node ≠ g'.size + 1 ∧ node ≠ g'.size + 2 := by omega
  have notNewF : f ≠ g'.size ∧ f ≠ g'.size + 1 ∧ f ≠ g'.size + 2 := by omega
  have notNewX : x ≠ g'.size ∧ x ≠ g'.size + 1 ∧ x ≠ g'.size + 2 := by omega
  have apartNew : g'.size ≠ g'.size + 1 + 1 := by omega
  unfold opCode at op
  cases shared with
  | false =>
      refine ⟨_,rfl,fun d inside notF notX => ?_,fun values => meaningCore ?_ ?_ values,fun d inside other notF => ?_,?_,fun y evaluates => ?_⟩
      · have fresh : d ≠ g'.size ∧ d ≠ g'.size + 1 := by omega
        have notF : d ≠ f := by simpa using notF
        simp [widenFirst,scaleBy,fresh,notF,notX]
      · simp [widenFirst,scaleBy,notNewX,apart]
      · simp [widenFirst,scaleBy,notNewX,apart]
      · have fresh : d ≠ g'.size ∧ d ≠ g'.size + 1 := by omega
        have notF : d ≠ f := by simpa using notF
        simp [widenFirst,scaleBy,fresh,notF,other]
      · simp [widenFirst,scaleBy,notNew,Ne.symm otherF]
      · refine @productMade others _ _ f (g'.size + 1) (wrap 64 y) (wrap 64 scale) ?_ ?_ (widenMade ?_ ?_ evaluates) (becomesConst ?_ ?_ ?_ ?_)
        · simp [widenFirst,scaleBy,Ne.symm notNew.1,Ne.symm notNewF.1,NodeGraph.setAt]
        · simp [widenFirst,scaleBy,opCode,Ne.symm notNewF.1,Ne.symm notNewX.1]
        · simp [widenFirst,scaleBy,notNewF,otherF,one,NodeGraph.setAt]
        · simp [widenFirst,scaleBy,opCode,notNewF,Ne.symm apart,op]
        · simp [widenFirst,scaleBy]
        · simp [widenFirst,scaleBy,isLoadConst,opCode,OpCode.isLoadConst]
        · simp [widenFirst,scaleBy,opCode,OpCode.type]
        · simp [widenFirst,scaleBy]
  | true =>
      refine ⟨_,rfl,fun d inside notF notX => ?_,fun values => meaningCore ?_ ?_ values,fun d inside other notF => ?_,?_,fun y evaluates => ?_⟩
      · have fresh : d ≠ g'.size ∧ d ≠ g'.size + 1 ∧ d ≠ g'.size + 2 := by omega
        simp [widenFirst,scaleBy,fresh,notX]
      · simp [widenFirst,scaleBy,notNewX]
      · simp [widenFirst,scaleBy,notNewX]
      · have fresh : d ≠ g'.size ∧ d ≠ g'.size + 1 ∧ d ≠ g'.size + 2 := by omega
        simp [widenFirst,scaleBy,fresh,other]
      · simp [widenFirst,scaleBy,notNew]
      · refine @productMade others _ _ (g'.size + 1) (g'.size + 2) (wrap 64 y) (wrap 64 scale) ?_ ?_ (widenMade ?_ ?_ evaluates) (becomesConst ?_ ?_ ?_ ?_)
        · simp [widenFirst,scaleBy,Ne.symm notNew.1,apartNew,NodeGraph.setAt]
        · simp [widenFirst,scaleBy,opCode,Ne.symm notNewX.1,apartNew]
        · simp [widenFirst,scaleBy,NodeGraph.setAt]
        · simp [widenFirst,scaleBy,opCode,Ne.symm notNewX.2.1]
        · simp [widenFirst,scaleBy]
        · simp [widenFirst,scaleBy,isLoadConst,opCode,OpCode.isLoadConst]
        · simp [widenFirst,scaleBy,opCode,OpCode.type]
        · simp [widenFirst,scaleBy]

-- The values of a sum of ints are what they would be without the overflow.
def SumFits (others : DataType → Nat → List Int → Int) (g : Trees) (sum x c : Nat) : Prop :=
  ∀ u w, Evaluates (meaning others) g x u → Evaluates (meaning others) g c w →
    (opCode g sum = .iadd → InRange 32 (u + w)) ∧ (opCode g sum = .isub → InRange 32 (u - w))

theorem intExact {p : Node} {u w : Int} (isSum : p.opCode = .iadd ∨ p.opCode = .isub)
    (fits : (p.opCode = .iadd → InRange 32 (u + w)) ∧ (p.opCode = .isub → InRange 32 (u - w))) :
    meaning others p [u,w] = if p.opCode = .isub then u - w else u + w := by
  rcases isSum with op | op
  · rw [if_neg (by rw [op]; nofun)]
    simp only [meaning,exactValue,op]
    exact wrapSelf (by decide) (fits.1 op)
  · rw [if_pos op]
    simp only [meaning,exactValue,op]
    exact wrapSelf (by decide) (fits.2 op)

theorem distributeWidenedPreserved {sum x c : Nat} (m : Multiplies others g roots node f s v) (widens : opCode g f = .i2l) (one : g.children f = [sum])
    (isSum : opCode g sum = .iadd ∨ opCode g sum = .isub) (two : g.children sum = [x,c]) (constC : opCode g c = .iconst)
    (constS : opCode g s = .lconst) (fits : SumFits others g sum x c) : Preserved (meaning others) g roots node (distributeWidened g node) node := by
  obtain ⟨y,z,evalF,evalS,same⟩ := m.factors
  obtain ⟨a,evalSum,inner⟩ := evalF.ofUnary one
  obtain ⟨u,w,evalX,evalC,exact'⟩ := evalSum.ofBinary two
  have operandSum : Operand g node sum := m.first.step m.formed m.acyclic (by simp [one])
  have operandX : Operand g node x := operandSum.step m.formed m.acyclic (by simp [two])
  have operandC : Operand g node c := operandSum.step m.formed m.acyclic (by simp [two])
  have scalar := evalS.unique (longConstValue m.formed m.second.live (longConst constS).1 (longConst constS).2)
  have scalarC := evalC.unique (intConstValue m.formed operandC.live (by rw [isLoadConst,constC]; rfl) (by rw [constC]; rfl))
  have reads : getFirstChild g node = f ∧ getSecondChild g node = s ∧ getFirstChild g f = sum ∧ getFirstChild g sum = x ∧ getSecondChild g sum = c := by
    simp [getFirstChild,getSecondChild,m.two,one,two]
  obtain ⟨readF,readS,readSum,readX,readC⟩ := reads
  have notF : x ≠ f := by
    rintro rfl
    exact evalF.acyclic (Relation.TransGen.head (b := sum) (by simp [two]) (.single (by simp [one])))
  unfold distributeWidened
  simp only [readF,readS,readSum,readX,readC]
  generalize chosen : (if opCode g sum = .isub then wrap 64 (-wrap 64 (getInt g c * getLongInt g s)) else wrap 64 (getInt g c * getLongInt g s)) = product
  obtain ⟨k,mutated,placed⟩ := placeProductShape m constS product
  generalize placeProduct g node product = g' at placed ⊢
  have size := placed.size
  have before := Nat.lt_of_lt_of_le m.before size
  have insideF := m.first.inside
  have insideX := operandX.inside
  have fixedF : f ∉ mutated := fun on => by
    have leaf := placed.leaves f on
    rw [one] at leaf
    cases leaf
  have unconsumed : ∀ d, Consumed g node d → x ≠ d := by
    rintro d consumed rfl
    exact m.formed.counted.consumedOnly m.live consumed (.inr ⟨sum,operandSum.other,operandSum.live,by simp [two]⟩)
  have fixedX : x ∉ mutated := fun on => unconsumed x (placed.consumed x on) rfl
  have apartK : k ≠ f ∧ k ≠ x := by
    rcases placed.place with on | new
    · exact ⟨fun here => fixedF (here ▸ on),fun here => fixedX (here ▸ on)⟩
    · omega
  obtain ⟨payloadF,childrenF⟩ := placed.old f insideF m.first.other fixedF
  obtain ⟨g'',built,payload,meansX,children,twoN,scales⟩ := @widenShape others node f g' (g.referenceCount f ≠ 1) sum x c before (by omega) (by omega)
    m.first.other notF (by rw [opCode,payloadF]; exact widens) (childrenF.trans one) (getLongInt g s)
  rw [built]
  have frame : Frame (meaning others) g g'' node (if g.referenceCount f = 1 then f::mutated else mutated) := by
    refine ⟨fun d inside other fixed => ?_,fun d on => ?_⟩
    · have kept : d ∉ mutated ∧ (d ≠ f ∨ decide (g.referenceCount f ≠ 1) = true) := by
        split at fixed
        · rw [List.mem_cons,not_or] at fixed
          exact ⟨fixed.2,.inl fixed.1⟩
        · rename_i many
          exact ⟨fixed,.inr (decide_eq_true many)⟩
      obtain ⟨payload',children'⟩ := placed.old d inside other kept.1
      rw [children d (by omega) other kept.2,children']
      refine ⟨fun values => ?_,rfl⟩
      by_cases here : d = x
      · rw [here,meansX,← here,payload']
      · rw [payload d (by omega) kept.2 here,payload']
    · split at on
      · rename_i once
        rcases List.mem_cons.mp on with rfl | on
        · exact ⟨by simp [m.two],once⟩
        · exact placed.consumed d on
      · exact placed.consumed d on
  have value : v = wrap 64 (wrap 64 (wrap 64 u * wrap 64 (getLongInt g s)) + product) := by
    have widened : y = wrap 64 a := evalF.unique (widenMade one widens evalSum)
    have total : a = if opCode g sum = .isub then u - w else u + w := exact'.trans (intExact isSum (fits u w evalX evalC))
    rw [same,widened,total,scalar,← chosen,← scalarC]
    rcases isSum with op | op
    · have notSub : opCode g sum ≠ .isub := by simp [op]
      rw [if_neg notSub,if_neg notSub]
      simp only [wrap,Int.bmod_mul_bmod,Int.mul_bmod_bmod,Int.bmod_add_bmod,Int.add_bmod_bmod]
      ring_nf
    · rw [if_pos op,if_pos op]
      simp only [wrap,Int.bmod_mul_bmod,Int.mul_bmod_bmod,Int.bmod_add_bmod,Int.add_bmod_bmod,Int.bmod_neg_bmod]
      ring_nf
  refine m.preserved frame ?_
  rw [value]
  have keptX : Evaluates (meaning others) g'' x u := by
    refine m.kept frame operandX ?_ evalX
    split
    · simp [notF,fixedX]
    · exact fixedX
  refine placed.total (fun d which => ?_) ?_ ?_ (scales u keptX)
  · rcases which with rfl | rfl
    · exact payload _ before (.inl (Ne.symm m.first.other)) (Ne.symm operandX.other)
    · exact payload _ placed.inside (.inl apartK.1) apartK.2
  · rw [children k placed.inside placed.other (.inl apartK.1)]
    exact placed.leaf
  · rw [twoN,placed.two]
    rfl

end Rules

end OmrCompiler.MultiplyRules
