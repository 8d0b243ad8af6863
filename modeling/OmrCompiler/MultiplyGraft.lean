import OmrCompiler.MultiplyRules

/-! The decomposed multiplication as new nodes around a multiplier that stays shared. -/
namespace OmrCompiler.MultiplyGraft
open MachineInt Constraint ILTree SharedGraph MultiplyDistribution MultiplyNodes MultiplyRules

-- The trees that generateDecomposedTree builds for long.
def Linear : Tree → Prop
  | .load t _ => t = .Int64
  | .const t _ value => t = .Int64 ∧ InRange 64 value
  | .neg t child => t = .Int64 ∧ Linear child
  | .binary op t first second => t = .Int64 ∧ (op = .add ∨ op = .sub ∨ op = .mul) ∧ Linear first ∧ Linear second
  | .i2l _ => False

section Generated
open DecomposedMultiply
variable {child : Tree}

theorem shiftedLinear (linear : Linear child) (bitPosition : Int) : Linear (shifted .Int64 child bitPosition) := by
  unfold shifted
  split
  · exact linear
  · exact ⟨rfl,.inr (.inr rfl),linear,rfl,wrapRange (by decide) _⟩

theorem negatedLinear (linear : Linear child) (d : Digit) :
    Linear (if d.operationType = .minus then Tree.neg .Int64 (shifted .Int64 child d.bitPosition) else shifted .Int64 child d.bitPosition) := by
  split
  · exact ⟨rfl,shiftedLinear linear _⟩
  · exact shiftedLinear linear _

theorem pairLinear (linear : Linear child) (d e : Digit) : Linear (generatePair .Int64 child d e) := by
  unfold generatePair
  split
  · exact ⟨rfl,.inr (.inl rfl),negatedLinear linear d,shiftedLinear linear _⟩
  · split
    · exact ⟨rfl,.inr (.inl rfl),shiftedLinear linear _,shiftedLinear linear _⟩
    · exact ⟨rfl,.inl rfl,shiftedLinear linear _,shiftedLinear linear _⟩

theorem generatedLinear (linear : Linear child) (digits : List Digit) : ∀ tree, generateDecomposedTree .Int64 child digits = some tree → Linear tree := by
  induction digits using generateDecomposedTree.induct with
  | case1 =>
      intro tree made
      rw [generateDecomposedTree] at made
      cases made
  | case2 d =>
      intro tree made
      rw [generateDecomposedTree] at made
      cases made
      exact negatedLinear linear d
  | case3 d e =>
      intro tree made
      rw [generateDecomposedTree] at made
      cases made
      exact pairLinear linear d e
  | case4 a b c rest mid ihFirst ihSecond =>
      intro tree made
      rw [generateDecomposedTree] at made
      simp only [Option.bind_eq_bind,Option.bind_eq_some_iff] at made
      obtain ⟨first,madeFirst,second,madeSecond,same⟩ := made
      cases same
      refine ⟨rfl,?_,ihFirst first madeFirst,ihSecond second madeSecond⟩
      split
      · exact .inr (.inl rfl)
      · exact .inl rfl

end Generated

-- Two graphs agree on the vertices from low on and below high.
def Agree (g g' : Trees) (low high : Nat) : Prop := ∀ d, low ≤ d → d < high → g'.payload d = g.payload d ∧ g'.children d = g.children d

-- New nodes for a tree over the multiplier; later edits elsewhere leave its value.
structure Grafted (others : DataType → Nat → List Int → Int) (g g' : Trees) (x id : Nat) (tree : Tree) : Prop where
  size : g.size ≤ g'.size
  old : Agree g g' 0 g.size
  evaluates : ∀ g'', Agree g' g'' g.size g'.size → ∀ u, InRange 64 u → Evaluates (meaning others) g'' x u →
    Evaluates (meaning others) g'' id (tree.eval fun _ => u)

section Graft
variable {others : DataType → Nat → List Int → Int} {x : Nat}

theorem Agree.andThen {g g' g'' : Trees} {low high high' : Nat} (first : Agree g g' low high) (second : Agree g' g'' low high') (le : high ≤ high') :
    Agree g g'' low high := by
  intro d above below
  obtain ⟨payload,children⟩ := first d above below
  obtain ⟨payload',children'⟩ := second d above (Nat.lt_of_lt_of_le below le)
  exact ⟨payload'.trans payload,children'.trans children⟩

theorem binaryOpcode {op : BinaryOp} (linear : op = .add ∨ op = .sub ∨ op = .mul) :
    ∃ code, opCodeOf op = some code ∧ ∀ (p : Node) (a b : Int), p.opCode = code → meaning others p [a,b] = op.eval 64 a b := by
  rcases linear with rfl | rfl | rfl
  · exact ⟨.ladd,rfl,fun p a b same => exactSum same a b⟩
  · exact ⟨.lsub,rfl,fun p a b same => exactDifference same a b⟩
  · exact ⟨.lmul,rfl,fun p a b same => exactProduct same a b⟩

theorem negated {p : Node} (op : p.opCode = .lneg) (a : Int) : meaning others p [a] = wrap 64 (-a) := by
  simp only [meaning,exactValue,op]
  rfl

theorem createUnaryShape (g : Trees) (op : OpCode) (a : Nat) :
    Agree g (createWith g op [a]).1 0 g.size ∧ (createWith g op [a]).1.size = g.size + 1 ∧ opCode (createWith g op [a]).1 g.size = op ∧
      (createWith g op [a]).1.children g.size = [a] := by
  refine ⟨fun d _ below => ?_,rfl,?_,?_⟩
  · simp [createWith,Nat.ne_of_lt below]
  · simp [createWith,opCode]
  · simp [createWith,NodeGraph.setAt]

theorem createBinaryShape (g : Trees) (op : OpCode) (a b : Nat) :
    Agree g (createWith g op [a,b]).1 0 g.size ∧ (createWith g op [a,b]).1.size = g.size + 1 ∧ opCode (createWith g op [a,b]).1 g.size = op ∧
      (createWith g op [a,b]).1.children g.size = [a,b] := by
  refine ⟨fun d _ below => ?_,rfl,?_,?_⟩
  · simp [createWith,Nat.ne_of_lt below]
  · simp [createWith,opCode]
  · simp [createWith,NodeGraph.setAt]

theorem grafted (tree : Tree) : ∀ g, Linear tree → ∃ g' id, graft x tree g = some (g',id) ∧ Grafted others g g' x id tree := by
  induction tree with
  | load t symbol =>
      rintro g rfl
      refine ⟨g,x,rfl,Nat.le_refl _,fun d _ _ => ⟨rfl,rfl⟩,fun g'' _ u inside evaluates => ?_⟩
      have same : (Tree.load .Int64 symbol).eval (fun _ => u) = u := wrapSelf (by decide) inside
      rw [same]
      exact evaluates
  | const t isUnsigned value =>
      rintro g ⟨rfl,inside⟩
      refine ⟨_,_,rfl,by simp,fun d _ below => ?_,fun g'' agree u _ _ => ?_⟩
      · simp [Nat.ne_of_lt below]
      · obtain ⟨payload,children⟩ := agree g.size (Nat.le_refl _) (by simp)
        have isConst : opCode g'' g.size = .lconst := by rw [opCode,payload]; simp
        have const : Evaluates (meaning others) g'' g.size (wrap 64 value) := becomesConst (by rw [children]; simp) (longConst isConst).1
          (longConst isConst).2 (by rw [payload]; simp)
        rw [wrapSelf (by decide) inside] at const
        exact const
  | neg t child ih =>
      rintro g ⟨rfl,linear⟩
      obtain ⟨g₁,id,made,graft₁⟩ := ih g linear
      obtain ⟨agree,size,op,one⟩ := createUnaryShape g₁ .lneg id
      refine ⟨_,_,by simp only [graft,made,Option.bind_eq_bind,Option.bind_some]; rfl,?_,graft₁.old.andThen agree graft₁.size,fun g'' agree'' u inside evaluates => ?_⟩
      · rw [size]
        exact Nat.le_succ_of_le graft₁.size
      · rw [size] at agree''
        have inner : Agree g₁ g'' g.size g₁.size := fun d above below => by
          obtain ⟨payload,children⟩ := agree d (Nat.zero_le _) below
          obtain ⟨payload',children'⟩ := agree'' d above (Nat.lt_succ_of_lt below)
          exact ⟨payload'.trans payload,children'.trans children⟩
        obtain ⟨payload,children⟩ := agree'' g₁.size graft₁.size (Nat.lt_succ_self _)
        have evalChild := graft₁.evaluates g'' inner u inside evaluates
        have made := Evaluates.unary (n := g₁.size) (children.trans one) evalChild
        rw [payload,negated op] at made
        exact made
  | i2l child ih => exact fun g linear => linear.elim
  | binary op t first second ihFirst ihSecond =>
      rintro g ⟨rfl,linear,linearFirst,linearSecond⟩
      obtain ⟨g₁,a,madeFirst,graft₁⟩ := ihFirst g linearFirst
      obtain ⟨g₂,b,madeSecond,graft₂⟩ := ihSecond g₁ linearSecond
      obtain ⟨code,coded,means⟩ := @binaryOpcode others _ linear
      obtain ⟨agree,size,op',two⟩ := createBinaryShape g₂ code a b
      have sizes : g.size ≤ g₂.size := Nat.le_trans graft₁.size graft₂.size
      refine ⟨_,_,by simp only [graft,coded,madeFirst,madeSecond,Option.bind_eq_bind,Option.bind_some]; rfl,?_,
        (graft₁.old.andThen graft₂.old graft₁.size).andThen agree sizes,fun g'' agree'' u inside evaluates => ?_⟩
      · rw [size]
        exact Nat.le_succ_of_le sizes
      · rw [size] at agree''
        have upper : Agree g₂ g'' g.size g₂.size := fun d above below => by
          obtain ⟨payload,children⟩ := agree d (Nat.zero_le _) below
          obtain ⟨payload',children'⟩ := agree'' d above (Nat.lt_succ_of_lt below)
          exact ⟨payload'.trans payload,children'.trans children⟩
        have lower : Agree g₁ g'' g.size g₁.size := fun d above below => by
          obtain ⟨payload,children⟩ := graft₂.old d (Nat.zero_le _) below
          obtain ⟨payload',children'⟩ := upper d above (Nat.lt_of_lt_of_le below graft₂.size)
          exact ⟨payload'.trans payload,children'.trans children⟩
        obtain ⟨payload,children⟩ := agree'' g₂.size sizes (Nat.lt_succ_self _)
        have evalFirst := graft₁.evaluates g'' lower u inside evaluates
        have evalSecond := graft₂.evaluates g'' (fun d above below => upper d (Nat.le_trans graft₁.size above) below) u inside evaluates
        have made := Evaluates.binary (n := g₂.size) (children.trans two) evalFirst evalSecond
        rw [payload,means _ _ _ op'] at made
        exact made

theorem becomesUnary (g : Trees) (node : Nat) (op : OpCode) (a : Nat) :
    (∀ d, d ≠ node → (becomes g node op [a]).payload d = g.payload d ∧ (becomes g node op [a]).children d = g.children d) ∧
      opCode (becomes g node op [a]) node = op ∧ (becomes g node op [a]).children node = [a] := by
  refine ⟨fun d other => ?_,?_,?_⟩
  · simp [becomes,other]
  · simp [becomes,opCode]
  · simp [becomes,NodeGraph.setAt]

theorem becomesBinary (g : Trees) (node : Nat) (op : OpCode) (a b : Nat) :
    (∀ d, d ≠ node → (becomes g node op [a,b]).payload d = g.payload d ∧ (becomes g node op [a,b]).children d = g.children d) ∧
      opCode (becomes g node op [a,b]) node = op ∧ (becomes g node op [a,b]).children node = [a,b] := by
  refine ⟨fun d other => ?_,?_,?_⟩
  · simp [becomes,other]
  · simp [becomes,opCode]
  · simp [becomes,NodeGraph.setAt]

end Graft

section Decomposition
open DecomposedMultiply (Admitted constantRecodes generateEval generateRecreates totalReverse)
variable {others : DataType → Nat → List Int → Int} {g g' g'' : Trees} {roots : Nat → Nat} {node f s : Nat} {v : Int}

theorem releasedAgree (g : Trees) (f s high : Nat) : Agree g ((g.decReferenceCount s).decReferenceCount f) 0 high := fun d _ _ => by simp

-- New nodes and a change of the node itself leave all other nodes alone.
theorem grownFrame (old : Agree g g' 0 g.size)
    (elsewhere : ∀ d, d ≠ node → g''.payload d = g'.payload d ∧ g''.children d = g'.children d) : Frame (meaning others) g g'' node [] := by
  refine ⟨fun d inside other _ => ?_,nofun⟩
  obtain ⟨payload,children⟩ := old d (Nat.zero_le _) inside
  obtain ⟨payload',children'⟩ := elsewhere d other
  exact ⟨fun values => by rw [payload',payload],children'.trans children⟩

theorem decomposePreserved (env : Env) (m : Multiplies others g roots node f s v) (constS : opCode g s = .lconst) (admitted : Admitted .Int64 (getLongInt g s)) :
    ∃ g', MultiplyDistribution.decomposeMultiply env g node = some g' ∧ Preserved (meaning others) g roots node g' node := by
  obtain ⟨y,z,evalF,evalS,same⟩ := m.factors
  have scalar := evalS.unique (longConstValue m.formed m.second.live (longConst constS).1 (longConst constS).2)
  obtain ⟨readF,readS⟩ := m.reads
  have insideC : InRange 64 (getLongInt g s) := wrapRange (by decide) _
  obtain ⟨nonzero,notPower,proper⟩ := admitted
  generalize constant : getLongInt g s = c at *
  obtain ⟨digits,made,recodes⟩ := constantRecodes (by decide) (by decide) insideC proper
  have notOne : c ≠ 1 := by
    rintro rfl
    have power := (PowerOfTwo.isNonNegativePowerOf2Iff (by decide : 0 < DataType.Int64.bits) insideC nonzero).mpr ⟨by decide,0,rfl⟩
    rw [notPower] at power
    cases power
  have sum : DecomposedMultiply.total digits.reverse = c := by
    rw [totalReverse]
    exact recodes.sum
  have some' : digits.reverse ≠ [] := by
    intro none'
    rw [none'] at sum
    exact nonzero sum.symm
  have typed : (Tree.load .Int64 0).Typed .Int64 := rfl
  obtain ⟨tree,generated,evaluates⟩ := generateEval typed digits.reverse some'
  have linear := @generatedLinear (.load .Int64 0) rfl digits.reverse tree generated
  have whole := generateRecreates digits.reverse generated (fun d member => (recodes.positions d (List.mem_reverse.mp member)).1)
    (by rw [sum]; exact notOne)
  have inside : InRange 64 y := by
    have range := valueRange evalF
    rw [m.types.1] at range
    exact range
  have value : v = tree.eval fun _ => y := by
    have load : (Tree.load .Int64 0).eval (fun _ => y) = y := wrapSelf (by decide) inside
    rw [same,scalar,evaluates,sum,load]
    rfl
  have before := m.before
  unfold MultiplyDistribution.decomposeMultiply
  simp only [readF,readS,constant,made,Option.bind_eq_bind,Option.bind_some]
  split
  · simp only [generated,Option.bind_some]
    match tree, linear, whole with
    | .neg t child, linear, _ =>
        obtain ⟨rfl,linear⟩ := linear
        obtain ⟨g₁,id,grown,graft₁⟩ := @grafted others f child ((g.decReferenceCount s).decReferenceCount f) linear
        obtain ⟨elsewhere,op,one⟩ := becomesUnary g₁ node .lneg id
        simp only [grown,Option.bind_some]
        refine ⟨_,rfl,?_⟩
        have frame : Frame (meaning others) g (becomes g₁ node .lneg [id]) node [] :=
          grownFrame ((releasedAgree g f s g.size).andThen graft₁.old (Nat.le_refl _)) elsewhere
        refine m.preserved frame ?_
        have keptF := m.kept frame m.first (by simp) evalF
        have operand := graft₁.evaluates _ (fun d above _ => elsewhere d (by simp at above; omega)) y inside keptF
        have made := Evaluates.unary one operand
        rw [negated op] at made
        rw [value]
        exact made
    | .binary op t first second, linear, _ =>
        obtain ⟨rfl,linear,linearFirst,linearSecond⟩ := linear
        obtain ⟨code,coded,means⟩ := @binaryOpcode others _ linear
        obtain ⟨g₁,a,grownFirst,graft₁⟩ := @grafted others f first ((g.decReferenceCount s).decReferenceCount f) linearFirst
        obtain ⟨g₂,b,grownSecond,graft₂⟩ := @grafted others f second g₁ linearSecond
        obtain ⟨elsewhere,op',two⟩ := becomesBinary g₂ node code a b
        simp only [coded,grownFirst,grownSecond,Option.bind_some]
        refine ⟨_,rfl,?_⟩
        have size₁ : g.size ≤ g₁.size := graft₁.size
        have frame : Frame (meaning others) g (becomes g₂ node code [a,b]) node [] :=
          grownFrame (((releasedAgree g f s g.size).andThen graft₁.old (Nat.le_refl _)).andThen graft₂.old size₁) elsewhere
        refine m.preserved frame ?_
        have keptF := m.kept frame m.first (by simp) evalF
        have lower : Agree g₁ (becomes g₂ node code [a,b]) g.size g₁.size := fun d above below => by
          obtain ⟨payload,children⟩ := graft₂.old d (Nat.zero_le _) below
          obtain ⟨payload',children'⟩ := elsewhere d (by omega)
          exact ⟨payload'.trans payload,children'.trans children⟩
        have operandFirst := graft₁.evaluates _ lower y inside keptF
        have operandSecond := graft₂.evaluates _ (fun d above _ => elsewhere d (by omega)) y inside keptF
        have made := Evaluates.binary two operandFirst operandSecond
        rw [means _ _ _ op'] at made
        rw [value]
        exact made
    | .load _ _, _, whole => cases whole
    | .const _ _ _, _, whole => cases whole
    | .i2l _, linear, _ => exact linear.elim
  · exact ⟨g,rfl,Preserved.refl _ _ _ _⟩

end Decomposition

end OmrCompiler.MultiplyGraft
