import OmrCompiler.ReferenceBalance
import OmrCompiler.SimplifierTrees

/-! The nodes around a simplified node: what the edits of a node leave, the types of operands, and
the values of nodes. -/
namespace OmrCompiler.SimplifierNodes
open MachineInt SharedGraph ReferenceBalance SimplifierTrees

section Shapes
variable (g : Trees) (n m a b : Nat) (op : OpCode) (value : Int) (flag : Bool)

@[simp] theorem recreatePayload : (recreate g n op).payload m = if m = n then {g.payload n with opCode := op} else g.payload m := setPayloadPayload g n m _

@[simp] theorem recreateChildren : (recreate g n op).children m = g.children m := setPayloadChildren g n m _

@[simp] theorem recreateCount : (recreate g n op).referenceCount m = g.referenceCount m := setPayloadCount g n m _

@[simp] theorem recreateSize : (recreate g n op).size = g.size := rfl

@[simp] theorem setConstPayload : (setConst g n value).payload m = if m = n then {g.payload n with constValue := value} else g.payload m :=
  setPayloadPayload g n m _

@[simp] theorem setConstChildren : (setConst g n value).children m = g.children m := setPayloadChildren g n m _

@[simp] theorem setConstCount : (setConst g n value).referenceCount m = g.referenceCount m := setPayloadCount g n m _

@[simp] theorem setConstSize : (setConst g n value).size = g.size := rfl

@[simp] theorem setNormalizedPayload : (setNormalizedShift g n flag).payload m = if m = n then {g.payload n with normalizedShift := flag} else g.payload m :=
  setPayloadPayload g n m _

@[simp] theorem setNormalizedChildren : (setNormalizedShift g n flag).children m = g.children m := setPayloadChildren g n m _

@[simp] theorem createNodePayload : (create g op value).payload m = if m = g.size then ⟨op,value,false⟩ else g.payload m := createPayload g m _

@[simp] theorem createNodeChildren : (create g op value).children m = if m = g.size then [] else g.children m := createChildren g m _

@[simp] theorem createNodeCount : (create g op value).referenceCount m = if m = g.size then 0 else g.referenceCount m := createCount g m _

@[simp] theorem createNodeSize : (create g op value).size = g.size + 1 := rfl

theorem createWithOne : createWith g op [a] = (create g op 0).setAndIncChild g.size 0 a := rfl

theorem createWithTwo : createWith g op [a,b] = ((create g op 0).setAndIncChild g.size 0 a).setAndIncChild g.size 1 b := rfl

@[simp] theorem createOnePayload : (createWith g op [a]).payload m = if m = g.size then ⟨op,0,false⟩ else g.payload m := by simp [createWithOne]

@[simp] theorem createOneChildren : (createWith g op [a]).children m = if m = g.size then [a] else g.children m := by
  rw [createWithOne,setAndIncChildren]
  split <;> simp_all [NodeGraph.setAt]

@[simp] theorem createOneSize : (createWith g op [a]).size = g.size + 1 := rfl

@[simp] theorem createTwoPayload : (createWith g op [a,b]).payload m = if m = g.size then ⟨op,0,false⟩ else g.payload m := by simp [createWithTwo]

@[simp] theorem createTwoChildren : (createWith g op [a,b]).children m = if m = g.size then [a,b] else g.children m := by
  rw [createWithTwo,setAndIncChildren]
  split <;> simp_all [NodeGraph.setAt]

@[simp] theorem createTwoSize : (createWith g op [a,b]).size = g.size + 1 := rfl

theorem releasedShape (list : List Nat) : SameShape g (list.foldl NodeGraph.recursivelyDecReferenceCount g) := by
  induction list generalizing g with
  | nil => exact ⟨rfl,fun m => ⟨rfl,rfl⟩⟩
  | cons head rest ih => exact sameShapeTrans (decUpToShape g.size g head) (ih _)

@[simp] theorem removeAllPayload : (removeAllChildren g n).payload m = g.payload m := by
  rw [removeAllChildren,((releasedShape _ _).2 m).1,clearChildrenPayload]

@[simp] theorem removeAllChildrenChildren : (removeAllChildren g n).children m = if m = n then [] else g.children m := by
  rw [removeAllChildren,((releasedShape _ _).2 m).2,clearChildrenChildren]

@[simp] theorem foldConstantPayload : (foldConstant g n op value).payload m =
    if m = n then {g.payload n with opCode := op,constValue := value} else g.payload m := by
  rw [foldConstant,setConstPayload,prepareToReplaceNode]
  split <;> simp [*]

@[simp] theorem foldConstantChildren : (foldConstant g n op value).children m = if m = n then [] else g.children m := by
  rw [foldConstant,setConstChildren,prepareToReplaceNode,removeAllChildrenChildren,recreateChildren]

end Shapes

section Values
variable {others : DataType → Nat → List Int → Int} {g g' : Trees} {roots : Nat → Nat} {n a b : Nat} {v : Int}

theorem bitsPos (t : DataType) : 0 < t.bits := by cases t <;> decide

theorem valueRange (evaluates : Evaluates (meaning others) g n v) : InRange (opCode g n).type.bits v := by
  obtain ⟨value,_⟩ := evaluates
  exact wrapRange (bitsPos _) _

theorem binaryChildren (formed : WellFormed g roots) (live : 0 < g.referenceCount n) {t u : DataType} (two : (opCode g n).operands = some [t,u]) :
    ∃ a b, g.children n = [a,b] ∧ (opCode g a).type = t ∧ (opCode g b).type = u := by
  have types := formed.typed n live _ two
  have length := congrArg List.length types
  rw [List.length_map] at length
  obtain ⟨a,b,shape⟩ := List.length_eq_two.mp length
  rw [shape] at types
  simp only [List.map_cons,List.map_nil,List.cons.injEq,and_true] at types
  exact ⟨a,b,shape,types.1,types.2⟩

theorem unaryChild (formed : WellFormed g roots) (live : 0 < g.referenceCount n) {t : DataType} (one : (opCode g n).operands = some [t]) :
    ∃ a, g.children n = [a] ∧ (opCode g a).type = t := by
  have types := formed.typed n live _ one
  have length := congrArg List.length types
  rw [List.length_map] at length
  obtain ⟨a,shape⟩ := List.length_eq_one_iff.mp length
  rw [shape] at types
  simp only [List.map_cons,List.map_nil,List.cons.injEq,and_true] at types
  exact ⟨a,shape,types⟩

theorem constOperands {op : OpCode} (isConst : op.isLoadConst = true) : op.operands = some [] := by
  cases op <;> first | rfl | cases isConst

theorem exactConst {p : Node} (isConst : p.opCode.isLoadConst = true) (values : List Int) : exactValue others p values = p.constValue := by
  obtain ⟨op,constValue,_⟩ := p
  cases op <;> first | rfl | cases isConst

theorem constChildren (formed : WellFormed g roots) (live : 0 < g.referenceCount n) (isConst : isLoadConst g n = true) : g.children n = [] :=
  List.map_eq_nil_iff.mp (formed.typed n live [] (constOperands isConst))

-- A constant without children.
theorem constMade (none : g.children n = []) (isConst : isLoadConst g n = true) :
    Evaluates (meaning others) g n (wrap (opCode g n).type.bits (g.payload n).constValue) := by
  have leaf : Evaluates (meaning others) g n (meaning others (g.payload n) []) := Evaluates.leaf none
  rw [meaning,exactConst isConst] at leaf
  exact leaf

theorem constIs {o : OpCode} {z : Int} (none : g.children n = []) (isOp : opCode g n = o) (isConst : o.isLoadConst = true)
    (value : (g.payload n).constValue = z) : Evaluates (meaning others) g n (wrap o.type.bits z) := by
  rw [← isOp,← value]
  exact constMade none (by rw [isLoadConst,isOp,isConst])

theorem constValue (formed : WellFormed g roots) (live : 0 < g.referenceCount n) (isConst : isLoadConst g n = true) :
    Evaluates (meaning others) g n (wrap (opCode g n).type.bits (g.payload n).constValue) :=
  constMade (constChildren formed live isConst) isConst

theorem binaryMade {op : BinaryOp} {t : DataType} {u : Bool} {x y : Int} (two : g.children n = [a,b]) (isOp : opCode g n = .binary op t u)
    (first : Evaluates (meaning others) g a x) (second : Evaluates (meaning others) g b y) :
    Evaluates (meaning others) g n (wrap t.bits (op.eval t.bits x y)) := by
  have made := Evaluates.binary two first second
  rw [opCode] at isOp
  rw [meaning,exactValue.eq_def,isOp] at made
  exact made

theorem binaryOperands {op : BinaryOp} {t : DataType} {u : Bool} (evaluates : Evaluates (meaning others) g n v) (two : g.children n = [a,b])
    (isOp : opCode g n = .binary op t u) :
    ∃ x y, Evaluates (meaning others) g a x ∧ Evaluates (meaning others) g b y ∧ v = wrap t.bits (op.eval t.bits x y) := by
  obtain ⟨x,y,first,second,same⟩ := evaluates.ofBinary two
  exact ⟨x,y,first,second,evaluates.unique (binaryMade two isOp first second)⟩

theorem convertMade {source target : DataType} {zeroExtends : Bool} {x : Int} (one : g.children n = [a])
    (isOp : opCode g n = .convert source target zeroExtends) (operand : Evaluates (meaning others) g a x) :
    Evaluates (meaning others) g n (wrap target.bits (if zeroExtends then toUnsigned source.bits x else x)) := by
  have made := Evaluates.unary one operand
  rw [opCode] at isOp
  rw [meaning,exactValue.eq_def,isOp] at made
  exact made

theorem convertOperand {source target : DataType} {zeroExtends : Bool} (evaluates : Evaluates (meaning others) g n v) (one : g.children n = [a])
    (isOp : opCode g n = .convert source target zeroExtends) :
    ∃ x, Evaluates (meaning others) g a x ∧ v = wrap target.bits (if zeroExtends then toUnsigned source.bits x else x) := by
  obtain ⟨x,operand,same⟩ := evaluates.ofUnary one
  exact ⟨x,operand,evaluates.unique (convertMade one isOp operand)⟩

-- An edit of counts changes no value.
theorem sameValue (shape : SameShape g g') (evaluates : Evaluates (meaning others) g n v) : Evaluates (meaning others) g' n v := by
  induction evaluates with
  | @vertex n value operands ih =>
      rw [← (shape.2 n).1,← (shape.2 n).2]
      exact .vertex value fun c on => ih c ((shape.2 n).2 ▸ on)

theorem replacePreserved {other : Nat} (same : ∀ v, Evaluates (meaning others) g n v → Evaluates (meaning others) g other v) :
    Preserved (meaning others) g roots n (replaceNode g n other).1 other := by
  have shape : SameShape g (replaceNode g n other).1 :=
    sameShapeTrans (countsOnly g other _) (decUpToShape (g.incReferenceCount other).size (g.incReferenceCount other) n)
  exact ⟨fun v evaluates => sameValue shape (same v evaluates),fun m v _ evaluates => sameValue shape evaluates⟩

theorem foldPreserved {op : OpCode} {value : Int} (formed : WellFormed g roots) (live : 0 < g.referenceCount n) (isConst : op.isLoadConst = true)
    (same : ∀ v, Evaluates (meaning others) g n v → v = wrap op.type.bits value) :
    Preserved (meaning others) g roots n (foldConstant g n op value) n := by
  have frame : Frame (meaning others) g (foldConstant g n op value) n [] := by
    refine ⟨fun m _ other _ => ⟨fun values => ?_,?_⟩,by simp⟩
    · rw [foldConstantPayload,if_neg other]
    · rw [foldConstantChildren,if_neg other]
  have none : (foldConstant g n op value).children n = [] := by simp
  have here : isLoadConst (foldConstant g n op value) n = true := by simpa [isLoadConst,opCode] using isConst
  refine frame.preserved formed.counted live fun v evaluates => ?_
  have made := @constMade others _ n none here
  rw [same v evaluates]
  simpa [opCode] using made

end Values

section Edited
variable {others : DataType → Nat → List Int → Int} {g g' : Trees} {roots : Nat → Nat} {node c d : Nat} {v : Int}

-- A vertex below the node.
structure Operand (g : Trees) (node c : Nat) : Prop where
  below : Below g c node
  live : 0 < g.referenceCount c

theorem operandOf (formed : WellFormed g roots) (live : 0 < g.referenceCount node) (on : c ∈ g.children node) : Operand g node c :=
  ⟨.single on,formed.counted.live live on⟩

theorem Operand.step (formed : WellFormed g roots) (operand : Operand g node c) (on : d ∈ g.children c) : Operand g node d :=
  ⟨Relation.TransGen.head on operand.below,formed.counted.live operand.live on⟩

theorem Operand.kept {mutated : List Nat} (formed : WellFormed g roots) (live : 0 < g.referenceCount node) (acyclic : ¬ Below g node node)
    (frame : Frame (meaning others) g g' node mutated) (operand : Operand g node c) (fixed : c ∉ mutated) (evaluates : Evaluates (meaning others) g c v) :
    Evaluates (meaning others) g' c v :=
  frame.operandKept formed.counted live acyclic operand.below operand.live fixed evaluates

-- A child with one use is not both operands.
theorem distinctOnce (formed : WellFormed g roots) (live : 0 < g.referenceCount node) (two : g.children node = [c,d]) (once : g.referenceCount d = 1) :
    c ≠ d := by
  rintro rfl
  have used := useCounted (formed.counted.allocated live) live c
  have counts := formed.counted.counts c
  rw [two,List.count_cons_self,List.count_cons_self] at used
  omega

theorem consumedSecond (two : g.children node = [c,d]) (once : g.referenceCount d = 1) : Consumed g node d := ⟨by simp [two],once⟩

-- A graph that only grew.
theorem grownPreserved (formed : WellFormed g roots) (live : 0 < g.referenceCount node)
    (same : ∀ m < g.size, g'.payload m = g.payload m ∧ g'.children m = g.children m) : Preserved (meaning others) g roots node g' node := by
  have kept : ∀ m v, m < g.size → Evaluates (meaning others) g m v → Evaluates (meaning others) g' m v := by
    intro m v inside evaluates
    induction evaluates with
    | @vertex m value operands ih =>
        obtain ⟨payload,children⟩ := same m inside
        rw [← payload,← children]
        exact .vertex value fun c on => ih c (children ▸ on) (formed.counted.closed m inside c (children ▸ on))
  have inside := formed.counted.allocated live
  refine ⟨fun v => kept node v inside,fun m v which => ?_⟩
  rcases which with rfl | elsewhere
  · exact kept m v inside
  · exact kept m v (formed.counted.allocated ((elsewhere.used formed.counted).isLive formed.counted))

-- Types stay where opcodes and children do.
theorem WellFormed.edited (formed : WellFormed g roots) (changed : List Nat) (counted : Counted g' roots)
    (types : ∀ m < g.size, (opCode g' m).type = (opCode g m).type)
    (same : ∀ m, m ∉ changed → 0 < g'.referenceCount m → 0 < g.referenceCount m ∧ opCode g' m = opCode g m ∧ g'.children m = g.children m)
    (made : ∀ m ∈ changed, ∀ types, (opCode g' m).operands = some types → (g'.children m).map (fun c => (opCode g' c).type) = types) :
    WellFormed g' roots := by
  refine ⟨counted,fun m live fixed operands => ?_⟩
  by_cases here : m ∈ changed
  · exact made m here fixed operands
  · obtain ⟨before,op,children⟩ := same m here live
    rw [op] at operands
    rw [children,← formed.typed m before fixed operands]
    refine List.map_congr_left fun c on => ?_
    exact types c (formed.counted.closed m (formed.counted.allocated before) c on)

end Edited

section Listed
variable {list : List (Vertex Node)} {roots : Nat → Nat}

-- The nodes of a small graph, operands first.
def listed (list : List (Vertex Node)) : Trees := ⟨fun n => list.getD n ⟨⟨.other .Int32 0,0,false⟩,[],0⟩,list.length⟩

def rootsOf (roots : List Nat) (n : Nat) : Nat := roots.count n

def Checked (list : List (Vertex Node)) (roots : List Nat) : Prop :=
  (∀ n ∈ roots, n < list.length) ∧ ∀ n < list.length, uses (listed list) n + rootsOf roots n ≤ (listed list).referenceCount n ∧
    (∀ c ∈ (listed list).children n, c < n) ∧
    ((opCode (listed list) n).operands = none ∨ (opCode (listed list) n).operands = some (((listed list).children n).map fun c => (opCode (listed list) c).type))

instance (list : List (Vertex Node)) (roots : List Nat) : Decidable (Checked list roots) := inferInstanceAs (Decidable (_ ∧ _))

theorem listedOutside {n : Nat} (outside : list.length ≤ n) : (listed list).vertex n = ⟨⟨.other .Int32 0,0,false⟩,[],0⟩ := by
  simp [listed,List.getElem?_eq_none outside]

theorem Checked.formed {rooted : List Nat} (checked : Checked list rooted) : WellFormed (listed list) (rootsOf rooted) := by
  have closed : ∀ n < (listed list).size, ∀ c ∈ (listed list).children n, c < (listed list).size :=
    fun n inside c on => Nat.lt_trans ((checked.2 n inside).2.1 c on) inside
  refine ⟨⟨fun n => ?_,fun n outside => by rw [NodeGraph.referenceCount,listedOutside outside],closed⟩,fun n live types fixed => ?_⟩
  · by_cases inside : n < list.length
    · exact (checked.2 n inside).1
    · have unused : uses (listed list) n = 0 := by
        refine Finset.sum_eq_zero fun p on => ?_
        split
        · exact List.count_eq_zero.mpr fun child => inside (closed p (Finset.mem_range.mp on) n child)
        · rfl
      have unrooted : rootsOf rooted n = 0 := List.count_eq_zero.mpr fun on => inside (checked.1 n on)
      omega
  · by_cases inside : n < list.length
    · rcases (checked.2 n inside).2.2 with none | some
      · rw [none] at fixed
        cases fixed
      · exact Option.some.inj (some.symm.trans fixed)
    · rw [NodeGraph.referenceCount,listedOutside (by omega)] at live
      exact absurd live (Nat.lt_irrefl 0)

theorem Checked.acyclic {rooted : List Nat} (checked : Checked list rooted) (m : Nat) : ¬ Below (listed list) m m := by
  have lower : ∀ c n, Below (listed list) c n → c < n := by
    intro c n below
    have edge : ∀ n c, c ∈ (listed list).children n → c < n := by
      intro n c on
      by_cases inside : n < list.length
      · exact (checked.2 n inside).2.1 c on
      · rw [NodeGraph.children,listedOutside (by omega)] at on
        cases on
    induction below with
    | single on => exact edge _ _ on
    | tail _ on ih => exact Nat.lt_trans ih (edge _ _ on)
  exact fun loop => Nat.lt_irrefl m (lower m m loop)

end Listed

end OmrCompiler.SimplifierNodes
