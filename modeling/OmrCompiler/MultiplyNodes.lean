import OmrCompiler.MultiplyDistribution

/-! The nodes around a multiplication: their types, their values, and the swap of two children. -/
namespace OmrCompiler.MultiplyNodes
open MachineInt Constraint SharedGraph MultiplyDistribution

structure WellFormed (g : Trees) (roots : Nat → Nat) : Prop where
  counted : Counted g roots
  typed : ∀ n, 0 < g.referenceCount n → ∀ types, (opCode g n).operands = some types → (g.children n).map (fun c => (opCode g c).type) = types

section Shapes
variable (g : Trees) (n m : Nat)

@[simp] theorem recreatePayload (op : OpCode) : (recreate g n op).payload m = if m = n then {g.payload n with opCode := op} else g.payload m :=
  setPayloadPayload g n m _

@[simp] theorem recreateChildren (op : OpCode) : (recreate g n op).children m = g.children m := setPayloadChildren g n m _

@[simp] theorem recreateCount (op : OpCode) : (recreate g n op).referenceCount m = g.referenceCount m := setPayloadCount g n m _

@[simp] theorem recreateSize (op : OpCode) : (recreate g n op).size = g.size := rfl

@[simp] theorem setConstPayload (value : Int) :
    (setConst g n value).payload m = if m = n then {g.payload n with constValue := value} else g.payload m := setPayloadPayload g n m _

@[simp] theorem setConstChildren (value : Int) : (setConst g n value).children m = g.children m := setPayloadChildren g n m _

@[simp] theorem setConstSize (value : Int) : (setConst g n value).size = g.size := rfl

@[simp] theorem setConstCount (value : Int) : (setConst g n value).referenceCount m = g.referenceCount m := setPayloadCount g n m _

@[simp] theorem setCannotOverflowPayload (flag : Bool) :
    (setCannotOverflow g n flag).payload m = if m = n then {g.payload n with cannotOverflow := flag} else g.payload m := setPayloadPayload g n m _

@[simp] theorem setCannotOverflowChildren (flag : Bool) : (setCannotOverflow g n flag).children m = g.children m := setPayloadChildren g n m _

@[simp] theorem setCannotOverflowSize (flag : Bool) : (setCannotOverflow g n flag).size = g.size := rfl

@[simp] theorem setIsHighWordZeroPayload (flag : Bool) :
    (setIsHighWordZero g n flag).payload m = if m = n then {g.payload n with isHighWordZero := flag} else g.payload m := setPayloadPayload g n m _

@[simp] theorem setIsHighWordZeroChildren (flag : Bool) : (setIsHighWordZero g n flag).children m = g.children m := setPayloadChildren g n m _

@[simp] theorem setIsHighWordZeroSize (flag : Bool) : (setIsHighWordZero g n flag).size = g.size := rfl

@[simp] theorem markPayload : (markHighWordZero g n).payload m =
    if m = n then {g.payload n with isHighWordZero := 0 ≤ getLongInt g n ∧ getLongInt g n < 2 ^ 32} else g.payload m := setPayloadPayload g n m _

@[simp] theorem markChildren : (markHighWordZero g n).children m = g.children m := setPayloadChildren g n m _

@[simp] theorem markSize : (markHighWordZero g n).size = g.size := rfl

@[simp] theorem createNodePayload (op : OpCode) : (create g op).payload m = if m = g.size then ⟨op,0,false,false,false⟩ else g.payload m :=
  createPayload g m _

@[simp] theorem createNodeChildren (op : OpCode) : (create g op).children m = if m = g.size then [] else g.children m := createChildren g m _

@[simp] theorem createNodeSize (op : OpCode) : (create g op).size = g.size + 1 := rfl

theorem releasedShape (list : List Nat) : SameShape g (list.foldl NodeGraph.recursivelyDecReferenceCount g) := by
  induction list generalizing g with
  | nil => exact ⟨rfl,fun m => ⟨rfl,rfl⟩⟩
  | cons head rest ih => exact sameShapeTrans (decUpToShape g.size g head) (ih _)

@[simp] theorem removeAllPayload : (removeAllChildren g n).payload m = g.payload m := by
  rw [removeAllChildren,((releasedShape _ _).2 m).1,clearChildrenPayload]

@[simp] theorem removeAllChildrenChildren : (removeAllChildren g n).children m = if m = n then [] else g.children m := by
  rw [removeAllChildren,((releasedShape _ _).2 m).2,clearChildrenChildren]

@[simp] theorem releaseSumPayload (sum grandChild lrChild : Nat) : (releaseSum g sum grandChild lrChild).payload m = g.payload m := by
  unfold releaseSum
  dsimp only
  split <;> simp

@[simp] theorem releaseSumChildren (sum grandChild lrChild : Nat) : (releaseSum g sum grandChild lrChild).children m = g.children m := by
  unfold releaseSum
  dsimp only
  split <;> simp

@[simp] theorem releaseSumSize (sum grandChild lrChild : Nat) : (releaseSum g sum grandChild lrChild).size = g.size := by
  unfold releaseSum
  dsimp only
  split <;> simp

end Shapes

section Values
variable {others : DataType → Nat → List Int → Int} {g : Trees} {roots : Nat → Nat} {n a b : Nat} {v : Int}

theorem valueRange (evaluates : Evaluates (meaning others) g n v) : InRange (opCode g n).type.bits v := by
  obtain ⟨value,_⟩ := evaluates
  exact wrapRange (opCode g n).type.bitsPos _

theorem binaryChildren (formed : WellFormed g roots) (live : 0 < g.referenceCount n) {t u : DataType} (two : (opCode g n).operands = some [t,u]) :
    ∃ a b, g.children n = [a,b] ∧ (opCode g a).type = t ∧ (opCode g b).type = u := by
  have types := formed.typed n live _ two
  match shape : g.children n, types with
  | [a,b],types =>
      simp only [List.map_cons,List.map_nil,List.cons.injEq,and_true] at types
      exact ⟨a,b,rfl,types.1,types.2⟩

theorem unaryChild (formed : WellFormed g roots) (live : 0 < g.referenceCount n) {t : DataType} (one : (opCode g n).operands = some [t]) :
    ∃ a, g.children n = [a] ∧ (opCode g a).type = t := by
  have types := formed.typed n live _ one
  match shape : g.children n, types with
  | [a],types =>
      simp only [List.map_cons,List.map_nil,List.cons.injEq,and_true] at types
      exact ⟨a,rfl,types⟩

theorem constOperands {op : OpCode} (isConst : op.isLoadConst = true) : op.operands = some [] := by
  cases op <;> first | rfl | cases isConst

theorem exactConst {p : Node} (isConst : p.opCode.isLoadConst = true) (values : List Int) : exactValue others p values = p.constValue := by
  obtain ⟨op,constValue,_,_,_⟩ := p
  cases op <;> first | rfl | cases isConst

theorem constChildren (formed : WellFormed g roots) (live : 0 < g.referenceCount n) (isConst : isLoadConst g n = true) : g.children n = [] :=
  List.map_eq_nil_iff.mp (formed.typed n live [] (constOperands isConst))

theorem constValue (formed : WellFormed g roots) (live : 0 < g.referenceCount n) (isConst : isLoadConst g n = true) :
    Evaluates (meaning others) g n (wrap (opCode g n).type.bits (g.payload n).constValue) := by
  have leaf : Evaluates (meaning others) g n (meaning others (g.payload n) []) := Evaluates.leaf (constChildren formed live isConst)
  rw [meaning,exactConst isConst] at leaf
  exact leaf

theorem longConstValue (formed : WellFormed g roots) (live : 0 < g.referenceCount n) (isConst : isLoadConst g n = true)
    (long : (opCode g n).type = .Int64) : Evaluates (meaning others) g n (getLongInt g n) := by
  have value := @constValue others g roots n formed live isConst
  rw [long] at value
  exact value

theorem intConstValue (formed : WellFormed g roots) (live : 0 < g.referenceCount n) (isConst : isLoadConst g n = true)
    (int : (opCode g n).type = .Int32) : Evaluates (meaning others) g n (getInt g n) := by
  have value := @constValue others g roots n formed live isConst
  rw [int] at value
  exact value

end Values

section Order
variable {others : DataType → Nat → List Int → Int} {g g' : Trees} {roots : Nat → Nat} {node a b m : Nat}

theorem swapChildrenChildren (two : g.children node = [a,b]) : (swapChildren g node).children m = if m = node then [b,a] else g.children m := by
  simp only [swapChildren,setChildChildren,getFirstChild,getSecondChild,two,NodeGraph.setAt]
  split <;> simp

theorem swapChildrenPayload : (swapChildren g node).payload m = g.payload m := by simp [swapChildren]

theorem swapChildrenCount : (swapChildren g node).referenceCount m = g.referenceCount m := by simp [swapChildren]

theorem swapFrame (two : g.children node = [a,b]) : Frame (meaning others) g (swapChildren g node) node [] := by
  refine ⟨fun m _ other _ => ⟨fun values => by rw [swapChildrenPayload],?_⟩,nofun⟩
  rw [swapChildrenChildren two,if_neg other]

-- A multiplication does not depend on the order of its operands.
theorem exactSwap {p : Node} (commutes : p.opCode = .imul ∨ p.opCode = .lmul) (x y : Int) : exactValue others p [x,y] = exactValue others p [y,x] := by
  rcases commutes with op | op <;> simp only [exactValue,op,Int.mul_comm]

theorem swapPreserved (formed : WellFormed g roots) (live : 0 < g.referenceCount node) (two : g.children node = [a,b])
    (commutes : opCode g node = .imul ∨ opCode g node = .lmul) : Preserved (meaning others) g roots node (swapChildren g node) node := by
  refine (swapFrame two).preserved formed.counted live fun v evaluates => ?_
  obtain ⟨x,y,first,second,rfl⟩ := evaluates.ofBinary two
  have acyclic := evaluates.acyclic
  have onA : a ∈ g.children node := by simp [two]
  have onB : b ∈ g.children node := by simp [two]
  have first' := (swapFrame two).operandKept formed.counted live acyclic (.single onA) (formed.counted.live live onA) (by simp) first
  have second' := (swapFrame two).operandKept formed.counted live acyclic (.single onB) (formed.counted.live live onB) (by simp) second
  have swapped : (swapChildren g node).children node = [b,a] := by rw [swapChildrenChildren two,if_pos rfl]
  have made := Evaluates.binary swapped second' first'
  rw [swapChildrenPayload,meaning,exactSwap commutes] at made
  exact made

theorem swapFormed (formed : WellFormed g roots) (two : g.children node = [a,b]) (same : (opCode g a).type = (opCode g b).type) :
    WellFormed (swapChildren g node) roots := by
  have op : ∀ m, opCode (swapChildren g node) m = opCode g m := fun m => by rw [opCode,swapChildrenPayload,opCode]
  refine ⟨formed.counted.reordered rfl (fun m => swapChildrenCount) fun m => ?_,fun m live types fixed => ?_⟩
  · rw [swapChildrenChildren two]
    split
    · rename_i here
      rw [here,two]
      exact List.Perm.swap a b []
    · exact List.Perm.refl _
  · rw [swapChildrenCount] at live
    rw [op] at fixed
    have typed := formed.typed m live types fixed
    simp only [op]
    rw [swapChildrenChildren two]
    split
    · rename_i here
      rw [here,two] at typed
      rw [← typed]
      simp [same]
    · exact typed

-- A step that leaves a multiplication with its two operands.
structure Reordered (others : DataType → Nat → List Int → Int) (g : Trees) (roots : Nat → Nat) (node : Nat) (g' : Trees) : Prop where
  formed : WellFormed g' roots
  size : g'.size = g.size
  payload : ∀ m, g'.payload m = g.payload m
  count : ∀ m, g'.referenceCount m = g.referenceCount m
  frame : Frame (meaning others) g g' node []
  preserved : Preserved (meaning others) g roots node g' node

theorem reorderedRefl (formed : WellFormed g roots) : Reordered others g roots node g :=
  ⟨formed,rfl,fun _ => rfl,fun _ => rfl,⟨fun _ _ _ _ => ⟨fun _ => rfl,rfl⟩,nofun⟩,Preserved.refl _ _ _ _⟩

theorem reorderedSwap (formed : WellFormed g roots) (live : 0 < g.referenceCount node) (isMul : opCode g node = .imul ∨ opCode g node = .lmul) :
    Reordered others g roots node (swapChildren g node) := by
  have fixed : ∃ t, (opCode g node).operands = some [t,t] := by
    rcases isMul with op | op <;> rw [op]
    · exact ⟨.Int32,rfl⟩
    · exact ⟨.Int64,rfl⟩
  obtain ⟨t,two'⟩ := fixed
  obtain ⟨a,b,two,typeA,typeB⟩ := binaryChildren formed live two'
  exact ⟨swapFormed formed two (typeA.trans typeB.symm),rfl,fun _ => swapChildrenPayload,fun _ => swapChildrenCount,swapFrame two,swapPreserved formed live two isMul⟩

theorem orderedEither (env : Env) (g : Trees) (node : Nat) : orderChildren env g node = g ∨ orderChildren env g node = swapChildren g node := by
  unfold orderChildren
  dsimp only
  repeat' split
  all_goals simp

theorem orderedWordEither (g : Trees) (node : Nat) :
    orderChildrenByHighWordZero g node = g ∨ orderChildrenByHighWordZero g node = swapChildren g node := by
  unfold orderChildrenByHighWordZero
  dsimp only
  split <;> simp

end Order

end OmrCompiler.MultiplyNodes
