import OmrCompiler.SequentialMoves
import Mathlib.Data.List.Zip
import Mathlib.Data.Int.Basic

/-! The values of an IL builder, the simulated operand stack and operand array of
a virtual machine, and the code that carries one state over into another where two
paths meet. -/
namespace OmrCompiler.VirtualMachineMerge
open SequentialMoves (step run Functional Unread)

inductive DataType
  | noType | int8 | int16 | int32 | int64 | float | double | address | vectorInt8 | vectorInt16 | vectorInt32 | vectorInt64
  | vectorFloat | vectorDouble
  deriving DecidableEq

structure SymbolReference where
  number : Nat
  dataType : DataType
  deriving DecidableEq

inductive Op
  | computed (value : Nat)
  | load (symRef : SymbolReference)

structure Node where
  dataType : DataType
  op : Op

def createLoad (s : SymbolReference) : Node := ⟨s.dataType,.load s⟩

-- What anchors a value is its treetop, or the store to its auto after that.
inductive TreeTop
  | anchor (value : Nat) (node : Node)
  | store (symRef : SymbolReference) (node : Node) (anchors : Option Nat)

structure IlValue where
  nodeThatComputesValue : Node
  blockThatComputesValue : Nat
  symRefThatCanBeUsedInOtherBlocks : Option SymbolReference

-- The values of a method by their identifiers, and its trees by block.
structure MethodBuilder where
  values : Nat → IlValue
  trees : Nat → List TreeTop
  blocks : Nat
  nextSymRef : Nat
  computed : ∀ v, (values v).blockThatComputesValue < blocks
  fresh : ∀ {v s}, (values v).symRefThatCanBeUsedInOtherBlocks = some s → s.number < nextSymRef
  apart : ∀ {v w s s'}, (values v).symRefThatCanBeUsedInOtherBlocks = some s → (values w).symRefThatCanBeUsedInOtherBlocks = some s' →
    s.number = s'.number → v = w

namespace MethodBuilder
variable (m : MethodBuilder)

def node (v : Nat) : Node := (m.values v).nodeThatComputesValue

def block (v : Nat) : Nat := (m.values v).blockThatComputesValue

def symRef (v : Nat) : Option SymbolReference := (m.values v).symRefThatCanBeUsedInOtherBlocks

def getDataType (v : Nat) : DataType := (m.node v).dataType

end MethodBuilder

-- The store stands where the value was anchored.
def storeAtAnchor (v : Nat) (s : SymbolReference) (n : Node) : TreeTop → TreeTop
  | .anchor w node => if w = v then .store s n (some v) else .anchor w node
  | .store s' n' a => .store s' n' a

def nextTemporary (v : Nat) (m : MethodBuilder) : SymbolReference := ⟨m.nextSymRef,m.getDataType v⟩

def createTemporary (v : Nat) (m : MethodBuilder) : MethodBuilder where
  values := Function.update m.values v { m.values v with symRefThatCanBeUsedInOtherBlocks := some (nextTemporary v m) }
  trees := Function.update m.trees (m.block v) ((m.trees (m.block v)).map (storeAtAnchor v (nextTemporary v m) (m.node v)))
  blocks := m.blocks
  nextSymRef := m.nextSymRef + 1
  computed w := by
    by_cases here : w = v
    · subst here
      simpa using m.computed w
    · simpa [here] using m.computed w
  fresh {w s} found := by
    by_cases here : w = v
    · subst here
      simp only [Function.update_self,Option.some.injEq] at found
      subst found
      exact Nat.lt_succ_self _
    · rw [Function.update_of_ne here] at found
      exact Nat.lt_succ_of_lt (m.fresh found)
  apart {u w s s'} atU atW same := by
    by_cases first : u = v <;> by_cases second : w = v
    · rw [first,second]
    · rw [first,Function.update_self,Option.some.injEq] at atU
      rw [Function.update_of_ne second] at atW
      have older := m.fresh atW
      rw [← same,← atU] at older
      exact absurd older (Nat.lt_irrefl _)
    · rw [Function.update_of_ne first] at atU
      rw [second,Function.update_self,Option.some.injEq] at atW
      have older := m.fresh atU
      rw [same,← atW] at older
      exact absurd older (Nat.lt_irrefl _)
    · rw [Function.update_of_ne first] at atU
      rw [Function.update_of_ne second] at atW
      exact m.apart atU atW same

-- The auto of a value, made at its first use from another block.
def storeToAuto (v : Nat) (m : MethodBuilder) : MethodBuilder × SymbolReference :=
  match m.symRef v with
  | some s => (m,s)
  | none => (createTemporary v m,nextTemporary v m)

def load (v block : Nat) (m : MethodBuilder) : MethodBuilder × Node :=
  if m.block v = block then (m,m.node v)
  else
    let stored := storeToAuto v m
    (stored.1,createLoad stored.2)

def setNode (v : Nat) (n : Node) (m : MethodBuilder) : MethodBuilder :=
  { m with
    values := Function.update m.values v { m.values v with nodeThatComputesValue := n }
    computed := fun w => by by_cases here : w = v <;> simp [here,m.computed]
    fresh := fun {w s} found => m.fresh (v := w) (by by_cases here : w = v <;> simpa [here] using found)
    apart := fun {u w s s'} atU atW same =>
      m.apart (v := u) (w := w) (by by_cases here : u = v <;> simpa [here] using atU) (by by_cases here : w = v <;> simpa [here] using atW) same }

def append (block : Nat) (s : SymbolReference) (n : Node) (m : MethodBuilder) : MethodBuilder :=
  { m with trees := Function.update m.trees block (m.trees block ++ [.store s n none]) }

-- From here on a load of the value gives the other one.
def storeOver (dest value block : Nat) (m : MethodBuilder) : MethodBuilder :=
  if m.block value = block ∧ m.block dest = block then setNode dest (m.node value) m
  else
    let (m,symRef) := storeToAuto dest m
    let (m,sourceValue) := if m.block value ≠ block then load value block (storeToAuto value m).1 else (m,m.node value)
    append block symRef sourceValue m

inductive VirtualMachineState
  | operandStack (stack : List Nat)
  | operandArray (values : List (Option Nat))

def mergeElement (block source target : Nat) (m : MethodBuilder) : Option MethodBuilder :=
  if target = source then some m
  else if m.getDataType source = m.getDataType target then some (storeOver target source block m)
  else none

-- A source of NULL for a target that is not is dereferenced.
def mergeArrayElement (block : Nat) (m : MethodBuilder) : Option Nat × Option Nat → Option MethodBuilder
  | (none,none) => some m
  | (some _,none) => none
  | (none,some _) => none
  | (some source,some target) => mergeElement block source target m

-- The stack is merged from its top down, the array from its first element on.
def mergeInto (block : Nat) (m : MethodBuilder) : VirtualMachineState → VirtualMachineState → Option MethodBuilder
  | .operandStack source,.operandStack target =>
      if source.length = target.length then
        (source.zip target).reverse.foldlM (fun m e => mergeElement block e.1 e.2 m) m
      else none
  | .operandArray source,.operandArray target =>
      if source.length = target.length then (source.zip target).foldlM (mergeArrayElement block) m else none
  | _,_ => none

def orphanBytecodeBuilder (m : MethodBuilder) : MethodBuilder :=
  { m with
    blocks := m.blocks + 1
    trees := Function.update m.trees m.blocks []
    computed := fun v => Nat.lt_succ_of_lt (m.computed v) }

structure Transfer where
  method : MethodBuilder
  initialVMState : VirtualMachineState
  intermediate : Option Nat

-- A target without a state gets a copy of this one.
def transferVMState (m : MethodBuilder) (vmState : VirtualMachineState) : Option VirtualMachineState → Option Transfer
  | none => some ⟨m,vmState,none⟩
  | some initial => do
      let merged ← mergeInto m.blocks (orphanBytecodeBuilder m) vmState initial
      some ⟨merged,initial,some m.blocks⟩

section Execution
variable {V : Type}

def eval (nodes autos : Nat → V) : Op → V
  | .computed v => nodes v
  | .load s => autos s.number

def execute (nodes autos : Nat → V) : TreeTop → Nat → V
  | .anchor _ _ => autos
  | .store s n _ => Function.update autos s.number (eval nodes autos n.op)

def executeBlock (nodes : Nat → V) (trees : List TreeTop) (autos : Nat → V) : Nat → V := trees.foldl (execute nodes) autos

-- Where a value has an auto, the auto holds it.
def Holds (m : MethodBuilder) (entry autos : Nat → V) : Prop := ∀ {v s}, m.symRef v = some s → autos s.number = entry v

-- What a later block reads: nothing was stored over a value without an auto.
def read (m : MethodBuilder) (entry autos : Nat → V) (v : Nat) : V :=
  match m.symRef v with
  | some s => autos s.number
  | none => entry v

theorem executeBlockAway {nodes autos : Nat → V} {trees : List TreeTop} {k : Nat} (away : ∀ {s n a}, .store s n a ∈ trees → s.number ≠ k) :
    executeBlock nodes trees autos k = autos k := by
  induction trees generalizing autos with
  | nil => rfl
  | cons t rest ih =>
      have later := @ih (execute nodes autos t) fun on => away (List.mem_cons_of_mem _ on)
      refine later.trans ?_
      cases t with
      | anchor => rfl
      | store s n a => exact Function.update_of_ne (away List.mem_cons_self).symm _ _

end Execution

section Auto
variable {v : Nat} {m : MethodBuilder}

-- What getting an auto for a value does to the method.
structure Stored (v : Nat) (m m' : MethodBuilder) (s : SymbolReference) : Prop where
  here : m'.symRef v = some s
  kept : ∀ {w t}, m.symRef w = some t → m'.symRef w = some t
  others : ∀ {w}, w ≠ v → m'.symRef w = m.symRef w
  known : m.nextSymRef ≤ m'.nextSymRef
  new : m.symRef v = none → s.number = m.nextSymRef
  node : ∀ w, m'.node w = m.node w
  block : ∀ w, m'.block w = m.block w
  trees : ∀ {b}, m.block v ≠ b → m'.trees b = m.trees b

theorem storedToAuto (v : Nat) (m : MethodBuilder) : Stored v m (storeToAuto v m).1 (storeToAuto v m).2 := by
  cases found : m.symRef v with
  | some s =>
      have same : storeToAuto v m = (m,s) := by simp only [storeToAuto,found]
      rw [same]
      exact ⟨found,id,fun _ => rfl,Nat.le_refl _,fun absent => by simp [found] at absent,fun _ => rfl,fun _ => rfl,fun _ => rfl⟩
  | none =>
      have made : storeToAuto v m = (createTemporary v m,nextTemporary v m) := by simp only [storeToAuto,found]
      have others : ∀ {w}, w ≠ v → (createTemporary v m).symRef w = m.symRef w := fun away => by
        simp [MethodBuilder.symRef,createTemporary,away]
      rw [made]
      refine ⟨by simp [MethodBuilder.symRef,createTemporary],fun {w t} at' => ?_,others,Nat.le_succ _,fun _ => rfl,fun w => ?_,fun w => ?_,
        fun away => Function.update_of_ne away.symm _ _⟩
      · rw [others (fun same => by simp [same,found] at at')]
        exact at'
      · by_cases here : w = v <;> simp [MethodBuilder.node,createTemporary,here]
      · by_cases here : w = v <;> simp [MethodBuilder.block,createTemporary,here]

end Auto

section Merging
variable {V : Type} {block : Nat} {moves : List (Nat × Nat)} {m : MethodBuilder}

-- The code of the block so far makes the moves on the values.
structure Carried (V : Type) (block : Nat) (moves : List (Nat × Nat)) (m : MethodBuilder) : Prop where
  elsewhere : ∀ v, m.block v ≠ block
  named : ∀ {move}, move ∈ moves → (m.symRef move.1).isSome
  older : ∀ {s n a}, .store s n a ∈ m.trees block → s.number < m.nextSymRef
  runs : ∀ {entry autos : Nat → V} (nodes : Nat → V), Holds m entry autos →
    Holds m (run moves entry) (executeBlock nodes (m.trees block) autos)

theorem Carried.stored (h : Carried V block moves m) {v : Nat} {m' : MethodBuilder} {s : SymbolReference} (to' : Stored v m m' s) :
    Carried V block moves m' := by
  have same := to'.trees (h.elsewhere v)
  refine ⟨fun w => by rw [to'.block]; exact h.elsewhere w,fun on => ?_,fun on => ?_,fun {entry autos} nodes holds {w t} found => ?_⟩
  · obtain ⟨t,found⟩ := Option.isSome_iff_exists.mp (h.named on)
    rw [to'.kept found]
    rfl
  · rw [same] at on
    exact Nat.lt_of_lt_of_le (h.older on) to'.known
  · rw [same]
    cases was : m.symRef w with
    | some u =>
        have still : u = t := Option.some.inj ((to'.kept was).symm.trans found)
        subst still
        exact h.runs nodes (fun at' => holds (to'.kept at')) was
    | none =>
        -- The new auto: no store of the block and no move has touched it.
        have here : w = v := by
          by_contra away
          rw [to'.others away,was] at found
          cases found
        subst here
        have number := to'.new was
        rw [Option.some.inj (to'.here.symm.trans found)] at number
        rw [executeBlockAway (fun on => number ▸ Nat.ne_of_lt (h.older on)),holds found]
        refine (SequentialMoves.runAway (fun move on target => ?_) entry).symm
        have given := h.named on
        rw [target,was] at given
        cases given

theorem Carried.append (h : Carried V block moves m) {dest value : Nat} {s t : SymbolReference} (atDest : m.symRef dest = some s)
    (atValue : m.symRef value = some t) : Carried V block (moves ++ [(dest,value)]) (append block s (createLoad t) m) := by
  refine ⟨h.elsewhere,fun on => ?_,fun {u n a} on => ?_,fun {entry autos} nodes holds {w u} found => ?_⟩
  · rcases List.mem_append.mp on with early | last
    · exact h.named early
    · rw [List.mem_singleton.mp last]
      exact Option.isSome_iff_exists.mpr ⟨s,atDest⟩
  · simp only [VirtualMachineMerge.append,Function.update_self,List.mem_append,List.mem_singleton] at on
    rcases on with was | new
    · exact h.older was
    · cases new
      exact m.fresh atDest
  · have before := @h.runs entry autos nodes holds
    have now : executeBlock nodes ((VirtualMachineMerge.append block s (createLoad t) m).trees block) autos =
        Function.update (executeBlock nodes (m.trees block) autos) s.number (executeBlock nodes (m.trees block) autos t.number) := by
      simp [VirtualMachineMerge.append,executeBlock,List.foldl_append,execute,eval,createLoad]
    rw [now,SequentialMoves.runAppend]
    change _ = Function.update (run moves entry) dest (run moves entry value) w
    by_cases here : w = dest
    · subst here
      rw [Option.some.inj (atDest.symm.trans found),Function.update_self,Function.update_self,before atValue]
    · have other : u.number ≠ s.number := fun same => here (m.apart found atDest same)
      rw [Function.update_of_ne here,Function.update_of_ne other,before found]

theorem Carried.storeOver (h : Carried V block moves m) (dest value : Nat) :
    Carried V block (moves ++ [(dest,value)]) (storeOver dest value block m) ∧
      ∀ w, (VirtualMachineMerge.storeOver dest value block m).node w = m.node w := by
  have first := storedToAuto dest m
  set m1 := (storeToAuto dest m).1
  have away : m1.block value ≠ block := by
    rw [first.block]
    exact h.elsewhere value
  have second := storedToAuto value m1
  set m2 := (storeToAuto value m1).1
  have third := storedToAuto value m2
  have away' : m2.block value ≠ block := by
    rw [second.block]
    exact away
  have made : VirtualMachineMerge.storeOver dest value block m =
      VirtualMachineMerge.append block (storeToAuto dest m).2 (createLoad (storeToAuto value m2).2) (storeToAuto value m2).1 := by
    rw [VirtualMachineMerge.storeOver,if_neg fun both => h.elsewhere value both.1]
    simp only [m1,m2] at away away' ⊢
    rw [if_pos away,load,if_neg away']
  rw [made]
  refine ⟨(((h.stored first).stored second).stored third).append (third.kept (second.kept first.here)) third.here,fun w => ?_⟩
  change (storeToAuto value m2).1.node w = m.node w
  rw [third.node,second.node,first.node]

theorem Carried.element (h : Carried V block moves m) {source target : Nat} (typed : m.getDataType source = m.getDataType target) :
    ∃ m', mergeElement block source target m = some m' ∧ (∀ w, m'.node w = m.node w) ∧
      Carried V block (moves ++ [(target,source)].filter fun e => e.1 ≠ e.2) m' := by
  by_cases same : target = source
  · refine ⟨m,if_pos same,fun _ => rfl,?_⟩
    rw [List.filter_cons_of_neg (by simpa using same),List.filter_nil,List.append_nil]
    exact h
  · have stored := h.storeOver target source
    refine ⟨VirtualMachineMerge.storeOver target source block m,by rw [mergeElement,if_neg same,if_pos typed],stored.2,?_⟩
    rw [List.filter_cons_of_pos (by simpa using same)]
    exact stored.1

theorem Carried.elements (stores : List (Nat × Nat)) (h : Carried V block moves m)
    (typed : ∀ e ∈ stores, m.getDataType e.1 = m.getDataType e.2) :
    ∃ m', stores.foldlM (fun m e => mergeElement block e.1 e.2 m) m = some m' ∧
      Carried V block (moves ++ (stores.map Prod.swap).filter fun e => e.1 ≠ e.2) m' := by
  induction stores generalizing m moves with
  | nil => exact ⟨m,rfl,by simpa using h⟩
  | cons e rest ih =>
      obtain ⟨next,made,nodes,carried⟩ := h.element (typed e List.mem_cons_self)
      have rest' : ∀ e ∈ rest, next.getDataType e.1 = next.getDataType e.2 := fun f on => by
        rw [MethodBuilder.getDataType,MethodBuilder.getDataType,nodes,nodes]
        exact typed f (List.mem_cons_of_mem _ on)
      obtain ⟨last,ran,all⟩ := ih carried rest'
      refine ⟨last,?_,?_⟩
      · rw [List.foldlM_cons,made]
        exact ran
      · rw [List.append_assoc,← List.filter_append] at all
        exact all

end Merging

section States

def VirtualMachineState.element : VirtualMachineState → Nat → Option Nat
  | .operandStack stack,i => stack[i]?
  | .operandArray values,i => values[i]?.join

-- The element at i is merged before the one at j.
def VirtualMachineState.Earlier : VirtualMachineState → Nat → Nat → Prop
  | .operandStack _,i,j => j < i
  | .operandArray _,i,j => i < j

def VirtualMachineState.SameShape : VirtualMachineState → VirtualMachineState → Prop
  | .operandStack source,.operandStack target => source.length = target.length
  | .operandArray source,.operandArray target => source.length = target.length
  | _,_ => False

structure Matching (m : MethodBuilder) (source target : VirtualMachineState) : Prop where
  shape : source.SameShape target
  both : ∀ i, (source.element i).isSome = (target.element i).isSome
  typed : ∀ {i s t}, source.element i = some s → target.element i = some t → m.getDataType s = m.getDataType t

/- A value that stands twice in the target has one source, and no value of the
target is overwritten before it was read as a source. -/
structure Undisturbed (source target : VirtualMachineState) : Prop where
  shared : ∀ {i j t}, target.element i = some t → target.element j = some t → source.element i = source.element j
  unread : ∀ {i j t}, source.Earlier i j → target.element i = some t → source.element j = some t → source.element i = some t

def both : Option Nat × Option Nat → Option (Nat × Nat)
  | (some s,some t) => some (s,t)
  | _ => none

theorem bothSome {e : Option Nat × Option Nat} {p : Nat × Nat} : both e = some p ↔ e.1 = some p.1 ∧ e.2 = some p.2 := by
  obtain ⟨a | a,b | b⟩ := e <;> simp [both,Prod.ext_iff]

-- Source and target of each element in the order of the merge.
def stores : VirtualMachineState → VirtualMachineState → List (Nat × Nat)
  | .operandStack source,.operandStack target => (source.zip target).reverse
  | .operandArray source,.operandArray target => (source.zip target).filterMap both
  | _,_ => []

theorem pairwiseAt {α : Type} {R : α → α → Prop} {l : List α} :
    l.Pairwise R ↔ ∀ {i j : Nat} {a b : α}, i < j → l[i]? = some a → l[j]? = some b → R a b := by
  rw [List.pairwise_iff_getElem]
  constructor
  · intro all i j a b before atI atJ
    obtain ⟨insideI,rfl⟩ := List.getElem?_eq_some_iff.mp atI
    obtain ⟨insideJ,rfl⟩ := List.getElem?_eq_some_iff.mp atJ
    exact all i j insideI insideJ before
  · intro all i j insideI insideJ before
    exact all before (List.getElem?_eq_getElem insideI) (List.getElem?_eq_getElem insideJ)

variable {source target : VirtualMachineState}

theorem memStores (shape : source.SameShape target) {p : Nat × Nat} :
    p ∈ stores source target ↔ ∃ i, source.element i = some p.1 ∧ target.element i = some p.2 := by
  match source,target with
  | .operandStack source,.operandStack target =>
      rw [stores,List.mem_reverse,List.mem_iff_getElem?]
      simp only [List.getElem?_zip_eq_some,VirtualMachineState.element]
  | .operandArray source,.operandArray target =>
      rw [stores,List.mem_filterMap]
      simp only [bothSome,List.mem_iff_getElem?,List.getElem?_zip_eq_some,VirtualMachineState.element,Option.join_eq_some_iff]
      constructor
      · rintro ⟨e,⟨i,atS,atT⟩,first,second⟩
        exact ⟨i,first ▸ atS,second ▸ atT⟩
      · rintro ⟨i,atS,atT⟩
        exact ⟨(some p.1,some p.2),⟨i,atS,atT⟩,rfl,rfl⟩

theorem pairwiseStores (shape : source.SameShape target) {R : Nat × Nat → Nat × Nat → Prop} :
    (stores source target).Pairwise R ↔ ∀ {i j p q}, source.Earlier i j → source.element i = some p.1 → target.element i = some p.2 →
      source.element j = some q.1 → target.element j = some q.2 → R p q := by
  match source,target with
  | .operandStack source,.operandStack target =>
      rw [stores,List.pairwise_reverse,pairwiseAt]
      simp only [List.getElem?_zip_eq_some,VirtualMachineState.element,VirtualMachineState.Earlier]
      exact ⟨fun all _ _ _ _ before s t s' t' => all before ⟨s',t'⟩ ⟨s,t⟩,fun all _ _ _ _ before b a => all before a.1 a.2 b.1 b.2⟩
  | .operandArray source,.operandArray target =>
      rw [stores,List.pairwise_filterMap,pairwiseAt]
      simp only [List.getElem?_zip_eq_some,VirtualMachineState.element,VirtualMachineState.Earlier,Option.join_eq_some_iff,bothSome]
      constructor
      · intro all i j p q before s t s' t'
        exact @all i j (some p.1,some p.2) (some q.1,some q.2) before ⟨s,t⟩ ⟨s',t'⟩ p ⟨rfl,rfl⟩ q ⟨rfl,rfl⟩
      · intro all i j a b before atI atJ p isP q isQ
        exact all before (isP.1 ▸ atI.1) (isP.2 ▸ atI.2) (isQ.1 ▸ atJ.1) (isQ.2 ▸ atJ.2)

theorem undisturbedIff {m : MethodBuilder} (h : Matching m source target) :
    Undisturbed source target ↔ Functional ((stores source target).map Prod.swap) ∧ ((stores source target).map Prod.swap).Pairwise Unread := by
  have partner : ∀ {i t}, target.element i = some t → ∃ s, source.element i = some s := fun {i t} at' =>
    Option.isSome_iff_exists.mp ((h.both i).trans (by rw [at']; rfl))
  have partner' : ∀ {i s}, source.element i = some s → ∃ t, target.element i = some t := fun {i s} at' =>
    Option.isSome_iff_exists.mp ((h.both i).symm.trans (by rw [at']; rfl))
  rw [List.pairwise_map,pairwiseStores h.shape]
  constructor
  · intro clean
    refine ⟨fun a onA b onB same => ?_,fun before atS atT atS' atT' written => ?_⟩
    · obtain ⟨p,onP,rfl⟩ := List.mem_map.mp onA
      obtain ⟨q,onQ,rfl⟩ := List.mem_map.mp onB
      obtain ⟨i,atS,atT⟩ := (memStores h.shape).mp onP
      obtain ⟨j,atS',atT'⟩ := (memStores h.shape).mp onQ
      change p.2 = q.2 at same
      have shared := clean.shared atT (same ▸ atT')
      rw [atS,atS'] at shared
      exact Option.some.inj shared
    · have kept := clean.unread before atT (atS'.trans (congrArg some written.symm))
      rw [atS] at kept
      exact Option.some.inj kept
  · intro ⟨functional,unread⟩
    refine ⟨fun {i j t} atI atJ => ?_,fun {i j t} before atT atS => ?_⟩
    · obtain ⟨s,atS⟩ := partner atI
      obtain ⟨s',atS'⟩ := partner atJ
      have onP := List.mem_map_of_mem (f := Prod.swap) ((@memStores _ _ h.shape (s,t)).mpr ⟨i,atS,atI⟩)
      have onQ := List.mem_map_of_mem (f := Prod.swap) ((@memStores _ _ h.shape (s',t)).mpr ⟨j,atS',atJ⟩)
      have same : s = s' := functional _ onP _ onQ rfl
      rw [atS,atS',same]
    · obtain ⟨s,atI⟩ := partner atT
      obtain ⟨t',atJ⟩ := partner' atS
      have kept : s = t := @unread i j (s,t) (t,t') before atI atT atS atJ rfl
      rw [atI,kept]

theorem arrayStores {block : Nat} {l : List (Option Nat × Option Nat)} (paired : ∀ e ∈ l, e.1.isSome = e.2.isSome) (m : MethodBuilder) :
    l.foldlM (mergeArrayElement block) m = (l.filterMap both).foldlM (fun m e => mergeElement block e.1 e.2 m) m := by
  induction l generalizing m with
  | nil => rfl
  | cons e rest ih =>
      have rest' := fun m => ih (fun f on => paired f (List.mem_cons_of_mem _ on)) m
      have here := paired e List.mem_cons_self
      rw [List.foldlM_cons]
      match e,here with
      | (none,none),_ => exact rest' m
      | (some s,some t),_ =>
          have listed : both (some s,some t) = some (s,t) := rfl
          rw [List.filterMap_cons_some listed,List.foldlM_cons]
          exact congrArg _ (funext rest')

theorem mergeIntoStores {block : Nat} {m : MethodBuilder} (h : Matching m source target) (n : MethodBuilder) :
    mergeInto block n source target = (stores source target).foldlM (fun m e => mergeElement block e.1 e.2 m) n := by
  match source,target with
  | .operandStack source,.operandStack target => exact if_pos h.shape
  | .operandArray source,.operandArray target =>
      refine (if_pos h.shape).trans (arrayStores (fun e on => ?_) n)
      obtain ⟨i,at'⟩ := List.mem_iff_getElem?.mp on
      have zipped := List.getElem?_zip_eq_some.mp at'
      simpa [VirtualMachineState.element,zipped.1,zipped.2] using h.both i

theorem Carried.reads {V : Type} {block : Nat} {moves : List (Nat × Nat)} {m : MethodBuilder} (h : Carried V block moves m)
    {entry autos : Nat → V} (nodes : Nat → V) (holds : Holds m entry autos) (v : Nat) :
    read m entry (executeBlock nodes (m.trees block) autos) v = run moves entry v := by
  unfold read
  cases found : m.symRef v with
  | some s => exact h.runs nodes holds found
  | none =>
      refine (SequentialMoves.runAway (fun move on target => ?_) entry).symm
      have given := h.named on
      rw [target,found] at given
      cases given

-- Autos that hold any given values on entry.
theorem holdsSome {V : Type} [Nonempty V] (m : MethodBuilder) (entry : Nat → V) : ∃ autos, Holds m entry autos := by
  classical
  refine ⟨fun k => if at' : ∃ v s, m.symRef v = some s ∧ s.number = k then entry at'.choose else Classical.arbitrary V,fun {v s} found => ?_⟩
  have at' : ∃ v t, m.symRef v = some t ∧ t.number = s.number := ⟨v,s,found,rfl⟩
  refine (dif_pos at').trans ?_
  obtain ⟨t,taken,same⟩ := at'.choose_spec
  rw [m.apart taken found same]

/- Whatever the values are on entry to the intermediate block, after it each value
of the target reads as the source's element did. -/
def Transferred (V : Type) (m : MethodBuilder) (block : Nat) (source target : VirtualMachineState) : Prop :=
  ∀ entry nodes autos : Nat → V, Holds m entry autos → ∀ {i s t}, source.element i = some s → target.element i = some t →
    read m entry (executeBlock nodes (m.trees block) autos) t = entry s

theorem Carried.transferredIff {V : Type} [Nontrivial V] {block : Nat} {m m' : MethodBuilder} (shape : Matching m source target)
    (h : Carried V block (((stores source target).map Prod.swap).filter fun e => e.1 ≠ e.2) m') :
    Transferred V m' block source target ↔ Undisturbed source target := by
  rw [undisturbedIff shape,← SequentialMoves.runExactIff (V := V)]
  constructor
  · intro all entry e on
    obtain ⟨autos,holds⟩ := holdsSome m' entry
    obtain ⟨p,listed,rfl⟩ := List.mem_map.mp on
    obtain ⟨i,atS,atT⟩ := (memStores shape.shape).mp listed
    have moved := all entry entry autos holds atS atT
    rw [h.reads entry holds,SequentialMoves.runEffective] at moved
    exact moved
  · intro all entry nodes autos holds i s t atS atT
    rw [h.reads nodes holds,SequentialMoves.runEffective]
    exact all entry (t,s) (List.mem_map_of_mem (f := Prod.swap) ((@memStores _ _ shape.shape (s,t)).mpr ⟨i,atS,atT⟩))

end States

theorem orphanCarried (V : Type) (m : MethodBuilder) : Carried V m.blocks [] (orphanBytecodeBuilder m) := by
  have empty : (orphanBytecodeBuilder m).trees m.blocks = [] := by simp [orphanBytecodeBuilder]
  refine ⟨fun v => Nat.ne_of_lt (m.computed v),(fun on => nomatch on),fun on => ?_,fun nodes holds => ?_⟩
  · rw [empty] at on
    cases on
  · rw [empty]
    exact holds

theorem transferCarried (V : Type) {m : MethodBuilder} {source target : VirtualMachineState} (shape : Matching m source target) :
    ∃ m', transferVMState m source (some target) = some ⟨m',target,some m.blocks⟩ ∧
      Carried V m.blocks (((stores source target).map Prod.swap).filter fun e => e.1 ≠ e.2) m' := by
  have typed : ∀ e ∈ stores source target, (orphanBytecodeBuilder m).getDataType e.1 = (orphanBytecodeBuilder m).getDataType e.2 :=
    fun e on => by
      obtain ⟨i,atS,atT⟩ := (memStores shape.shape).mp on
      exact shape.typed atS atT
  obtain ⟨m',ran,carried⟩ := (orphanCarried V m).elements (stores source target) typed
  refine ⟨m',?_,carried⟩
  rw [transferVMState,mergeIntoStores shape,ran]
  rfl

theorem elementsTransferred {V : Type} [Nontrivial V] {m : MethodBuilder} {source target : VirtualMachineState}
    (shape : Matching m source target) :
    ∃ m', transferVMState m source (some target) = some ⟨m',target,some m.blocks⟩ ∧
      (Transferred V m' m.blocks source target ↔ Undisturbed source target) := by
  obtain ⟨m',ran,carried⟩ := transferCarried V shape
  exact ⟨m',ran,carried.transferredIff shape⟩

-- All values were computed in the first block.
def sample : MethodBuilder where
  values v := ⟨⟨.int32,.computed v⟩,0,none⟩
  trees _ := []
  blocks := 1
  nextSymRef := 0
  computed _ := Nat.zero_lt_one
  fresh found := nomatch found
  apart found := nomatch found

theorem sampleMatching {s t : List Nat} (same : s.length = t.length) : Matching sample (.operandStack s) (.operandStack t) := by
  refine ⟨same,fun i => ?_,fun _ _ => rfl⟩
  rw [Bool.eq_iff_iff]
  simp [VirtualMachineState.element,Option.isSome_iff_ne_none,same]

theorem elementsTransferredSample : Matching sample (.operandStack [2,0]) (.operandStack [0,1]) ∧
    ∃ m', transferVMState sample (.operandStack [2,0]) (some (.operandStack [0,1])) = some ⟨m',.operandStack [0,1],some 1⟩ ∧
      Transferred Int m' 1 (.operandStack [2,0]) (.operandStack [0,1]) := by
  have shape : Matching sample (.operandStack [2,0]) (.operandStack [0,1]) := sampleMatching rfl
  obtain ⟨m',ran,iff'⟩ := elementsTransferred (V := Int) shape
  refine ⟨shape,m',ran,iff'.mpr ⟨fun {i j t} atI atJ => ?_,fun {i j t} before atT atS => ?_⟩⟩
  · match i,j with
    | 0,0 => rfl
    | 1,1 => rfl
    | 0,1 => simp [VirtualMachineState.element] at atI atJ; omega
    | 1,0 => simp [VirtualMachineState.element] at atI atJ; omega
    | _ + 2,_ => simp [VirtualMachineState.element] at atI
    | _,_ + 2 => simp [VirtualMachineState.element] at atJ
  · match i,j with
    | 1,0 => simp [VirtualMachineState.element] at atT atS; omega
    | 0,_ => exact absurd before (Nat.not_lt_zero _)
    | 1,_ + 1 => exact absurd before (by simp [VirtualMachineState.Earlier])
    | _ + 2,_ => simp [VirtualMachineState.element] at atT

-- Two elements change places: the second store reads what the first one wrote.
theorem swapLosesElement : Matching sample (.operandStack [0,1]) (.operandStack [1,0]) ∧
    ∃ m', transferVMState sample (.operandStack [0,1]) (some (.operandStack [1,0])) = some ⟨m',.operandStack [1,0],some 1⟩ ∧
      ¬ Transferred Int m' 1 (.operandStack [0,1]) (.operandStack [1,0]) := by
  have shape : Matching sample (.operandStack [0,1]) (.operandStack [1,0]) := sampleMatching rfl
  obtain ⟨m',ran,carried⟩ := transferCarried Int shape
  refine ⟨shape,m',ran,fun all => ?_⟩
  have clean := (carried.transferredIff shape).mp all
  have kept := @clean.unread 1 0 0 Nat.zero_lt_one rfl rfl
  simp [VirtualMachineState.element] at kept

end OmrCompiler.VirtualMachineMerge
