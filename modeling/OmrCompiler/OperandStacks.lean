import Mathlib.Tactic.Ring

/-! The operand stack that a method builder simulates (OMRVirtualMachineOperandStack.cpp), and
the memory that Commit leaves for the virtual machine to pop from. -/
namespace OmrCompiler.OperandStacks
variable {V : Type}

-- The stack has _stackMax entries; one that is not set is null.
structure OperandStack (V : Type) where
  stack : List (Option V)
  stackTop : Int
  pushAmount : Int
  stackOffset : Int

-- The machine when the code that the builder makes runs. Addresses do not wrap around.
structure Machine (V : Type) where
  stackBase : Int
  stackTopRegister : Int
  memory : Int → V

section Model

def grow (growAmount : Nat) (s : OperandStack V) : OperandStack V :=
  let growAmount := if growAmount = 0 then s.stack.length / 2 else growAmount
  let growAmount := if growAmount = 0 then 1 else growAmount
  {s with stack := s.stack ++ List.replicate growAmount none}

def checkSize (s : OperandStack V) : OperandStack V := if s.stackTop = s.stack.length - 1 then grow 0 s else s

-- A null entry and one that is not in the array have no value.
def entry (s : OperandStack V) (i : Int) : Option V := if 0 ≤ i then s.stack[i.toNat]?.join else none

def push (value : V) (s : OperandStack V) : Option (OperandStack V) :=
  let s := checkSize s
  let stackTop := s.stackTop + 1
  if 0 ≤ stackTop ∧ stackTop < s.stack.length then some {s with stack := s.stack.set stackTop.toNat (some value), stackTop := stackTop} else none

def top (s : OperandStack V) : Option V := if s.stackTop ≥ 0 then entry s s.stackTop else none

def pop (s : OperandStack V) : Option (V × OperandStack V) :=
  if s.stackTop ≥ 0 then do
    let value ← entry s s.stackTop
    some (value,{s with stackTop := s.stackTop - 1})
  else none

def pick (depth : Int) (s : OperandStack V) : Option V := if s.stackTop ≥ depth then entry s (s.stackTop - depth) else none

def drop (depth : Int) (s : OperandStack V) : Option (OperandStack V) :=
  if s.stackTop ≥ depth - 1 then some {s with stackTop := s.stackTop - depth} else none

def dup (s : OperandStack V) : Option (OperandStack V) := do push (← top s) s

-- The address type is a pointer to the element type; adjustByStep is its size too.
def indexAt (size : Nat) (base index : Int) : Int := base + index * size

-- i from _stackTop down to 0, for n indices.
def storeElements (size : Nat) (s : OperandStack V) : Nat → Machine V → Option (Machine V)
  | 0,m => some m
  | i + 1,m => do
      let value ← pick (s.stackTop - i) s
      storeElements size s i {m with memory := Function.update m.memory (indexAt size m.stackBase (i - s.stackOffset)) value}

end Model

section Machine

end Machine

section Holds
variable {s : OperandStack V} {list : List V} {v : V} {size : Nat} {m : Machine V}

-- The array holds the list, whose head is the top, up to _stackTop.
structure Holds (s : OperandStack V) (list : List V) : Prop where
  count : s.stackTop + 1 = list.length
  shape : ∃ rest, s.stack = list.reverse.map some ++ rest

theorem Holds.entry (holds : Holds s list) {i : Nat} (inside : i < list.length) : entry s i = list.reverse[i]? := by
  obtain ⟨rest,shape⟩ := holds.shape
  rw [OperandStacks.entry,if_pos (by omega),shape,Int.toNat_natCast,List.getElem?_append_left (by simpa using inside),List.getElem?_map]
  cases list.reverse[i]? with
  | none => rfl
  | some _ => rfl

theorem Holds.top (holds : Holds s list) : top s = list.head? := by
  have count := holds.count
  unfold OperandStacks.top
  cases list with
  | nil => exact if_neg (by simp at count; omega)
  | cons v list =>
      rw [List.length_cons] at count
      have last : s.stackTop = list.length := by omega
      rw [if_pos (by omega),last,holds.entry (by simp)]
      simp

theorem Holds.push (holds : Holds s list) (v : V) :
    ∃ s', push v s = some s' ∧ Holds s' (v::list) ∧ s'.pushAmount = s.pushAmount ∧ s'.stackOffset = s.stackOffset := by
  have count := holds.count
  obtain ⟨x,rest,shape,same,amount,offset⟩ : ∃ x rest, (checkSize s).stack = list.reverse.map some ++ x::rest ∧ (checkSize s).stackTop = s.stackTop ∧
      (checkSize s).pushAmount = s.pushAmount ∧ (checkSize s).stackOffset = s.stackOffset := by
    obtain ⟨rest,shape⟩ := holds.shape
    have long := congrArg List.length shape
    rw [List.length_append,List.length_map,List.length_reverse] at long
    unfold checkSize
    split
    · unfold grow
      dsimp only
      generalize own : (if s.stack.length / 2 = 0 then 1 else s.stack.length / 2) = amount
      obtain ⟨k,rfl⟩ : ∃ k, amount = k + 1 := ⟨amount - 1,by split at own <;> omega⟩
      have full : rest = [] := List.length_eq_zero_iff.mp (by omega)
      refine ⟨none,List.replicate k none,?_,rfl,rfl,rfl⟩
      rw [if_pos rfl,own,List.replicate_succ,shape,full,List.append_nil]
    · cases rest with
      | nil =>
          rw [List.length_nil] at long
          omega
      | cons x rest => exact ⟨x,rest,shape,rfl,rfl,rfl⟩
  have long := congrArg List.length shape
  rw [List.length_append,List.length_map,List.length_reverse,List.length_cons] at long
  unfold OperandStacks.push
  dsimp only
  rw [if_pos (by omega)]
  refine ⟨_,rfl,⟨?_,rest,?_⟩,amount,offset⟩
  · dsimp only
    rw [List.length_cons]
    omega
  · dsimp only
    rw [shape,same,show (s.stackTop + 1).toNat = (list.reverse.map some).length by rw [List.length_map,List.length_reverse]; omega,
      List.set_append_right _ _ (Nat.le_refl _),Nat.sub_self,List.set_cons_zero,List.reverse_cons,List.map_append,List.append_assoc]
    rfl

theorem Holds.drop (holds : Holds s list) (depth : Nat) :
    drop depth s = if depth ≤ list.length then some {s with stackTop := s.stackTop - depth} else none := by
  have count := holds.count
  unfold OperandStacks.drop
  by_cases some : depth ≤ list.length
  · rw [if_pos some,if_pos (by omega)]
  · rw [if_neg some,if_neg (by omega)]

theorem Holds.dropped (holds : Holds s list) {depth : Nat} (some : depth ≤ list.length) : Holds {s with stackTop := s.stackTop - depth} (list.drop depth) := by
  have count := holds.count
  obtain ⟨rest,shape⟩ := holds.shape
  refine ⟨?_,(list.take depth).reverse.map Option.some ++ rest,?_⟩
  · dsimp only
    rw [List.length_drop]
    omega
  · dsimp only
    rw [shape,← List.append_assoc,← List.map_append,← List.reverse_append,List.take_append_drop]

theorem Holds.pick (holds : Holds s list) {i : Nat} (inside : i < list.length) : pick (s.stackTop - i) s = list.reverse[i]? := by
  have count := holds.count
  unfold OperandStacks.pick
  rw [if_pos (by omega),show s.stackTop - (s.stackTop - i) = i by omega,holds.entry inside]

-- The elements that are stored have addresses of their own.
theorem indexAtApart {i j : Nat} {base offset : Int} (some : 0 < size) (apart : i ≠ j) : indexAt size base (i - offset) ≠ indexAt size base (j - offset) := by
  intro same
  have equal : ((i : Int) - offset) * size = (j - offset) * size := by
    unfold indexAt at same
    omega
  have := Int.eq_of_mul_eq_mul_right (by omega) equal
  omega

structure Stored (size : Nat) (s : OperandStack V) (list : List V) (n : Nat) (m m' : Machine V) : Prop where
  stackBase : m'.stackBase = m.stackBase
  stackTopRegister : m'.stackTopRegister = m.stackTopRegister
  elements : ∀ i, i < n → list.reverse[i]? = some (m'.memory (indexAt size m.stackBase (i - s.stackOffset)))
  others : ∀ a, (∀ i, i < n → a ≠ indexAt size m.stackBase ((i : Nat) - s.stackOffset)) → m'.memory a = m.memory a

theorem Holds.stores (holds : Holds s list) (some : 0 < size) (n : Nat) (upTo : n ≤ list.length) (m : Machine V) :
    ∃ m', storeElements size s n m = .some m' ∧ Stored size s list n m m' := by
  induction n generalizing m with
  | zero => exact ⟨m,rfl,rfl,rfl,fun i less => absurd less (Nat.not_lt_zero i),fun _ _ => rfl⟩
  | succ n ih =>
      obtain ⟨value,here⟩ : ∃ value, list.reverse[n]? = .some value := ⟨_,List.getElem?_eq_getElem (by rw [List.length_reverse]; omega)⟩
      obtain ⟨m',ran,stored⟩ := ih (by omega) {m with memory := Function.update m.memory (indexAt size m.stackBase (n - s.stackOffset)) value}
      refine ⟨m',?_,stored.stackBase,stored.stackTopRegister,fun i less => ?_,fun a apart => ?_⟩
      · rw [storeElements,holds.pick (by omega),here]
        exact ran
      · rcases Nat.lt_or_ge i n with before | after
        · exact stored.elements i before
        · have same : i = n := by omega
          have kept := stored.others (indexAt size m.stackBase (n - s.stackOffset)) fun j below => indexAtApart some (by omega)
          rw [same,here,kept]
          dsimp only
          rw [Function.update_self]
      · rw [stored.others a fun i less => apart i (by omega)]
        exact Function.update_of_ne (apart n (Nat.lt_succ_self n)) _ _

end Holds

section Runs
variable {s : OperandStack V} {list : List V} {size : Nat} {offset : Int}

inductive Operation (V : Type) where
  | push (value : V)
  | pop
  | drop (depth : Nat)
  | dup

def operate : Operation V → OperandStack V → Option (Option V × OperandStack V)
  | .push value,s => (push value s).map fun s => (none,s)
  | .pop,s => (pop s).map fun r => (some r.1,r.2)
  | .drop depth,s => (drop depth s).map fun s => (none,s)
  | .dup,s => (dup s).map fun s => (none,s)

-- The same on a list, whose head is the top.
def operateList : Operation V → List V → Option (Option V × List V)
  | .push value,list => some (none,value::list)
  | .pop,[] => none
  | .pop,value::list => some (some value,list)
  | .drop depth,list => if depth ≤ list.length then some (none,list.drop depth) else none
  | .dup,[] => none
  | .dup,value::list => some (none,value::value::list)

def runAll {S : Type} (step : Operation V → S → Option (Option V × S)) : List (Operation V) → S → Option (List (Option V) × S)
  | [],s => some ([],s)
  | o::rest,s => do
      let r ← step o s
      let r' ← runAll step rest r.2
      some (r.1::r'.1,r'.2)

-- What the stack does follows the list.
def Agrees {A : Type} (s : OperandStack V) : Option (A × List V) → Option (A × OperandStack V) → Prop
  | none,r => r = none
  | some l,r => ∃ s', r = some (l.1,s') ∧ Holds s' l.2 ∧ s'.pushAmount = s.pushAmount ∧ s'.stackOffset = s.stackOffset

theorem Holds.operates (holds : Holds s list) (o : Operation V) : Agrees s (operateList o list) (operate o s) := by
  have count := holds.count
  cases o with
  | push v =>
      obtain ⟨s',ran,rest⟩ := holds.push v
      exact ⟨s',by rw [operate,ran]; rfl,rest⟩
  | pop =>
      have top := holds.top
      unfold OperandStacks.top at top
      rw [operate,pop]
      cases list with
      | nil =>
          rw [if_neg (by simp at count; omega)]
          rfl
      | cons v list =>
          rw [List.length_cons] at count
          rw [if_pos (by omega)] at top ⊢
          have one : 1 ≤ (v::list).length := by simp
          exact ⟨{s with stackTop := s.stackTop - 1},by rw [top]; rfl,holds.dropped one,rfl,rfl⟩
  | drop depth =>
      rw [operate,operateList,holds.drop depth]
      split
      · rename_i enough
        exact ⟨_,rfl,holds.dropped enough,rfl,rfl⟩
      · rfl
  | dup =>
      rw [operate,dup,holds.top]
      cases list with
      | nil => rfl
      | cons v list =>
          obtain ⟨s',ran,rest⟩ := holds.push v
          exact ⟨s',by rw [List.head?_cons,Option.bind_eq_bind,Option.bind_some,ran]; rfl,rest⟩

theorem Holds.runs (holds : Holds s list) (operations : List (Operation V)) :
    Agrees s (runAll operateList operations list) (runAll operate operations s) := by
  induction operations generalizing s list with
  | nil => exact ⟨s,rfl,holds,rfl,rfl⟩
  | cons o rest ih =>
      have first := holds.operates o
      rw [runAll,runAll]
      cases step : operateList o list with
      | none =>
          rw [step] at first
          rw [show operate o s = none from first]
          rfl
      | some r =>
          rw [step] at first
          obtain ⟨s1,ran,holds1,amount,offset⟩ := first
          have later := ih holds1
          rw [ran]
          simp only [Option.bind_eq_bind,Option.bind_some]
          cases next : runAll operateList rest r.2 with
          | none =>
              rw [next] at later
              rw [show runAll operate rest s1 = none from later]
              rfl
          | some r' =>
              rw [next] at later
              obtain ⟨s',ran',holds',amount',offset'⟩ := later
              exact ⟨s',by rw [ran']; rfl,holds',amount'.trans amount,offset'.trans offset⟩

end Runs

end OmrCompiler.OperandStacks
