import OmrCompiler.HashTableRun

/-! The arguments that OSR calls have stashed for a bytecode index (TR_OSRMethodData in
OSRData.cpp): arrays, found through a hash table of CS2. -/
namespace OmrCompiler.OsrArguments
open HashTable

-- TR_Array without zeroing: none is an element that has not been written.
structure TRArray where
  nextIndex : Nat
  memory : List (Option Int)
  deriving DecidableEq, Repr

namespace TRArray

def init (initialSize : Nat) : TRArray := ⟨0,List.replicate initialSize none⟩

def size (a : TRArray) : Nat := a.nextIndex

def internalSize (a : TRArray) : Nat := a.memory.length

def growTo (size : Nat) (a : TRArray) : TRArray := { a with memory := a.memory.take a.nextIndex ++ List.replicate (size - a.nextIndex) none }

-- The assignment to an element through operator[], none outside the array.
def store (index : Nat) (t : Int) (a : TRArray) : Option TRArray :=
  let a := if a.nextIndex ≤ index ∧ a.internalSize ≤ index then a.growTo ((index + a.internalSize) % 2 ^ 32) else a
  let a := if a.nextIndex ≤ index then { a with nextIndex := index + 1 } else a
  if index < a.internalSize then some { a with memory := a.memory.set index (some t) } else none

end TRArray

/- The hash values of int32_t keys. -/

def hashFNV (s : List Nat) : Nat :=
  let v := s.foldl (fun v byte => ((v ^^^ byte) * 0x01000193) % word) 0x811C9DC5
  if v = 0 then (s.headD 0 ^^^ s.length) ||| 1 else v

def bytesOf (bigEndian : Bool) (key : BitVec 32) : List Nat :=
  let bytes := [key.toNat % 256,key.toNat / 256 % 256,key.toNat / 65536 % 256,key.toNat / 16777216]
  if bigEndian then bytes.reverse else bytes

theorem hashNonzero (s : List Nat) : hashFNV s ≠ 0 := by
  simp only [hashFNV]
  split
  case isTrue zero =>
    have := Nat.right_le_or (n := s.headD 0 ^^^ s.length) (m := 1)
    omega
  case isFalse other => exact other

def int32Info (bigEndian : Bool) : HashInfo (BitVec 32) where
  hash key := hashFNV (bytesOf bigEndian key)
  equal a b := decide (a = b)
  refl a := decide_eq_true rfl
  symm h := decide_eq_true (of_decide_eq_true h).symm
  trans h h' := decide_eq_true ((of_decide_eq_true h).trans (of_decide_eq_true h'))
  nonzero a := hashNonzero _
  respects h := by rw [of_decide_eq_true h]

-- The table has the addresses of the arrays.
structure OSRMethodData where
  argInfoHashTab : Table (BitVec 32) Nat
  heapMemory : List TRArray

def start : OSRMethodData := ⟨empty,[]⟩

section
variable (bigEndian : Bool)

def getArgInfo (byteCodeIndex : BitVec 32) (d : OSRMethodData) : Option TRArray :=
  (get (int32Info bigEndian) byteCodeIndex d.argInfoHashTab).bind (d.heapMemory[·]?)

def generateArgInfo (byteCodeIndex : BitVec 32) (argNum hashIndex : Nat) (d : OSRMethodData) : Option OSRMethodData :=
  (add (int32Info bigEndian) byteCodeIndex d.heapMemory.length hashIndex 0 false d.argInfoHashTab).map
    fun (_,_,table) => ⟨table,d.heapMemory ++ [TRArray.init argNum]⟩

def ensureArgInfoAt (byteCodeIndex : BitVec 32) (argNum : Nat) (d : OSRMethodData) : Option OSRMethodData :=
  match locate (int32Info bigEndian) byteCodeIndex 0 0 d.argInfoHashTab with
  | none => none
  | some (false,hashIndex,_) => generateArgInfo bigEndian byteCodeIndex argNum hashIndex d
  | some (true,hashIndex,_) =>
      match getArgInfo bigEndian byteCodeIndex d with
      | none => none
      | some args =>
          if args.size ≠ argNum then
            -- What is removed is the entry whose position is the bytecode index.
            match remove byteCodeIndex.toNat d.argInfoHashTab with
            | none => none
            | some table => generateArgInfo bigEndian byteCodeIndex argNum hashIndex { d with argInfoHashTab := table }
          else some d

def addArgInfo (byteCodeIndex : BitVec 32) (argIndex : Nat) (argSymRef : Int) (d : OSRMethodData) : Option OSRMethodData :=
  match locate (int32Info bigEndian) byteCodeIndex 0 0 d.argInfoHashTab with
  | none => none
  | some (false,_) => some d
  | some (true,hashIndex,_) => do
      let address ← dataAt hashIndex d.argInfoHashTab
      let args ← d.heapMemory[address]?
      let args ← args.store argIndex argSymRef
      some { d with heapMemory := d.heapMemory.set address args }

end

inductive Call where
  | ensureArgInfoAt (byteCodeIndex : BitVec 32) (argNum : Nat)
  | addArgInfo (byteCodeIndex : BitVec 32) (argIndex : Nat) (argSymRef : Int)

def Call.byteCodeIndex : Call → BitVec 32
  | .ensureArgInfoAt byteCodeIndex _ => byteCodeIndex
  | .addArgInfo byteCodeIndex _ _ => byteCodeIndex

def Call.run (bigEndian : Bool) (d : OSRMethodData) : Call → Option OSRMethodData
  | .ensureArgInfoAt byteCodeIndex argNum => OsrArguments.ensureArgInfoAt bigEndian byteCodeIndex argNum d
  | .addArgInfo byteCodeIndex argIndex argSymRef => OsrArguments.addArgInfo bigEndian byteCodeIndex argIndex argSymRef d

/- What the calls ask for: the count that was ensured last for a bytecode index, and
what has been stored at each index since. -/

abbrev History := BitVec 32 → Option (Nat × (Nat → Option Int))

def Call.record (h : History) : Call → History
  | .ensureArgInfoAt byteCodeIndex argNum => fun b => if b = byteCodeIndex then some (argNum,fun _ => none) else h b
  | .addArgInfo byteCodeIndex argIndex argSymRef => fun b =>
      if b = byteCodeIndex then (h b).map fun (argNum,stored) => (argNum,fun i => if i = argIndex then some argSymRef else stored i) else h b

def Call.Within (h : History) : Call → Prop
  | .ensureArgInfoAt _ _ => True
  | .addArgInfo byteCodeIndex argIndex _ => ∀ argNum stored, h byteCodeIndex = some (argNum,stored) → argIndex < argNum

def Within (h : History) : List Call → Prop
  | [] => True
  | call::calls => call.Within h ∧ Within (call.record h) calls

structure Holds (args : TRArray) (argNum : Nat) (stored : Nat → Option Int) : Prop where
  size : args.size ≤ argNum
  room : argNum ≤ args.internalSize
  last : ∀ i argSymRef, stored i = some argSymRef → i < args.size ∧ args.memory[i]? = some (some argSymRef)

section
variable (bigEndian : Bool)

def Consistent (d : OSRMethodData) (h : History) : Prop :=
  ∀ b argNum stored, h b = some (argNum,stored) → ∃ args, getArgInfo bigEndian b d = some args ∧ Holds args argNum stored

-- The run has a result after every call, and each call leaves the other arrays alone.
def Keeps (d : OSRMethodData) (h : History) : List Call → Prop
  | [] => Consistent bigEndian d h
  | call::calls => Consistent bigEndian d h ∧ ∃ d', call.run bigEndian d = some d' ∧
      (∀ b, b ≠ call.byteCodeIndex → getArgInfo bigEndian b d' = getArgInfo bigEndian b d) ∧ Keeps d' (call.record h) calls

/- The entry that has to go is at the position that is removed; the table has room for
the entry that comes. -/
def Call.Proper (d : OSRMethodData) : Call → Prop
  | .ensureArgInfoAt byteCodeIndex argNum =>
      match locate (int32Info bigEndian) byteCodeIndex 0 0 d.argInfoHashTab with
      | some (true,hashIndex,_) => (∃ args, getArgInfo bigEndian byteCodeIndex d = some args ∧ args.size = argNum) ∨
          (hashIndex = byteCodeIndex.toNat ∧ ∀ table, remove hashIndex d.argInfoHashTab = some table → Space table)
      | _ => Space d.argInfoHashTab
  | .addArgInfo _ _ _ => True

def Proper (d : OSRMethodData) : List Call → Prop
  | [] => True
  | call::calls => call.Proper bigEndian d ∧ ∀ d', call.run bigEndian d = some d' → Proper d' calls

end

/- What a table of addresses stands for in every state of a run. -/
structure Sound (bigEndian : Bool) (d : OSRMethodData) (h : History) (m : BitVec 32 → Option Nat) : Prop where
  reached : Reached (int32Info bigEndian) d.argInfoHashTab m
  known : ∀ b, m b = none ↔ h b = none
  held : ∀ b address argNum stored, m b = some address → h b = some (argNum,stored) →
    ∃ args, d.heapMemory[address]? = some args ∧ Holds args argNum stored
  apart : ∀ a b address, m a = some address → m b = some address → a = b

section
variable {bigEndian : Bool} {d d' : OSRMethodData} {h : History} {m : BitVec 32 → Option Nat} {b : BitVec 32} {argNum i : Nat}
  {table : Table (BitVec 32) Nat}

theorem insertNewAt (absent : m b = none) (address : Nat) :
    insertNew (int32Info bigEndian) b address m = fun k => if k = b then some address else m k := by
  funext k
  simp only [insertNew,absent,Option.isNone_none,Bool.true_and,int32Info,decide_eq_true_eq]

theorem eraseAt : erase (int32Info bigEndian) b m = fun k => if k = b then none else m k := by
  funext k
  simp only [erase,int32Info,decide_eq_true_eq]

theorem getArgInfoReached (reached : Reached (int32Info bigEndian) d.argInfoHashTab m) :
    getArgInfo bigEndian b d = (m b).bind (d.heapMemory[·]?) := by
  rw [getArgInfo,(finiteMap reached).2.1]

theorem Sound.consistent (sound : Sound bigEndian d h m) : Consistent bigEndian d h := by
  intro b argNum stored ensured
  rw [getArgInfoReached sound.reached]
  cases there : m b with
  | none =>
    rw [(sound.known b).mp there] at ensured
    cases ensured
  | some address => exact sound.held b address argNum stored there ensured

theorem Sound.within (sound : Sound bigEndian d h m) {address : Nat} (there : m b = some address) : address < d.heapMemory.length := by
  cases ensured : h b with
  | none =>
    rw [(sound.known b).mpr ensured] at there
    cases there
  | some counted =>
    obtain ⟨args,found,-⟩ := sound.held b address counted.1 counted.2 there ensured
    exact (List.getElem?_eq_some_iff.mp found).1

theorem startSound : Sound bigEndian start (fun _ => none) fun _ => none :=
  ⟨.start,fun _ => ⟨fun _ => rfl,fun _ => rfl⟩,fun _ _ _ _ there => absurd there (Option.some_ne_none _).symm,
    fun _ _ _ there => absurd there (Option.some_ne_none _).symm⟩

theorem initHolds (argNum : Nat) : Holds (TRArray.init argNum) argNum fun _ => none :=
  ⟨Nat.zero_le _,by rw [TRArray.internalSize,TRArray.init,List.length_replicate],fun _ _ stored => by cases stored⟩

theorem addReady : Ready (int32Info bigEndian) b i 0 false table := .inl ⟨rfl,.inl rfl⟩

theorem Sound.generate (sound : Sound bigEndian d h m) (reached : Reached (int32Info bigEndian) table fun k => if k = b then none else m k)
    (space : Space table) :
    ∃ d' m', generateArgInfo bigEndian b argNum i { d with argInfoHashTab := table } = some d' ∧
      Sound bigEndian d' ((Call.ensureArgInfoAt b argNum).record h) m' ∧ ∀ k, k ≠ b → getArgInfo bigEndian k d' = getArgInfo bigEndian k d := by
  obtain ⟨index,table',ran,-⟩ := reached.valid.add d.heapMemory.length (addReady (i := i)) (.inr space)
  have after := Reached.add reached addReady ran
  rw [insertNewAt (if_pos rfl)] at after
  have mapped : ∀ k, (if k = b then some d.heapMemory.length else if k = b then none else m k) =
      if k = b then some d.heapMemory.length else m k := by
    intro k
    split <;> rfl
  simp only [mapped] at after
  have kept : ∀ {k address}, m k = some address → (d.heapMemory ++ [TRArray.init argNum])[address]? = d.heapMemory[address]? :=
    fun there => List.getElem?_append_left (sound.within there)
  refine ⟨⟨table',d.heapMemory ++ [TRArray.init argNum]⟩,_,by rw [generateArgInfo,ran]; rfl,⟨after,fun k => ?_,fun k address n stored there ensured => ?_,
    fun k l address there there' => ?_⟩,fun k other => ?_⟩
  · by_cases here : k = b
    · simp only [Call.record,here,if_true,reduceCtorEq]
    · simp only [Call.record,here,if_false]
      exact sound.known k
  · by_cases here : k = b
    · simp only [Call.record,here,if_true,Option.some.injEq,Prod.mk.injEq] at there ensured
      obtain ⟨rfl,rfl⟩ := ensured
      exact ⟨_,by rw [← there,List.getElem?_append_right (Nat.le_refl _),Nat.sub_self]; rfl,initHolds argNum⟩
    · simp only [Call.record,here,if_false] at there ensured
      rw [kept there]
      exact sound.held k address n stored there ensured
  · by_cases here : k = b <;> by_cases here' : l = b <;> simp only [here,here',if_true,if_false,Option.some.injEq] at there there'
    · rw [here,here']
    · exact absurd (sound.within there') (by omega)
    · exact absurd (sound.within there) (by omega)
    · exact sound.apart k l address there there'
  · rw [getArgInfoReached after,getArgInfoReached sound.reached]
    simp only [other,if_false]
    cases there : m k with
    | none => rfl
    | some address => exact kept there

/- Where a search ends: at the entry of the key, or there is none. -/
theorem Sound.locate (sound : Sound bigEndian d h m) (b : BitVec 32) :
    (m b = none ∧ ∃ index hashValue, locate (int32Info bigEndian) b 0 0 d.argInfoHashTab = some (false,index,hashValue)) ∨
    ∃ index item hashValue, m b = some item.data ∧ item.key = b ∧ (d.argInfoHashTab.table index).item = some item ∧
      dataAt index d.argInfoHashTab = some item.data ∧ locate (int32Info bigEndian) b 0 0 d.argInfoHashTab = some (true,index,hashValue) := by
  have valid := sound.reached.valid
  obtain ⟨found,index,hashValue,located,same,data⟩ := locateAgrees valid.good valid.agrees b
  rcases valid.good.locate 0 (.inl rfl) with ⟨x,item,at',equal,located'⟩ | ⟨⟨p,hashValue',located',-⟩,absent⟩
  · right
    have key : item.key = b := (of_decide_eq_true equal).symm
    have there := (valid.agrees b item.data).mpr ⟨item,⟨x,at'⟩,equal,rfl⟩
    rw [located'] at located
    cases located
    exact ⟨index,item,_,there,key,at',(data rfl).trans there,located'⟩
  · exact .inl ⟨valid.agrees.noneIff.mpr absent,p,hashValue',located'⟩

theorem Sound.ensure (sound : Sound bigEndian d h m) (proper : (Call.ensureArgInfoAt b argNum).Proper bigEndian d) :
    ∃ d' m', ensureArgInfoAt bigEndian b argNum d = some d' ∧ Sound bigEndian d' ((Call.ensureArgInfoAt b argNum).record h) m' ∧
      ∀ k, k ≠ b → getArgInfo bigEndian k d' = getArgInfo bigEndian k d := by
  rcases sound.locate b with ⟨absent,index,hashValue,located⟩ | ⟨index,item,hashValue,there,key,at',data,located⟩
  · simp only [Call.Proper,located] at proper
    have reached : Reached (int32Info bigEndian) d.argInfoHashTab fun k => if k = b then none else m k := by
      have same : (fun k => if k = b then none else m k) = m := by
        funext k
        split
        case isTrue here => rw [here,absent]
        case isFalse => rfl
      rw [same]
      exact sound.reached
    simp only [ensureArgInfoAt,located]
    exact sound.generate reached proper
  · simp only [Call.Proper,located] at proper
    obtain ⟨counted,ensured⟩ := Option.ne_none_iff_exists'.mp fun none' => by
      rw [(sound.known b).mpr none'] at there
      cases there
    obtain ⟨args,found,holds⟩ := sound.held b item.data counted.1 counted.2 there ensured
    have got : getArgInfo bigEndian b d = some args := by
      rw [getArgInfoReached sound.reached,there]
      exact found
    simp only [ensureArgInfoAt,located,got]
    by_cases counts : args.size = argNum
    · rw [if_neg (not_not_intro counts)]
      refine ⟨d,m,rfl,⟨sound.reached,fun k => ?_,fun k address n stored there' ensured' => ?_,sound.apart⟩,fun _ _ => rfl⟩
      · by_cases here : k = b
        · simp only [Call.record,here,if_true,there,reduceCtorEq]
        · simp only [Call.record,here,if_false]
          exact sound.known k
      · by_cases here : k = b
        · simp only [Call.record,here,if_true,Option.some.injEq,Prod.mk.injEq] at ensured'
          obtain ⟨rfl,rfl⟩ := ensured'
          rw [here,there] at there'
          cases there'
          exact ⟨args,found,Nat.le_of_eq counts,counts ▸ Nat.le_trans holds.size holds.room,fun _ _ stored => absurd stored (Option.some_ne_none _).symm⟩
        · simp only [Call.record,here,if_false] at ensured'
          exact sound.held k address n stored there' ensured'
    · rw [if_pos counts]
      rcases proper with ⟨args',got',counts'⟩ | ⟨position,room⟩
      · rw [got] at got'
        cases got'
        exact absurd counts' counts
      · obtain ⟨table,ran⟩ := (finiteMap sound.reached).2.2.2.2.2.2.2.1 index (validIff.mpr ⟨item,at'⟩)
        have reached := Reached.remove sound.reached at' ran
        rw [key,eraseAt] at reached
        have space := room table ran
        rw [position] at ran
        simp only [ran]
        exact sound.generate reached space

theorem storeHolds {args : TRArray} {stored : Nat → Option Int} (holds : Holds args argNum stored) (within : i < argNum) (argSymRef : Int) :
    ∃ args', args.store i argSymRef = some args' ∧ Holds args' argNum fun j => if j = i then some argSymRef else stored j := by
  have size := holds.size
  have room := holds.room
  have inside : i < args.internalSize := Nat.lt_of_lt_of_le within room
  have sized : ∀ n, n ≤ argNum → args.size ≤ n → i < n → Holds ⟨n,args.memory.set i (some argSymRef)⟩ argNum
      fun j => if j = i then some argSymRef else stored j := by
    intro n most least above
    refine ⟨most,by rw [TRArray.internalSize,List.length_set]; exact room,fun j symRef last => ?_⟩
    by_cases here : j = i
    · rw [if_pos here] at last
      cases last
      subst here
      exact ⟨above,List.getElem?_set_self inside⟩
    · rw [if_neg here] at last
      obtain ⟨below,value⟩ := holds.last j symRef last
      exact ⟨Nat.lt_of_lt_of_le below least,by rw [List.getElem?_set_ne (Ne.symm here)]; exact value⟩
  have noGrow : ¬(args.nextIndex ≤ i ∧ args.internalSize ≤ i) := fun both => by omega
  simp only [TRArray.store,noGrow,if_false]
  by_cases new : args.nextIndex ≤ i
  · simp only [new,if_true]
    rw [if_pos (by exact inside)]
    exact ⟨_,rfl,sized (i + 1) within (Nat.le_succ_of_le new) (Nat.lt_succ_self i)⟩
  · simp only [new,if_false]
    rw [if_pos inside]
    exact ⟨_,rfl,sized args.nextIndex size (Nat.le_refl _) (Nat.lt_of_not_le new)⟩

theorem Sound.addArg (sound : Sound bigEndian d h m) {argSymRef : Int} (within : (Call.addArgInfo b i argSymRef).Within h) :
    ∃ d' m', addArgInfo bigEndian b i argSymRef d = some d' ∧ Sound bigEndian d' ((Call.addArgInfo b i argSymRef).record h) m' ∧
      ∀ k, k ≠ b → getArgInfo bigEndian k d' = getArgInfo bigEndian k d := by
  rcases sound.locate b with ⟨absent,index,hashValue,located⟩ | ⟨index,item,hashValue,there,key,at',data,located⟩
  · simp only [addArgInfo,located]
    have unknown := (sound.known b).mp absent
    have same : (Call.addArgInfo b i argSymRef).record h = h := by
      funext k
      simp only [Call.record]
      split
      case isTrue here => rw [here,unknown]; rfl
      case isFalse => rfl
    exact ⟨d,m,rfl,by rw [same]; exact sound,fun _ _ => rfl⟩
  · obtain ⟨counted,ensured⟩ := Option.ne_none_iff_exists'.mp fun none' => by
      rw [(sound.known b).mpr none'] at there
      cases there
    obtain ⟨args,found,holds⟩ := sound.held b item.data counted.1 counted.2 there ensured
    obtain ⟨args',stored',holds'⟩ := storeHolds holds (within counted.1 counted.2 ensured) argSymRef
    simp only [addArgInfo,located,data,found,stored',Option.bind_eq_bind,Option.bind_some]
    have inside := sound.within there
    have others : ∀ {k address}, k ≠ b → m k = some address → (d.heapMemory.set item.data args')[address]? = d.heapMemory[address]? := by
      intro k address other there'
      exact List.getElem?_set_ne fun same => other (sound.apart k b address there' (by rw [there,same]))
    refine ⟨_,m,rfl,⟨sound.reached,fun k => ?_,fun k address n stored there' ensured' => ?_,sound.apart⟩,fun k other => ?_⟩
    · by_cases here : k = b
      · simp only [Call.record,here,if_true,there,ensured,Option.map_some,reduceCtorEq]
      · simp only [Call.record,here,if_false]
        exact sound.known k
    · by_cases here : k = b
      · simp only [Call.record,here,if_true,ensured,Option.map_some,Option.some.injEq,Prod.mk.injEq] at ensured'
        obtain ⟨rfl,rfl⟩ := ensured'
        rw [here,there] at there'
        cases there'
        exact ⟨args',List.getElem?_set_self inside,holds'⟩
      · simp only [Call.record,here,if_false] at ensured'
        rw [others here there']
        exact sound.held k address n stored there' ensured'
    · rw [getArgInfoReached (d := d) sound.reached]
      refine (getArgInfoReached (d := ⟨d.argInfoHashTab,d.heapMemory.set item.data args'⟩) sound.reached).trans ?_
      cases there' : m k with
      | none => rfl
      | some address => exact others other there'

theorem Sound.step (sound : Sound bigEndian d h m) {call : Call} (within : call.Within h) (proper : call.Proper bigEndian d) :
    ∃ d' m', call.run bigEndian d = some d' ∧ Sound bigEndian d' (call.record h) m' ∧
      ∀ k, k ≠ call.byteCodeIndex → getArgInfo bigEndian k d' = getArgInfo bigEndian k d := by
  cases call with
  | ensureArgInfoAt b argNum => exact sound.ensure proper
  | addArgInfo b i argSymRef => exact sound.addArg within

theorem generateFull (reached : Reached (int32Info bigEndian) d.argInfoHashTab m) (absent : m b = none) (full : ¬Space d.argInfoHashTab) :
    generateArgInfo bigEndian b argNum i d = none := by
  rw [generateArgInfo,reached.valid.addFull _ addReady absent full]
  rfl

-- The key is still there, and the table refuses it.
theorem generateRefused (reached : Reached (int32Info bigEndian) d.argInfoHashTab m) (present : m b ≠ none)
    (ran : generateArgInfo bigEndian b argNum i d = some d') : Reached (int32Info bigEndian) d'.argInfoHashTab m := by
  obtain ⟨index,table,added,-⟩ := reached.valid.add d.heapMemory.length (addReady (i := i)) (.inl present)
  have after := Reached.add reached addReady added
  have same : insertNew (int32Info bigEndian) b d.heapMemory.length m = m := by
    funext k
    simp only [insertNew,Option.isNone_eq_false_iff.mpr (Option.isSome_iff_ne_none.mpr present),Bool.false_and,Bool.false_eq_true,if_false]
  rw [same] at after
  rw [generateArgInfo,added] at ran
  cases ran
  exact after

theorem Sound.improper (sound : Sound bigEndian d h m) {call : Call} (improper : ¬call.Proper bigEndian d) (ran : call.run bigEndian d = some d') :
    ¬Consistent bigEndian d' (call.record h) := by
  cases call with
  | addArgInfo b i argSymRef => exact absurd trivial improper
  | ensureArgInfoAt b argNum =>
    rcases sound.locate b with ⟨absent,index,hashValue,located⟩ | ⟨index,item,hashValue,there,key,at',data,located⟩
    · simp only [Call.Proper,located] at improper
      simp only [Call.run,ensureArgInfoAt,located,generateFull sound.reached absent improper,reduceCtorEq] at ran
    · simp only [Call.Proper,located,not_or,not_and] at improper
      simp only [Call.run,ensureArgInfoAt,located] at ran
      cases got : getArgInfo bigEndian b d with
      | none => simp only [got,reduceCtorEq] at ran
      | some args =>
        have counts : args.size ≠ argNum := fun same => improper.1 ⟨args,got,same⟩
        simp only [got,if_pos counts] at ran
        cases removed : remove b.toNat d.argInfoHashTab with
        | none => simp only [removed,reduceCtorEq] at ran
        | some table =>
          simp only [removed] at ran
          cases wrong : (d.argInfoHashTab.table b.toNat).item with
          | none => simp only [HashTable.remove,wrong,reduceCtorEq] at removed
          | some victim =>
            have reached := Reached.remove sound.reached wrong removed
            rw [eraseAt] at reached
            by_cases position : index = b.toNat
            · have own : victim = item := by
                rw [← position,at'] at wrong
                exact (Option.some.inj wrong).symm
              have full : ¬Space table := fun space => improper.2 position fun table' ran' => by
                rw [position,removed] at ran'
                cases ran'
                exact space
              rw [own,key] at reached
              rw [generateFull reached (if_pos rfl) full] at ran
              cases ran
            · have other : victim.key ≠ b := by
                intro same
                rcases sound.reached.valid.good with bare | ⟨free,chains,shape⟩
                · rw [bare.2.2] at wrong
                  cases wrong
                · exact position (shape.distinct at' wrong (decide_eq_true (key.trans same.symm)))
              have present : (if b = victim.key then none else m b) ≠ none := by
                rw [if_neg (Ne.symm other),there]
                exact Option.some_ne_none _
              have after := generateRefused reached present ran
              have known : h victim.key ≠ none := by
                intro unknown
                have held := (sound.reached.valid.agrees victim.key victim.data).mpr ⟨victim,⟨_,wrong⟩,decide_eq_true rfl,rfl⟩
                rw [(sound.known _).mpr unknown] at held
                cases held
              intro consistent
              obtain ⟨counted,ensured⟩ := Option.ne_none_iff_exists'.mp known
              obtain ⟨found,lost,-⟩ := consistent victim.key counted.1 counted.2 (by simp only [Call.record,other,if_false]; exact ensured)
              rw [getArgInfoReached after,if_pos rfl] at lost
              cases lost

theorem keepsIff (sound : Sound bigEndian d h m) {calls : List Call} (within : Within h calls) :
    Keeps bigEndian d h calls ↔ Proper bigEndian d calls := by
  induction calls generalizing d h m with
  | nil => exact ⟨fun _ => trivial,fun _ => sound.consistent⟩
  | cons call calls ih =>
    constructor
    · rintro ⟨_,d',ran,_,kept⟩
      have proper : call.Proper bigEndian d := by
        by_contra improper
        have consistent : Consistent bigEndian d' (call.record h) := by
          cases calls with
          | nil => exact kept
          | cons => exact kept.1
        exact sound.improper improper ran consistent
      refine ⟨proper,fun d'' ran' => ?_⟩
      rw [ran] at ran'
      cases ran'
      obtain ⟨d'',m',ran',sound',-⟩ := sound.step within.1 proper
      rw [ran] at ran'
      cases ran'
      exact (ih sound' within.2).mp kept
    · rintro ⟨proper,rest⟩
      obtain ⟨d',m',ran,sound',others⟩ := sound.step within.1 proper
      exact ⟨sound.consistent,d',ran,others,(ih sound' within.2).mpr (rest d' ran)⟩

end

theorem argInfoConsistent (bigEndian : Bool) (calls : List Call) (within : Within (fun _ => none) calls) :
    Keeps bigEndian start (fun _ => none) calls ↔ Proper bigEndian start calls := keepsIff startSound within

theorem argInfoConsistentSample : Keeps false start (fun _ => none) [.ensureArgInfoAt 5 2,.addArgInfo 5 1 40] ↔
    Proper false start [.ensureArgInfoAt 5 2,.addArgInfo 5 1 40] := by
  refine argInfoConsistent false _ ⟨trivial,fun argNum stored ensured => ?_,trivial⟩
  simp only [Call.record,if_true,Option.some.injEq,Prod.mk.injEq] at ensured
  omega

/- The entry of 3 is at position 7, that of 7 at position 3. -/
theorem otherArgInfoLost : ¬∀ calls, Within (fun _ => none) calls → Keeps false start (fun _ => none) calls := by
  intro keeps
  obtain ⟨-,d,first,-,-,d',second,-,-,d'',third,-,consistent⟩ :=
    keeps [.ensureArgInfoAt 7 1,.ensureArgInfoAt 3 1,.ensureArgInfoAt 3 2] ⟨trivial,trivial,trivial,trivial⟩
  obtain ⟨args,found,-⟩ := consistent 7 1 (fun _ => none) rfl
  have ran : (((ensureArgInfoAt false 7 1 start).bind (ensureArgInfoAt false 3 1)).bind (ensureArgInfoAt false 3 2)).map
      (fun d => (getArgInfo false 7 d).isSome) = some true := by
    simp only [Call.run] at first second third
    rw [first,Option.bind_some,second,Option.bind_some,third,Option.map_some,found]
    rfl
  exact absurd ran (by decide)

end OmrCompiler.OsrArguments
