import OmrCompiler.HashTableMap

/-! The runs of a hash table beside those of a finite map. -/
namespace OmrCompiler.HashTable
open IndexChain

variable {K D : Type} {info : HashInfo K} {t t' source : Table K D} {m m' : K → Option D} {key : K} {data : D} {item : Item K D}

/- The map: a key stands for all that are equal to it. -/

def insertNew (info : HashInfo K) (key : K) (data : D) (m : K → Option D) : K → Option D :=
  fun k => if (m key).isNone && info.equal k key then some data else m k

def erase (info : HashInfo K) (key : K) (m : K → Option D) : K → Option D := fun k => if info.equal k key then none else m k

-- What add is given: a hash value that is 0 or the key's, or what a search for the key has left.
def Ready (info : HashInfo K) (key : K) (hashIndex hashValue : Nat) (noLocate : Bool) (t : Table K D) : Prop :=
  (noLocate = false ∧ (hashValue = 0 ∨ hashValue = info.hash key)) ∨
  (noLocate = true ∧ ∃ i h, (h = 0 ∨ h = info.hash key) ∧ locate info key i h t = some (false,hashIndex,hashValue))

/- The tables of a run and their maps. Assignment leaves the highest index of the
table as it was, so it has to be that of the source. -/
inductive Reached (info : HashInfo K) : Table K D → (K → Option D) → Prop where
  | start : Reached info empty fun _ => none
  | add {t t' : Table K D} {m : K → Option D} {key : K} {data : D} {hashIndex hashValue index : Nat} {noLocate added : Bool} (before : Reached info t m)
      (ready : Ready info key hashIndex hashValue noLocate t) (ran : add info key data hashIndex hashValue noLocate t = some (added,index,t')) :
      Reached info t' (insertNew info key data m)
  | remove {t t' : Table K D} {m : K → Option D} {hashIndex : Nat} {item : Item K D} (before : Reached info t m) (at' : (t.table hashIndex).item = some item)
      (ran : remove hashIndex t = some t') : Reached info t' (erase info item.key m)
  | growTo {t t' : Table K D} {m : K → Option D} {newSize : Nat} (before : Reached info t m) (ran : growTo info newSize t = some t') : Reached info t' m
  | makeEmpty {t : Table K D} {m : K → Option D} (before : Reached info t m) : Reached info (makeEmpty t) fun _ => none
  | copy {t : Table K D} {m : K → Option D} (before : Reached info t m) : Reached info (copyConstruct t) m
  | assign {t source : Table K D} {m m' : K → Option D} (before : Reached info t m) (other : Reached info source m')
      (same : t.highestIndex = source.highestIndex) : Reached info (assign t source) m'

def Agrees (info : HashInfo K) (t : Table K D) (m : K → Option D) : Prop :=
  ∀ key data, m key = some data ↔ ∃ item, Has t item ∧ info.equal key item.key = true ∧ item.data = data

structure Valid (info : HashInfo K) (t : Table K D) (m : K → Option D) : Prop where
  good : Good info t
  highest : Highest t
  agrees : Agrees info t m

theorem Agrees.noneIff (agrees : Agrees info t m) : m key = none ↔ ∀ item, Has t item → info.equal key item.key = false := by
  constructor
  · intro none' item has
    cases same : info.equal key item.key with
    | false => rfl
    | true =>
        have hit := (agrees key item.data).mpr ⟨item,has,same,rfl⟩
        rw [none'] at hit
        cases hit
  · intro absent
    cases hit : m key with
    | none => rfl
    | some data =>
        obtain ⟨item,has,same,-⟩ := (agrees key data).mp hit
        rw [absent item has] at same
        cases same

theorem Agrees.same (agrees : Agrees info t m) (has : ∀ item, Has t' item ↔ Has t item) : Agrees info t' m := by
  intro key data
  simp only [agrees key data,has]

theorem Agrees.insertNew (agrees : Agrees info t m) (absent : m key = none)
    (has : ∀ other, Has t' other ↔ other = ⟨key,data,info.hash key⟩ ∨ Has t other) : Agrees info t' (insertNew info key data m) := by
  intro k d
  simp only [HashTable.insertNew,absent,Option.isNone_none,Bool.true_and,has]
  cases same : info.equal k key with
  | true =>
      rw [if_pos rfl]
      constructor
      · intro hit
        exact ⟨_,.inl rfl,same,Option.some.inj hit⟩
      · rintro ⟨item,rfl | old,equal,rfl⟩
        · rfl
        · have clash := agrees.noneIff.mp absent item old
          rw [info.trans (info.symm same) equal] at clash
          cases clash
  | false =>
      rw [if_neg (by simp),agrees k d]
      constructor
      · rintro ⟨item,old,equal,rfl⟩
        exact ⟨item,.inr old,equal,rfl⟩
      · rintro ⟨item,rfl | old,equal,rfl⟩
        · rw [same] at equal
          cases equal
        · exact ⟨item,old,equal,rfl⟩

theorem Agrees.erase (agrees : Agrees info t m) (has : ∀ other, Has t' other ↔ Has t other ∧ info.equal other.key key = false) :
    Agrees info t' (erase info key m) := by
  intro k d
  simp only [HashTable.erase,has]
  cases same : info.equal k key with
  | true =>
      simp only [if_true,reduceCtorEq,false_iff]
      rintro ⟨item,⟨-,differ⟩,equal,-⟩
      rw [info.trans (info.symm equal) same] at differ
      cases differ
  | false =>
      rw [if_neg (by simp),agrees k d]
      constructor
      · rintro ⟨item,old,equal,rfl⟩
        refine ⟨item,⟨old,?_⟩,equal,rfl⟩
        cases clash : info.equal item.key key with
        | false => rfl
        | true =>
            rw [info.trans equal clash] at same
            cases same
      · rintro ⟨item,⟨old,-⟩,equal,rfl⟩
        exact ⟨item,old,equal,rfl⟩

theorem bareEmpty : Bare (empty : Table K D) := ⟨rfl,rfl,fun _ => rfl⟩

theorem validEmpty : Valid info (empty : Table K D) fun _ => none := by
  refine ⟨.inl bareEmpty,⟨fun x valid => ?_,fun positive => absurd rfl positive⟩,fun key data => ?_⟩
  · cases valid
  · simp only [reduceCtorEq,false_iff]
    rintro ⟨item,⟨x,at'⟩,-⟩
    cases at'

-- An add is one with a search.
theorem Ready.plain {hashIndex hashValue : Nat} {noLocate : Bool} (ready : Ready info key hashIndex hashValue noLocate t) (data : D) :
    ∃ i h, (h = 0 ∨ h = info.hash key) ∧ add info key data hashIndex hashValue noLocate t = add info key data i h false t := by
  rcases ready with ⟨rfl,given⟩ | ⟨rfl,i,h,given,located⟩
  · exact ⟨hashIndex,hashValue,given,rfl⟩
  · exact ⟨i,h,given,addLocated located data⟩

theorem Valid.add {hashIndex hashValue : Nat} {noLocate : Bool} (valid : Valid info t m) (data : D) (ready : Ready info key hashIndex hashValue noLocate t)
    (room : m key ≠ none ∨ Space t) :
    ∃ index t', add info key data hashIndex hashValue noLocate t = some ((m key).isNone,index,t') ∧ Valid info t' (insertNew info key data m) := by
  obtain ⟨i,h,given,same⟩ := ready.plain data
  rw [same]
  cases hit : m key with
  | none =>
      have absent := valid.agrees.noneIff.mp hit
      obtain ⟨index,t',ran,good,highest,has⟩ := valid.good.addNew i data given absent (room.resolve_left (not_not_intro hit))
      exact ⟨index,t',ran,good,highest valid.highest,valid.agrees.insertNew hit has⟩
  | some d =>
      rcases valid.good.locate i given with ⟨x,item,-,-,located⟩ | ⟨-,absent⟩
      · refine ⟨x,t,addOld located data,valid.good,valid.highest,?_⟩
        have same : insertNew info key data m = m := by
          funext k
          simp [insertNew,hit]
        rw [same]
        exact valid.agrees
      · rw [valid.agrees.noneIff.mpr absent] at hit
        cases hit

theorem Valid.addFull {hashIndex hashValue : Nat} {noLocate : Bool} (valid : Valid info t m) (data : D) (ready : Ready info key hashIndex hashValue noLocate t)
    (absent : m key = none) (full : ¬ Space t) : HashTable.add info key data hashIndex hashValue noLocate t = none := by
  obtain ⟨i,h,given,same⟩ := ready.plain data
  rw [same]
  exact valid.good.addFull i data given (valid.agrees.noneIff.mp absent) full

theorem Reached.valid (reached : Reached info t m) : Valid info t m := by
  induction reached with
  | start => exact validEmpty
  | @add t t' m key data hashIndex hashValue index noLocate added before ready ran ih =>
      by_cases room : m key ≠ none ∨ Space t
      · obtain ⟨index',t'',ran',valid⟩ := ih.add data ready room
        rw [ran'] at ran
        cases ran
        exact valid
      · simp only [not_or,not_not] at room
        rw [ih.addFull data ready room.1 room.2] at ran
        cases ran
  | remove _ at' ran ih =>
      obtain ⟨t'',ran',good,highest,has⟩ := ih.good.remove at'
      rw [ran'] at ran
      cases ran
      exact ⟨good,highest ih.highest,ih.agrees.erase has⟩
  | @growTo t t' m newSize _ ran ih =>
      obtain ⟨t'',ran',good,highest,has⟩ := ih.good.growTo newSize
      rw [ran'] at ran
      cases ran
      exact ⟨good,highest ih.highest,ih.agrees.same has⟩
  | makeEmpty => exact validEmpty
  | copy _ ih =>
      obtain ⟨good,items⟩ := ih.good.copy
      refine ⟨good,⟨fun x valid => ih.highest.bound x ?_,fun positive => ?_⟩,ih.agrees.same fun item => by simp only [Has,items]⟩
      · rw [Table.valid,items] at valid
        exact valid
      · rw [Table.valid,items]
        exact ih.highest.used positive
  | @assign t source m m' _ _ same ih other =>
      obtain ⟨good,items⟩ := ih.good.assign other.good
      refine ⟨good,⟨fun x valid => ?_,fun positive => ?_⟩,other.agrees.same fun item => by simp only [Has,items]⟩
      · rw [Table.valid,items] at valid
        show x ≤ t.highestIndex
        rw [same]
        exact other.highest.bound x valid
      · rw [Table.valid,items]
        show source.valid t.highestIndex = true
        rw [same]
        exact other.highest.used (same ▸ positive)

theorem locateAgrees (good : Good info t) (agrees : Agrees info t m) (key : K) :
    ∃ found index hashValue, locate info key 0 0 t = some (found,index,hashValue) ∧ found = (m key).isSome ∧ (found = true → dataAt index t = m key) := by
  rcases @Good.locate K D info t key 0 good 0 (.inl rfl) with ⟨x,item,at',same,located⟩ | ⟨⟨p,hashValue,located,-⟩,absent⟩
  · have hit := (agrees key item.data).mpr ⟨item,⟨x,at'⟩,same,rfl⟩
    refine ⟨true,x,_,located,by rw [hit]; rfl,fun _ => ?_⟩
    rw [hit,dataAt,if_pos (good.range (validIff.mpr ⟨item,at'⟩)).2,at']
    rfl
  · exact ⟨false,p,hashValue,located,by rw [agrees.noneIff.mpr absent]; rfl,fun found => by cases found⟩

theorem getAgrees (good : Good info t) (agrees : Agrees info t m) (key : K) : get info key t = m key := by
  obtain ⟨found,index,hashValue,located,same,data⟩ := locateAgrees good agrees key
  unfold HashTable.get
  rw [located]
  simp only [Option.bind_eq_bind,Option.bind_some]
  split
  · rename_i hit
    exact data hit
  · rename_i miss
    rw [same] at miss
    exact (Option.not_isSome_iff_eq_none.mp miss).symm

theorem Valid.emptyIff (valid : Valid info t m) : isEmpty t = true ↔ ∀ x, t.valid x = false := by
  simp only [isEmpty,decide_eq_true_eq]
  constructor
  · intro zero x
    cases used : t.valid x with
    | false => rfl
    | true =>
        have bound := valid.highest.bound x used
        have positive := valid.good.range used
        omega
  · intro none'
    by_contra positive
    have used := valid.highest.used positive
    rw [none'] at used
    cases used

-- A collision chain: it ends, it has no entry twice, and it has the entries of its bucket.
def Chained (t : Table K D) (b : Nat) : Prop :=
  ∃ list, Linked t.chain b list ∧ list.Nodup ∧ ∀ x, x ∈ list ↔ ∃ item, (t.table x).item = some item ∧ home t.mask item.hashCode = b

theorem Good.chained (good : Good info t) (at' : ∃ x, (t.table x).item = some item) : Chained t (home t.mask item.hashCode) := by
  obtain ⟨x,at'⟩ := at'
  rcases good with bare | ⟨free,chains,shape⟩
  · rw [bare.2.2] at at'
    cases at'
  · have low := (homeBound t.mask item.hashCode).2
    have head := shape.headed at'
    exact ⟨_,shape.linked low head,(shape.linked low head).nodup,shape.chainIff low head⟩

-- There is only one highest index.
theorem Highest.unique (highest : Highest t) (highest' : Highest t') (same : ∀ x, t'.valid x = t.valid x) : t.highestIndex = t'.highestIndex := by
  have below : ∀ {u u' : Table K D}, Highest u → Highest u' → (∀ x, u'.valid x = u.valid x) → u.highestIndex ≤ u'.highestIndex := by
    intro u u' first second alike
    by_cases zero : u.highestIndex = 0
    · omega
    · exact second.bound _ (by rw [alike]; exact first.used zero)
  exact Nat.le_antisymm (below highest highest' same) (below highest' highest fun x => (same x).symm)

/- Every table of a run is a finite map, and every operation of it has a result: an
add, as long as it does not have to grow a closed area of 2^31 slots. The highest
index is right after an assignment just if it was that of the source before. -/
theorem finiteMap (reached : Reached info t m) :
    (∀ key, ∃ found index hashValue, locate info key 0 0 t = some (found,index,hashValue) ∧ found = (m key).isSome ∧ (found = true → dataAt index t = m key)) ∧
    (∀ key, get info key t = m key) ∧
    ((visited t).Nodup ∧ ∀ x, x ∈ visited t ↔ t.valid x = true) ∧
    ((∀ x, t.valid x = true → x ≤ t.highestIndex) ∧ (t.highestIndex ≠ 0 → t.valid t.highestIndex = true)) ∧
    (isEmpty t = true ↔ ∀ x, t.valid x = false) ∧
    (∀ x item, (t.table x).item = some item → Chained t (home t.mask item.hashCode)) ∧
    (∀ key data hashIndex hashValue noLocate, Ready info key hashIndex hashValue noLocate t →
      ((∃ index t', add info key data hashIndex hashValue noLocate t = some ((m key).isNone,index,t')) ↔ m key ≠ none ∨ Space t)) ∧
    (∀ x, t.valid x = true → ∃ t', remove x t = some t') ∧
    (∀ newSize, ∃ t', growTo info newSize t = some t') ∧
    ∀ source m', Reached info source m' →
      (∀ key, get info key (assign t source) = m' key) ∧ (Highest (assign t source) ↔ t.highestIndex = source.highestIndex) := by
  have valid := reached.valid
  refine ⟨locateAgrees valid.good valid.agrees,getAgrees valid.good valid.agrees,valid.good.cursor,⟨valid.highest.bound,valid.highest.used⟩,valid.emptyIff,fun x item at' => valid.good.chained ⟨x,at'⟩,
    fun key data hashIndex hashValue noLocate ready => ⟨?_,fun room => ?_⟩,fun x used => ?_,fun newSize => ?_,fun source m' other => ?_⟩
  · rintro ⟨index,t',ran⟩
    by_contra full
    simp only [not_or,not_not] at full
    rw [valid.addFull data ready full.1 full.2] at ran
    cases ran
  · obtain ⟨index,t',ran,-⟩ := valid.add data ready room
    exact ⟨index,t',ran⟩
  · obtain ⟨item,at'⟩ := validIff.mp used
    obtain ⟨t',ran,-⟩ := valid.good.remove at'
    exact ⟨t',ran⟩
  · obtain ⟨t',ran,-⟩ := valid.good.growTo newSize
    exact ⟨t',ran⟩
  · have valid' := other.valid
    obtain ⟨good,items⟩ := valid.good.assign valid'.good
    have alike : ∀ x, (assign t source).valid x = source.valid x := fun x => by rw [Table.valid,items]; rfl
    refine ⟨getAgrees good (valid'.agrees.same fun item => by simp only [Has,items]),fun highest => ?_,fun same => (Reached.assign reached other same).valid.highest⟩
    exact valid'.highest.unique highest alike |>.symm

-- Numbers with themselves, but for 0, as hash values.
def numbers : HashInfo Nat where
  hash n := if n = 0 then 1 else n
  equal a b := decide (a = b)
  refl a := decide_eq_true rfl
  symm h := decide_eq_true (of_decide_eq_true h).symm
  trans h h' := decide_eq_true ((of_decide_eq_true h).trans (of_decide_eq_true h'))
  nonzero a := by split <;> omega
  respects h := by rw [of_decide_eq_true h]

theorem finiteMapSample : ∃ (t : Table Nat Nat) (m : Nat → Option Nat), Reached numbers t m ∧ get numbers 7 t = m 7 ∧ m 7 = some 70 := by
  obtain ⟨index,t,ran⟩ := (((finiteMap (.start : Reached numbers (empty : Table Nat Nat) _)).2.2.2.2.2.2.1 7 70 0 0 false (.inl ⟨rfl,.inl rfl⟩)).mpr
    (.inr (.inr fun limit => absurd rfl limit.1)))
  have reached := Reached.add .start (.inl ⟨rfl,.inl rfl⟩) ran
  exact ⟨t,_,reached,(finiteMap reached).2.1 7,by decide⟩

-- A table with an entry is assigned to one without memory: it counts as empty.
theorem assignedLooksEmpty : ∃ (t source : Table Nat Nat) (m m' : Nat → Option Nat), Reached numbers t m ∧ Reached numbers source m' ∧
    isEmpty (assign t source) = true ∧ get numbers 7 (assign t source) = some 70 := by
  obtain ⟨source,index,ran⟩ : ∃ source index, add numbers 7 70 0 0 false (empty : Table Nat Nat) = some (true,index,source) := by
    obtain ⟨index,source,ran,-⟩ := (validEmpty : Valid numbers (empty : Table Nat Nat) _).add 70 (.inl ⟨rfl,.inl rfl⟩ : Ready numbers 7 0 0 false _)
      (.inr (.inr fun limit => absurd rfl limit.1))
    exact ⟨source,index,ran⟩
  have reached := Reached.add .start (.inl ⟨rfl,.inl rfl⟩) ran
  refine ⟨empty,source,_,_,.start,reached,rfl,?_⟩
  obtain ⟨good,items⟩ := (Reached.start : Reached numbers (empty : Table Nat Nat) _).valid.good.assign reached.valid.good
  exact getAgrees good (reached.valid.agrees.same fun item => by simp only [Has,items]) 7

end OmrCompiler.HashTable
