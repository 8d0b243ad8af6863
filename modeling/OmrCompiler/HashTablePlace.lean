import OmrCompiler.HashTableChains

/-! Putting an entry into a hash table: into the closed area, or into the first free
slot behind the last entry of its chain. -/
namespace OmrCompiler.HashTable
open IndexChain

variable {K D : Type} {info : HashInfo K} {t t' : Table K D} {free free' : List Nat} {chains chains' : Nat → List Nat} {item : Item K D}
  {b index p x : Nat}

theorem validIff : t.valid x = true ↔ ∃ item, (t.table x).item = some item := Option.isSome_iff_exists

theorem invalidIff : t.valid x = false ↔ (t.table x).item = none := by
  simp [Table.valid]

-- What placing an entry does to the others.
structure Added (t : Table K D) (item : Item K D) (index : Nat) (t' : Table K D) : Prop where
  vacant : (t.table index).item = none
  items : ∀ x, (t'.table x).item = if x = index then some item else (t.table x).item
  mask : t'.mask = t.mask
  size : t'.tableSize = t.tableSize
  highest : t'.highestIndex = if index > t.highestIndex then index else t.highestIndex

theorem Added.cases {x : Nat} {other : Item K D} (added : Added t item index t') (at' : (t'.table x).item = some other) :
    (x = index ∧ other = item) ∨ (x ≠ index ∧ (t.table x).item = some other) := by
  rw [added.items] at at'
  split at at'
  · rename_i here
    exact .inl ⟨here,(Option.some.inj at').symm⟩
  · rename_i there
    exact .inr ⟨there,at'⟩

theorem Added.valid (added : Added t item index t') (valid : t.valid x = true) : t'.valid x = true ∧ x ≠ index := by
  obtain ⟨other,at'⟩ := validIff.mp valid
  have differ : x ≠ index := by
    intro same
    rw [same,added.vacant] at at'
    cases at'
  refine ⟨validIff.mpr ⟨other,?_⟩,differ⟩
  rw [added.items,if_neg differ]
  exact at'

theorem Shape.added (shape : Shape info t free chains) (added : Added t item index t') (code : item.hashCode = info.hash item.key)
    (range : index < t.tableSize) (closed : index ≤ t.mask + 1 → home t.mask item.hashCode = index) (head : t'.valid (home t.mask item.hashCode) = true)
    (absent : ∀ x other, (t.table x).item = some other → info.equal item.key other.key = false)
    (freeLinked : Linked t'.chain t'.nextFree free') (freeIff : ∀ x, x ∈ free' ↔ x ∈ free ∧ x ≠ index)
    (linked : ∀ c, c ≤ t.mask + 1 → t'.valid c = true → Linked t'.chain c (chains' c))
    (chainIff : ∀ c, c ≤ t.mask + 1 → t'.valid c = true →
      ∀ x, x ∈ chains' c ↔ (x = index ∧ home t.mask item.hashCode = c) ∨ ∃ other, (t.table x).item = some other ∧ home t.mask other.hashCode = c) :
    Shape info t' free' chains' := by
  have absent' : ∀ {x other}, (t.table x).item = some other → info.equal item.key other.key = true → False := by
    intro x other at' same
    rw [absent x other at'] at same
    cases same
  refine ⟨?_,?_,fun {x other} at' => ?_,fun {x other} at' => ?_,fun {x other} at' low => ?_,fun {x other} at' => ?_,freeLinked,fun x => ?_,
    fun {c} low valid => linked c (by rw [← added.mask]; exact low) valid,fun {c} low valid x => ?_,fun {x y first second} atX atY same => ?_⟩
  · rw [added.mask]
    exact shape.power
  · rw [added.mask,added.size]
    exact shape.size
  · rw [added.size]
    rcases added.cases at' with ⟨rfl,-⟩ | ⟨-,old⟩
    · exact range
    · exact shape.inside old
  · rcases added.cases at' with ⟨-,rfl⟩ | ⟨-,old⟩
    · exact code
    · exact shape.hashed old
  · rw [added.mask] at low ⊢
    rcases added.cases at' with ⟨rfl,rfl⟩ | ⟨-,old⟩
    · exact closed low
    · exact shape.closed old low
  · rw [added.mask]
    rcases added.cases at' with ⟨-,rfl⟩ | ⟨-,old⟩
    · exact head
    · exact (added.valid (shape.headed old)).1
  · rw [freeIff,shape.freeIff,added.mask,added.size,added.items]
    by_cases here : x = index
    · simp [here]
    · simp [here]
  · rw [added.mask] at low ⊢
    rw [chainIff c low valid]
    constructor
    · rintro (⟨rfl,same⟩ | ⟨other,at',same⟩)
      · exact ⟨item,by rw [added.items,if_pos rfl],same⟩
      · refine ⟨other,?_,same⟩
        rw [added.items,if_neg (added.valid (validIff.mpr ⟨other,at'⟩)).2]
        exact at'
    · rintro ⟨other,at',same⟩
      rcases added.cases at' with ⟨rfl,rfl⟩ | ⟨-,old⟩
      · exact .inl ⟨rfl,same⟩
      · exact .inr ⟨other,old,same⟩
  · rcases added.cases atX with ⟨rfl,rfl⟩ | ⟨-,oldX⟩ <;> rcases added.cases atY with ⟨hereY,rfl⟩ | ⟨-,oldY⟩
    · exact hereY.symm
    · exact (absent' oldY same).elim
    · exact (absent' oldX (info.symm same)).elim
    · exact shape.distinct oldX oldY same

theorem putAdded (vacant : (t.table index).item = none) : Added t item index (put item index t) := by
  refine ⟨vacant,fun x => ?_,rfl,rfl,rfl⟩
  by_cases here : x = index <;> simp [put,setEntry,here]

theorem putChain (other : x ≠ index) : (put item index t).chain x = t.chain x := by
  simp [Table.chain,put,setEntry,other]

theorem putStops : (put item index t).chain index = 0 := by
  simp [Table.chain,put,setEntry]

-- A bucket that is empty gets its first entry.
theorem Shape.placeClosed (shape : Shape info t free chains) (code : item.hashCode = info.hash item.key) (bucket : home t.mask item.hashCode = b)
    (vacant : t.valid b = false) (absent : ∀ x other, (t.table x).item = some other → info.equal item.key other.key = false) :
    Added t item b (put item b t) ∧ Shape info (put item b t) free fun c => if c = b then [b] else chains c := by
  obtain ⟨least,most⟩ := homeBound t.mask item.hashCode
  rw [bucket] at least most
  have sized := shape.sized
  have added := @putAdded K D t item b (invalidIff.mp vacant)
  -- The entry is in no chain and in no free slot before.
  have offFree : ∀ x ∈ free, x ≠ b := by
    intro x on same
    have open' := ((shape.freeIff x).mp on).1
    omega
  have others : ∀ c, c ≠ b → (put item b t).valid c = true → t.valid c = true := by
    intro c other valid
    obtain ⟨old,at'⟩ := validIff.mp valid
    rw [added.items,if_neg other] at at'
    exact validIff.mpr ⟨old,at'⟩
  refine ⟨added,shape.added added code (by omega) (fun _ => bucket) ?_ absent ?_ (fun x => ?_) (fun c low valid => ?_) fun c low valid x => ?_⟩
  · rw [bucket]
    exact validIff.mpr ⟨item,by rw [added.items,if_pos rfl]⟩
  · exact shape.freeLinked.congr fun x on => putChain (offFree x on)
  · exact ⟨fun on => ⟨on,offFree x on⟩,fun both => both.1⟩
  · by_cases here : c = b
    · subst here
      simp only [if_true]
      exact ⟨rfl,by omega,putStops⟩
    · have old := others c here valid
      simp only [if_neg here]
      refine (shape.linked low old).congr fun x on => putChain fun same => ?_
      obtain ⟨there,at',-⟩ := (shape.chainIff low old x).mp on
      rw [same,added.vacant] at at'
      cases at'
  · by_cases here : c = b
    · subst here
      simp only [if_true,List.mem_singleton]
      refine ⟨fun same => .inl ⟨same,bucket⟩,?_⟩
      rintro (⟨same,-⟩ | ⟨other,at',same⟩)
      · exact same
      · have head := shape.headed at'
        rw [same,vacant] at head
        cases head
    · simp only [if_neg here]
      rw [shape.chainIff low (others c here valid)]
      refine ⟨.inr,?_⟩
      rintro (⟨-,same⟩ | old)
      · exact absurd (same.symm.trans bucket) here
      · exact old

-- A free slot becomes the last entry of a chain.
theorem Shape.placeOpen {front : List Nat} (shape : Shape info t (index::free) chains) (code : item.hashCode = info.hash item.key)
    (bucket : home t.mask item.hashCode = b) (valid : t.valid b = true) (last : chains b = front ++ [p])
    (absent : ∀ x other, (t.table x).item = some other → info.equal item.key other.key = false) :
    let linked := setCollisionChain p index t
    let t' := put item index { linked with nextFree := linked.chain index }
    Added t item index t' ∧ Shape info t' free fun c => if c = b then front ++ [p,index] else chains c := by
  intro linked t'
  obtain ⟨least,most⟩ := homeBound t.mask item.hashCode
  rw [bucket] at least most
  obtain ⟨open',range,vacant⟩ := (shape.freeIff index).mp (by simp)
  obtain ⟨start,-,rest⟩ := shape.freeLinked
  have whole := shape.linked most valid
  rw [last] at whole
  have inChain : ∀ x ∈ front ++ [p], ∃ other, (t.table x).item = some other ∧ home t.mask other.hashCode = b := by
    intro x on
    exact (shape.chainIff most valid x).mp (last ▸ on)
  obtain ⟨atP,itemP,homeP⟩ := inChain p (by simp)
  have notP : index ≠ p := by
    intro same
    rw [same,itemP] at vacant
    cases vacant
  have added : Added t item index t' := by
    refine ⟨vacant,fun x => ?_,rfl,rfl,rfl⟩
    by_cases here : x = index
    · simp [t',put,setEntry,here]
    · by_cases there : x = p
      · subst there
        simp [t',put,linked,setCollisionChain,setEntry,here]
      · simp [t',put,linked,setCollisionChain,setEntry,here,there]
  have chain : ∀ x, x ≠ index → x ≠ p → t'.chain x = t.chain x := by
    intro x off off'
    simp [t',put,linked,setCollisionChain,setEntry,Table.chain,off,off']
  have chainP : t'.chain p = index := by
    simp [t',put,linked,setCollisionChain,setEntry,Table.chain,Ne.symm notP]
  have nextFree : t'.nextFree = t.chain index := by
    simp [t',put,linked,setCollisionChain,setEntry,Table.chain,notP]
  have unique := shape.freeLinked.nodup
  have offFree : ∀ x ∈ free, x ≠ index ∧ x ≠ p := by
    intro x on
    refine ⟨fun same => (List.nodup_cons.mp unique).1 (same ▸ on),fun same => ?_⟩
    have none' := ((shape.freeIff x).mp (List.mem_cons_of_mem index on)).2.2
    rw [same,itemP] at none'
    cases none'
  have others : ∀ c, c ≤ t.mask + 1 → t'.valid c = true → t.valid c = true := by
    intro c low valid
    obtain ⟨old,at'⟩ := validIff.mp valid
    rw [added.items,if_neg (by omega)] at at'
    exact validIff.mpr ⟨old,at'⟩
  refine ⟨added,shape.added added code range (fun low => absurd low (by omega)) ?_ absent ?_ (fun x => ?_) (fun c low valid' => ?_) fun c low valid' x => ?_⟩
  · rw [bucket]
    exact (added.valid valid).1
  · rw [nextFree]
    exact rest.congr fun x on => chain x (offFree x on).1 (offFree x on).2
  · refine ⟨fun on => ⟨List.mem_cons_of_mem index on,(offFree x on).1⟩,fun ⟨on,other⟩ => ?_⟩
    exact (List.mem_cons.mp on).resolve_left other
  · by_cases here : c = b
    · subst here
      simp only [if_true]
      refine whole.snoc (by omega) chainP putStops fun x on => chain x (fun same => ?_) fun same => ?_
      · obtain ⟨other,at',-⟩ := inChain x (by simp [on])
        rw [same,vacant] at at'
        cases at'
      · have twice := whole.nodup
        rw [List.nodup_append] at twice
        exact twice.2.2 x on p (by simp) same
    · simp only [if_neg here]
      have old := others c low valid'
      refine (shape.linked low old).congr fun x on => ?_
      obtain ⟨other,at',same⟩ := (shape.chainIff low old x).mp on
      refine chain x (fun hit => ?_) fun hit => ?_
      · rw [hit,vacant] at at'
        cases at'
      · rw [hit,itemP] at at'
        cases at'
        exact here (same.symm.trans homeP)
  · by_cases here : c = b
    · subst here
      simp only [if_true]
      rw [show front ++ [p,index] = (front ++ [p]) ++ [index] by simp,List.mem_append,List.mem_singleton,← last,shape.chainIff most valid]
      constructor
      · rintro (old | same)
        · exact .inr old
        · exact .inl ⟨same,bucket⟩
      · rintro (⟨same,-⟩ | old)
        · exact .inr same
        · exact .inl old
    · simp only [if_neg here]
      rw [shape.chainIff low (others c low valid')]
      refine ⟨.inr,?_⟩
      rintro (⟨-,same⟩ | old)
      · exact absurd (same.symm.trans bucket) here
      · exact old

-- Placing an entry takes at most one free slot, and none if its bucket is empty.
theorem Shape.place (shape : Shape info t free chains) (code : item.hashCode = info.hash item.key) (spot : Spot t chains (home t.mask item.hashCode) p)
    (absent : ∀ x other, (t.table x).item = some other → info.equal item.key other.key = false)
    (room : t.valid (home t.mask item.hashCode) = true → free ≠ []) :
    ∃ index t' free' chains', place item p t = some (index,t') ∧ Added t item index t' ∧ Shape info t' free' chains' ∧ free.length ≤ free'.length + 1 ∧
      (t.valid (home t.mask item.hashCode) = false → free' = free) := by
  rcases spot with ⟨rfl,vacant⟩ | ⟨valid,front,last⟩
  · obtain ⟨added,after⟩ := shape.placeClosed code rfl vacant absent
    exact ⟨_,_,free,_,if_neg (by simp [vacant]),added,after,Nat.le_succ _,fun _ => rfl⟩
  · obtain ⟨index,rest,split⟩ := List.exists_cons_of_ne_nil (room valid)
    subst split
    obtain ⟨added,after⟩ := shape.placeOpen code rfl valid last absent
    obtain ⟨start,positive,-⟩ := shape.freeLinked
    obtain ⟨-,range,-⟩ := (shape.freeIff index).mp (by simp)
    have validP : t.valid p = true := by
      obtain ⟨other,at',-⟩ := (shape.chainIff (homeBound _ _).2 valid p).mp (by rw [last]; simp)
      exact validIff.mpr ⟨other,at'⟩
    refine ⟨index,_,rest,_,?_,added,after,by simp,fun vacant => ?_⟩
    · rw [HashTable.place,if_pos validP,if_pos (by rw [start]; exact ⟨positive,range⟩),start]
    · rw [valid] at vacant
      cases vacant

end OmrCompiler.HashTable
