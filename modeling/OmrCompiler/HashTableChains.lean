import Mathlib.Data.List.Perm.Subperm
import OmrCompiler.HashTable
import OmrCompiler.IndexChain

/-! The chains of a hash table and what a search for a key finds in them. -/
namespace OmrCompiler.HashTable
open IndexChain

variable {K D : Type} {info : HashInfo K} {t t' : Table K D} {free : List Nat} {chains : Nat → List Nat} {key : K} {item : Item K D}
  {fuel hashValue a b i p x : Nat} {list : List Nat}

-- The bucket of a hash code.
def home (mask hashCode : Nat) : Nat := (hashCode &&& mask) + 1

theorem homeBound (mask hashCode : Nat) : 1 ≤ home mask hashCode ∧ home mask hashCode ≤ mask + 1 :=
  ⟨Nat.le_add_left _ _,Nat.add_le_add_right Nat.and_le_right 1⟩

/- The free slots are the invalid entries of the open area, and the chain of a bucket
has the entries with its hash codes, from the one in the closed area on. -/
structure Shape (info : HashInfo K) (t : Table K D) (free : List Nat) (chains : Nat → List Nat) : Prop where
  power : ∃ k, 4 ≤ k ∧ k ≤ 31 ∧ t.mask + 1 = 2 ^ k
  size : t.tableSize = t.mask + 1 + (t.mask + 1) / 4
  inside : ∀ {x item}, (t.table x).item = some item → x < t.tableSize
  hashed : ∀ {x item}, (t.table x).item = some item → item.hashCode = info.hash item.key
  closed : ∀ {x item}, (t.table x).item = some item → x ≤ t.mask + 1 → home t.mask item.hashCode = x
  headed : ∀ {x item}, (t.table x).item = some item → t.valid (home t.mask item.hashCode) = true
  freeLinked : Linked t.chain t.nextFree free
  freeIff : ∀ x, x ∈ free ↔ t.mask + 1 < x ∧ x < t.tableSize ∧ (t.table x).item = none
  linked : ∀ {b}, b ≤ t.mask + 1 → t.valid b = true → Linked t.chain b (chains b)
  chainIff : ∀ {b}, b ≤ t.mask + 1 → t.valid b = true → ∀ x, x ∈ chains b ↔ ∃ item, (t.table x).item = some item ∧ home t.mask item.hashCode = b
  distinct : ∀ {x y : Nat} {a b : Item K D}, (t.table x).item = some a → (t.table y).item = some b → info.equal a.key b.key = true → x = y

theorem Shape.positive (shape : Shape info t free chains) (at' : (t.table x).item = some item) : 1 ≤ x := by
  by_cases closed : x ≤ t.mask + 1
  · rw [← shape.closed at' closed]
    exact (homeBound t.mask item.hashCode).1
  · omega

theorem Shape.sized (shape : Shape info t free chains) : 16 ≤ t.mask + 1 ∧ t.mask + 5 ≤ t.tableSize := by
  obtain ⟨k,low,-,same⟩ := shape.power
  have least : 2 ^ 4 ≤ 2 ^ k := Nat.pow_le_pow_right (by omega) low
  have size := shape.size
  omega

-- A chain has fewer entries than the table.
theorem Shape.chainLength (shape : Shape info t free chains) (closed : b ≤ t.mask + 1) (valid : t.valid b = true) : (chains b).length ≤ t.tableSize := by
  have sub : (chains b).Subperm (List.range t.tableSize) := by
    refine List.subperm_of_subset (shape.linked closed valid).nodup fun x on => ?_
    obtain ⟨item,at',-⟩ := (shape.chainIff closed valid x).mp on
    exact List.mem_range.mpr (shape.inside at')
  simpa using sub.length_le

theorem locateFromSpec (linked : Linked t.chain a list) (some' : list ≠ []) (inside : ∀ x ∈ list, x < t.tableSize) (enough : list.length ≤ fuel) :
    (∃ x ∈ list, holdsKey info key hashValue (t.table x) = true ∧ locateFrom info key hashValue t fuel a = some (true,x)) ∨
    ∃ front p, list = front ++ [p] ∧ (∀ x ∈ list, holdsKey info key hashValue (t.table x) = false) ∧
      locateFrom info key hashValue t fuel a = some (false,p) := by
  induction list generalizing a fuel with
  | nil => exact absurd rfl some'
  | cons x rest ih =>
      obtain ⟨rfl,-,later⟩ := linked
      cases fuel with
      | zero => simp at enough
      | succ fuel =>
          rw [locateFrom]
          cases hit : holdsKey info key hashValue (t.table a) with
          | true => exact .inl ⟨a,by simp,hit,by simp⟩
          | false =>
              rw [if_neg (by simp)]
              cases rest with
              | nil =>
                  have stop : t.chain a = 0 := later
                  exact .inr ⟨[],a,rfl,by simpa using hit,by simp [stop]⟩
              | cons y rest =>
                  have next : t.chain a = y := later.1
                  rw [if_pos (by rw [next]; exact later.2.1),if_pos (by rw [next]; exact inside y (by simp))]
                  rcases ih later (by simp) (fun z on => inside z (List.mem_cons_of_mem a on)) (by simpa using enough) with
                    ⟨z,on,match',found⟩ | ⟨front,p,split,none,ended⟩
                  · exact .inl ⟨z,List.mem_cons_of_mem a on,match',found⟩
                  · refine .inr ⟨a::front,p,by rw [split]; rfl,fun z on => ?_,ended⟩
                    rcases List.mem_cons.mp on with rfl | on
                    · exact hit
                    · exact none z on

-- Where an entry of a bucket goes: into the closed area, or after the last entry of the chain.
def Spot (t : Table K D) (chains : Nat → List Nat) (b p : Nat) : Prop :=
  (p = b ∧ t.valid b = false) ∨ (t.valid b = true ∧ ∃ front, chains b = front ++ [p])

theorem holdsKeyAt (shape : Shape info t free chains) (at' : (t.table x).item = some item) :
    holdsKey info key (info.hash key) (t.table x) = info.equal key item.key := by
  simp only [holdsKey,at']
  cases same : info.equal key item.key with
  | false => simp
  | true => simp [shape.hashed at',info.respects same]

theorem Shape.locate (shape : Shape info t free chains) (i : Nat) (given : hashValue = 0 ∨ hashValue = info.hash key) :
    (∃ x item, (t.table x).item = some item ∧ info.equal key item.key = true ∧ locate info key i hashValue t = some (true,x,info.hash key)) ∨
    ∃ p, locate info key i hashValue t = some (false,p,info.hash key) ∧ Spot t chains (home t.mask (info.hash key)) p ∧
      ∀ x item, (t.table x).item = some item → info.equal key item.key = false := by
  have sized := shape.sized
  obtain ⟨-,bound⟩ := homeBound t.mask (info.hash key)
  have hash : (if hashValue = 0 then info.hash key else hashValue) = info.hash key := by
    rcases given with zero | same
    · rw [if_pos zero]
    · rw [same]
      split <;> rfl
  unfold HashTable.locate
  rw [if_neg (by omega)]
  simp only [hash]
  rw [if_pos ⟨info.nonzero key,show home t.mask (info.hash key) < t.tableSize by omega⟩]
  simp only [show (info.hash key &&& t.mask) + 1 = home t.mask (info.hash key) from rfl]
  -- An entry with the key is in the bucket of its hash code.
  have own : ∀ x item, (t.table x).item = some item → info.equal key item.key = true →
      t.valid (home t.mask (info.hash key)) = true ∧ home t.mask item.hashCode = home t.mask (info.hash key) := by
    intro x item at' same
    have code : item.hashCode = info.hash key := (shape.hashed at').trans (info.respects same).symm
    exact ⟨code ▸ shape.headed at',by rw [code]⟩
  cases valid : t.valid (home t.mask (info.hash key)) with
  | false =>
      refine .inr ⟨_,if_neg (by simp),.inl ⟨rfl,valid⟩,fun x item at' => ?_⟩
      cases same : info.equal key item.key with
      | false => rfl
      | true =>
          rw [(own x item at' same).1] at valid
          cases valid
  | true =>
      rw [if_pos rfl]
      have linked := shape.linked bound valid
      have among := shape.chainIff bound valid
      have positive : chains (home t.mask (info.hash key)) ≠ [] := linked.nonempty.mpr (by have := (homeBound t.mask (info.hash key)).1; omega)
      have within : ∀ x ∈ chains (home t.mask (info.hash key)), x < t.tableSize := by
        intro x on
        obtain ⟨item,at',-⟩ := (among x).mp on
        exact shape.inside at'
      rcases @locateFromSpec K D info t key t.tableSize (info.hash key) _ _ linked positive within (shape.chainLength bound valid) with
        ⟨x,on,hit,found⟩ | ⟨front,p,split,none,ended⟩
      · obtain ⟨item,at',-⟩ := (among x).mp on
        rw [holdsKeyAt shape at'] at hit
        exact .inl ⟨x,item,at',hit,by rw [found]; rfl⟩
      · refine .inr ⟨p,by rw [ended]; rfl,.inr ⟨valid,front,split⟩,fun x item at' => ?_⟩
        cases same : info.equal key item.key with
        | false => rfl
        | true =>
            have miss := none x ((among x).mpr ⟨item,at',(own x item at' same).2⟩)
            rw [holdsKeyAt shape at',same] at miss
            cases miss

end OmrCompiler.HashTable
