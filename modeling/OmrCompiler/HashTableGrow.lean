import OmrCompiler.HashTableRemove

/-! Growing a hash table: the entries of the closed area go to closed slots of the
new table, so that those of the open area always find a free slot in it. -/
namespace OmrCompiler.HashTable
open IndexChain

variable {K D : Type} {info : HashInfo K} {t t' old : Table K D} {free : List Nat} {chains : Nat → List Nat} {item : Item K D}
  {closed j k n x : Nat}

theorem freshLinked (openArea : Nat) : ∀ {count s : Nat}, closed < s → s + (count + 1) = closed + openArea →
    Linked (fresh closed openArea : Table K D).chain s (List.range' s (count + 1)) := by
  intro count
  induction count with
  | zero =>
      intro s high ends
      refine ⟨rfl,by omega,?_⟩
      show (if closed < s ∧ s + 1 < closed + openArea then s + 1 else 0) = 0
      rw [if_neg (by omega)]
  | succ count ih =>
      intro s high ends
      rw [List.range'_succ]
      refine ⟨rfl,by omega,?_⟩
      have next : (fresh closed openArea : Table K D).chain s = s + 1 := by
        show (if closed < s ∧ s + 1 < closed + openArea then s + 1 else 0) = s + 1
        rw [if_pos (by omega)]
      rw [next]
      exact ih (by omega) (by omega)

theorem freshShape (low : 4 ≤ k) (high : k ≤ 31) : Shape info (fresh (2 ^ k) (2 ^ k / 4) : Table K D) (List.range' (2 ^ k + 1) (2 ^ k / 4 - 1)) fun _ => [] := by
  have least : 2 ^ 4 ≤ 2 ^ k := Nat.pow_le_pow_right (by omega) low
  have none' : ∀ {x item}, ((fresh (2 ^ k) (2 ^ k / 4) : Table K D).table x).item ≠ some item := by
    intro x item at'
    cases at'
  have invalid : ∀ {b}, (fresh (2 ^ k) (2 ^ k / 4) : Table K D).valid b ≠ true := by
    intro b valid
    cases valid
  have mask : (fresh (2 ^ k) (2 ^ k / 4) : Table K D).mask + 1 = 2 ^ k := by
    show 2 ^ k - 1 + 1 = 2 ^ k
    omega
  refine ⟨⟨k,low,high,mask⟩,by rw [mask]; rfl,fun at' => absurd at' none',fun at' => absurd at' none',fun at' => absurd at' none',fun at' => absurd at' none',
    ?_,fun x => ?_,fun _ valid => absurd valid invalid,fun _ valid => absurd valid invalid,fun at' => absurd at' none'⟩
  · have linked := @freshLinked K D (2 ^ k) (2 ^ k / 4) (2 ^ k / 4 - 2) (2 ^ k + 1) (by omega) (by omega)
    rwa [show 2 ^ k / 4 - 2 + 1 = 2 ^ k / 4 - 1 by omega] at linked
  · rw [mask,List.mem_range'_1]
    show _ ↔ _ ∧ x < 2 ^ k + 2 ^ k / 4 ∧ none = none
    simp only [and_true]
    omega

theorem homeRefines {mask mask' a b : Nat} (coarse : mask + 1 = 2 ^ k) (fine : mask' + 1 = 2 ^ j) (order : k ≤ j) (same : home mask' a = home mask' b) :
    home mask a = home mask b := by
  obtain rfl : mask = 2 ^ k - 1 := by omega
  obtain rfl : mask' = 2 ^ j - 1 := by omega
  simp only [home,Nat.and_two_pow_sub_one_eq_mod,Nat.add_right_cancel_iff] at same ⊢
  have divides : 2 ^ k ∣ 2 ^ j := Nat.pow_dvd_pow 2 order
  rw [← Nat.mod_mod_of_dvd a divides,same,Nat.mod_mod_of_dvd b divides]

def Has (t : Table K D) (item : Item K D) : Prop := ∃ x, (t.table x).item = some item

theorem Added.has {index : Nat} (added : Added t item index t') (other : Item K D) : Has t' other ↔ other = item ∨ Has t other := by
  constructor
  · rintro ⟨x,at'⟩
    rcases added.cases at' with ⟨-,same⟩ | ⟨-,old⟩
    · exact .inl same
    · exact .inr ⟨x,old⟩
  · rintro (rfl | ⟨x,old⟩)
    · exact ⟨index,by rw [added.items,if_pos rfl]⟩
    · refine ⟨x,?_⟩
      rw [added.items,if_neg (added.valid (validIff.mpr ⟨other,old⟩)).2]
      exact old

-- The highest index is that of an entry, and no entry has a higher one.
structure Highest (t : Table K D) : Prop where
  bound : ∀ x, t.valid x = true → x ≤ t.highestIndex
  used : t.highestIndex ≠ 0 → t.valid t.highestIndex = true

theorem freshHighest {openArea : Nat} : Highest (fresh closed openArea : Table K D) := by
  refine ⟨fun x valid => ?_,fun positive => absurd rfl positive⟩
  cases valid

theorem Added.isHighest {index : Nat} (added : Added t item index t') (highest : Highest t) : Highest t' := by
  have new : t'.valid index = true := validIff.mpr ⟨item,by rw [added.items,if_pos rfl]⟩
  refine ⟨fun x valid => ?_,fun positive => ?_⟩
  · obtain ⟨other,at'⟩ := validIff.mp valid
    rw [added.highest]
    rcases added.cases at' with ⟨rfl,-⟩ | ⟨-,before⟩
    · split <;> omega
    · have bound := highest.bound x (validIff.mpr ⟨other,before⟩)
      split <;> omega
  · rw [added.highest] at positive ⊢
    split
    · exact new
    · rename_i lower
      rw [if_neg lower] at positive
      exact (added.valid (highest.used positive)).1

-- The entries of the old table up to n are in the new one.
structure Rehashed (info : HashInfo K) (old : Table K D) (j n : Nat) (t : Table K D) (free : List Nat) (chains : Nat → List Nat) : Prop where
  shape : Shape info t free chains
  mask : t.mask + 1 = 2 ^ j
  highest : Highest t
  has : ∀ item, Has t item ↔ ∃ x < n, (old.table x).item = some item
  room : 2 ^ j / 4 - 1 ≤ free.length + (n - (old.mask + 2))

theorem Rehashed.step {oldFree : List Nat} {oldChains : Nat → List Nat} (before : Shape info old oldFree oldChains) (coarse : old.mask + 1 = 2 ^ k) (order : k ≤ j)
    (range : n < old.tableSize) (so : Rehashed info old j n t free chains) :
    ∃ t' free' chains', rehashOne info old t n = some t' ∧ Rehashed info old j (n + 1) t' free' chains' := by
  unfold rehashOne
  cases at' : (old.table n).item with
  | none =>
      refine ⟨t,free,chains,rfl,so.shape,so.mask,so.highest,fun item => ?_,by have room := so.room; omega⟩
      rw [so.has]
      constructor
      · rintro ⟨x,bound,there⟩
        exact ⟨x,by omega,there⟩
      · rintro ⟨x,bound,there⟩
        refine ⟨x,?_,there⟩
        have other : x ≠ n := by
          intro same
          rw [same,at'] at there
          cases there
        omega
  | some item =>
      have code := before.hashed at'
      have new : ∀ x other, (t.table x).item = some other → info.equal item.key other.key = false := by
        intro x other there
        obtain ⟨y,bound,origin⟩ := (so.has other).mp ⟨x,there⟩
        cases same : info.equal item.key other.key with
        | false => rfl
        | true =>
            have together := before.distinct at' origin same
            omega
      rcases so.shape.locate 0 (.inr code : item.hashCode = 0 ∨ item.hashCode = info.hash item.key) with ⟨x,other,there,same,-⟩ | ⟨p,located,spot,-⟩
      · rw [new x other there] at same
        cases same
      · -- An entry of the closed area is the first of its bucket in the new table.
        have first : n ≤ old.mask + 1 → t.valid (home t.mask item.hashCode) = false := by
          intro low
          cases valid : t.valid (home t.mask item.hashCode) with
          | false => rfl
          | true =>
              obtain ⟨other,there⟩ := validIff.mp valid
              obtain ⟨y,bound,origin⟩ := (so.has other).mp ⟨_,there⟩
              have together := homeRefines coarse so.mask order (so.shape.closed there (homeBound _ _).2)
              rw [before.closed origin (by omega),before.closed at' low] at together
              omega
        have size := before.size
        have quarter : 2 ^ k / 4 ≤ 2 ^ j / 4 := Nat.div_le_div_right (Nat.pow_le_pow_right (by omega) order)
        have room := so.room
        rw [← code] at spot
        obtain ⟨index,t',free',chains',placed,added,after,taken,kept⟩ := so.shape.place code spot new fun valid empty => by
          rcases Nat.lt_or_ge (old.mask + 1) n with high | low
          · rw [empty,List.length_nil] at room
            omega
          · rw [first low] at valid
            cases valid
        refine ⟨t',free',chains',?_,after,by rw [added.mask]; exact so.mask,added.isHighest so.highest,fun other => ?_,?_⟩
        · simp only [located,Option.bind_eq_bind,Option.bind_some,Bool.false_eq_true,if_false,placed]
        · rw [added.has,so.has]
          constructor
          · rintro (rfl | ⟨x,bound,there⟩)
            · exact ⟨n,by omega,at'⟩
            · exact ⟨x,by omega,there⟩
          · rintro ⟨x,bound,there⟩
            rcases Nat.lt_succ_iff_lt_or_eq.mp bound with less | rfl
            · exact .inr ⟨x,less,there⟩
            · rw [at'] at there
              exact .inl (Option.some.inj there).symm
        · rcases Nat.lt_or_ge (old.mask + 1) n with high | low
          · omega
          · rw [kept (first low)]
            omega

theorem rehashKeeps {oldFree : List Nat} {oldChains : Nat → List Nat} (before : Shape info old oldFree oldChains) (coarse : old.mask + 1 = 2 ^ k) (order : k ≤ j)
    (high : j ≤ 31) (range : n ≤ old.tableSize) :
    ∃ t free chains, rehash info old n (fresh (2 ^ j) (2 ^ j / 4)) = some t ∧ Rehashed info old j n t free chains := by
  have low : 4 ≤ k := by
    by_contra small
    have less : 2 ^ k < 2 ^ 4 := Nat.pow_lt_pow_right (by decide) (by omega)
    have sized := before.sized
    omega
  have least : 2 ^ 4 ≤ 2 ^ j := Nat.pow_le_pow_right (by omega) (by omega)
  induction n with
  | zero =>
      refine ⟨_,_,_,rfl,@freshShape K D info j (by omega) high,by show 2 ^ j - 1 + 1 = 2 ^ j; omega,freshHighest,
        fun item => ?_,by simp⟩
      constructor
      · rintro ⟨x,at'⟩
        cases at'
      · rintro ⟨x,bound,-⟩
        omega
  | succ n ih =>
      obtain ⟨t,free,chains,ran,so⟩ := ih (by omega)
      obtain ⟨t',free',chains',stepped,after⟩ := so.step before coarse order (by omega)
      exact ⟨t',free',chains',by rw [rehash,ran]; exact stepped,after⟩

-- A table without memory has no entries and no free slot.
def Bare (t : Table K D) : Prop := t.tableSize = 0 ∧ t.nextFree = 0 ∧ ∀ x, (t.table x).item = none

def Good (info : HashInfo K) (t : Table K D) : Prop := Bare t ∨ ∃ free chains, Shape info t free chains

-- A larger table, or one of the same size, with the entries of the old one.
structure Grown (info : HashInfo K) (old t : Table K D) (free : List Nat) (chains : Nat → List Nat) : Prop where
  shape : Shape info t free chains
  highest : Highest t
  has : ∀ item, Has t item ↔ Has old item

theorem Bare.grow (bare : Bare old) (low : 4 ≤ j) (high : j ≤ 31) :
    ∃ t free chains, growAndRehash info (2 ^ j) (2 ^ j / 4) old = some t ∧ Grown info old t free chains ∧ free ≠ [] := by
  have least : 2 ^ 4 ≤ 2 ^ j := Nat.pow_le_pow_right (by omega) low
  refine ⟨_,_,_,by rw [growAndRehash,if_neg (by omega),bare.1]; rfl,⟨@freshShape K D info j low high,freshHighest,
    fun item => ?_⟩,?_⟩
  · constructor
    · rintro ⟨x,at'⟩
      cases at'
    · rintro ⟨x,at'⟩
      rw [bare.2.2] at at'
      cases at'
  · intro empty
    have size := congrArg List.length empty
    simp only [List.length_range',List.length_nil] at size
    omega

theorem Shape.grow (before : Shape info old free chains) (coarse : old.mask + 1 = 2 ^ k) (order : k ≤ j) (high : j ≤ 31) :
    ∃ t free' chains', growAndRehash info (2 ^ j) (2 ^ j / 4) old = some t ∧ Grown info old t free' chains' ∧ (k < j → free' ≠ []) := by
  obtain ⟨t,free',chains',ran,so⟩ := rehashKeeps before coarse order high (Nat.le_refl _)
  have sized := before.sized
  have size := before.size
  have least : 2 ^ k ≤ 2 ^ j := Nat.pow_le_pow_right (by omega) order
  refine ⟨t,free',chains',by rw [growAndRehash,if_neg (by omega)]; exact ran,⟨so.shape,so.highest,fun item => ?_⟩,fun more empty => ?_⟩
  · rw [so.has]
    constructor
    · rintro ⟨x,-,at'⟩
      exact ⟨x,at'⟩
    · rintro ⟨x,at'⟩
      exact ⟨x,before.inside at',at'⟩
  · have room := so.room
    have double : 2 ^ (k + 1) ≤ 2 ^ j := Nat.pow_le_pow_right (by omega) more
    rw [Nat.pow_succ] at double
    rw [empty,List.length_nil] at room
    omega

-- The closed area has 2^31 slots, and there is no larger one.
def Limit (t : Table K D) : Prop := t.tableSize ≠ 0 ∧ t.mask + 1 = 2 ^ 31

theorem growSize {mask : Nat} (coarse : mask + 1 = 2 ^ k) (high : k ≤ 31) : (((mask <<< 1) ||| 1) % word + 1) % word = 2 ^ (k + 1) % word := by
  have bound : 2 ^ k ≤ 2 ^ 31 := Nat.pow_le_pow_right (by omega) high
  have double : 2 ^ (k + 1) = 2 ^ k * 2 := Nat.pow_succ 2 k
  have shifted : mask <<< 1 ||| 1 = 2 ^ (k + 1) - 1 := by
    rw [← Nat.shiftLeft_add_eq_or_of_lt (by decide : 1 < 2 ^ 1),Nat.shiftLeft_eq,double]
    omega
  have size : word = 2 ^ 31 * 2 := rfl
  rw [shifted,Nat.mod_eq_of_lt (show 2 ^ (k + 1) - 1 < word by omega)]
  congr 1
  omega

theorem Good.grow (good : Good info old) (room : ¬ Limit old) :
    ∃ t free chains, grow info old = some t ∧ Grown info old t free chains ∧ free ≠ [] := by
  unfold HashTable.grow
  rcases good with bare | ⟨free,chains,before⟩
  · rw [if_pos bare.1]
    exact bare.grow (Nat.le_refl 4) (by decide)
  · obtain ⟨k,low,high,coarse⟩ := before.power
    have sized := before.sized
    have less : k < 31 := by
      refine Nat.lt_of_le_of_ne high fun same => room ⟨by omega,?_⟩
      rw [coarse,same]
    have fits : 2 ^ (k + 1) < word := Nat.pow_lt_pow_right (by decide) (by omega)
    rw [if_neg (by omega)]
    simp only [growSize coarse high,Nat.mod_eq_of_lt fits]
    obtain ⟨t,free',chains',ran,grown,more⟩ := before.grow coarse (Nat.le_succ k) (by omega)
    exact ⟨t,free',chains',ran,grown,more (Nat.lt_succ_self k)⟩

theorem Limit.grow (limit : Limit old) : grow info old = none := by
  unfold HashTable.grow
  rw [if_neg limit.1]
  simp only [growSize limit.2 (by decide)]
  rfl

theorem ceilingPower (newSize : Nat) : ceilingPowerOfTwo newSize = 0 ∨ ∃ i ≤ 31, ceilingPowerOfTwo newSize = 2 ^ i := by
  unfold ceilingPowerOfTwo
  have below : ((newSize + word - 1) % word).size ≤ 32 := Nat.size_le.mpr (Nat.mod_lt _ (by decide))
  generalize ((newSize + word - 1) % word).size = i at below
  rw [Nat.one_shiftLeft]
  rcases Nat.lt_or_ge i 32 with less | all
  · exact .inr ⟨i,by omega,Nat.mod_eq_of_lt (Nat.pow_lt_pow_right (by decide) less)⟩
  · have exact' : i = 32 := by omega
    exact .inl (by rw [exact']; rfl)

theorem growToSize (newSize : Nat) :
    ∃ j, 4 ≤ j ∧ j ≤ 31 ∧ (if ceilingPowerOfTwo newSize < kMinimumHashTableSize then kMinimumHashTableSize else ceilingPowerOfTwo newSize) = 2 ^ j := by
  split
  · exact ⟨4,Nat.le_refl 4,by decide,rfl⟩
  · rename_i large
    rcases ceilingPower newSize with zero | ⟨i,high,same⟩
    · rw [zero] at large
      exact absurd (by decide) large
    · refine ⟨i,?_,high,same⟩
      by_contra small
      have less : 2 ^ i < 2 ^ 4 := Nat.pow_lt_pow_right (by decide) (by omega)
      have minimum : kMinimumHashTableSize = 2 ^ 4 := rfl
      omega

theorem Good.growTo (good : Good info old) (newSize : Nat) :
    ∃ t, growTo info newSize old = some t ∧ Good info t ∧ (Highest old → Highest t) ∧ ∀ item, Has t item ↔ Has old item := by
  obtain ⟨j,low,high,same⟩ := growToSize newSize
  unfold HashTable.growTo
  simp only [same]
  split
  · exact ⟨old,rfl,good,id,fun _ => Iff.rfl⟩
  · rename_i larger
    rcases good with bare | ⟨free,chains,before⟩
    · obtain ⟨t,free,chains,ran,grown,-⟩ := @Bare.grow K D info old j bare low high
      exact ⟨t,ran,.inr ⟨free,chains,grown.shape⟩,fun _ => grown.highest,grown.has⟩
    · obtain ⟨k,-,-,coarse⟩ := before.power
      have size := before.size
      have order : k ≤ j := by
        by_contra less
        have double : 2 ^ (j + 1) ≤ 2 ^ k := Nat.pow_le_pow_right (by omega) (by omega)
        rw [Nat.pow_succ] at double
        have least : 2 ^ 4 ≤ 2 ^ j := Nat.pow_le_pow_right (by omega) low
        omega
      obtain ⟨t,free',chains',ran,grown,-⟩ := before.grow coarse order high
      exact ⟨t,ran,.inr ⟨free',chains',grown.shape⟩,fun _ => grown.highest,grown.has⟩

end OmrCompiler.HashTable
