import OmrCompiler.MetaDataChain

/-! The method store: the chains of the buckets are apart, and the operations on
one bucket stay inside the blocks and leave the other buckets alone. -/
namespace OmrCompiler.MetaData

-- What a bucket stands for.
inductive Bucket (t : Table) : Word → List Nat → Prop where
  | empty : Bucket t .null []
  | single (metaData : Nat) : Bucket t (.tagged metaData) [metaData]
  | chain {block slot : Nat} {list : List Nat} (inside : block < t.blocks) (first : 1 ≤ slot) (several : 2 ≤ list.length)
      (holds : Holds (t.store block) slot list) (fits : slot + list.length ≤ storeWords) : Bucket t (.chain block slot) list

/- The blocks of the store. A block whose terminator is gone has one chain, from
its first slot on, and nothing is allocated in it any more. -/
structure Stored (t : Table) (lists : Nat → List Nat) : Prop where
  buckets : ∀ {i : Nat} {word : Word}, t.buckets[i]? = some word → Bucket t word (lists i)
  apart : ∀ {i j block slot slot' : Nat}, i ≠ j → t.buckets[i]? = some (.chain block slot) → t.buckets[j]? = some (.chain block slot') →
    slot + (lists i).length ≤ slot' ∨ slot' + (lists j).length ≤ slot
  below : ∀ {i slot : Nat}, t.buckets[i]? = some (.chain (t.blocks - 1) slot) → slot + (lists i).length ≤ t.currentAllocate
  present : 1 ≤ t.blocks
  current : 1 ≤ t.currentAllocate
  ends : ∀ {block : Nat}, block < t.blocks →
    (t.store block methodStoreEnd ≠ .null ∧ ∀ i slot : Nat, t.buckets[i]? = some (.chain block slot) → slot + (lists i).length ≤ methodStoreEnd) ∨
    ((∀ i slot : Nat, t.buckets[i]? = some (.chain block slot) → slot = 1) ∧ (block = t.blocks - 1 → t.currentAllocate = storeWords))

section
variable {t t' : Table} {lists : Nat → List Nat} {i block slot m n : Nat} {word : Word} {list : List Nat}

def replaced (lists : Nat → List Nat) (i : Nat) (list : List Nat) : Nat → List Nat := fun j => if j = i then list else lists j

theorem Bucket.transfer (bucket : Bucket t word list) (grown : t.blocks ≤ t'.blocks)
    (frame : ∀ block slot, word = .chain block slot → ∀ x, slot ≤ x → x < slot + list.length → t'.store block x = t.store block x) :
    Bucket t' word list := by
  cases bucket with
  | empty => exact .empty
  | single metaData => exact .single metaData
  | chain inside first several holds fits =>
      exact .chain (Nat.lt_of_lt_of_le inside grown) first several (holds.congr (frame _ _ rfl)) fits

-- One bucket has changed, and the slots of the others are as they were.
theorem Stored.change (stored : Stored t lists) (bound : i < t.buckets.length) (same : t'.buckets = t.buckets) (grown : t.blocks ≤ t'.blocks)
    (frame : ∀ j block slot : Nat, j ≠ i → t.buckets[j]? = some (.chain block slot) → ∀ x, slot ≤ x → x < slot + (lists j).length →
      t'.store block x = t.store block x)
    (own : Bucket t' word list)
    (apart : ∀ j block slot slot' : Nat, j ≠ i → word = .chain block slot → t.buckets[j]? = some (.chain block slot') →
      slot + list.length ≤ slot' ∨ slot' + (lists j).length ≤ slot)
    (below : ∀ slot, word = .chain (t'.blocks - 1) slot → slot + list.length ≤ t'.currentAllocate)
    (others : ∀ j slot, j ≠ i → t.buckets[j]? = some (.chain (t'.blocks - 1) slot) → slot + (lists j).length ≤ t'.currentAllocate)
    (current : 1 ≤ t'.currentAllocate)
    (ends : ∀ block, block < t'.blocks →
      (t'.store block methodStoreEnd ≠ .null ∧ (∀ slot, word = .chain block slot → slot + list.length ≤ methodStoreEnd) ∧
        ∀ j slot, j ≠ i → t.buckets[j]? = some (.chain block slot) → slot + (lists j).length ≤ methodStoreEnd) ∨
      ((∀ slot, word = .chain block slot → slot = 1) ∧ (∀ j slot : Nat, j ≠ i → t.buckets[j]? = some (.chain block slot) → slot = 1) ∧
        (block = t'.blocks - 1 → t'.currentAllocate = storeWords))) :
    Stored (setBucket i word t') (replaced lists i list) := by
  have new : (setBucket i word t').buckets[i]? = some word := by
    simp [setBucket,same,bound]
  have old : ∀ {j}, j ≠ i → (setBucket i word t').buckets[j]? = t.buckets[j]? := by
    intro j other
    simp only [setBucket,same]
    rw [List.getElem?_set_ne (Ne.symm other)]
  have listNew : replaced lists i list i = list := if_pos rfl
  have listOld : ∀ {j}, j ≠ i → replaced lists i list j = lists j := fun other => if_neg other
  refine ⟨fun {j w} at' => ?_,fun {j k block slot slot'} differ first second => ?_,fun {j slot} at' => ?_,Nat.le_trans stored.present grown,current,
    fun {block} inside => ?_⟩
  · by_cases here : j = i
    · subst here
      rw [new] at at'
      cases at'
      rw [listNew]
      exact own.transfer (Nat.le_refl _) fun _ _ _ _ _ _ => rfl
    · rw [old here] at at'
      rw [listOld here]
      exact (stored.buckets at').transfer grown fun block slot chain => frame j block slot here (chain ▸ at')
  · by_cases here : j = i
    · subst here
      have other : k ≠ j := Ne.symm differ
      rw [new] at first
      rw [old other] at second
      rw [listNew,listOld other]
      exact apart k block slot slot' other (Option.some.inj first) second
    · rw [old here] at first
      rw [listOld here]
      by_cases there : k = i
      · subst there
        rw [new] at second
        rw [listNew]
        exact (apart j block slot' slot here (Option.some.inj second) first).symm
      · rw [old there] at second
        rw [listOld there]
        exact stored.apart differ first second
  · by_cases here : j = i
    · subst here
      rw [new] at at'
      rw [listNew]
      exact below slot (Option.some.inj at')
    · rw [old here] at at'
      rw [listOld here]
      exact others j slot here at'
  · rcases ends block inside with ⟨full,mine,theirs⟩ | ⟨mine,theirs,last⟩
    · refine .inl ⟨full,fun j slot at' => ?_⟩
      by_cases here : j = i
      · subst here
        rw [new] at at'
        rw [listNew]
        exact mine slot (Option.some.inj at')
      · rw [old here] at at'
        rw [listOld here]
        exact theirs j slot here at'
    · refine .inr ⟨fun j slot at' => ?_,last⟩
      by_cases here : j = i
      · subst here
        rw [new] at at'
        exact mine slot (Option.some.inj at')
      · rw [old here] at at'
        exact theirs j slot here at'

-- The slots of a chain.
theorem Stored.chainAt {j : Nat} (stored : Stored t lists) (at' : t.buckets[j]? = some (.chain block slot)) :
    block < t.blocks ∧ 1 ≤ slot ∧ 2 ≤ (lists j).length ∧ Holds (t.store block) slot (lists j) ∧ slot + (lists j).length ≤ storeWords := by
  generalize same : lists j = list
  have bucket := stored.buckets at'
  rw [same] at bucket
  cases bucket with
  | chain inside first several holds fits => exact ⟨inside,first,several,holds,fits⟩

-- A bucket without a chain before and after the change.
theorem Stored.plain (stored : Stored t lists) (bound : i < t.buckets.length) (own : Bucket t word list)
    (none : ∀ block slot, word ≠ .chain block slot) : Stored (setBucket i word t) (replaced lists i list) := by
  refine stored.change bound rfl (Nat.le_refl _) (fun _ _ _ _ _ _ _ _ => rfl) own (fun j block slot slot' _ chain => absurd chain (none _ _))
    (fun slot chain => absurd chain (none _ _)) (fun j slot _ at' => stored.below at') stored.current fun block inside => ?_
  rcases stored.ends inside with ⟨full,all⟩ | ⟨first,last⟩
  · exact .inl ⟨full,fun slot chain => absurd chain (none _ _),fun j slot _ => all j slot⟩
  · exact .inr ⟨fun slot chain => absurd chain (none _ _),fun j slot _ => first j slot,last⟩

theorem Stored.allocate (stored : Stored t lists) : Stored (allocateMethodStoreInHash t) lists ∧
    ∀ j slot : Nat, (allocateMethodStoreInHash t).buckets[j]? ≠ some (.chain t.blocks slot) := by
  have none : ∀ j slot : Nat, t.buckets[j]? ≠ some (.chain t.blocks slot) := by
    intro j slot at'
    exact Nat.lt_irrefl _ (stored.chainAt at').1
  have words : ∀ block x : Nat, block < t.blocks → (allocateMethodStoreInHash t).store block x = t.store block x := by
    intro block x inside
    simp only [allocateMethodStoreInHash]
    rw [if_neg (Nat.ne_of_lt inside)]
  have last : (allocateMethodStoreInHash t).blocks - 1 = t.blocks := rfl
  refine ⟨⟨fun {j w} at' => ?_,stored.apart,fun {j slot} at' => absurd at' (none j slot),Nat.le_add_left _ _,Nat.le_refl _,fun {block} inside => ?_⟩,none⟩
  · refine (stored.buckets at').transfer (Nat.le_add_right _ _) fun block slot chain x _ _ => words block x ?_
    exact (stored.chainAt (chain ▸ at')).1
  · by_cases new : block = t.blocks
    · subst new
      refine .inl ⟨?_,fun j slot at' => absurd at' (none j slot)⟩
      simp [allocateMethodStoreInHash,newBlock,methodStoreEnd]
    · have old : block < t.blocks := by
        have bound : block < t.blocks + 1 := inside
        omega
      rcases stored.ends old with ⟨full,all⟩ | ⟨first,-⟩
      · refine .inl ⟨?_,all⟩
        rw [words block methodStoreEnd old]
        exact full
      · exact .inr ⟨first,fun same => absurd same new⟩

-- The table is the same up to its store.
structure Kept (t t' : Table) : Prop where
  buckets : t'.buckets = t.buckets
  start : t'.start = t.start
  top : t'.top = t.top

-- After reserving n slots, they fit before the terminator, or they have a block of their own.
theorem Stored.reserve (stored : Stored t lists) :
    Stored (reserveSlots n t) lists ∧ Kept t (reserveSlots n t) ∧
      ((reserveSlots n t).currentAllocate + n ≤ methodStoreEnd ∨
        (reserveSlots n t).currentAllocate = 1 ∧ ∀ j slot : Nat, (reserveSlots n t).buckets[j]? ≠ some (.chain ((reserveSlots n t).blocks - 1) slot)) := by
  unfold reserveSlots
  split
  · exact ⟨stored.allocate.1,⟨rfl,rfl,rfl⟩,.inr ⟨rfl,stored.allocate.2⟩⟩
  · exact ⟨stored,⟨rfl,rfl,rfl⟩,.inl (by omega)⟩

theorem Stored.put {words : Nat → Word} (stored : Stored t lists) (bound : i < t.buckets.length) (several : 2 ≤ list.length) (most : list.length ≤ methodStoreEnd)
    (holds : Holds words 0 list)
    (room : t.currentAllocate + list.length ≤ methodStoreEnd ∨
      t.currentAllocate = 1 ∧ ∀ j slot : Nat, t.buckets[j]? ≠ some (.chain (t.blocks - 1) slot)) :
    ∃ word t', putWords list.length words t = some (word,t') ∧ Kept t t' ∧ Stored (setBucket i word t') (replaced lists i list) := by
  have fits : t.currentAllocate + list.length ≤ storeWords := by
    have sizes : storeWords = methodStoreEnd + 1 := rfl
    rcases room with before | ⟨first,-⟩ <;> omega
  have present := stored.present
  refine ⟨_,_,if_pos fits,⟨rfl,rfl,rfl⟩,?_⟩
  refine stored.change bound rfl (Nat.le_refl _) (fun j block slot _ at' x low high => ?_) (.chain (by simp only [setStore]; omega) stored.current several ?_ fits)
    (fun j block slot slot' _ chain at' => ?_) (fun slot chain => ?_) (fun j slot _ at' => ?_) ?_ fun block inside => ?_
  · simp only [setStore]
    split
    · rename_i last
      have below := stored.below (last ▸ at')
      simp only
      rw [if_neg (by omega),last]
    · rfl
  · refine holds.shift fun j bound => ?_
    simp only [setStore,if_true]
    rw [if_pos (by omega)]
    congr 1
    omega
  · cases chain
    have below := stored.below at'
    omega
  · cases chain
    exact Nat.le_refl _
  · have below : slot + (lists j).length ≤ t.currentAllocate := stored.below at'
    show slot + (lists j).length ≤ t.currentAllocate + list.length
    omega
  · show 1 ≤ t.currentAllocate + list.length
    omega
  · have old : block < t.blocks := inside
    by_cases last : block = t.blocks - 1
    · subst last
      by_cases short : t.currentAllocate + list.length ≤ methodStoreEnd
      · rcases stored.ends old with ⟨full,all⟩ | ⟨-,cut⟩
        · refine .inl ⟨?_,fun slot chain => ?_,fun j slot _ => all j slot⟩
          · simp only [setStore,if_true]
            rw [if_neg (by omega)]
            exact full
          · cases chain
            exact short
        · have sizes : storeWords = methodStoreEnd + 1 := rfl
          have cut := cut rfl
          omega
      · obtain ⟨first,alone⟩ := room.resolve_left short
        refine .inr ⟨fun slot chain => ?_,fun j slot _ at' => absurd at' (alone j slot),fun _ => ?_⟩
        · cases chain
          exact first
        · show t.currentAllocate + list.length = storeWords
          have sizes : storeWords = methodStoreEnd + 1 := rfl
          omega
    · have words : ∀ x, (setStore (t.blocks - 1) (fun slot => if t.currentAllocate ≤ slot ∧ slot < t.currentAllocate + list.length then
          words (slot - t.currentAllocate) else t.store (t.blocks - 1) slot) t).store block x = t.store block x := fun x => by simp only [setStore,if_neg last]
      rcases stored.ends old with ⟨full,all⟩ | ⟨first,-⟩
      · refine .inl ⟨?_,fun slot chain => ?_,fun j slot _ => all j slot⟩
        · rw [show (_ : Word) = t.store block methodStoreEnd from words methodStoreEnd]
          exact full
        · cases chain
          exact absurd rfl last
      · refine .inr ⟨fun slot chain => ?_,fun j slot _ => first j slot,fun same => absurd same last⟩
        cases chain
        exact absurd rfl last

-- The slots after a chain are those of no chain or of another one.
theorem Stored.inside {j block' slot' x : Nat} (stored : Stored t lists) (at' : t.buckets[i]? = some (.chain block slot)) (other : j ≠ i)
    (theirs : t.buckets[j]? = some (.chain block' slot')) (low : slot' ≤ x) (high : x < slot' + (lists j).length) (same : block' = block) :
    ¬ (slot ≤ x ∧ x < slot + (lists i).length) := by
  subst same
  rcases stored.apart other theirs at' with after | before <;> omega

-- The free slot after a chain becomes a slot of it.
theorem Stored.extendAt (stored : Stored t lists) (at' : t.buckets[i]? = some (.chain block slot)) (free : t.store block (slot + (lists i).length) = .null)
    {words : Nat → Word} (changed : ∀ x, x < slot ∨ slot + (lists i).length < x → words x = t.store block x) (holds : Holds words slot list)
    (longer : list.length = (lists i).length + 1) (fits : slot + (lists i).length < storeWords) :
    Stored (setBucket i (.chain block slot)
      (if block = t.blocks - 1 ∧ slot + (lists i).length = t.currentAllocate then { setStore block words t with currentAllocate := t.currentAllocate + 1 }
        else setStore block words t)) (replaced lists i list) := by
  generalize grown : (if block = t.blocks - 1 ∧ slot + (lists i).length = t.currentAllocate then
    { setStore block words t with currentAllocate := t.currentAllocate + 1 } else setStore block words t) = t'
  obtain ⟨inside,first,several,-,-⟩ := stored.chainAt at'
  have bound : i < t.buckets.length := (List.getElem?_eq_some_iff.mp at').1
  have buckets : t'.buckets = t.buckets := by rw [← grown]; split <;> rfl
  have blocks : t'.blocks = t.blocks := by rw [← grown]; split <;> rfl
  have store : t'.store = (setStore block words t).store := by rw [← grown]; split <;> rfl
  have more : t.currentAllocate ≤ t'.currentAllocate := by
    rw [← grown]
    split
    · exact Nat.le_succ _
    · exact Nat.le_refl _
  have outside : ∀ j block' slot' : Nat, j ≠ i → t.buckets[j]? = some (.chain block' slot') → ∀ x, slot' ≤ x → x < slot' + (lists j).length →
      block' = block → x < slot ∨ slot + (lists i).length < x := by
    intro j block' slot' other theirs x low high same
    have apart := stored.inside at' other theirs low high same
    have taken := (stored.chainAt theirs).2.2.2.1.notNull low high
    have notFree : x ≠ slot + (lists i).length := by
      intro hit
      rw [hit,same] at taken
      exact taken free
    omega
  have last : block = t'.blocks - 1 → slot + list.length ≤ t'.currentAllocate := by
    intro same
    rw [blocks] at same
    have below := stored.below (same ▸ at')
    rw [← grown]
    split
    · rename_i bump
      show slot + list.length ≤ t.currentAllocate + 1
      omega
    · rename_i keep
      show slot + list.length ≤ t.currentAllocate
      have differ : slot + (lists i).length ≠ t.currentAllocate := fun hit => keep ⟨same,hit⟩
      omega
  refine stored.change bound buckets (Nat.le_of_eq blocks.symm) (fun j block' slot' other theirs x low high => ?_)
    (.chain (by omega) first (by omega) ?_ (by omega))
    (fun j block' slot' slot'' other chain theirs => ?_) (fun slot' chain => ?_) (fun j slot' other theirs => ?_)
    (Nat.le_trans stored.current more) fun block' within => ?_
  · rw [store]
    simp only [setStore]
    split
    · rename_i same
      rw [changed x (outside j block' slot' other theirs x low high same),same]
    · rfl
  · rw [store]
    simpa [setStore] using holds
  · cases chain
    obtain ⟨-,-,size,-,-⟩ := stored.chainAt theirs
    have whole := outside j block slot'' other theirs
    rcases stored.apart other theirs at' with after | before
    · exact .inr after
    · have start := whole slot'' (Nat.le_refl _) (by omega) rfl
      omega
  · cases chain
    exact last rfl
  · rw [blocks] at theirs
    exact Nat.le_trans (stored.below theirs) more
  · rw [blocks] at within
    by_cases same : block' = block
    · subst same
      rcases stored.ends within with ⟨full,all⟩ | ⟨one,cut⟩
      · have mine := all i slot at'
        have notEnd : slot + (lists i).length ≠ methodStoreEnd := by
          intro hit
          rw [hit] at free
          exact full free
        refine .inl ⟨?_,fun slot' chain => ?_,fun j slot' _ => all j slot'⟩
        · rw [store]
          simp only [setStore,if_true]
          rw [changed _ (.inr (by omega))]
          exact full
        · cases chain
          omega
      · refine .inr ⟨fun slot' chain => ?_,fun j slot' _ => one j slot',fun newest => ?_⟩
        · cases chain
          exact one i slot at'
        · rw [blocks] at newest
          have full := cut newest
          rw [← grown,if_neg (by omega)]
          exact full
    · have kept : t'.store block' methodStoreEnd = t.store block' methodStoreEnd := by
        rw [store]
        simp only [setStore,if_neg same]
      rcases stored.ends within with ⟨full,all⟩ | ⟨one,cut⟩
      · refine .inl ⟨kept ▸ full,fun slot' chain => ?_,fun j slot' _ => all j slot'⟩
        cases chain
        exact absurd rfl same
      · refine .inr ⟨fun slot' chain => ?_,fun j slot' _ => one j slot',fun newest => ?_⟩
        · cases chain
          exact absurd rfl same
        · rw [blocks] at newest
          rw [← grown,if_neg (fun bump => same (newest.trans bump.1.symm))]
          exact cut newest

theorem Stored.insert {array : Word} (stored : Stored t lists) (at' : t.buckets[i]? = some array) (used : array ≠ .null)
    (room : (lists i).length ≤ methodStoreSize) :
    ∃ word t' list', insertMetaDataArrayInHash m array t = some (word,t') ∧ list'.Perm (m::lists i) ∧ Kept t t' ∧
      Stored (setBucket i word t') (replaced lists i list') := by
  have bound : i < t.buckets.length := (List.getElem?_eq_some_iff.mp at').1
  have bucket := stored.buckets at'
  have moved : ∀ (n : Nat) (words : Nat → Word) (list : List Nat), 2 ≤ list.length → list.length ≤ methodStoreEnd → Holds words 0 list → n = list.length →
      ∃ word t', putWords n words (reserveSlots n t) = some (word,t') ∧ Kept t t' ∧ Stored (setBucket i word t') (replaced lists i list) := by
    intro n words list several most holds size
    subst size
    obtain ⟨reserved,kept,fits⟩ := @Stored.reserve t lists list.length stored
    obtain ⟨word,t',ran,kept',after⟩ := reserved.put (kept.buckets ▸ bound) several most holds fits
    exact ⟨word,t',ran,⟨kept'.buckets.trans kept.buckets,kept'.start.trans kept.start,kept'.top.trans kept.top⟩,after⟩
  cases array with
  | null => exact absurd rfl used
  | entry x => cases bucket
  | link => cases bucket
  | terminator => cases bucket
  | tagged x =>
      have only : lists i = [x] := by
        generalize lists i = list at bucket
        cases bucket
        rfl
      obtain ⟨word,t',ran,kept,after⟩ := moved 2 (fun k => if k = 0 then .entry m else .tagged x) [m,x] (Nat.le_refl _)
        (by simp [methodStoreEnd,methodStoreSize]) (by simp [Holds]) rfl
      exact ⟨word,t',[m,x],ran,only ▸ List.Perm.refl _,kept,after⟩
  | chain block slot =>
      obtain ⟨inside,first,several,holds,fits⟩ := stored.chainAt at'
      have sizes : storeWords = methodStoreSize + 2 ∧ methodStoreEnd = methodStoreSize + 1 := ⟨rfl,rfl⟩
      have short : slot + (lists i).length < storeWords := by
        rcases stored.ends inside with ⟨-,all⟩ | ⟨one,-⟩
        · have mine := all i slot at'
          omega
        · have mine := one i slot at'
          omega
      unfold insertMetaDataArrayInHash
      simp only
      rw [newElementAt holds (by omega)]
      simp only [Option.bind_eq_bind,Option.bind_some]
      rw [if_pos short]
      by_cases free : t.store block (slot + (lists i).length) = .null
      · rw [if_pos free]
        obtain ⟨list',perm,after⟩ := @Holds.extend _ _ m _ holds _ rfl
        refine ⟨_,_,list',rfl,perm,?_,?_⟩
        · split <;> exact ⟨rfl,rfl,rfl⟩
        · have grown := stored.extendAt at' free (fun x off => ?_) after (by simpa using perm.length_eq) short
          · exact grown
          · rw [if_neg (by omega),if_neg (by omega)]
      · rw [if_neg free,Nat.add_sub_cancel_left]
        have longer : Holds (fun k => if k = 0 then Word.entry m else t.store block (slot + (k - 1))) 0 (m::lists i) := by
          obtain ⟨head,rest,split⟩ := List.exists_cons_of_ne_nil (List.ne_nil_of_length_pos holds.nonempty)
          rw [split,Holds,← split]
          refine ⟨rfl,holds.shift fun j _ => ?_⟩
          rw [if_neg (by omega)]
          congr 1
          omega
        obtain ⟨word,t',ran,kept,after⟩ := moved ((lists i).length + 1) _ (m::lists i) (by simp only [List.length_cons]; omega)
          (by simp only [List.length_cons]; omega) longer rfl
        exact ⟨word,t',m::lists i,ran,List.Perm.refl _,kept,after⟩

-- The chain of a bucket has become shorter, or it has gone.
theorem Stored.shrinkAt (stored : Stored t lists) (at' : t.buckets[i]? = some (.chain block slot)) {words : Nat → Word}
    (changed : ∀ x, x < slot ∨ slot + (lists i).length ≤ x → words x = t.store block x) (own : Bucket (setStore block words t) word list)
    (shorter : ∀ block' slot', word = .chain block' slot' → block' = block ∧ slot' = slot ∧ list.length ≤ (lists i).length) :
    Stored (setBucket i word (setStore block words t)) (replaced lists i list) := by
  have bound : i < t.buckets.length := (List.getElem?_eq_some_iff.mp at').1
  have fits := (stored.chainAt at').2.2.2.2
  refine stored.change bound rfl (Nat.le_refl _) (fun j block' slot' other theirs x low high => ?_) own
    (fun j block' slot' slot'' other chain theirs => ?_) (fun slot' chain => ?_) (fun j slot' other theirs => stored.below theirs)
    stored.current fun block' within => ?_
  · simp only [setStore]
    split
    · rename_i same
      have apart := stored.inside at' other theirs low high same
      rw [changed x (by omega),same]
    · rfl
  · obtain ⟨rfl,rfl,size⟩ := shorter _ _ chain
    rcases stored.apart other theirs at' with after | before <;> omega
  · obtain ⟨same,rfl,size⟩ := shorter _ _ chain
    have newest : t.blocks - 1 = block := same
    have below := stored.below (newest ▸ at')
    show slot' + list.length ≤ t.currentAllocate
    omega
  · have old : block' < t.blocks := within
    rcases stored.ends old with ⟨full,all⟩ | ⟨one,cut⟩
    · refine .inl ⟨?_,fun slot' chain => ?_,fun j slot' _ => all j slot'⟩
      · simp only [setStore]
        split
        · rename_i same
          rw [changed _ (.inr (all i slot (same ▸ at'))),← same]
          exact full
        · exact full
      · obtain ⟨rfl,rfl,size⟩ := shorter _ _ chain
        exact Nat.le_trans (Nat.add_le_add_left size _) (all i slot' at')
    · refine .inr ⟨fun slot' chain => ?_,fun j slot' _ => one j slot',cut⟩
      obtain ⟨rfl,rfl,-⟩ := shorter _ _ chain
      exact one i slot' at'

theorem Stored.remove (stored : Stored t lists) (at' : t.buckets[i]? = some (.chain block slot)) (unique : (lists i).Nodup) (on : m ∈ lists i) :
    ∃ word words list', removeMetaDataArrayFromHash m block slot (t.store block) = some (.changed word words) ∧ (lists i).Perm (m::list') ∧
      Stored (setBucket i word (setStore block words t)) (replaced lists i list') := by
  obtain ⟨inside,first,several,holds,fits⟩ := stored.chainAt at'
  obtain ⟨words,list',ran,perm,frame,left⟩ := @removeAt _ _ m _ block holds several fits unique on
  have size : (lists i).length = list'.length + 1 := by simpa using perm.length_eq
  rcases @tidiedAt words slot list' block left with ⟨n,rfl,tidy⟩ | ⟨more,tidy⟩
  · rw [tidy] at ran
    refine ⟨_,_,[n],ran,perm,stored.shrinkAt at' (fun x off => ?_) (.single n) fun block' slot' chain => by cases chain⟩
    rw [if_neg (by omega)]
    exact frame x off
  · rw [tidy] at ran
    refine ⟨_,_,list',ran,perm,stored.shrinkAt at' frame (.chain inside first more ?_ (by omega)) fun block' slot' chain => ?_⟩
    · simpa [setStore] using left
    · cases chain
      exact ⟨rfl,rfl,by omega⟩

end

end OmrCompiler.MetaData
