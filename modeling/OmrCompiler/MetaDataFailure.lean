import OmrCompiler.MetaDataLookup

/-! Insertions while the allocator may have no memory for a method store: an
insertion that fails leaves what it has done to the buckets before. -/
namespace OmrCompiler.MetaData

/- In what follows stores is the number of method stores that the allocator still
hands out. -/

-- Room for n words, or null.
def reserveSlotsWithin (n stores : Nat) (t : Table) : Option (Nat × Table) :=
  if methodStoreEnd < t.currentAllocate + n then
    match stores with
    | 0 => none
    | stores + 1 => some (stores,allocateMethodStoreInHash t)
  else some (stores,t)

-- The inner result is null where there is no memory.
def insertMetaDataArrayWithin (dataToInsert : Nat) (array : Word) (stores : Nat) (t : Table) : Option (Option (Word × Nat × Table)) :=
  match array with
  | .tagged _ =>
      match reserveSlotsWithin 2 stores t with
      | none => some none
      | some (stores,t) => (putWords 2 (fun i => if i = 0 then .entry dataToInsert else array) t).map fun (word,t) => some (word,stores,t)
  | .chain block slot => do
      let words := t.store block
      let new ← newElement words (storeWords - slot) slot
      if new < storeWords then
        if words new = .null then
          let t := setStore block (fun x => if x = new then words (new - 1) else if x = new - 1 then .entry dataToInsert else words x) t
          some (some (array,stores,if block = t.blocks - 1 ∧ new = t.currentAllocate then { t with currentAllocate := t.currentAllocate + 1 } else t))
        else
          let chainLength := new - slot
          match reserveSlotsWithin (chainLength + 1) stores t with
          | none => some none
          | some (stores,t) =>
              (putWords (chainLength + 1) (fun i => if i = 0 then .entry dataToInsert else words (slot + (i - 1))) t).map fun (word,t) => some (word,stores,t)
      else none
  | _ => none

-- Whether the buckets from i on, n of them, have all been changed; with the stores that are left.
def insertBucketsWithin (dataToInsert : Nat) : Nat → Nat → Nat → Table → Option (Bool × Nat × Table)
  | 0,_,stores,t => some (true,stores,t)
  | n + 1,i,stores,t => do
      let bucket ← t.buckets[i]?
      match bucket with
      | .null => insertBucketsWithin dataToInsert n (i + 1) stores (setBucket i (.tagged dataToInsert) t)
      | array => do
          match ← insertMetaDataArrayWithin dataToInsert array stores t with
          | none => some (false,stores,t)
          | some (word,stores,t) => insertBucketsWithin dataToInsert n (i + 1) stores (setBucket i word t)

def insertMetaDataRangeWithin (dataToInsert startPC endPC stores : Nat) (t : Table) : Option (Bool × Table) :=
  if startPC < t.start ∨ t.top < endPC then some (false,t)
  else if startPC = endPC then some (false,t)
  else (insertBucketsWithin dataToInsert (visited startPC endPC t) (determineBucket startPC t) stores t).map fun r => (r.1,r.2.2)

def insertMetaDataWithin (extent : Nat → Extent) (metaData stores : Nat) (s : Manager) : Option (Bool × Manager) :=
  let e := extent metaData
  let s := updateCache e.startPC s
  if s.cachedHashTable then do
    let (success,table) ← insertMetaDataRangeWithin metaData e.startPC e.endPC stores s.table
    some (success,{ s with table := table })
  else some (false,s)

section
variable {t t' : Table} {lists lists' : Nat → List Nat} {extent : Nat → Extent} {i k n m pc start top stores left : Nat} {array : Word}

theorem reserveWithin : reserveSlotsWithin n stores t = none ∨ ∃ left, reserveSlotsWithin n stores t = some (left,reserveSlots n t) := by
  unfold reserveSlotsWithin reserveSlots
  split
  · cases stores with
    | zero => exact .inl rfl
    | succ stores => exact .inr ⟨stores,rfl⟩
  · exact .inr ⟨stores,rfl⟩

-- An insertion that gets its memory is the one that cannot fail.
theorem arrayWithin : insertMetaDataArrayWithin m array stores t = some none ∨
    ∃ left, insertMetaDataArrayWithin m array stores t = (insertMetaDataArrayInHash m array t).map fun (word,t) => some (word,left,t) := by
  cases array with
  | tagged x =>
      rcases @reserveWithin t 2 stores with out | ⟨left,got⟩
      · exact .inl (by simp only [insertMetaDataArrayWithin,out])
      · exact .inr ⟨left,by simp only [insertMetaDataArrayWithin,got,insertMetaDataArrayInHash]⟩
  | chain block slot =>
      unfold insertMetaDataArrayWithin insertMetaDataArrayInHash
      simp only
      cases newElement (t.store block) (storeWords - slot) slot with
      | none => exact .inr ⟨0,rfl⟩
      | some new =>
          simp only [Option.bind_eq_bind,Option.bind_some]
          by_cases short : new < storeWords
          · simp only [if_pos short]
            by_cases free : t.store block new = .null
            · simp only [if_pos free]
              exact .inr ⟨stores,rfl⟩
            · simp only [if_neg free]
              rcases @reserveWithin t (new - slot + 1) stores with out | ⟨left,got⟩
              · exact .inl (by simp only [out])
              · exact .inr ⟨left,by simp only [got]⟩
          · simp only [if_neg short]
            exact .inr ⟨0,rfl⟩
  | null => exact .inr ⟨0,rfl⟩
  | entry x => exact .inr ⟨0,rfl⟩
  | link => exact .inr ⟨0,rfl⟩
  | terminator => exact .inr ⟨0,rfl⟩

theorem usedBucket (at' : t.buckets[i]? = some array) (used : array ≠ .null) (n : Nat) :
    insertBucketsWithin m (n + 1) i stores t = (insertMetaDataArrayWithin m array stores t).bind fun r =>
      match r with
      | none => some (false,stores,t)
      | some (word,left,t') => insertBucketsWithin m n (i + 1) left (setBucket i word t') := by
  rw [insertBucketsWithin,at']
  cases array with
  | null => exact absurd rfl used
  | tagged x => rfl
  | chain block slot => rfl
  | entry x => rfl
  | link => rfl
  | terminator => rfl

-- One bucket: its chain outgrows a block, or there is no memory for it, or it gets one more.
theorem insertOneWithin (stored : Stored t lists) (bound : i < t.buckets.length) (stores : Nat) :
    (∀ n, insertBucketsWithin m (n + 1) i stores t = none) ∨ (∀ n, insertBucketsWithin m (n + 1) i stores t = some (false,stores,t)) ∨
    ∃ left t' lists', Widened m 1 i t lists t' lists' ∧ ∀ n, insertBucketsWithin m (n + 1) i stores t = insertBucketsWithin m n (i + 1) left t' := by
  obtain ⟨array,at'⟩ : ∃ array, t.buckets[i]? = some array := ⟨_,List.getElem?_eq_getElem bound⟩
  rcases Nat.lt_or_ge methodStoreSize (lists i).length with full | room
  · have used : array ≠ .null := by
      rintro rfl
      simp [stored.filled at'] at full
    have none := @Stored.insertFull t lists i m array stored at' full
    rcases @arrayWithin t m stores array with out | ⟨left,got⟩
    · exact .inr (.inl fun n => by rw [usedBucket at' used,out]; rfl)
    · exact .inl fun n => by rw [usedBucket at' used,got,none]; rfl
  · rcases @bucketWidened t lists i m array stored at' room with ⟨rfl,lists',widened⟩ | ⟨used,word,t',lists',ran,widened⟩
    · exact .inr (.inr ⟨stores,_,lists',widened,fun n => by simp [insertBucketsWithin,at']⟩)
    · rcases @arrayWithin t m stores array with out | ⟨left,got⟩
      · exact .inr (.inl fun n => by rw [usedBucket at' used,out]; rfl)
      · exact .inr (.inr ⟨left,_,lists',widened,fun n => by rw [usedBucket at' used,got,ran]; rfl⟩)

/- Memory runs out at the k-th bucket from i on: the k before it are changed, and
the store has no room for this one. -/
def RunsOut (m i k stores : Nat) (t : Table) : Prop :=
  ∃ left t', insertBucketsWithin m k i stores t = some (true,left,t') ∧ insertBucketsWithin m 1 (i + k) left t' = some (false,left,t')

-- A run over n buckets: it fails at the first bucket that runs out, or it changes all.
theorem bucketsWithin (stored : Stored t lists) (bound : i + n ≤ t.buckets.length) {success : Bool}
    (ran : insertBucketsWithin m n i stores t = some (success,left,t')) :
    ∃ k lists', Widened m k i t lists t' lists' ∧
      (success = true ∧ k = n ∨ success = false ∧ k < n ∧ insertBucketsWithin m k i stores t = some (true,left,t') ∧
        insertBucketsWithin m 1 (i + k) left t' = some (false,left,t')) := by
  induction n generalizing i t lists stores with
  | zero =>
      cases ran
      refine ⟨0,lists,⟨stored,rfl,rfl,rfl,fun j low high => ?_,fun _ _ => rfl⟩,.inl ⟨rfl,rfl⟩⟩
      omega
  | succ n ih =>
      rcases @insertOneWithin t lists i m stored (by omega) stores with none | out | ⟨left',t1,lists1,first,unfolds⟩
      · rw [none] at ran
        cases ran
      · rw [out] at ran
        cases ran
        refine ⟨0,lists,⟨stored,rfl,rfl,rfl,fun j low high => ?_,fun _ _ => rfl⟩,.inr ⟨rfl,Nat.succ_pos n,rfl,out 0⟩⟩
        omega
      · rw [unfolds] at ran
        obtain ⟨k,lists',rest,ends⟩ := ih first.stored (by have size := first.size; omega) ran
        refine ⟨k + 1,lists',first.trans rest,?_⟩
        rcases ends with ⟨success,rfl⟩ | ⟨fails,less,before,here⟩
        · exact .inl ⟨success,rfl⟩
        · refine .inr ⟨fails,Nat.succ_lt_succ less,(unfolds k).trans before,?_⟩
          rwa [show i + (k + 1) = i + 1 + k by omega]

-- The first bucket runs out, or memory runs out further on.
theorem runsOutStep (stored : Stored t lists) (bound : i < t.buckets.length) (out : RunsOut m i k stores t) :
    k = 0 ∧ (∀ n, insertBucketsWithin m (n + 1) i stores t = some (false,stores,t)) ∨
    ∃ n left t' lists', k = n + 1 ∧ Widened m 1 i t lists t' lists' ∧ RunsOut m (i + 1) n left t' ∧
      insertBucketsWithin m 1 i stores t = some (true,left,t') := by
  obtain ⟨left,last,before,here⟩ := out
  rcases @insertOneWithin t lists i m stored bound stores with none | fails | ⟨left',t1,lists1,first,unfolds⟩
  · cases k with
    | zero =>
        cases before
        rw [Nat.add_zero,none] at here
        cases here
    | succ k =>
        rw [none] at before
        cases before
  · cases k with
    | zero => exact .inl ⟨rfl,fails⟩
    | succ k =>
        rw [fails] at before
        cases before
  · cases k with
    | zero =>
        cases before
        rw [Nat.add_zero,unfolds] at here
        cases here
    | succ k =>
        rw [unfolds] at before
        rw [show i + (k + 1) = i + 1 + k by omega] at here
        exact .inr ⟨k,left',t1,lists1,rfl,first,⟨left,last,before,here⟩,unfolds 0⟩

-- The bucket at which memory runs out is determined.
theorem runsOutUnique {k' : Nat} (stored : Stored t lists) (bound : i + k < t.buckets.length)
    (out : RunsOut m i k stores t) (out' : RunsOut m i k' stores t) : k = k' := by
  induction k generalizing i t lists stores k' with
  | zero =>
      rcases runsOutStep stored (by omega) out with ⟨-,fails⟩ | ⟨n,_,_,_,more,-⟩
      · rcases runsOutStep stored (by omega) out' with ⟨none,-⟩ | ⟨n,left,t1,lists1,-,-,-,passes⟩
        · exact none.symm
        · rw [fails] at passes
          cases passes
      · cases more
  | succ k ih =>
      rcases runsOutStep stored (by omega) out with ⟨none,-⟩ | ⟨n,left,t1,lists1,more,first,rest,passes⟩
      · cases none
      · obtain rfl : k = n := Nat.succ.inj more
        rcases runsOutStep stored (by omega) out' with ⟨-,fails⟩ | ⟨n',left',t2,lists2,rfl,-,rest',passes'⟩
        · rw [fails] at passes
          cases passes
        · rw [passes] at passes'
          cases passes'
          have size := first.size
          rw [ih first.stored (by omega) rest rest']

variable {s s' : Manager}

/- A well-formed store, whatever the insertions that failed have left in it: what
shares a bucket is the same metadata or has no PC in common, and the last answer
is one of its bucket. -/
structure Holding (extent : Nat → Extent) (start top : Nat) (s : Manager) (lists : Nat → List Nat) : Prop where
  stored : Stored s.table lists
  size : s.table.buckets.length = (top - start) / bucketSize + 1
  startAt : s.table.start = start
  topAt : s.table.top = top
  apart : ∀ i < s.table.buckets.length, ∀ a ∈ lists i, ∀ b ∈ lists i, a = b ∨ Apart (extent a) (extent b)
  cached : 0 < s.cachedPC → s.cachedHashTable = (decide (start ≤ s.cachedPC) && decide (s.cachedPC < top))
  retrieved : ∀ x, s.retrievedMetaDataCache = some x →
    (start ≤ s.cachedPC ∧ s.cachedPC < top) ∧ x ∈ lists ((s.cachedPC - start) / bucketSize) ∧ (extent x).has s.cachedPC = true

-- The metadata of the bucket of a PC that covers it.
def Covers (extent : Nat → Extent) (start top : Nat) (lists : Nat → List Nat) (pc x : Nat) : Prop :=
  (start ≤ pc ∧ pc < top) ∧ x ∈ lists ((pc - start) / bucketSize) ∧ (extent x).has pc = true

theorem bucketInside (inside : start ≤ pc ∧ pc < top) : (pc - start) / bucketSize < (top - start) / bucketSize + 1 := by
  have below : (pc - start) / bucketSize ≤ (top - start) / bucketSize := Nat.div_le_div_right (by omega)
  omega

theorem Holding.unique {x y : Nat} (holding : Holding extent start top s lists) (first : Covers extent start top lists pc x)
    (second : Covers extent start top lists pc y) : x = y := by
  obtain ⟨inside,on,covers⟩ := first
  obtain ⟨-,on',covers'⟩ := second
  rcases holding.apart _ (by rw [holding.size]; exact bucketInside inside) x on y on' with same | apart
  · exact same
  · simp only [Extent.has,Bool.and_eq_true,decide_eq_true_eq] at covers covers'
    rcases apart with before | after <;> omega

theorem Holding.updateCache (holding : Holding extent start top s lists) : Holding extent start top (updateCache pc s) lists ∧
    (MetaData.updateCache pc s).table = s.table ∧ (MetaData.updateCache pc s).cachedPC = pc := by
  unfold MetaData.updateCache
  split
  · exact ⟨⟨holding.stored,holding.size,holding.startAt,holding.topAt,holding.apart,fun _ => by rw [holding.startAt,holding.topAt],fun x hit => by cases hit⟩,rfl,rfl⟩
  · rename_i same
    exact ⟨holding,rfl,(Decidable.not_not.mp same).symm⟩

theorem Holding.find (holding : Holding extent start top s lists) (positive : 0 < pc) :
    ∃ found, (findMetaDataForPC extent pc s).map Prod.fst = some found ∧ ∀ x, found = some x ↔ Covers extent start top lists pc x := by
  obtain ⟨after,-,at'⟩ := @Holding.updateCache lists extent pc start top s holding
  unfold findMetaDataForPC
  simp only
  generalize MetaData.updateCache pc s = u at after at'
  cases kept : u.retrievedMetaDataCache with
  | some x =>
      have hit := after.retrieved x kept
      rw [at'] at hit
      refine ⟨some x,rfl,fun y => ⟨fun same => ?_,fun covers => ?_⟩⟩
      · cases same
        exact hit
      · rw [after.unique hit covers]
  | none =>
      simp only
      have table := after.cached (by rw [at']; exact positive)
      rw [at'] at table
      by_cases inside : start ≤ pc ∧ pc < top
      · have bound := bucketInside inside
        have place : determineBucket pc u.table = (pc - start) / bucketSize := by rw [determineBucket,after.startAt]
        have searched := @Stored.find u.table lists extent pc after.stored (by rw [place,after.size]; exact bound)
          (by rw [after.startAt,after.topAt]; exact inside)
        rw [place] at searched
        rw [if_pos (by rw [table]; simpa using inside),searched]
        refine ⟨_,rfl,fun x => ⟨fun hit => ⟨inside,List.mem_of_find?_eq_some hit,by simpa using List.find?_some hit⟩,fun covers => ?_⟩⟩
        obtain ⟨y,hit⟩ : ∃ y, (lists ((pc - start) / bucketSize)).find? (fun m => (extent m).has pc) = some y :=
          Option.isSome_iff_exists.mp (List.find?_isSome.mpr ⟨x,covers.2.1,covers.2.2⟩)
        rw [hit,after.unique ⟨inside,List.mem_of_find?_eq_some hit,by simpa using List.find?_some hit⟩ covers]
      · rw [if_neg (by rw [table]; simpa using inside)]
        refine ⟨none,rfl,fun x => ?_⟩
        simp only [reduceCtorEq,false_iff]
        exact fun covers => inside covers.1

-- Every PC has the same answer in both states.
def SameAnswers (extent : Nat → Extent) (s s' : Manager) : Prop :=
  ∀ pc, 0 < pc → (findMetaDataForPC extent pc s').map Prod.fst = (findMetaDataForPC extent pc s).map Prod.fst

theorem sameCovers (holding : Holding extent start top s lists) (holding' : Holding extent start top s' lists') :
    SameAnswers extent s s' ↔ ∀ pc, 0 < pc → ∀ x, Covers extent start top lists' pc x ↔ Covers extent start top lists pc x := by
  refine forall₂_congr fun pc positive => ?_
  obtain ⟨found,before,answers⟩ := holding.find positive
  obtain ⟨found',after,answers'⟩ := holding'.find positive
  rw [before,after,Option.some.injEq]
  constructor
  · rintro rfl x
    rw [← answers',← answers]
  · intro same
    refine Option.ext fun x => ?_
    rw [answers',answers]
    exact same x

-- What the callers promise of a range: no PC of it belongs to other metadata.
def Disjoint (extent : Nat → Extent) (t : Table) (lists : Nat → List Nat) (m : Nat) : Prop :=
  ∀ i < t.buckets.length, ∀ n ∈ lists i, n = m ∨ Apart (extent m) (extent n)

-- The buckets that have been changed hold the metadata, the others what they held.
theorem Holding.widen (holding : Holding extent start top s lists) (disjoint : Disjoint extent s.table lists m)
    (widened : Widened m k i s.table lists t' lists') : Holding extent start top { s with table := t' } lists' := by
  have member : ∀ j n, n ∈ lists' j → n = m ∨ n ∈ lists j := by
    intro j n on
    by_cases changed : i ≤ j ∧ j < i + k
    · exact List.mem_cons.mp ((widened.wider j changed.1 changed.2).mem_iff.mp on)
    · rw [widened.others j (by omega)] at on
      exact .inr on
  have kept : ∀ j n, n ∈ lists j → n ∈ lists' j := by
    intro j n on
    by_cases changed : i ≤ j ∧ j < i + k
    · exact (widened.wider j changed.1 changed.2).mem_iff.mpr (List.mem_cons_of_mem m on)
    · rwa [widened.others j (by omega)]
  refine ⟨widened.stored,widened.size.trans holding.size,widened.start.trans holding.startAt,widened.top.trans holding.topAt,
    fun j inside a first b second => ?_,holding.cached,fun x hit => ?_⟩
  · have inside : j < s.table.buckets.length := by
      rw [← widened.size]
      exact inside
    rcases member j a first with rfl | old
    · rcases member j b second with rfl | old'
      · exact .inl rfl
      · exact (disjoint j inside b old').imp Eq.symm id
    · rcases member j b second with rfl | old'
      · exact (disjoint j inside a old).imp id Or.symm
      · exact holding.apart j inside a old b old'
  · obtain ⟨inside,on,covers⟩ := holding.retrieved x hit
    exact ⟨inside,kept _ x on,covers⟩

-- A bucket before the last one of a range has a PC of it.
theorem coveredPC (fits : Fits start top (extent m)) (low : ((extent m).startPC - start) / bucketSize ≤ i)
    (high : i < ((extent m).endPC - start) / bucketSize) :
    ∃ pc, (extent m).startPC ≤ pc ∧ (start ≤ pc ∧ pc < top) ∧ (pc - start) / bucketSize = i ∧ (extent m).has pc = true := by
  have first := fits.low
  have last := fits.high
  simp only [bucketSize] at *
  refine ⟨max (extent m).startPC (start + i * 512),by omega,by omega,by omega,?_⟩
  simp only [Extent.has,Bool.and_eq_true,decide_eq_true_eq]
  omega

/- The answers are the same exactly where the buckets that the loop has changed
before memory ran out had the metadata already. -/
theorem widenedAnswers (holding : Holding extent start top s lists) (positive : 0 < (extent m).startPC) (fits : Fits start top (extent m)) (first : i = determineBucket (extent m).startPC s.table)
    (short : k < visited (extent m).startPC (extent m).endPC s.table) (widened : Widened m k i s.table lists t' lists') :
    (∀ pc, 0 < pc → ∀ x, Covers extent start top lists' pc x ↔ Covers extent start top lists pc x) ↔ ∀ j < k, m ∈ lists (i + j) := by
  have place : i = ((extent m).startPC - start) / bucketSize := by rw [first,determineBucket,holding.startAt]
  simp only [visited,determineBucket,holding.startAt,← place] at short
  constructor
  · intro same j less
    obtain ⟨pc,low,inside,bucket,covers⟩ := @coveredPC extent (i + j) m start top fits (by omega) (by omega)
    have new : Covers extent start top lists' pc m := by
      refine ⟨inside,?_,covers⟩
      rw [bucket]
      exact (widened.wider (i + j) (by omega) (by omega)).mem_iff.mpr List.mem_cons_self
    have old := ((same pc (by omega) m).mp new).2.1
    rwa [bucket] at old
  · intro held pc _ x
    refine and_congr Iff.rfl (and_congr ?_ Iff.rfl)
    generalize (pc - start) / bucketSize = b
    by_cases changed : i ≤ b ∧ b < i + k
    · rw [(widened.wider b changed.1 changed.2).mem_iff,List.mem_cons]
      refine ⟨fun either => either.elim (fun same => ?_) id,.inr⟩
      have on := held (b - i) (by omega)
      rwa [show i + (b - i) = b by omega,← same] at on
    · rw [widened.others b (by omega)]

theorem keptAnswers (holding : Holding extent start top s lists) : SameAnswers extent s (MetaData.updateCache pc s) :=
  (sameCovers holding (@Holding.updateCache lists extent pc start top s holding).1).mpr fun _ _ _ => Iff.rfl

theorem visitedInside (holding : Holding extent start top s lists) {startPC endPC : Nat} (inside : start ≤ startPC ∧ startPC < top) (high : endPC ≤ top) :
    determineBucket startPC s.table + visited startPC endPC s.table ≤ s.table.buckets.length := by
  have first := bucketInside inside
  have last : (endPC - start) / bucketSize ≤ (top - start) / bucketSize := Nat.div_le_div_right (by omega)
  rw [holding.size]
  simp only [visited,determineBucket,holding.startAt]
  omega

/- What an insertion has done: nothing, for a range that is not one of the table, or
a number of buckets from the first on have one more. -/
theorem insertionShape {success : Bool} (holding : Holding extent start top s lists) (positive : 0 < (extent m).startPC)
    (ran : insertMetaDataWithin extent m stores s = some (success,s')) :
    ∃ t', s' = { MetaData.updateCache (extent m).startPC s with table := t' } ∧
      (t' = s.table ∧ success = false ∧ ¬Fits start top (extent m) ∨
      (start ≤ (extent m).startPC ∧ (extent m).endPC ≤ top) ∧ ∃ k lists', Widened m k (determineBucket (extent m).startPC s.table) s.table lists t' lists' ∧
        determineBucket (extent m).startPC s.table + k ≤ s.table.buckets.length ∧
        (success = true ∨ k < visited (extent m).startPC (extent m).endPC s.table ∧ determineBucket (extent m).startPC s.table + k < s.table.buckets.length ∧
          RunsOut m (determineBucket (extent m).startPC s.table) k stores s.table)) := by
  obtain ⟨holding1,table,at'⟩ := @Holding.updateCache lists extent (extent m).startPC start top s holding
  unfold insertMetaDataWithin at ran
  simp only at ran
  generalize MetaData.updateCache (extent m).startPC s = u at ran holding1 table at'
  have inside := holding1.cached (by rw [at']; exact positive)
  rw [at'] at inside
  cases hash : u.cachedHashTable with
  | false =>
      rw [hash,if_neg (by decide)] at ran
      cases ran
      refine ⟨s.table,by rw [← table],.inl ⟨rfl,rfl,fun fits => ?_⟩⟩
      have low := fits.low
      have nonempty := fits.nonempty
      have high := fits.high
      rw [hash] at inside
      simp only [Bool.false_eq,Bool.and_eq_false_iff,decide_eq_false_iff_not] at inside
      omega
  | true =>
      rw [if_pos hash] at ran
      simp only [Option.bind_eq_bind,Option.bind_eq_some_iff] at ran
      obtain ⟨⟨success,t'⟩,ranged,result⟩ := ran
      obtain ⟨rfl,rfl⟩ := Prod.mk.inj (Option.some.inj result)
      refine ⟨t',rfl,?_⟩
      simp only
      unfold insertMetaDataRangeWithin at ranged
      rw [table,holding.startAt,holding.topAt] at ranged
      split at ranged
      · next outside =>
          obtain ⟨rfl,rfl⟩ := Prod.mk.inj (Option.some.inj ranged)
          exact .inl ⟨rfl,rfl,fun fits => absurd outside (by have low := fits.low; have high := fits.high; omega)⟩
      · next within =>
          split at ranged
          · next empty =>
              obtain ⟨rfl,rfl⟩ := Prod.mk.inj (Option.some.inj ranged)
              exact .inl ⟨rfl,rfl,fun fits => absurd empty (Nat.ne_of_lt fits.nonempty)⟩
          · next some =>
              obtain ⟨⟨success,left,last⟩,run,result⟩ := Option.map_eq_some_iff.mp ranged
              obtain ⟨rfl,rfl⟩ := Prod.mk.inj result
              rw [hash] at inside
              simp only [Bool.true_eq,Bool.and_eq_true,decide_eq_true_eq] at inside
              have bound := visitedInside holding inside (show (extent m).endPC ≤ top by omega)
              obtain ⟨k,lists',widened,⟨yes,rfl⟩ | ⟨-,short,before,here⟩⟩ := bucketsWithin holding.stored bound run
              · exact .inr ⟨by omega,_,lists',widened,bound,.inl yes⟩
              · exact .inr ⟨by omega,k,lists',widened,by omega,.inr ⟨short,by omega,left,last,before,here⟩⟩

/- A failed insertion leaves every answer as it was exactly where memory ran out
at the first bucket of the range that did not have the metadata, or before it. -/
theorem failedInsertion (holding : Holding extent start top s lists) (positive : 0 < (extent m).startPC)
    (disjoint : Disjoint extent s.table lists m) (failed : insertMetaDataWithin extent m stores s = some (false,s')) :
    SameAnswers extent s s' ↔ (Fits start top (extent m) →
      ∀ k, RunsOut m (determineBucket (extent m).startPC s.table) k stores s.table → ∀ j < k, m ∈ lists (determineBucket (extent m).startPC s.table + j)) := by
  obtain ⟨holding1,table,-⟩ := @Holding.updateCache lists extent (extent m).startPC start top s holding
  obtain ⟨t',rfl,⟨rfl,-,outside⟩ | ⟨inside,k,lists',widened,-,yes | ⟨short,bound,out⟩⟩⟩ := insertionShape holding positive failed
  · refine ⟨fun _ fits => absurd fits outside,fun _ => ?_⟩
    rw [← table]
    exact keptAnswers holding
  · cases yes
  · have holding' : Holding extent start top { MetaData.updateCache (extent m).startPC s with table := t' } lists' := by
      rw [← table] at disjoint widened
      exact holding1.widen disjoint widened
    rw [sameCovers holding holding']
    by_cases fits : Fits start top (extent m)
    · rw [widenedAnswers holding positive fits rfl short widened]
      refine ⟨fun held _ k' out' => ?_,fun held => held fits k out⟩
      rwa [runsOutUnique holding.stored bound out out'] at held
    · refine ⟨fun _ whole => absurd whole fits,fun _ pc _ x => ?_⟩
      -- A range that ends before it starts changes no bucket before the one that fails.
      have backwards : (extent m).endPC ≤ (extent m).startPC := Nat.le_of_not_lt fun less => fits ⟨inside.1,less,inside.2⟩
      have order : ((extent m).endPC - start) / bucketSize ≤ ((extent m).startPC - start) / bucketSize := Nat.div_le_div_right (by omega)
      have none : k = 0 := by
        simp only [visited,determineBucket,holding.startAt] at short
        omega
      rw [Covers,widened.others _ (by omega)]
      rfl

-- The states of runs without failures are among those that the theorem is about.
theorem Valid.holding {inserted : List Nat} (valid : Valid extent start top s inserted) :
    ∃ lists, Holding extent start top s lists ∧ ∀ i < s.table.buckets.length, ∀ n, n ∈ lists i → n ∈ inserted := by
  obtain ⟨lists,stored,perm⟩ := valid.table.stored
  have among : ∀ i < s.table.buckets.length, ∀ n, n ∈ lists i → n ∈ inserted := by
    intro i inside n on
    exact List.mem_of_mem_filter ((perm i inside).mem_iff.mp on)
  have size := valid.table.size
  rw [valid.startAt,valid.topAt] at size
  refine ⟨lists,⟨stored,size,valid.startAt,valid.topAt,fun i inside a first b second => ?_,valid.cached,fun x hit => ?_⟩,among⟩
  · by_cases same : a = b
    · exact .inl same
    · exact .inr (valid.table.apart.forall (among i inside a first) (among i inside b second) same)
  · obtain ⟨on,covers⟩ := valid.retrieved x hit
    have fits := valid.table.fits x on
    have low := fits.low
    have high := fits.high
    rw [valid.startAt] at low
    rw [valid.topAt] at high
    have inside : start ≤ s.cachedPC ∧ s.cachedPC < top := by
      simp only [Extent.has,Bool.and_eq_true,decide_eq_true_eq] at covers
      omega
    refine ⟨inside,?_,covers⟩
    rw [(perm _ (by rw [size]; exact bucketInside inside)).mem_iff,List.mem_filter,valid.startAt]
    exact ⟨on,touchesPC covers⟩

end

-- Methods of one byte, and method 1000 with a range from the second bucket into the third.
def ranges (m : Nat) : Extent := if m = 1000 then ⟨4608,5130⟩ else bytes m

-- The chain 1, 2, .., n, 0 in the first bucket.
def crowdedWords (n x : Nat) : Word :=
  if x = 0 then .link else if x ≤ n then .entry x else if x = n + 1 then .tagged 0 else if x = methodStoreEnd then .terminator else .null

def crowdedTable (n : Nat) : Table :=
  ⟨4096,8192,[.chain 0 1,.null,.null,.null,.null,.null,.null,.null,.null],1,fun block => if block = 0 then crowdedWords n else fun _ => .null,n + 2⟩

def crowded (n : Nat) : Manager := ⟨crowdedTable n,4096 + n,true,none⟩

theorem crowdedHolds (n x k : Nat) (ends : x + k = n + 1) (positive : 0 < x) : Holds (crowdedWords n) x (List.range' x k ++ [0]) := by
  induction k generalizing x with
  | zero =>
      obtain rfl : x = n + 1 := by omega
      simp [Holds,crowdedWords]
  | succ k ih =>
      have rest := ih (x + 1) (by omega) (by omega)
      have first : crowdedWords n x = .entry x := by
        rw [crowdedWords,if_neg (by omega),if_pos (by omega)]
      obtain ⟨y,tail,split⟩ := List.exists_cons_of_ne_nil (List.ne_nil_of_length_pos rest.nonempty)
      rw [List.range'_succ,List.cons_append,split]
      rw [split] at rest
      exact ⟨first,rest⟩

theorem rangesBytes {m : Nat} (small : m < 1000) : ranges m = bytes m := if_neg (by omega)

theorem crowdedInsert {n : Nat} (positive : 1 ≤ n) (room : n + 1 ≤ 254) : insertMetaData ranges (n + 1) (crowded n) = some (true,crowded (n + 1)) := by
  have chain := crowdedHolds n 1 n (by omega) (by omega)
  have new := @newElementAt _ 1 (storeWords - 1) _ chain (by simp [storeWords,methodStoreSize]; omega)
  simp only [List.length_append,List.length_range',List.length_singleton] at new
  have free : crowdedWords n (1 + (n + 1)) = .null := by
    have most : methodStoreEnd = 257 := rfl
    rw [crowdedWords,if_neg (by omega),if_neg (by omega),if_neg (by omega),if_neg (by omega)]
  have first : determineBucket (4096 + (n + 1)) (crowdedTable n) = 0 := Nat.div_eq_of_lt (show 4096 + (n + 1) - 4096 < 512 by omega)
  have last : determineBucket (4096 + (n + 1) + 1) (crowdedTable n) = 0 := Nat.div_eq_of_lt (show 4096 + (n + 1) + 1 - 4096 < 512 by omega)
  have visits : visited (4096 + (n + 1)) (4096 + (n + 1) + 1) (crowdedTable n) = 1 := by rw [visited,first,last]; rfl
  have array : insertMetaDataArrayInHash (n + 1) (.chain 0 1) (crowdedTable n) = some (.chain 0 1,
      { setStore 0 (fun x => if x = 1 + (n + 1) then crowdedWords n (1 + (n + 1) - 1) else if x = 1 + (n + 1) - 1 then .entry (n + 1) else crowdedWords n x)
        (crowdedTable n) with currentAllocate := n + 3 }) := by
    have words : (crowdedTable n).store 0 = crowdedWords n := rfl
    have short : 1 + (n + 1) < storeWords := by
      have most : storeWords = 258 := rfl
      omega
    simp only [insertMetaDataArrayInHash,words,new,Option.bind_eq_bind,Option.bind_some,if_pos short,if_pos free]
    rw [if_pos ⟨rfl,show 1 + (n + 1) = n + 2 by omega⟩]
    rfl
  have same : { setStore 0 (fun x => if x = 1 + (n + 1) then crowdedWords n (1 + (n + 1) - 1) else if x = 1 + (n + 1) - 1 then .entry (n + 1) else crowdedWords n x)
        (crowdedTable n) with currentAllocate := n + 3 } = crowdedTable (n + 1) := by
    have inner : (fun x => if x = 1 + (n + 1) then crowdedWords n (1 + (n + 1) - 1) else if x = 1 + (n + 1) - 1 then .entry (n + 1) else crowdedWords n x) =
        crowdedWords (n + 1) := by
      funext x
      simp only [crowdedWords]
      grind
    have outer : (fun block => if block = 0 then crowdedWords (n + 1) else (crowdedTable n).store block) = (crowdedTable (n + 1)).store := by
      funext block
      simp only [crowdedTable]
      split <;> rfl
    rw [inner,setStore,outer]
    rfl
  have range : insertMetaDataRangeInHash (n + 1) (4096 + (n + 1)) (4096 + (n + 1) + 1) (crowdedTable n) = some (true,crowdedTable (n + 1)) := by
    have inside : ¬(4096 + (n + 1) < (crowdedTable n).start ∨ (crowdedTable n).top < 4096 + (n + 1) + 1) := by
      simp only [crowdedTable]
      omega
    have bucket : (crowdedTable n).buckets[0]? = some (.chain 0 1) := rfl
    rw [insertMetaDataRangeInHash,if_neg inside,if_neg (by omega),visits,first]
    simp only [insertBuckets,bucket,Option.bind_eq_bind,Option.bind_some,array,same,Option.map_some]
    rfl
  have moved : updateCache (4096 + (n + 1)) (crowded n) = ⟨crowdedTable n,4096 + (n + 1),true,none⟩ := by
    have other : 4096 + (n + 1) ≠ (crowded n).cachedPC := show 4096 + (n + 1) ≠ 4096 + n by omega
    have inside : (decide (4096 ≤ 4096 + (n + 1)) && decide (4096 + (n + 1) < 8192)) = true := by
      simp only [Bool.and_eq_true,decide_eq_true_eq]
      omega
    rw [updateCache,if_pos other]
    exact congrArg (fun hash => Manager.mk (crowdedTable n) (4096 + (n + 1)) hash none) inside
  have place : ranges (n + 1) = ⟨4096 + (n + 1),4096 + (n + 1) + 1⟩ := rangesBytes (by omega)
  simp only [insertMetaData,place,moved,if_true,range,Option.bind_eq_bind,Option.bind_some]
  rfl

theorem crowdedAdmissible {n : Nat} (small : n < 1000) : Admissible ranges 4096 8192 (List.range n).reverse n := by
  have place := rangesBytes small
  obtain ⟨positive,fits,apart⟩ := @bytesAdmissible n (by omega)
  refine ⟨by rw [place]; exact positive,by rw [place]; exact fits,fun k on => ?_⟩
  have less : k < 1000 := by
    simp only [List.mem_reverse,List.mem_range] at on
    omega
  rw [place,rangesBytes less]
  exact apart k on

theorem crowdedFirst : Reached ranges 4096 8192 (crowded 1) [1,0] := by
  have zero : insertMetaData ranges 0 (addCodeCache 4096 8192) =
      some (true,⟨setBucket 0 (.tagged 0) (addCodeCache 4096 8192).table,4096,true,none⟩) := rfl
  have one := Reached.insert (Reached.insert .add (@crowdedAdmissible 0 (by omega)) zero) (@crowdedAdmissible 1 (by omega))
    (show _ = some (true,_) from rfl)
  have same : (fun block => if block = 0 then fun slot => if 1 ≤ slot ∧ slot < 1 + 2 then if slot - 1 = 0 then Word.entry 1 else .tagged 0 else newBlock slot
      else (addCodeCache 4096 8192).table.store block) = (crowdedTable 1).store := by
    funext block
    simp only [crowdedTable]
    split
    · funext x
      simp only [newBlock,crowdedWords]
      grind
    · next other => exact if_neg other
  have final := congrArg (fun store => Manager.mk ⟨4096,8192,(crowdedTable 1).buckets,1,store,3⟩ 4097 true none) same
  rw [show crowded 1 = Manager.mk ⟨4096,8192,(crowdedTable 1).buckets,1,(crowdedTable 1).store,3⟩ 4097 true none from rfl,← final]
  exact one

theorem crowdedReached {n : Nat} (positive : 1 ≤ n) (most : n ≤ 254) : Reached ranges 4096 8192 (crowded n) (List.range (n + 1)).reverse := by
  induction n with
  | zero => omega
  | succ n ih =>
      rcases Nat.eq_zero_or_pos n with rfl | some
      · exact crowdedFirst
      · have after := Reached.insert (ih some (by omega)) (@crowdedAdmissible (n + 1) (by omega)) (crowdedInsert some most)
        rwa [if_pos rfl,show (n + 1)::(List.range (n + 1)).reverse = (List.range (n + 1 + 1)).reverse by simp [List.range_succ]] at after

-- The third bucket has a method too, so that the range of method 1000 needs two more slots there.
def blocked : Manager := ⟨setBucket 2 (.tagged 1100) (crowdedTable 254),5196,true,none⟩

theorem blockedReached : Reached ranges 4096 8192 blocked (1100::(List.range 255).reverse) := by
  have ok : Admissible ranges 4096 8192 (List.range 255).reverse 1100 := by
    refine ⟨by decide,⟨by decide,by decide,by decide⟩,fun k on => .inr ?_⟩
    have less : k < 255 := by simpa using on
    rw [rangesBytes (by omega)]
    show 4096 + k + 1 ≤ 5196
    omega
  exact Reached.insert (@crowdedReached 254 (by omega) (by omega)) ok (show insertMetaData ranges 1100 (crowded 254) = some (true,blocked) from rfl)

theorem blockedAdmissible : Admissible ranges 4096 8192 (1100::(List.range 255).reverse) 1000 := by
  refine ⟨by decide,⟨by decide,by decide,by decide⟩,fun k on => ?_⟩
  rcases List.mem_cons.mp on with rfl | on
  · exact .inl (by decide)
  · have less : k < 255 := by simpa using on
    refine .inr ?_
    rw [rangesBytes (by omega)]
    show 4096 + k + 1 ≤ 4608
    omega

theorem failedInsertionSample : ∃ s', insertMetaDataWithin ranges 1200 0 blocked = some (false,s') ∧ SameAnswers ranges blocked s' := by
  obtain ⟨lists,holding,among⟩ := blockedReached.valid.holding
  have disjoint : Disjoint ranges blocked.table lists 1200 := by
    refine fun i inside n on => .inr (.inr ?_)
    rcases List.mem_cons.mp (among i inside n on) with rfl | old
    · decide
    · have less : n < 255 := by simpa using old
      rw [rangesBytes (by omega)]
      show 4096 + n + 1 ≤ 5296
      omega
  have failed : ∃ s', insertMetaDataWithin ranges 1200 0 blocked = some (false,s') := ⟨_,rfl⟩
  obtain ⟨s',ran⟩ := failed
  refine ⟨s',ran,(failedInsertion holding (by decide) disjoint ran).mpr fun _ k out j less => ?_⟩
  have first : RunsOut 1200 (determineBucket (ranges 1200).startPC blocked.table) 0 0 blocked.table := ⟨0,blocked.table,rfl,rfl⟩
  have none := runsOutUnique holding.stored (show determineBucket (ranges 1200).startPC blocked.table + 0 < blocked.table.buckets.length by decide) first out
  omega

-- The insertion fails, and the PCs of the second bucket have got the metadata.
theorem failedInsertionStays : ∃ s inserted, Reached ranges 4096 8192 s inserted ∧ Admissible ranges 4096 8192 inserted 1000 ∧
    ∃ s', insertMetaDataWithin ranges 1000 0 s = some (false,s') ∧ (findMetaDataForPC ranges 4608 s).map Prod.fst = some none ∧
      (findMetaDataForPC ranges 4608 s').map Prod.fst = some (some 1000) ∧ ¬SameAnswers ranges s s' := by
  refine ⟨blocked,_,blockedReached,blockedAdmissible,_,rfl,rfl,rfl,fun same => ?_⟩
  cases (show some (some 1000) = some none from same 4608 (by decide))

end OmrCompiler.MetaData
