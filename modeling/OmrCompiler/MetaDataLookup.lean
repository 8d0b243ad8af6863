import Mathlib.Data.List.Pairwise
import OmrCompiler.MetaDataStore

/-! What a lookup by PC finds in any run of insertions, removals and lookups. -/
namespace OmrCompiler.MetaData

section
variable {t t' : Table} {lists lists' : Nat → List Nat} {extent : Nat → Extent} {inserted : List Nat} {i n m pc start top : Nat}
  {array : Word}

theorem Stored.filled (stored : Stored t lists) (at' : t.buckets[i]? = some .null) : lists i = [] := by
  have bucket := stored.buckets at'
  generalize lists i = list at bucket
  cases bucket
  rfl

-- A bucket that takes one more: it has at most methodStoreSize metadata.
theorem Stored.insertFull (stored : Stored t lists) (at' : t.buckets[i]? = some array) (full : methodStoreSize < (lists i).length) :
    insertMetaDataArrayInHash m array t = none := by
  have bucket := stored.buckets at'
  cases array with
  | null => rfl
  | entry x => rfl
  | link => rfl
  | terminator => rfl
  | tagged x =>
      generalize lists i = list at bucket full
      cases bucket
      simp [methodStoreSize] at full
  | chain block slot =>
      obtain ⟨-,first,-,holds,fits⟩ := stored.chainAt at'
      unfold insertMetaDataArrayInHash
      simp only
      rw [newElementAt holds (by omega)]
      simp only [Option.bind_eq_bind,Option.bind_some]
      rw [if_neg]
      have sizes : storeWords = methodStoreSize + 2 := rfl
      omega

/- The buckets from i on, n of them, have one more each. -/
structure Widened (m n i : Nat) (t : Table) (lists : Nat → List Nat) (t' : Table) (lists' : Nat → List Nat) : Prop where
  stored : Stored t' lists'
  start : t'.start = t.start
  top : t'.top = t.top
  size : t'.buckets.length = t.buckets.length
  wider : ∀ j, i ≤ j → j < i + n → (lists' j).Perm (m::lists j)
  others : ∀ j, j < i ∨ i + n ≤ j → lists' j = lists j

-- A bucket gets one more: it was empty, or its word is replaced.
theorem bucketWidened (stored : Stored t lists) (at' : t.buckets[i]? = some array) (room : (lists i).length ≤ methodStoreSize) :
    array = .null ∧ (∃ lists', Widened m 1 i t lists (setBucket i (.tagged m) t) lists') ∨
    array ≠ .null ∧ ∃ word t' lists', insertMetaDataArrayInHash m array t = some (word,t') ∧ Widened m 1 i t lists (setBucket i word t') lists' := by
  have bound : i < t.buckets.length := (List.getElem?_eq_some_iff.mp at').1
  have here : ∀ list j, i ≤ j → j < i + 1 → replaced lists i list j = list ∧ j = i := fun list j low high => by
    have same : j = i := by omega
    exact ⟨if_pos same,same⟩
  have there : ∀ list j, j < i ∨ i + 1 ≤ j → replaced lists i list j = lists j := fun list j off => if_neg (by omega)
  by_cases empty : array = .null
  · subst empty
    refine .inl ⟨rfl,replaced lists i [m],⟨?_,rfl,rfl,by simp [setBucket],fun j low high => ?_,there [m]⟩⟩
    · exact stored.plain bound (.single m) fun block slot chain => by cases chain
    · rw [(here [m] j low high).1,(here [m] j low high).2,stored.filled at']
  · obtain ⟨word,t',list',ran,perm,kept,after⟩ := @Stored.insert t lists i m array stored at' empty room
    refine .inr ⟨empty,word,t',replaced lists i list',ran,⟨after,kept.start,kept.top,by simp [setBucket,kept.buckets],fun j low high => ?_,there list'⟩⟩
    rw [(here list' j low high).1,(here list' j low high).2]
    exact perm

-- Only a tagged pointer and a chain can be extended.
theorem extendable {word : Word} (ran : insertMetaDataArrayInHash m array t = some (word,t')) : (∃ x, array = .tagged x) ∨ ∃ block slot, array = .chain block slot := by
  cases array with
  | tagged x => exact .inl ⟨x,rfl⟩
  | chain block slot => exact .inr ⟨block,slot,rfl⟩
  | null => cases ran
  | entry x => cases ran
  | link => cases ran
  | terminator => cases ran

theorem insertOne (stored : Stored t lists) (bound : i < t.buckets.length) (room : (lists i).length ≤ methodStoreSize) :
    ∃ t' lists', Widened m 1 i t lists t' lists' ∧ ∀ n, insertBuckets m (n + 1) i t = insertBuckets m n (i + 1) t' := by
  obtain ⟨array,at'⟩ : ∃ array, t.buckets[i]? = some array := ⟨_,List.getElem?_eq_getElem bound⟩
  rcases @bucketWidened t lists i m array stored at' room with ⟨rfl,lists',widened⟩ | ⟨used,word,t',lists',ran,widened⟩
  · exact ⟨_,lists',widened,fun n => by simp [insertBuckets,at']⟩
  · refine ⟨_,lists',widened,fun n => ?_⟩
    rw [insertBuckets,at']
    rcases extendable ran with ⟨x,rfl⟩ | ⟨block,slot,rfl⟩
    · simp only [Option.bind_eq_bind,Option.bind_some,ran]
    · simp only [Option.bind_eq_bind,Option.bind_some,ran]

theorem Widened.trans {t'' : Table} {lists'' : Nat → List Nat} (first : Widened m 1 i t lists t' lists') (rest : Widened m n (i + 1) t' lists' t'' lists'') :
    Widened m (n + 1) i t lists t'' lists'' := by
  refine ⟨rest.stored,rest.start.trans first.start,rest.top.trans first.top,rest.size.trans first.size,fun j low high => ?_,fun j off => ?_⟩
  · by_cases here : j = i
    · rw [rest.others j (by omega)]
      exact first.wider j low (by omega)
    · have later := rest.wider j (by omega) (by omega)
      rwa [first.others j (by omega)] at later
  · rw [rest.others j (by omega),first.others j (by omega)]

theorem insertBucketsWiden (stored : Stored t lists) (bound : i + n ≤ t.buckets.length)
    (room : ∀ j, i ≤ j → j < i + n → (lists j).length ≤ methodStoreSize) :
    ∃ t' lists', insertBuckets m n i t = some t' ∧ Widened m n i t lists t' lists' := by
  induction n generalizing i t lists with
  | zero =>
      refine ⟨t,lists,rfl,⟨stored,rfl,rfl,rfl,fun j low high => ?_,fun _ _ => rfl⟩⟩
      omega
  | succ n ih =>
      obtain ⟨t',lists',first,unfolds⟩ := @insertOne t lists i m stored (by omega) (room i (Nat.le_refl _) (by omega))
      have size := first.size
      obtain ⟨t'',lists'',ran,rest⟩ := ih first.stored (show i + 1 + n ≤ t'.buckets.length by omega) fun j low high => by
        rw [first.others j (by omega)]
        exact room j (by omega) (by omega)
      exact ⟨t'',lists'',(unfolds n).trans ran,first.trans rest⟩

theorem insertBucketsFull {j : Nat} (stored : Stored t lists) (bound : i + n ≤ t.buckets.length) (low : i ≤ j) (high : j < i + n)
    (full : methodStoreSize < (lists j).length) : insertBuckets m n i t = none := by
  induction n generalizing i t lists with
  | zero => omega
  | succ n ih =>
      by_cases room : (lists i).length ≤ methodStoreSize
      · obtain ⟨t',lists',first,unfolds⟩ := @insertOne t lists i m stored (by omega) room
        have size := first.size
        have later : i ≠ j := by
          intro same
          subst same
          omega
        rw [unfolds n]
        refine ih first.stored (by omega) (by omega) (by omega) ?_
        rw [first.others j (by omega)]
        exact full
      · obtain ⟨array,at'⟩ : ∃ array, t.buckets[i]? = some array := ⟨_,List.getElem?_eq_getElem (show i < t.buckets.length by omega)⟩
        have none := @Stored.insertFull t lists i m array stored at' (by omega)
        rw [insertBuckets,at']
        simp only [Option.bind_eq_bind,Option.bind_some]
        cases array with
        | null =>
            have empty := stored.filled at'
            simp [empty] at room
        | entry x => rfl
        | link => rfl
        | terminator => rfl
        | tagged x => simp only [none,Option.bind_none]
        | chain block slot => simp only [none,Option.bind_none]

-- The buckets from i on, n of them, have one less each.
structure Narrowed (m n i : Nat) (t : Table) (lists : Nat → List Nat) (t' : Table) (lists' : Nat → List Nat) : Prop where
  stored : Stored t' lists'
  start : t'.start = t.start
  top : t'.top = t.top
  size : t'.buckets.length = t.buckets.length
  narrower : ∀ j, i ≤ j → j < i + n → (lists j).Perm (m::lists' j)
  others : ∀ j, j < i ∨ i + n ≤ j → lists' j = lists j

theorem removeOne (stored : Stored t lists) (bound : i < t.buckets.length) (unique : (lists i).Nodup) (on : m ∈ lists i) :
    ∃ t' lists', Narrowed m 1 i t lists t' lists' ∧ ∀ n, removeBuckets m (n + 1) i t = removeBuckets m n (i + 1) t' := by
  obtain ⟨word,at'⟩ : ∃ word, t.buckets[i]? = some word := ⟨_,List.getElem?_eq_getElem bound⟩
  have here : ∀ list j, i ≤ j → j < i + 1 → replaced lists i list j = list ∧ j = i := fun list j low high => by
    have same : j = i := by omega
    exact ⟨if_pos same,same⟩
  have there : ∀ list j, j < i ∨ i + 1 ≤ j → replaced lists i list j = lists j := fun list j off => if_neg (by omega)
  have bucket := stored.buckets at'
  cases word with
  | null =>
      rw [stored.filled at'] at on
      cases on
  | entry x => cases bucket
  | link => cases bucket
  | terminator => cases bucket
  | tagged x =>
      have only : lists i = [x] := by
        generalize lists i = list at bucket
        cases bucket
        rfl
      have same : m = x := by simpa [only] using on
      subst same
      refine ⟨setBucket i .null t,replaced lists i [],⟨?_,rfl,rfl,by simp [setBucket],fun j low high => ?_,there []⟩,fun n => ?_⟩
      · exact stored.plain bound .empty fun block slot chain => by cases chain
      · rw [(here [] j low high).1,(here [] j low high).2,only]
      · simp [removeBuckets,at']
  | chain block slot =>
      obtain ⟨word,words,list',ran,perm,after⟩ := stored.remove at' unique on
      refine ⟨setBucket i word (setStore block words t),replaced lists i list',⟨after,rfl,rfl,by simp [setBucket,setStore],fun j low high => ?_,there list'⟩,
        fun n => ?_⟩
      · rw [(here list' j low high).1,(here list' j low high).2]
        exact perm
      · simp [removeBuckets,at',ran]

theorem Narrowed.trans {t'' : Table} {lists'' : Nat → List Nat} (first : Narrowed m 1 i t lists t' lists') (rest : Narrowed m n (i + 1) t' lists' t'' lists'') :
    Narrowed m (n + 1) i t lists t'' lists'' := by
  refine ⟨rest.stored,rest.start.trans first.start,rest.top.trans first.top,rest.size.trans first.size,fun j low high => ?_,fun j off => ?_⟩
  · by_cases here : j = i
    · rw [rest.others j (by omega)]
      exact first.narrower j low (by omega)
    · have later := rest.narrower j (by omega) (by omega)
      rwa [first.others j (by omega)] at later
  · rw [rest.others j (by omega),first.others j (by omega)]

theorem removeBucketsNarrow (stored : Stored t lists) (bound : i + n ≤ t.buckets.length) (unique : ∀ j, i ≤ j → j < i + n → (lists j).Nodup)
    (on : ∀ j, i ≤ j → j < i + n → m ∈ lists j) : ∃ t' lists', removeBuckets m n i t = some (true,t') ∧ Narrowed m n i t lists t' lists' := by
  induction n generalizing i t lists with
  | zero =>
      refine ⟨t,lists,rfl,⟨stored,rfl,rfl,rfl,fun j low high => ?_,fun _ _ => rfl⟩⟩
      omega
  | succ n ih =>
      obtain ⟨t',lists',first,unfolds⟩ := removeOne stored (by omega) (unique i (Nat.le_refl _) (by omega)) (on i (Nat.le_refl _) (by omega))
      have size := first.size
      have same : ∀ j, i + 1 ≤ j → lists' j = lists j := fun j low => first.others j (.inr low)
      obtain ⟨t'',lists'',ran,rest⟩ := ih first.stored (show i + 1 + n ≤ t'.buckets.length by omega)
        (fun j low high => same j low ▸ unique j (by omega) (by omega)) (fun j low high => same j low ▸ on j (by omega) (by omega))
      exact ⟨t'',lists'',(unfolds n).trans ran,first.trans rest⟩

-- The buckets that the range of metadata touches, the one of its end among them.
def touches (start : Nat) (e : Extent) (i : Nat) : Bool :=
  decide ((e.startPC - start) / bucketSize ≤ i) && decide (i ≤ (e.endPC - start) / bucketSize)

-- A range inside the code cache.
structure Fits (start top : Nat) (e : Extent) : Prop where
  low : start ≤ e.startPC
  nonempty : e.startPC < e.endPC
  high : e.endPC ≤ top

def Apart (e f : Extent) : Prop := e.endPC ≤ f.startPC ∨ f.endPC ≤ e.startPC

structure Represents (extent : Nat → Extent) (t : Table) (inserted : List Nat) : Prop where
  stored : ∃ lists, Stored t lists ∧ ∀ i, i < t.buckets.length → (lists i).Perm (inserted.filter fun m => touches t.start (extent m) i)
  size : t.buckets.length = (t.top - t.start) / bucketSize + 1
  fits : ∀ m ∈ inserted, Fits t.start t.top (extent m)
  apart : inserted.Pairwise fun m n => Apart (extent m) (extent n)

theorem Represents.nodup (rep : Represents extent t inserted) : inserted.Nodup := by
  refine rep.apart.imp_of_mem fun {a b} first _ apart same => ?_
  subst same
  have nonempty := (rep.fits a first).nonempty
  rcases apart with before | before <;> omega

instance : Std.Symm fun m n => Apart (extent m) (extent n) := ⟨fun _ _ => Or.symm⟩

-- Only one metadata covers a PC.
theorem Represents.unique {n : Nat} (rep : Represents extent t inserted) (first : m ∈ inserted) (second : n ∈ inserted) (covers : (extent m).has pc)
    (covers' : (extent n).has pc) : m = n := by
  simp only [Extent.has,Bool.and_eq_true,decide_eq_true_eq] at covers covers'
  by_contra differ
  rcases rep.apart.forall first second differ with before | before <;> omega

theorem touchesPC (covers : (extent m).has pc) : touches start (extent m) ((pc - start) / bucketSize) = true := by
  simp only [Extent.has,Bool.and_eq_true,decide_eq_true_eq] at covers
  simp only [touches,Bool.and_eq_true,decide_eq_true_eq]
  exact ⟨Nat.div_le_div_right (by omega),Nat.div_le_div_right (by omega)⟩

-- The answer of a search for a PC.
def Answers (extent : Nat → Extent) (inserted : List Nat) (pc : Nat) (found : Option Nat) : Prop :=
  ∀ m, found = some m ↔ m ∈ inserted ∧ (extent m).has pc = true

-- The search in a bucket finds the first entry that covers the PC.
theorem Stored.find (stored : Stored t lists) (bound : determineBucket pc t < t.buckets.length) (inside : t.start ≤ pc ∧ pc < t.top) :
    findMetaDataInHash extent pc t = some ((lists (determineBucket pc t)).find? fun m => (extent m).has pc) := by
  unfold findMetaDataInHash
  rw [if_pos inside]
  generalize determineBucket pc t = i at bound
  obtain ⟨word,at'⟩ : ∃ word, t.buckets[i]? = some word := ⟨_,List.getElem?_eq_getElem bound⟩
  rw [at']
  simp only [Option.bind_eq_bind,Option.bind_some]
  have bucket := stored.buckets at'
  generalize lists i = list at bucket
  cases bucket with
  | empty => rfl
  | single x => cases hit : (extent x).has pc <;> simp [hit]
  | chain _ _ _ holds fits => exact findInChainAt holds (by omega)

theorem Represents.find (rep : Represents extent t inserted) : ∃ found, findMetaDataInHash extent pc t = some found ∧ Answers extent inserted pc found := by
  obtain ⟨lists,stored,perm⟩ := rep.stored
  by_cases inside : t.start ≤ pc ∧ pc < t.top
  · have bound : determineBucket pc t < t.buckets.length := by
      rw [rep.size,determineBucket]
      have below : (pc - t.start) / bucketSize ≤ (t.top - t.start) / bucketSize := Nat.div_le_div_right (by omega)
      omega
    have perm := perm _ bound
    rw [stored.find bound inside]
    generalize place : determineBucket pc t = i at perm
    have answers : Answers extent inserted pc ((lists i).find? fun m => (extent m).has pc) := by
      intro m
      have among : ∀ n, n ∈ lists i ↔ n ∈ inserted ∧ touches t.start (extent n) i = true := fun n => by rw [perm.mem_iff,List.mem_filter]
      constructor
      · intro hit
        exact ⟨((among m).mp (List.mem_of_find?_eq_some hit)).1,by simpa using List.find?_some hit⟩
      · rintro ⟨on,covers⟩
        have listed : m ∈ lists i := (among m).mpr ⟨on,by rw [← place]; exact touchesPC covers⟩
        obtain ⟨n,hit⟩ : ∃ n, (lists i).find? (fun m => (extent m).has pc) = some n :=
          Option.isSome_iff_exists.mp (List.find?_isSome.mpr ⟨m,listed,covers⟩)
        have same := rep.unique on ((among n).mp (List.mem_of_find?_eq_some hit)).1 covers (by simpa using List.find?_some hit)
        rw [hit,same]
    exact ⟨_,rfl,answers⟩
  · rw [findMetaDataInHash,if_neg inside]
    refine ⟨none,rfl,fun m => ?_⟩
    simp only [reduceCtorEq,false_iff,not_and]
    intro on covers
    have fits := rep.fits m on
    have low := fits.low
    have high := fits.high
    simp only [Extent.has,Bool.and_eq_true,decide_eq_true_eq] at covers
    exact inside (by omega)

-- There is room for one more in the buckets that a range touches.
def Room (extent : Nat → Extent) (start : Nat) (inserted : List Nat) (m : Nat) : Prop :=
  ∀ i, touches start (extent m) i = true → (inserted.filter fun n => touches start (extent n) i).length ≤ methodStoreSize

-- The buckets from the first on that are visited are those touched.
theorem visitedTouches (fits : Fits t.start t.top (extent m)) (i : Nat) :
    touches t.start (extent m) i = true ↔
      determineBucket (extent m).startPC t ≤ i ∧ i < determineBucket (extent m).startPC t + visited (extent m).startPC (extent m).endPC t := by
  have nonempty := fits.nonempty
  have order : ((extent m).startPC - t.start) / bucketSize ≤ ((extent m).endPC - t.start) / bucketSize := Nat.div_le_div_right (by omega)
  simp only [touches,Bool.and_eq_true,decide_eq_true_eq,visited,determineBucket]
  omega

theorem visitedBound (rep : Represents extent t inserted) (fits : Fits t.start t.top (extent m)) :
    determineBucket (extent m).startPC t + visited (extent m).startPC (extent m).endPC t ≤ t.buckets.length := by
  have nonempty := fits.nonempty
  have high := fits.high
  have order : ((extent m).startPC - t.start) / bucketSize ≤ ((extent m).endPC - t.start) / bucketSize := Nat.div_le_div_right (by omega)
  have below : ((extent m).endPC - t.start) / bucketSize ≤ (t.top - t.start) / bucketSize := Nat.div_le_div_right (by omega)
  rw [rep.size]
  simp only [visited,determineBucket]
  omega

theorem insertRange (fits : Fits t.start t.top (extent m)) : insertMetaDataRangeInHash m (extent m).startPC (extent m).endPC t =
    (insertBuckets m (visited (extent m).startPC (extent m).endPC t) (determineBucket (extent m).startPC t) t).map fun t => (true,t) := by
  have low := fits.low
  have nonempty := fits.nonempty
  have high := fits.high
  rw [insertMetaDataRangeInHash,if_neg (by omega),if_neg (by omega)]

theorem Represents.insert (rep : Represents extent t inserted) (fits : Fits t.start t.top (extent m)) (apart : ∀ n ∈ inserted, Apart (extent m) (extent n))
    (room : Room extent t.start inserted m) :
    ∃ t', insertMetaDataRangeInHash m (extent m).startPC (extent m).endPC t = some (true,t') ∧ t'.start = t.start ∧ t'.top = t.top ∧
      Represents extent t' (m::inserted) := by
  obtain ⟨lists,stored,perm⟩ := rep.stored
  have bound := visitedBound rep fits
  obtain ⟨t',lists',ran,widened⟩ := @insertBucketsWiden t lists (determineBucket (extent m).startPC t)
    (visited (extent m).startPC (extent m).endPC t) m stored bound fun j low high => by
      rw [(perm j (by omega)).length_eq]
      exact room j ((visitedTouches fits j).mpr ⟨low,high⟩)
  refine ⟨t',by rw [insertRange fits,ran]; rfl,widened.start,widened.top,⟨⟨lists',widened.stored,fun i inside => ?_⟩,?_,fun n on => ?_,?_⟩⟩
  · rw [widened.size] at inside
    rw [widened.start,List.filter_cons]
    by_cases touched : touches t.start (extent m) i = true
    · rw [if_pos touched]
      obtain ⟨low,high⟩ := (visitedTouches fits i).mp touched
      exact (widened.wider i low high).trans ((perm i inside).cons m)
    · rw [if_neg touched,widened.others i (by rw [visitedTouches fits] at touched; omega)]
      exact perm i inside
  · rw [widened.size,widened.start,widened.top]
    exact rep.size
  · rw [widened.start,widened.top]
    rcases List.mem_cons.mp on with rfl | old
    · exact fits
    · exact rep.fits n old
  · exact List.pairwise_cons.mpr ⟨apart,rep.apart⟩

theorem Represents.insertFull (rep : Represents extent t inserted) (fits : Fits t.start t.top (extent m)) (full : ¬ Room extent t.start inserted m) :
    insertMetaDataRangeInHash m (extent m).startPC (extent m).endPC t = none := by
  obtain ⟨lists,stored,perm⟩ := rep.stored
  have bound := visitedBound rep fits
  simp only [Room,not_forall] at full
  obtain ⟨i,touched,many⟩ := full
  obtain ⟨low,high⟩ := (visitedTouches fits i).mp touched
  rw [insertRange fits,insertBucketsFull stored bound low high (by rw [(perm i (by omega)).length_eq]; omega)]
  rfl

theorem Represents.remove (rep : Represents extent t inserted) (on : m ∈ inserted) :
    ∃ t', removeMetaDataRangeFromHash m (extent m).startPC (extent m).endPC t = some (true,t') ∧ t'.start = t.start ∧ t'.top = t.top ∧
      Represents extent t' (inserted.erase m) := by
  obtain ⟨lists,stored,perm⟩ := rep.stored
  have fits := rep.fits m on
  have bound := visitedBound rep fits
  have low := fits.low
  have high := fits.high
  have unique : ∀ j, j < t.buckets.length → (lists j).Nodup := fun j inside => (perm j inside).nodup_iff.mpr (rep.nodup.filter _)
  obtain ⟨t',lists',ran,narrowed⟩ := @removeBucketsNarrow t lists (determineBucket (extent m).startPC t)
    (visited (extent m).startPC (extent m).endPC t) m stored bound (fun j _ high => unique j (by omega)) fun j low high => by
      rw [(perm j (by omega)).mem_iff,List.mem_filter]
      exact ⟨on,(visitedTouches fits j).mpr ⟨low,high⟩⟩
  refine ⟨t',by rw [removeMetaDataRangeFromHash,if_neg (by omega),ran],narrowed.start,narrowed.top,⟨⟨lists',narrowed.stored,fun i inside => ?_⟩,?_,fun n there => ?_,?_⟩⟩
  · rw [narrowed.size] at inside
    have split : (inserted.filter fun n => touches t.start (extent n) i).Perm ((m::inserted.erase m).filter fun n => touches t.start (extent n) i) :=
      (List.perm_cons_erase on).filter _
    rw [List.filter_cons] at split
    rw [narrowed.start]
    by_cases touched : touches t.start (extent m) i = true
    · rw [if_pos touched] at split
      obtain ⟨low,high⟩ := (visitedTouches fits i).mp touched
      exact (List.perm_cons m).mp ((narrowed.narrower i low high).symm.trans ((perm i inside).trans split))
    · rw [if_neg touched] at split
      rw [narrowed.others i (by rw [visitedTouches fits] at touched; omega)]
      exact (perm i inside).trans split
  · rw [narrowed.size,narrowed.start,narrowed.top]
    exact rep.size
  · rw [narrowed.start,narrowed.top]
    exact rep.fits n (List.mem_of_mem_erase there)
  · exact rep.apart.sublist List.erase_sublist

-- The table holds what is inserted, and the last answer is right.
structure Valid (extent : Nat → Extent) (start top : Nat) (s : Manager) (inserted : List Nat) : Prop where
  table : Represents extent s.table inserted
  startAt : s.table.start = start
  topAt : s.table.top = top
  cached : 0 < s.cachedPC → s.cachedHashTable = (decide (start ≤ s.cachedPC) && decide (s.cachedPC < top))
  retrieved : ∀ m, s.retrievedMetaDataCache = some m → m ∈ inserted ∧ (extent m).has s.cachedPC = true

variable {s s' : Manager}

theorem addValid : Valid extent start top (addCodeCache start top) [] := by
  refine ⟨⟨⟨fun _ => [],?_,fun _ _ => by simp⟩,by simp [addCodeCache,allocateCodeMetaDataHash,allocateMethodStoreInHash],by simp,.nil⟩,rfl,rfl,
    fun positive => absurd positive (Nat.lt_irrefl 0),fun m hit => by cases hit⟩
  have null : ∀ {i : Nat} {word : Word}, (List.replicate ((top - start) / bucketSize + 1) Word.null)[i]? = some word → word = .null := by
    intro i word at'
    exact List.eq_of_mem_replicate (List.mem_of_getElem? at')
  have empty : ∀ {i block slot : Nat}, (addCodeCache start top).table.buckets[i]? ≠ some (.chain block slot) := by
    intro i block slot at'
    cases null at'
  refine ⟨fun {i word} at' => ?_,fun {_ _ _ _ _} _ at' => absurd at' empty,fun {_ _} at' => absurd at' empty,Nat.le_refl _,Nat.le_refl _,fun {block} inside => ?_⟩
  · cases null at'
    exact .empty
  · have first : block = 0 := Nat.lt_one_iff.mp inside
    subst first
    exact .inl ⟨by simp [addCodeCache,allocateCodeMetaDataHash,allocateMethodStoreInHash,newBlock,methodStoreEnd],fun i slot at' => absurd at' empty⟩

theorem Valid.updateCache (valid : Valid extent start top s inserted) :
    Valid extent start top (updateCache pc s) inserted ∧ (MetaData.updateCache pc s).table = s.table ∧ (MetaData.updateCache pc s).cachedPC = pc := by
  unfold MetaData.updateCache
  split
  · exact ⟨⟨valid.table,valid.startAt,valid.topAt,fun _ => by rw [valid.startAt,valid.topAt],fun m hit => by cases hit⟩,rfl,rfl⟩
  · rename_i same
    exact ⟨valid,rfl,(Decidable.not_not.mp same).symm⟩

theorem Valid.find (valid : Valid extent start top s inserted) (positive : 0 < pc) :
    ∃ found s', findMetaDataForPC extent pc s = some (found,s') ∧ Answers extent inserted pc found ∧ Valid extent start top s' inserted := by
  obtain ⟨valid',-,at'⟩ := @Valid.updateCache extent inserted pc start top s valid
  unfold findMetaDataForPC
  simp only
  generalize MetaData.updateCache pc s = u at valid' at'
  cases kept : u.retrievedMetaDataCache with
  | some m =>
      obtain ⟨on,covers⟩ := valid'.retrieved m kept
      rw [at'] at covers
      refine ⟨_,_,rfl,fun n => ⟨fun same => ?_,fun hit => ?_⟩,valid'⟩
      · cases same
        exact ⟨on,covers⟩
      · rw [valid'.table.unique on hit.1 covers hit.2]
  | none =>
      simp only
      by_cases inside : u.cachedHashTable = true
      · rw [if_pos inside]
        obtain ⟨found,ran,answers⟩ := @Represents.find u.table extent inserted pc valid'.table
        refine ⟨found,{ u with retrievedMetaDataCache := found },by rw [ran]; rfl,answers,⟨valid'.table,valid'.startAt,valid'.topAt,valid'.cached,fun m hit => ?_⟩⟩
        show m ∈ inserted ∧ (extent m).has u.cachedPC = true
        rw [at']
        exact (answers m).mp hit
      · rw [if_neg inside]
        refine ⟨none,u,rfl,fun m => ?_,valid'⟩
        simp only [reduceCtorEq,false_iff,not_and]
        intro on covers
        have fits := valid'.table.fits m on
        have low := fits.low
        have high := fits.high
        rw [valid'.startAt] at low
        rw [valid'.topAt] at high
        have outside := valid'.cached (by rw [at']; exact positive)
        rw [at'] at outside
        simp only [Extent.has,Bool.and_eq_true,decide_eq_true_eq] at covers
        refine inside (outside.trans ?_)
        simp only [Bool.and_eq_true,decide_eq_true_eq]
        omega

/- What the callers promise of an insertion: a range of the code cache that is not
empty and has no PC in common with what is inserted. -/
structure Admissible (extent : Nat → Extent) (start top : Nat) (inserted : List Nat) (m : Nat) : Prop where
  positive : 0 < (extent m).startPC
  fits : Fits start top (extent m)
  apart : ∀ n ∈ inserted, Apart (extent m) (extent n)

theorem Valid.insertTable (valid : Valid extent start top s inserted) (ok : Admissible extent start top inserted m) :
    insertMetaData extent m s =
      (insertMetaDataRangeInHash m (extent m).startPC (extent m).endPC s.table).map fun (success,table) =>
        (success,{ MetaData.updateCache (extent m).startPC s with table := table }) := by
  obtain ⟨valid',table,at'⟩ := @Valid.updateCache extent inserted (extent m).startPC start top s valid
  have low := ok.fits.low
  have nonempty := ok.fits.nonempty
  have high := ok.fits.high
  have inside : (MetaData.updateCache (extent m).startPC s).cachedHashTable = true := by
    rw [valid'.cached (by rw [at']; exact ok.positive),at']
    simp only [Bool.and_eq_true,decide_eq_true_eq]
    omega
  unfold insertMetaData
  simp only
  rw [if_pos inside,table]
  cases insertMetaDataRangeInHash m (extent m).startPC (extent m).endPC s.table <;> rfl

theorem Valid.insert (valid : Valid extent start top s inserted) (ok : Admissible extent start top inserted m) (room : Room extent start inserted m) :
    ∃ s', insertMetaData extent m s = some (true,s') ∧ Valid extent start top s' (m::inserted) := by
  obtain ⟨valid',-,-⟩ := @Valid.updateCache extent inserted (extent m).startPC start top s valid
  obtain ⟨t',ran,startKept,topKept,rep⟩ := @Represents.insert s.table extent inserted m valid.table (by rw [valid.startAt,valid.topAt]; exact ok.fits) ok.apart
    (by rw [valid.startAt]; exact room)
  refine ⟨{ MetaData.updateCache (extent m).startPC s with table := t' },by rw [valid.insertTable ok,ran]; rfl,⟨rep,startKept.trans valid.startAt,topKept.trans valid.topAt,valid'.cached,fun n hit => ?_⟩⟩
  obtain ⟨on,covers⟩ := valid'.retrieved n hit
  exact ⟨List.mem_cons_of_mem m on,covers⟩

theorem Valid.insertFull (valid : Valid extent start top s inserted) (ok : Admissible extent start top inserted m) (full : ¬ Room extent start inserted m) :
    insertMetaData extent m s = none := by
  rw [valid.insertTable ok,@Represents.insertFull s.table extent inserted m valid.table (by rw [valid.startAt,valid.topAt]; exact ok.fits) (by rw [valid.startAt]; exact full)]
  rfl

theorem Valid.remove (valid : Valid extent start top s inserted) (positive : 0 < (extent m).startPC) :
    ∃ s', removeMetaData extent m s = some (decide (m ∈ inserted),s') ∧ Valid extent start top s' (inserted.erase m) := by
  obtain ⟨found,u,ran,answers,valid'⟩ := valid.find positive
  unfold removeMetaData
  simp only
  rw [ran]
  simp only [Option.bind_eq_bind,Option.bind_some]
  by_cases hit : found = some m
  · obtain ⟨on,covers⟩ := (answers m).mp hit
    rw [if_pos hit]
    obtain ⟨valid'',table,at'⟩ := @Valid.updateCache extent inserted (extent m).startPC start top u valid'
    have fits := valid.table.fits m on
    have low := fits.low
    have nonempty := fits.nonempty
    have high := fits.high
    rw [valid.startAt] at low
    rw [valid.topAt] at high
    have inside : (MetaData.updateCache (extent m).startPC u).cachedHashTable = true := by
      rw [valid''.cached (by rw [at']; exact positive),at']
      simp only [Bool.and_eq_true,decide_eq_true_eq]
      omega
    obtain ⟨t',removed,startKept,topKept,rep⟩ := valid''.table.remove on
    rw [if_pos inside,removed]
    refine ⟨{ MetaData.updateCache (extent m).startPC u with table := t', retrievedMetaDataCache := none },by simp [on],⟨rep,startKept.trans valid''.startAt,topKept.trans valid''.topAt,valid''.cached,fun n hit => by cases hit⟩⟩
  · have absent : m ∉ inserted := by
      intro on
      have nonempty := (valid.table.fits m on).nonempty
      exact hit ((answers m).mpr ⟨on,by simp [Extent.has,nonempty]⟩)
    rw [if_neg hit,List.erase_of_not_mem absent]
    exact ⟨{ u with retrievedMetaDataCache := none },by simp [absent],⟨valid'.table,valid'.startAt,valid'.topAt,valid'.cached,fun n hit => by cases hit⟩⟩

-- The states of a run, with what has been inserted and not removed since.
inductive Reached (extent : Nat → Extent) (start top : Nat) : Manager → List Nat → Prop where
  | add : Reached extent start top (addCodeCache start top) []
  | find {s s' : Manager} {inserted : List Nat} {pc : Nat} {found : Option Nat} (before : Reached extent start top s inserted) (positive : 0 < pc)
      (ran : findMetaDataForPC extent pc s = some (found,s')) : Reached extent start top s' inserted
  | insert {s s' : Manager} {inserted : List Nat} {m : Nat} {success : Bool} (before : Reached extent start top s inserted)
      (ok : Admissible extent start top inserted m) (ran : insertMetaData extent m s = some (success,s')) :
      Reached extent start top s' (if success then m::inserted else inserted)
  | remove {s s' : Manager} {inserted : List Nat} {m : Nat} {success : Bool} (before : Reached extent start top s inserted)
      (positive : 0 < (extent m).startPC) (ran : removeMetaData extent m s = some (success,s')) :
      Reached extent start top s' (if success then inserted.erase m else inserted)

theorem Reached.valid (reached : Reached extent start top s inserted) : Valid extent start top s inserted := by
  induction reached with
  | add => exact addValid
  | find _ positive ran ih =>
      obtain ⟨found,s',ran',-,valid⟩ := ih.find positive
      rw [ran'] at ran
      cases ran
      exact valid
  | @insert s s' inserted m success _ ok ran ih =>
      by_cases room : Room extent start inserted m
      · obtain ⟨s',ran',valid⟩ := ih.insert ok room
        rw [ran'] at ran
        cases ran
        exact valid
      · rw [ih.insertFull ok room] at ran
        cases ran
  | @remove s s' inserted m success _ positive ran ih =>
      obtain ⟨s',ran',valid⟩ := ih.remove positive
      rw [ran'] at ran
      cases ran
      by_cases on : m ∈ inserted
      · simpa [on] using valid
      · rw [List.erase_of_not_mem on] at valid
        simpa [on] using valid

/- Lookups and removals are exact in every state of a run; an insertion is, as
long as no bucket that it touches has more than methodStoreSize metadata. -/
theorem lookupExact (reached : Reached extent start top s inserted) :
    (∀ pc, 0 < pc → ∃ found s', findMetaDataForPC extent pc s = some (found,s') ∧ ∀ m, found = some m ↔ m ∈ inserted ∧ (extent m).has pc = true) ∧
    (∀ m, 0 < (extent m).startPC → ∃ s', removeMetaData extent m s = some (decide (m ∈ inserted),s')) ∧
    ∀ m, Admissible extent start top inserted m →
      (Room extent start inserted m → ∃ s', insertMetaData extent m s = some (true,s')) ∧ (¬ Room extent start inserted m → insertMetaData extent m s = none) := by
  have valid := reached.valid
  refine ⟨fun pc positive => ?_,fun m positive => ?_,fun m ok => ⟨fun room => ?_,valid.insertFull ok⟩⟩
  · obtain ⟨found,s',ran,answers,-⟩ := valid.find positive
    exact ⟨found,s',ran,answers⟩
  · obtain ⟨s',ran,-⟩ := valid.remove positive
    exact ⟨s',ran⟩
  · obtain ⟨s',ran,-⟩ := valid.insert ok room
    exact ⟨s',ran⟩

end

-- Methods of one byte, next to each other.
def bytes (m : Nat) : Extent := ⟨4096 + m,4096 + m + 1⟩

theorem bytesAdmissible {m : Nat} (bound : m < 4096) : Admissible bytes 4096 8192 (List.range m).reverse m := by
  refine ⟨by simp only [bytes]; omega,⟨by simp only [bytes]; omega,by simp only [bytes]; omega,by simp only [bytes]; omega⟩,fun n on => .inr ?_⟩
  simp only [List.mem_reverse,List.mem_range] at on
  simp only [bytes]
  omega

theorem bytesReached {n : Nat} (most : n ≤ methodStoreSize + 1) : ∃ s, Reached bytes 4096 8192 s (List.range n).reverse := by
  induction n with
  | zero => exact ⟨_,.add⟩
  | succ n ih =>
      obtain ⟨s,reached⟩ := ih (by omega)
      have sizes : methodStoreSize = 256 := rfl
      have ok := @bytesAdmissible n (by omega)
      obtain ⟨s',ran,-⟩ := reached.valid.insert ok fun i _ => by
        refine Nat.le_trans (List.length_filter_le _ _) ?_
        simp only [List.length_reverse,List.length_range]
        omega
      refine ⟨s',?_⟩
      have after := Reached.insert reached ok ran
      rwa [if_pos rfl,show n::(List.range n).reverse = (List.range (n + 1)).reverse by simp [List.range_succ]] at after

theorem bytesTouch {m : Nat} (bound : m < 511) : touches 4096 (bytes m) 0 = true := by
  have first : (4096 + m - 4096) / 512 ≤ 0 := by omega
  unfold touches
  rw [Bool.and_eq_true,decide_eq_true_eq,decide_eq_true_eq]
  exact ⟨first,Nat.zero_le _⟩

theorem lookupExactSample : ∃ s, Reached bytes 4096 8192 s [1,0] ∧ ∃ found s', findMetaDataForPC bytes 4097 s = some (found,s') ∧
    ∀ m, found = some m ↔ m ∈ [1,0] ∧ (bytes m).has 4097 = true := by
  obtain ⟨s,reached⟩ := @bytesReached 2 (by decide)
  exact ⟨s,reached,(lookupExact reached).1 4097 (by decide)⟩

-- The bucket of the first PCs has 257 methods, and no block has room for its chain and one more.
theorem chainOutgrowsBlock : ∃ s inserted, Reached bytes 4096 8192 s inserted ∧ Admissible bytes 4096 8192 inserted 257 ∧ insertMetaData bytes 257 s = none := by
  obtain ⟨s,reached⟩ := @bytesReached 257 (by decide)
  have ok := @bytesAdmissible 257 (by decide)
  refine ⟨s,_,reached,ok,reached.valid.insertFull ok fun room => ?_⟩
  have crowd := room 0 (by decide)
  have all : (List.range 257).reverse.filter (fun n => touches 4096 (bytes n) 0) = (List.range 257).reverse := by
    refine List.filter_eq_self.mpr fun n on => ?_
    rw [List.mem_reverse,List.mem_range] at on
    exact bytesTouch (by omega)
  rw [all,List.length_reverse,List.length_range] at crowd
  exact absurd crowd (by decide)

end OmrCompiler.MetaData
