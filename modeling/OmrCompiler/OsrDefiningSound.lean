import OmrCompiler.OsrDefiningMap

/-! The defining maps name everything that can influence a recorded symbol, as long as no
store and no merge reads an entry it is about to replace. -/
namespace OmrCompiler.OsrDefiningMap

section Bits
variable {d j : Nat} {bits : List Nat}

theorem memSet : d ∈ setBit j bits ↔ d = j ∨ d ∈ bits := by
  induction bits with
  | nil => simp [setBit]
  | cons a rest ih =>
      unfold setBit
      split
      · simp
      · split
        · rename_i same
          subst same
          simp
        · rw [List.mem_cons,ih,List.mem_cons]
          tauto

theorem memOr {other : List Nat} : d ∈ orBits bits other ↔ d ∈ bits ∨ d ∈ other := by
  induction other generalizing bits with
  | nil => simp [orBits]
  | cons a rest ih =>
      have step : orBits bits (a::rest) = orBits (setBit a bits) rest := rfl
      rw [step,ih,memSet,List.mem_cons]
      tauto

mutual
theorem memCollect (n : Node) {bits : List Nat} : d ∈ collectSubTreeSymRefs n bits ↔ n.Uses d ∨ d ∈ bits := by
  cases n with
  | node symRef children =>
      have below : (Node.node symRef children).Uses d ↔ symRef = some d ∨ ∃ n ∈ children, n.Uses d := by
        constructor
        · rintro (_ | ⟨inside,uses⟩)
          · exact .inl rfl
          · exact .inr ⟨_,inside,uses⟩
        · rintro (rfl | ⟨n,inside,uses⟩)
          · exact .here
          · exact .child inside uses
      cases symRef with
      | none => rw [collectSubTreeSymRefs,memCollectChildren children,below]; simp
      | some j =>
          rw [collectSubTreeSymRefs,memCollectChildren children,below,memSet,Option.some.injEq,eq_comm,or_left_comm,or_assoc]
theorem memCollectChildren (children : List Node) {bits : List Nat} :
    d ∈ collectChildren children bits ↔ (∃ n ∈ children, n.Uses d) ∨ d ∈ bits := by
  cases children with
  | nil => simp [collectChildren]
  | cons child rest =>
      rw [collectChildren,memCollectChildren rest,memCollect child]
      simp only [List.mem_cons,exists_eq_or_imp]
      rw [or_left_comm,or_assoc]
end

theorem memSymRefs (s : Store) : d ∈ s.symRefs ↔ s.value.Uses d := by
  simp [Store.symRefs,memCollect]

theorem memArgument (a : Argument) : d ∈ a.symRefs ↔ a.loadNode.Uses d := by
  simp [Argument.symRefs,memCollect]

end Bits

section Maps
variable {k j d : Nat} {m : DefiningMap}

theorem findInsert (k : Nat) (e : List Nat) (m : DefiningMap) (j : Nat) : find j (insert k e m) = if j = k then some e else find j m := by
  induction m with
  | nil =>
      by_cases here : j = k
      · simp [insert,find,here]
      · simp [insert,find,here,Ne.symm here]
  | cons entry rest ih =>
      obtain ⟨a,b⟩ := entry
      unfold insert
      by_cases here : j = k
      · subst here
        rw [if_pos rfl]
        split
        · simp [find]
        · split
          · simp [find]
          · rename_i other
            rw [find,if_neg (Ne.symm other),ih,if_pos rfl]
      · rw [if_neg here]
        split
        · rw [find,if_neg (Ne.symm here)]
        · split
          · rename_i same
            subst same
            rw [find,if_neg (Ne.symm here),find,if_neg (Ne.symm here)]
          · rw [find,find,ih,if_neg here]

def Ascending (m : DefiningMap) : Prop := m.Pairwise fun a b => a.1 < b.1

theorem memInsert {e : List Nat} {entry : Nat × List Nat} (on : entry ∈ insert k e m) : entry = (k,e) ∨ entry ∈ m := by
  induction m with
  | nil => exact .inl (List.mem_singleton.mp on)
  | cons first rest ih =>
      unfold insert at on
      split at on
      · exact List.mem_cons.mp on
      · split at on
        · rcases List.mem_cons.mp on with here | inside
          · exact .inl here
          · exact .inr (List.mem_cons_of_mem _ inside)
        · rcases List.mem_cons.mp on with here | inside
          · exact .inr (here ▸ List.mem_cons_self)
          · exact (ih inside).imp_right (List.mem_cons_of_mem _)

theorem Ascending.insert (ascending : Ascending m) (k : Nat) (e : List Nat) : Ascending (insert k e m) := by
  induction m with
  | nil => exact List.pairwise_singleton _ _
  | cons first rest ih =>
      obtain ⟨before,later⟩ := List.pairwise_cons.mp ascending
      unfold OsrDefiningMap.insert
      split
      · rename_i less
        refine List.pairwise_cons.mpr ⟨fun entry on => ?_,ascending⟩
        rcases List.mem_cons.mp on with rfl | inside
        · exact less
        · exact Nat.lt_trans less (before entry inside)
      · split
        · rename_i same
          refine List.pairwise_cons.mpr ⟨fun entry inside => ?_,later⟩
          exact same ▸ before entry inside
        · refine List.pairwise_cons.mpr ⟨fun entry on => ?_,ih later⟩
          rcases memInsert on with rfl | inside
          · change first.1 < k
            omega
          · exact before entry inside

theorem findMem {e : List Nat} (found : find k m = some e) : (k,e) ∈ m := by
  induction m with
  | nil => cases found
  | cons first rest ih =>
      obtain ⟨a,b⟩ := first
      unfold find at found
      split at found
      · rename_i here
        cases found
        exact here ▸ List.mem_cons_self
      · exact List.mem_cons_of_mem _ (ih found)

theorem memFind (ascending : Ascending m) {e : List Nat} (on : (k,e) ∈ m) : find k m = some e := by
  induction m with
  | nil => cases on
  | cons first rest ih =>
      obtain ⟨a,b⟩ := first
      obtain ⟨before,later⟩ := List.pairwise_cons.mp ascending
      rcases List.mem_cons.mp on with here | inside
      · cases here
        exact if_pos rfl
      · have less : a < k := before (k,e) inside
        rw [find,if_neg (Nat.ne_of_lt less),ih later inside]

-- The symbols that stand for one: its definition, or itself.
def reads (o : Option (List Nat)) (j : Nat) : List Nat :=
  match o with
  | none => [j]
  | some [] => [j]
  | some defining => defining

variable {view : List Nat → Nat → Option (List Nat)} {symRefs result : List Nat}

theorem updateStep (j : Nat) (rest result : List Nat) :
    ∃ next, updateDefiningSymRefs view (j::rest) result = updateDefiningSymRefs view rest next ∧ ∀ d, d ∈ next ↔ d ∈ result ∨ d ∈ reads (view result j) j := by
  rw [updateDefiningSymRefs]
  cases found : view result j with
  | none => exact ⟨_,rfl,fun d => by rw [memSet]; simp [reads,or_comm]⟩
  | some defining =>
      cases defining with
      | nil => exact ⟨_,rfl,fun d => by rw [memSet]; simp [reads,or_comm]⟩
      | cons a more => exact ⟨_,rfl,fun d => memOr⟩

theorem updateGrows (on : d ∈ result) : d ∈ updateDefiningSymRefs view symRefs result := by
  induction symRefs generalizing result with
  | nil => exact on
  | cons j rest ih =>
      obtain ⟨next,same,members⟩ := @updateStep view j rest result
      rw [same]
      exact ih ((members d).mpr (.inl on))

-- What the map gives for a symbol, whatever the result is by then.
theorem updateTakes (inside : j ∈ symRefs) (taken : ∀ r, d ∈ reads (view r j) j) : d ∈ updateDefiningSymRefs view symRefs result := by
  induction symRefs generalizing result with
  | nil => cases inside
  | cons i rest ih =>
      obtain ⟨next,same,members⟩ := @updateStep view i rest result
      rw [same]
      rcases List.mem_cons.mp inside with rfl | later
      · exact updateGrows ((members d).mpr (.inr (taken result)))
      · exact ih later

end Maps

section Covering
variable {m : DefiningMap} {influence : Influence} {j d : Nat}

-- An entry names all that can influence its symbol; without one only the symbol itself can.
structure Covers (m : DefiningMap) (influence : Influence) : Prop where
  ascending : Ascending m
  absent : ∀ {x d}, find x m = none → influence x d → d = x
  present : ∀ {x d defining}, find x m = some defining → influence x d → d ∈ defining

theorem Covers.reads (h : Covers m influence) (from' : influence j d) : d ∈ reads (find j m) j := by
  cases found : find j m with
  | none => simp [OsrDefiningMap.reads,h.absent found from']
  | some defining =>
      have inside := h.present found from'
      cases defining with
      | nil => cases inside
      | cons => exact inside

theorem coversNothing : Covers [] (fun x d => d = x) := ⟨List.Pairwise.nil,fun _ same => same,fun found => nomatch found⟩

theorem storeInfluenceOther {s : Store} {x : Nat} (away : x ≠ s.symRef) : s.influence influence x d ↔ influence x d := by
  rw [Store.influence,if_neg away]

theorem storeInfluenceHere {s : Store} : s.influence influence s.symRef d ↔ ∃ y, s.value.Uses y ∧ influence y d := by
  rw [Store.influence,if_pos rfl]

-- The new definition has what the map had for each symbol of the value.
theorem CleanStore.update {s : Store} (clean : CleanStore m s) (inside : j ∈ s.symRefs) (taken : d ∈ OsrDefiningMap.reads (find j m) j) :
    d ∈ updateDefiningSymRefs (within m s.symRef) s.symRefs [] := by
  by_cases here : j = s.symRef
  · subst here
    obtain ⟨absent,first⟩ := clean inside
    rw [absent] at taken
    obtain ⟨rest,list⟩ : ∃ rest, s.symRefs = s.symRef::rest := by
      cases list : s.symRefs with
      | nil => rw [list] at first; cases first
      | cons a rest =>
          rw [list] at first
          exact ⟨rest,by rw [Option.some.inj first]⟩
    obtain ⟨next,same,members⟩ := @updateStep (within m s.symRef) s.symRef rest []
    rw [list,same]
    refine updateGrows ((members d).mpr (.inr ?_))
    rw [within,if_pos rfl]
    exact taken
  · refine updateTakes inside fun r => ?_
    rw [within,if_neg here]
    exact taken

theorem Covers.store (h : Covers m influence) {s : Store} (clean : CleanStore m s) : Covers (storeTree m s) (s.influence influence) := by
  unfold storeTree
  by_cases empty : s.symRefs = []
  · have nothing : ∀ {d}, ¬ s.influence influence s.symRef d := fun {d} from' => by
      obtain ⟨y,uses,_⟩ := storeInfluenceHere.mp from'
      have inside := (memSymRefs s).mpr uses
      rw [empty] at inside
      cases inside
    have others : ∀ {x d}, s.influence influence x d → x ≠ s.symRef ∧ influence x d := fun {x d} from' => by
      by_cases here : x = s.symRef
      · exact absurd (here ▸ from') nothing
      · exact ⟨here,(storeInfluenceOther here).mp from'⟩
    rw [if_pos empty]
    cases found : find s.symRef m with
    | none => exact ⟨h.ascending,fun absent from' => h.absent absent (others from').2,fun present from' => h.present present (others from').2⟩
    | some old =>
        refine ⟨h.ascending.insert _ _,fun absent from' => ?_,fun present from' => ?_⟩
        · rw [findInsert,if_neg (others from').1] at absent
          exact h.absent absent (others from').2
        · rw [findInsert,if_neg (others from').1] at present
          exact h.present present (others from').2
  · rw [if_neg empty]
    refine ⟨h.ascending.insert _ _,fun {x d} absent from' => ?_,fun {x d defining} present from' => ?_⟩
    · rw [findInsert] at absent
      split at absent
      · cases absent
      · rename_i away
        exact h.absent absent ((storeInfluenceOther away).mp from')
    · rw [findInsert] at present
      split at present
      · rename_i here
        subst here
        cases Option.some.inj present
        obtain ⟨y,uses,before⟩ := storeInfluenceHere.mp from'
        exact clean.update ((memSymRefs s).mpr uses) (h.reads before)
      · rename_i away
        exact h.present present ((storeInfluenceOther away).mp from')

theorem Covers.stores (stores : List Store) (h : Covers m influence) (clean : CleanStores m stores) :
    Covers (buildDefiningMapForBlock m stores) (runStores stores influence) := by
  induction stores generalizing m influence with
  | nil => exact h
  | cons s rest ih => exact ih (h.store clean.1) clean.2

-- First one influence, then another on top of it.
def compose (before after : Influence) : Influence := fun x d => ∃ j, after x j ∧ before j d

theorem composeStore (s : Store) (before after : Influence) : s.influence (compose before after) = compose before (s.influence after) := by
  funext x d
  by_cases here : x = s.symRef
  · subst here
    refine propext (storeInfluenceHere.trans ⟨?_,?_⟩)
    · rintro ⟨y,uses,j,first,second⟩
      exact ⟨j,storeInfluenceHere.mpr ⟨y,uses,first⟩,second⟩
    · rintro ⟨j,first,second⟩
      obtain ⟨y,uses,before'⟩ := storeInfluenceHere.mp first
      exact ⟨y,uses,j,before',second⟩
  · refine propext ((storeInfluenceOther here).trans ⟨?_,?_⟩)
    · rintro ⟨j,first,second⟩
      exact ⟨j,(storeInfluenceOther here).mpr first,second⟩
    · rintro ⟨j,first,second⟩
      exact ⟨j,(storeInfluenceOther here).mp first,second⟩

theorem composeStores (stores : List Store) (before after : Influence) :
    runStores stores (compose before after) = compose before (runStores stores after) := by
  induction stores generalizing after with
  | nil => rfl
  | cons s rest ih =>
      change runStores rest (s.influence (compose before after)) = compose before (runStores rest (s.influence after))
      rw [composeStore,ih]

theorem composeOwn (before : Influence) : compose before (fun x d => d = x) = before := by
  funext x d
  simp [compose]

end Covering

section Merging
variable {first done : DefiningMap} {k x : Nat} {defining : List Nat}

theorem findAppend (m n : DefiningMap) (x : Nat) : find x (m ++ n) = (find x m).or (find x n) := by
  induction m with
  | nil => rfl
  | cons entry rest ih =>
      obtain ⟨a,b⟩ := entry
      rw [List.cons_append,find,find]
      split
      · rfl
      · exact ih

-- The entries merged so far have what the first map had for their symbols.
structure Merged (first done now : DefiningMap) : Prop where
  ascending : Ascending now
  others : ∀ {x}, find x done = none → find x now = find x first
  merged : ∀ {x defining}, find x done = some defining → ∃ result, find x now = some result ∧
    ∀ j ∈ defining, ∀ d ∈ reads (find j first) j, d ∈ result

theorem Merged.entry {now : DefiningMap} (h : Merged first done now) (new : find k done = none)
    (clean : ∀ j ∈ defining, find j done = none ∧ (j = k → find k first = none)) : Merged first (done ++ [(k,defining)]) (mergeEntry now (k,defining)) := by
  have here := h.others new
  obtain ⟨result,made,takes⟩ : ∃ result, mergeEntry now (k,defining) = insert k result now ∧
      ∀ j ∈ defining, ∀ d ∈ reads (find j first) j, d ∈ result := by
    unfold mergeEntry
    simp only
    cases found : find k now with
    | none =>
        refine ⟨_,rfl,fun j inside d taken => updateTakes inside fun _ => ?_⟩
        rw [apart,h.others (clean j inside).1]
        exact taken
    | some old =>
        refine ⟨_,rfl,fun j inside d taken => updateTakes inside fun r => ?_⟩
        have away : j ≠ k := fun same => by
          rw [(clean j inside).2 same,found] at here
          cases here
        rw [within,if_neg away,h.others (clean j inside).1]
        exact taken
  rw [made]
  have single : ∀ x, find x [(k,defining)] = if k = x then some defining else none := fun x => by rw [find,find]
  refine ⟨h.ascending.insert _ _,fun {x} absent => ?_,fun {x other} present => ?_⟩
  · rw [findAppend,Option.or_eq_none_iff,single] at absent
    have away : x ≠ k := fun same => by
      rw [if_pos same.symm] at absent
      cases absent.2
    rw [findInsert,if_neg away]
    exact h.others absent.1
  · rw [findAppend,single] at present
    by_cases same : x = k
    · subst same
      rw [new,Option.none_or,if_pos rfl] at present
      cases Option.some.inj present
      exact ⟨result,by rw [findInsert,if_pos rfl],takes⟩
    · rw [if_neg (Ne.symm same),Option.or_none] at present
      obtain ⟨result',at',takes'⟩ := h.merged present
      exact ⟨result',by rw [findInsert,if_neg same]; exact at',takes'⟩

theorem mergeMerged {second : DefiningMap} (ascending : Ascending first) (ascending' : Ascending second) (clean : CleanMerge first second) :
    Merged first second (mergeDefiningMaps first second) := by
  have each : ∀ (rest done now : DefiningMap), second = done ++ rest → Merged first done now → Merged first second (rest.foldl mergeEntry now) := by
    intro rest
    induction rest with
    | nil =>
        intro done now whole h
        rw [whole,List.append_nil]
        exact h
    | cons entry rest ih =>
        intro done now whole h
        obtain ⟨k,defining⟩ := entry
        have inside : (k,defining) ∈ second := by rw [whole]; simp
        -- The keys already merged are smaller.
        have smaller : ∀ {x e}, find x done = some e → x < k ∧ find x second ≠ none := fun {x e} found => by
          have order := ascending'
          rw [whole] at order
          refine ⟨(List.pairwise_append.mp order).2.2 _ (findMem found) _ List.mem_cons_self,?_⟩
          rw [whole,findAppend,found]
          simp
        refine ih (done ++ [(k,defining)]) _ (by rw [whole,List.append_assoc]; rfl) (h.entry ?_ fun j on => ⟨?_,fun same => ?_⟩)
        · cases found : find k done with
          | none => rfl
          | some e => exact absurd (smaller found).1 (Nat.lt_irrefl k)
        · cases found : find j done with
          | none => rfl
          | some e => exact absurd ((clean _ inside j on).1 (smaller found).1) (smaller found).2
        · exact same ▸ (clean _ inside j on).2 same
  exact each second [] first rfl ⟨ascending,fun _ => rfl,fun found => nomatch found⟩

theorem Covers.merge {second : DefiningMap} {before after : Influence} (h : Covers first before) (h' : Covers second after)
    (clean : CleanMerge first second) : Covers (mergeDefiningMaps first second) (compose before after) := by
  have merged := mergeMerged h.ascending h'.ascending clean
  refine ⟨merged.ascending,fun {x d} absent from' => ?_,fun {x d result} present from' => ?_⟩
  · obtain ⟨j,later,earlier⟩ := from'
    cases found : find x second with
    | none =>
        rw [merged.others found] at absent
        rw [h'.absent found later] at earlier
        exact h.absent absent earlier
    | some defining =>
        obtain ⟨result,at',_⟩ := merged.merged found
        rw [at'] at absent
        cases absent
  · obtain ⟨j,later,earlier⟩ := from'
    cases found : find x second with
    | none =>
        rw [merged.others found] at present
        rw [h'.absent found later] at earlier
        exact h.present present earlier
    | some defining =>
        obtain ⟨result',at',takes⟩ := merged.merged found
        rw [at'] at present
        cases Option.some.inj present
        exact takes j (h'.present found later) d (h.reads earlier)

end Merging

section Recording
variable {m prepared : DefiningMap} {influence : Influence} {x : Nat} {from' : Nat → Prop}

def argumentSymbols (arguments : List Argument) : List Nat :=
  (arguments.filter fun a => !a.special && a.symRefs != []).map Argument.symRefNumber

theorem argumentRecorded {a : Argument} : a.Recorded ↔ (!a.special && a.symRefs != []) = true := by
  have uses : (∃ y, a.loadNode.Uses y) ↔ a.symRefs ≠ [] := by
    constructor
    · rintro ⟨y,uses⟩
      exact List.ne_nil_of_mem ((memArgument a).mpr uses)
    · intro some'
      obtain ⟨y,inside⟩ := List.exists_mem_of_ne_nil _ some'
      exact ⟨y,(memArgument a).mp inside⟩
  rw [Argument.Recorded,uses]
  simp

theorem prepareOther {a : Argument} (away : a.Recorded → x ≠ a.symRefNumber) : find x (prepareArgument m prepared a) = find x prepared := by
  unfold prepareArgument
  split
  · rfl
  · split
    · rfl
    · rename_i plain used
      rw [findInsert,if_neg (away (argumentRecorded.mpr (by simp [plain,used])))]

theorem prepareHere (h : Covers m influence) {a : Argument} (recorded : a.Recorded) :
    ∃ defining, find a.symRefNumber (prepareArgument m prepared a) = some defining ∧
      ∀ d, (∃ y, a.loadNode.Uses y ∧ influence y d) → d ∈ defining := by
  have both := argumentRecorded.mp recorded
  simp only [Bool.and_eq_true,Bool.not_eq_true',bne_iff_ne] at both
  unfold prepareArgument
  rw [both.1,if_neg Bool.false_ne_true,if_neg both.2]
  refine ⟨_,by rw [findInsert,if_pos rfl],?_⟩
  rintro d ⟨y,uses,from'⟩
  exact updateTakes ((memArgument a).mpr uses) fun _ => h.reads from'

theorem prepareOthers (arguments : List Argument) (away : x ∉ argumentSymbols arguments) :
    find x (arguments.foldl (prepareArgument m) prepared) = find x prepared := by
  induction arguments generalizing prepared with
  | nil => rfl
  | cons a rest ih =>
      have split' : ∀ y, y ∈ argumentSymbols rest → y ∈ argumentSymbols (a::rest) := fun y on => by
        unfold argumentSymbols at on ⊢
        rw [List.filter_cons]
        split
        · exact List.mem_cons_of_mem _ on
        · exact on
      rw [List.foldl_cons,ih fun on => away (split' x on)]
      refine prepareOther fun recorded same => away ?_
      unfold argumentSymbols
      rw [List.filter_cons_of_pos (by simpa using argumentRecorded.mp recorded),same]
      exact List.mem_cons_self

theorem prepareAll (h : Covers m influence) (arguments : List Argument) (once : (argumentSymbols arguments).Nodup) {a : Argument} (on : a ∈ arguments)
    (recorded : a.Recorded) : ∃ defining, find a.symRefNumber (arguments.foldl (prepareArgument m) prepared) = some defining ∧
      ∀ d, (∃ y, a.loadNode.Uses y ∧ influence y d) → d ∈ defining := by
  induction arguments generalizing prepared with
  | nil => cases on
  | cons b rest ih =>
      have list : argumentSymbols (b::rest) = if (!b.special && b.symRefs != []) = true then b.symRefNumber::argumentSymbols rest else argumentSymbols rest := by
        unfold argumentSymbols
        rw [List.filter_cons]
        split <;> rfl
      rw [list] at once
      rw [List.foldl_cons]
      rcases List.mem_cons.mp on with rfl | later
      · rw [if_pos (argumentRecorded.mp recorded),List.nodup_cons] at once
        rw [prepareOthers rest once.1]
        exact prepareHere h recorded
      · refine ih ?_ later
        split at once
        · exact (List.nodup_cons.mp once).2
        · exact once

-- The maps of a code block: its stores, and under each recorded symbol all that can influence it.
theorem treesRecorded (trees : List Tree) (h : Covers m influence) (clean : CleanStores m (treeStores trees)) (once : (recordedSymbols trees).Nodup) :
    (trees.foldl buildTree (m,prepared)).1 = buildDefiningMapForBlock m (treeStores trees) ∧
      (∀ x, x ∉ recordedSymbols trees → find x (trees.foldl buildTree (m,prepared)).2 = find x prepared) ∧
        (∀ {x from'}, Records influence trees x from' → x ∈ recordedSymbols trees ∧
          ∃ defining, find x (trees.foldl buildTree (m,prepared)).2 = some defining ∧ ∀ d, from' d → d ∈ defining) := by
  induction trees generalizing m prepared influence with
  | nil => exact ⟨rfl,fun _ _ => rfl,fun records => nomatch records⟩
  | cons tree rest ih =>
      cases tree with
      | store s =>
          obtain ⟨maps,others,all⟩ := @ih _ prepared _ (h.store clean.1) clean.2 once
          refine ⟨maps,others,fun records => ?_⟩
          cases records with
          | afterStore later => exact all later
      | prepareForOSR arguments =>
          have parts : (argumentSymbols arguments ++ recordedSymbols rest).Nodup := once
          obtain ⟨maps,others,all⟩ := @ih m (arguments.foldl (prepareArgument m) prepared) influence h clean parts.of_append_right
          have list : recordedSymbols (.prepareForOSR arguments::rest) = argumentSymbols arguments ++ recordedSymbols rest := rfl
          refine ⟨maps,fun x away => ?_,fun {x from'} records => ?_⟩
          · rw [list,List.mem_append,not_or] at away
            exact (others x away.2).trans (prepareOthers arguments away.1)
          · rw [list]
            cases records with
            | @argument _ _ _ a on recorded =>
                have symbol : a.symRefNumber ∈ argumentSymbols arguments :=
                  List.mem_map.mpr ⟨a,List.mem_filter.mpr ⟨on,argumentRecorded.mp recorded⟩,rfl⟩
                have later : a.symRefNumber ∉ recordedSymbols rest := (List.disjoint_of_nodup_append parts) symbol
                obtain ⟨defining,at',takes⟩ := @prepareAll m prepared influence h arguments parts.of_append_left a on recorded
                exact ⟨List.mem_append_left _ symbol,defining,(others _ later).trans at',takes⟩
            | afterPrepare later =>
                obtain ⟨symbol,found⟩ := all later
                exact ⟨List.mem_append_right _ symbol,found⟩

theorem treesAscending (trees : List Tree) (ascending : Ascending prepared) : Ascending (trees.foldl buildTree (m,prepared)).2 := by
  induction trees generalizing m prepared with
  | nil => exact ascending
  | cons tree rest ih =>
      cases tree with
      | store s => exact ih ascending
      | prepareForOSR arguments =>
          refine ih ?_
          have each : ∀ (arguments : List Argument) (prepared : DefiningMap), Ascending prepared → Ascending (arguments.foldl (prepareArgument m) prepared) := by
            intro arguments
            induction arguments with
            | nil => exact fun _ h => h
            | cons a rest ih =>
                intro prepared h
                refine ih _ ?_
                unfold prepareArgument
                split
                · exact h
                · split
                  · exact h
                  · exact h.insert _ _
          exact each arguments prepared ascending

theorem publishFind {working final : DefiningMap} (ascending : Ascending prepared) (x : Nat) :
    find x (publish working final prepared) =
      ((find x prepared).map fun defining => updateDefiningSymRefs (apart working) defining []).or (find x final) := by
  unfold publish
  induction prepared generalizing final with
  | nil => rfl
  | cons entry rest ih =>
      obtain ⟨k,defining⟩ := entry
      obtain ⟨before,later⟩ := List.pairwise_cons.mp ascending
      rw [List.foldl_cons,ih later,findInsert,find]
      by_cases here : k = x
      · subst here
        have absent : find k rest = none := by
          cases found : find k rest with
          | none => rfl
          | some e => exact absurd (before _ (findMem found)) (Nat.lt_irrefl k)
        rw [absent,if_pos rfl,if_pos rfl]
        rfl
      · rw [if_neg (Ne.symm here),if_neg here]

theorem recordsCompose {before after : Influence} {trees : List Tree} (records : Records (compose before after) trees x from') :
    ∃ own, Records after trees x own ∧ ∀ d, from' d → ∃ j, own j ∧ before j d := by
  induction trees generalizing after with
  | nil => cases records
  | cons tree rest ih =>
      cases records with
      | argument on recorded =>
          refine ⟨_,.argument on recorded,?_⟩
          rintro d ⟨y,uses,j,later,earlier⟩
          exact ⟨j,⟨y,uses,later⟩,earlier⟩
      | afterStore later =>
          rw [composeStore] at later
          obtain ⟨own,records,both⟩ := ih later
          exact ⟨own,.afterStore records,both⟩
      | afterPrepare later =>
          obtain ⟨own,records,both⟩ := ih later
          exact ⟨own,.afterPrepare records,both⟩

end Recording

section Chain
variable {working final : DefiningMap} {influence : Influence}

theorem cleanAppend {m : DefiningMap} {stores more : List Store} (clean : CleanStores m (stores ++ more)) :
    CleanStores m stores ∧ CleanStores (buildDefiningMapForBlock m stores) more := by
  induction stores generalizing m with
  | nil => exact ⟨trivial,clean⟩
  | cons s rest ih =>
      have both := ih clean.2
      exact ⟨⟨clean.1,both.1⟩,both.2⟩

def chainSymbols (levels : List Level) : List Nat := levels.flatMap fun level => recordedSymbols level.codeBlock

theorem cleanFirst {level : Level} {rest : List Level} (clean : CleanLevels working (level::rest)) : CleanStores [] (treeStores level.codeBlock) := by
  cases rest with
  | nil => exact clean
  | cons next rest => exact (cleanAppend clean.1).1

-- What one level publishes, on top of what influenced the symbols before it.
theorem levelPublished (h : Covers working influence) {level : Level} (clean : CleanStores [] (treeStores level.codeBlock))
    (once : (recordedSymbols level.codeBlock).Nodup) :
    (∀ x, x ∉ recordedSymbols level.codeBlock → find x (publish working final (buildDefiningMap level.codeBlock).2) = find x final) ∧
      ∀ {x from'}, Records influence level.codeBlock x from' → x ∈ recordedSymbols level.codeBlock ∧
        ∃ defining, find x (publish working final (buildDefiningMap level.codeBlock).2) = some defining ∧ ∀ d, from' d → d ∈ defining := by
  obtain ⟨_,others,all⟩ := @treesRecorded [] [] _ level.codeBlock coversNothing clean once
  have ascending : Ascending (buildDefiningMap level.codeBlock).2 := treesAscending level.codeBlock List.Pairwise.nil
  refine ⟨fun x away => ?_,fun {x from'} records => ?_⟩
  · have absent : find x (buildDefiningMap level.codeBlock).2 = none := others x away
    rw [publishFind ascending,absent]
    rfl
  · rw [← composeOwn influence] at records
    obtain ⟨own,ownRecords,both⟩ := recordsCompose records
    obtain ⟨symbol,defining,found,takes⟩ := all ownRecords
    have found' : find x (buildDefiningMap level.codeBlock).2 = some defining := found
    refine ⟨symbol,_,by rw [publishFind ascending,found']; rfl,fun d on => ?_⟩
    obtain ⟨j,later,earlier⟩ := both d on
    exact updateTakes (takes j later) fun _ => h.reads earlier

theorem Covers.level (h : Covers working influence) {level : Level} (clean : CleanStores [] (treeStores level.codeBlock ++ level.following))
    (once : (recordedSymbols level.codeBlock).Nodup) (merge : CleanMerge working (levelMap level)) :
    Covers (mergeDefiningMaps working (levelMap level)) (runStores (treeStores level.codeBlock ++ level.following) influence) := by
  obtain ⟨first,second⟩ := cleanAppend clean
  have maps := (@treesRecorded [] [] _ level.codeBlock coversNothing first once).1
  have own : Covers (levelMap level) (runStores (treeStores level.codeBlock ++ level.following) fun x d => d = x) := by
    have all := coversNothing.stores (treeStores level.codeBlock ++ level.following) clean
    have same : levelMap level = buildDefiningMapForBlock [] (treeStores level.codeBlock ++ level.following) := by
      have code : (buildDefiningMap level.codeBlock).1 = buildDefiningMapForBlock [] (treeStores level.codeBlock) := maps
      rw [levelMap,code]
      unfold buildDefiningMapForBlock
      rw [List.foldl_append]
    rw [same]
    exact all
  have composed := h.merge own merge
  rw [← composeStores,composeOwn] at composed
  exact composed

theorem chainPublished (levels : List Level) (h : Covers working influence) (clean : CleanLevels working levels) (once : (chainSymbols levels).Nodup) :
    (∀ x, x ∉ chainSymbols levels → find x (buildFinalMap final working levels) = find x final) ∧
      ∀ {x from'}, ChainRecords influence levels x from' → x ∈ chainSymbols levels ∧
        ∃ defining, find x (buildFinalMap final working levels) = some defining ∧ ∀ d, from' d → d ∈ defining := by
  induction levels generalizing working final influence with
  | nil => exact ⟨fun _ _ => rfl,fun records => nomatch records⟩
  | cons level rest ih =>
      have parts : (recordedSymbols level.codeBlock ++ chainSymbols rest).Nodup := once
      have list : chainSymbols (level::rest) = recordedSymbols level.codeBlock ++ chainSymbols rest := rfl
      obtain ⟨others,here⟩ := @levelPublished working final influence h level (cleanFirst clean) parts.of_append_left
      cases rest with
      | nil =>
          have last : buildFinalMap final working [level] = publish working final (buildDefiningMap level.codeBlock).2 := by rw [buildFinalMap]
          rw [last,list]
          refine ⟨fun x away => others x fun on => away (List.mem_append_left _ on),fun records => ?_⟩
          cases records with
          | here records =>
              obtain ⟨symbol,found⟩ := here records
              exact ⟨List.mem_append_left _ symbol,found⟩
          | above records => cases records
      | cons next rest =>
          have step : buildFinalMap final working (level::next::rest) = buildFinalMap (publish working final (buildDefiningMap level.codeBlock).2)
              (mergeDefiningMaps working (levelMap level)) (next::rest) := by rw [buildFinalMap]; rfl
          obtain ⟨stores,merge,later⟩ := clean
          obtain ⟨others',all⟩ := @ih _ (publish working final (buildDefiningMap level.codeBlock).2) _
            (h.level stores parts.of_append_left merge) later parts.of_append_right
          rw [step,list]
          refine ⟨fun x away => ?_,fun {x from'} records => ?_⟩
          · rw [List.mem_append,not_or] at away
            exact (others' x away.2).trans (others x away.1)
          · cases records with
            | here records =>
                obtain ⟨symbol,defining,found,takes⟩ := here records
                have once' : x ∉ chainSymbols (next::rest) := (List.disjoint_of_nodup_append parts) symbol
                exact ⟨List.mem_append_left _ symbol,defining,(others' x once').trans found,takes⟩
            | above records =>
                obtain ⟨symbol,found⟩ := all records
                exact ⟨List.mem_append_right _ symbol,found⟩

end Chain

def CleanChain (catchBlock : List Store) (levels : List Level) : Prop :=
  CleanStores [] catchBlock ∧ CleanLevels (buildDefiningMapForBlock [] catchBlock) levels

theorem definingMapsSound {catchBlock : List Store} {levels : List Level} (once : (chainSymbols levels).Nodup) (clean : CleanChain catchBlock levels)
    {x : Nat} {from' : Nat → Prop} (recorded : ChainRecords (runStores catchBlock fun x d => d = x) levels x from') :
    ∃ defining, find x (definingMap catchBlock levels) = some defining ∧ ∀ d, from' d → d ∈ defining :=
  ((chainPublished levels (coversNothing.stores catchBlock clean.1) clean.2 once).2 recorded).2

theorem definingMapsSoundSample :
    let load : Nat → Node := fun j => .node (some j) []
    let levels : List Level := [⟨[.store ⟨3,load 1⟩,.prepareForOSR [⟨load 3,3,false⟩]],[]⟩]
    ∃ defining, find 3 (definingMap [⟨1,load 2⟩] levels) = some defining ∧ 2 ∈ defining := by
  intro load levels
  have once : (chainSymbols levels).Nodup := by decide
  have clean : CleanChain [⟨1,load 2⟩] levels := by
    refine ⟨⟨fun own => ?_,trivial⟩,⟨fun own => ?_,trivial⟩⟩
    · exact absurd own (by decide)
    · exact absurd own (by decide)
  have recorded : ChainRecords (runStores [⟨1,load 2⟩] fun x d => d = x) levels 3 _ :=
    .here (.afterStore (.argument List.mem_cons_self ⟨rfl,3,.here⟩))
  obtain ⟨defining,found,takes⟩ := definingMapsSound once clean recorded
  refine ⟨defining,found,takes 2 ⟨3,.here,?_⟩⟩
  exact ⟨1,.here,2,.here,rfl⟩

-- The second store empties the vector it then reads for its own symbol.
theorem ownDefinitionLost :
    let load : Nat → Node := fun j => .node (some j) []
    let levels : List Level := [⟨[.prepareForOSR [⟨load 1,1,false⟩]],[]⟩]
    (∃ from', ChainRecords (runStores [⟨1,load 2⟩,⟨1,load 1⟩] fun x d => d = x) levels 1 from' ∧ from' 2) ∧
      find 1 (definingMap [⟨1,load 2⟩,⟨1,load 1⟩] levels) = some [1] := by
  intro load levels
  refine ⟨⟨_,.here (.argument List.mem_cons_self ⟨rfl,1,.here⟩),1,.here,?_⟩,by decide⟩
  exact ⟨1,.here,2,.here,rfl⟩

end OmrCompiler.OsrDefiningMap
