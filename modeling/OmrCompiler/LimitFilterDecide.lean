import OmrCompiler.LimitFilterStore

/-! Limit filters decide as they are written, as long as no character of a filter's name
is dropped; the cursor falls short by each separator that is not part of a piece. -/
namespace OmrCompiler.LimitFilters
open SearchTree

section Reading
variable {e : Entry}

def Components.length (c : Components) : Nat := c.name.length + c.class'.length + c.signature.length

structure Scanned (e : Entry) (filter : Filter) (length : Nat) : Prop where
  positive : length ≠ 0
  within : length ≤ e.pattern.text.length
  whole : length = e.pattern.text.length ↔ e.pattern.kind ≠ .specific
  kept : e.pattern.Kept → filter = e.filter ∧ length = e.pattern.components.length

theorem noBrace {w r : Text} (mark : NoMark w) (next : w = [] → r.head? ≠ some '{') : (w ++ r).head? ≠ some '{' := by
  cases w with
  | nil => exact next rfl
  | cons c w => exact mark.2

theorem readWritten (formed : e.WellFormed) (plain : e.pattern.kind ≠ .regex) :
    (e.pattern.text ++ e.rest).head? ≠ some '{' ∧
      ∃ filter length, scanFilterName (e.pattern.text ++ e.rest) (newFilter e.exclude e.optionSet e.lineNum) = (filter,length) ∧ Scanned e filter length := by
  obtain ⟨pattern,exclude,optionSet,lineNum,rest⟩ := e
  cases pattern with
  | name n =>
      obtain ⟨word,filled,mark,stops⟩ := formed
      refine ⟨noBrace mark fun none => absurd none filled,_,_,readName word mark filled stops,?_⟩
      have positive := List.length_pos_of_ne_nil filled
      exact ⟨Nat.pos_iff_ne_zero.mp positive,Nat.le_refl _,by simp [Pattern.text,Pattern.kind],fun _ => ⟨rfl,rfl⟩⟩
  | nameSig n t =>
      obtain ⟨word,parameters,mark,stops⟩ := formed
      have split : (n ++ '('::t) ++ rest = n ++ '('::(t ++ rest) := by simp
      change (n ++ '('::t ++ rest).head? ≠ _ ∧ ∃ _ _, scanFilterName (n ++ '('::t ++ rest) _ = _ ∧ _
      rw [split]
      refine ⟨noBrace mark fun _ => by simp,_,_,readNameSig word parameters mark stops,?_⟩
      exact ⟨by simp,by simp [Pattern.text],by simp [Pattern.text,Pattern.kind],fun _ => ⟨rfl,rfl⟩⟩
  | classNameSig c n t =>
      obtain ⟨word,name,parameters,filled,mark,stops⟩ := formed
      have split : (c ++ '.'::(n ++ '('::t)) ++ rest = c ++ '.'::(n ++ '('::(t ++ rest)) := by simp
      change (c ++ '.'::(n ++ '('::t) ++ rest).head? ≠ _ ∧ ∃ _ _, scanFilterName (c ++ '.'::(n ++ '('::t) ++ rest) _ = _ ∧ _
      rw [split]
      refine ⟨noBrace mark fun none => absurd none filled,_,_,readClassNameSig word name parameters mark filled stops,?_⟩
      have short : n.length + c.length + ('('::t).length < (c ++ '.'::(n ++ '('::t)).length := by
        simp only [List.length_append,List.length_cons]
        omega
      exact ⟨by simp,Nat.le_of_lt short,⟨fun same => absurd same (Nat.ne_of_lt short),fun other => absurd rfl other⟩,fun _ => ⟨rfl,rfl⟩⟩
  | omr f l n =>
      obtain ⟨omr,file,line,unbroken,stops⟩ := formed
      have split : (f ++ ':'::(l ++ ':'::n)) ++ rest = f ++ ':'::(l ++ ':'::(n ++ rest)) := by simp
      change (f ++ ':'::(l ++ ':'::n) ++ rest).head? ≠ _ ∧ ∃ _ _, scanFilterName (f ++ ':'::(l ++ ':'::n) ++ rest) _ = _ ∧ _
      rw [split]
      have filled : f ≠ [] := by
        rintro rfl
        cases omr
      have first : (f ++ ':'::(l ++ ':'::(n ++ rest))).head? ≠ some '{' := by
        cases f with
        | nil => exact absurd rfl filled
        | cons x f =>
            intro brace
            cases brace
            cases omr
      refine ⟨first,_,_,readOmr omr file line unbroken stops,?_⟩
      have bound := countedBound n
      have positive := List.length_pos_of_ne_nil filled
      have short : counted n + f.length + l.length < (f ++ ':'::(l ++ ':'::n)).length := by
        simp only [List.length_append,List.length_cons]
        omega
      refine ⟨by omega,Nat.le_of_lt short,⟨fun same => absurd same (Nat.ne_of_lt short),fun other => absurd rfl other⟩,fun kept => ?_⟩
      rw [countedAll kept,List.take_left]
      exact ⟨rfl,rfl⟩
  | regex text r => exact absurd rfl plain

theorem createBrace {s rest : Text} {r : Regex.SimpleRegex} (created : Regex.create s = some (r,rest)) : s.head? = some '{' := by
  unfold Regex.create at created
  split at created
  · rfl
  · cases created

def Entry.add (e : Entry) (filters : CompilationFilters) : Option (Text × CompilationFilters) :=
  addFilter (e.pattern.text ++ e.rest) e.exclude e.optionSet e.lineNum filters

theorem addPlain (formed : e.WellFormed) (plain : e.pattern.kind ≠ .regex) (filters : CompilationFilters) :
    ∃ filter length, Scanned e filter length ∧
      e.add filters = some ((e.pattern.text ++ e.rest).drop length,newDefault (place filters filter length) e.exclude e.optionSet) := by
  obtain ⟨brace,filter,length,read,scanned⟩ := readWritten formed plain
  refine ⟨filter,length,scanned,?_⟩
  have read' : scanFilterName (e.pattern.text ++ e.rest) ⟨if e.exclude then .excludeNameOnly else .nameOnly,e.optionSet,e.lineNum,[],0,[],[],none⟩ =
      (filter,length) := read
  unfold Entry.add addFilter
  rw [if_neg brace]
  simp only [read']
  rw [if_neg scanned.positive]

theorem addRegex {text : Text} {r : Regex.SimpleRegex} (is : e.pattern = .regex text r) (formed : e.WellFormed) (filters : CompilationFilters) :
    e.add filters = some (e.rest,newDefault {filters with filterRegexList := e.filter::(if filters.hasRegexFilter then filters.filterRegexList else []),
                                                          hasRegexFilter := true} e.exclude e.optionSet) := by
  obtain ⟨pattern,exclude,optionSet,lineNum,rest⟩ := e
  cases is
  have created : Regex.create ((Pattern.regex text r).text ++ rest) = some (r,rest) := formed
  unfold Entry.add addFilter
  rw [if_pos (createBrace created)]
  simp only [created]
  rfl

end Reading

section Stored
variable {filters : CompilationFilters} {entries : List Entry} {e : Entry}

def isKind (k : Kind) (e : Entry) : Bool := decide (e.pattern.kind = k)

def hashedIn (i : Nat) (e : Entry) : Bool :=
  (isKind .specific e || isKind .nameSig e) && decide (e.pattern.components.length % filterHashSize = i)

def stored (which : Entry → Bool) (entries : List Entry) : List Filter := (entries.filter which).map Entry.filter

structure Stored (filters : CompilationFilters) (entries : List Entry) : Prop where
  names : filters.filterNameList = insertAll compareFilters (stored (isKind .name) entries)
  hash : ∀ i, filters.filterHash i = insertAll compareFilters (stored (hashedIn i) entries)
  regexes : filters.filterRegexList = (stored (isKind .regex) entries).reverse
  hasName : filters.hasNameFilter = entries.any (isKind .name)
  hasNameSig : filters.hasNameSigFilter = entries.any (isKind .nameSig)
  hasSpecific : filters.hasClassNameSigFilter = entries.any (isKind .specific)
  hasRegex : filters.hasRegexFilter = entries.any (isKind .regex)

theorem nothingStored : Stored clearFilters [] := ⟨rfl,fun _ => rfl,rfl,rfl,rfl,rfl,rfl⟩

theorem storedSnoc (which : Entry → Bool) (entries : List Entry) (e : Entry) :
    stored which (entries ++ [e]) = if which e then stored which entries ++ [e.filter] else stored which entries := by
  unfold stored
  rw [List.filter_append,List.map_append,List.filter_singleton]
  cases which e
  · simp
  · rfl

theorem insertedSnoc (which : Entry → Bool) (entries : List Entry) (e : Entry) :
    insertAll compareFilters (stored which (entries ++ [e])) =
      if which e then insert e.filter (insertAll compareFilters (stored which entries)) else insertAll compareFilters (stored which entries) := by
  rw [storedSnoc]
  split
  · exact insertAllSnoc _ _
  · rfl

theorem storedEmpty {which : Entry → Bool} (unset : ¬ entries.any which = true) : stored which entries = [] := by
  unfold stored
  rw [List.map_eq_nil_iff,List.filter_eq_nil_iff]
  exact fun e on is => unset (List.any_eq_true.mpr ⟨e,on,is⟩)

theorem anySnoc (p : Entry → Bool) (entries : List Entry) (e : Entry) : (entries ++ [e]).any p = (entries.any p || p e) := by
  simp

theorem Stored.default (held : Stored filters entries) (scanningExclude : Bool) (optionSet : Nat) :
    Stored (newDefault filters scanningExclude optionSet) entries := by
  unfold newDefault
  split
  · exact ⟨held.names,held.hash,held.regexes,held.hasName,held.hasNameSig,held.hasSpecific,held.hasRegex⟩
  · exact held

theorem defaultSnoc (held : filters.defaultExclude = defaultExcluded entries) :
    (newDefault filters e.exclude e.optionSet).defaultExclude = defaultExcluded (entries ++ [e]) := by
  unfold defaultExcluded newDefault
  rw [anySnoc]
  split
  · rename_i include'
    simp [include']
  · rename_i other
    rw [held,defaultExcluded]
    simp [other]

theorem placeDefault (filter : Filter) (length : Nat) : (place filters filter length).defaultExclude = filters.defaultExclude := by
  unfold place
  split
  · rfl
  · dsimp only
    split <;> rfl

theorem placeName (kind : e.pattern.kind = .name) (filters : CompilationFilters) (length : Nat) :
    place filters e.filter length = {filters with filterNameList := insert e.filter filters.filterNameList,hasNameFilter := true} := by
  have type' : e.filter.filterType = if e.exclude then .excludeNameOnly else .nameOnly := by
    change e.filterType = _
    rw [Entry.filterType,kind]
  unfold place
  rw [if_pos (by rw [type']; cases e.exclude <;> simp)]

theorem placeHashed (kind : e.pattern.kind = .nameSig ∨ e.pattern.kind = .specific) (filters : CompilationFilters) (length : Nat) :
    place filters e.filter length =
      {filters with
        filterHash := fun i => if i = length % filterHashSize then insert e.filter (filters.filterHash i) else filters.filterHash i,
        hasNameSigFilter := filters.hasNameSigFilter || isKind .nameSig e,
        hasClassNameSigFilter := filters.hasClassNameSigFilter || isKind .specific e} := by
  have type' : e.filter.filterType = e.filterType := rfl
  unfold place isKind
  rcases kind with kind | kind
  · rw [type',Entry.filterType,kind]
    cases e.exclude <;> simp
  · rw [type',Entry.filterType,kind]
    cases e.exclude <;> simp

theorem Stored.name (held : Stored filters entries) (kind : e.pattern.kind = .name) (length : Nat) :
    Stored (place filters e.filter length) (entries ++ [e]) := by
  rw [placeName kind]
  refine ⟨?_,fun i => ?_,?_,?_,?_,?_,?_⟩
  · rw [insertedSnoc,if_pos (by simp [isKind,kind]),← held.names]
  · rw [insertedSnoc,if_neg (by simp [hashedIn,isKind,kind]),← held.hash i]
  · rw [storedSnoc,if_neg (by simp [isKind,kind]),← held.regexes]
  · simp [isKind,kind]
  · rw [anySnoc,← held.hasNameSig]
    simp [isKind,kind]
  · rw [anySnoc,← held.hasSpecific]
    simp [isKind,kind]
  · rw [anySnoc,← held.hasRegex]
    simp [isKind,kind]

theorem Stored.hashed (held : Stored filters entries) (kind : e.pattern.kind = .nameSig ∨ e.pattern.kind = .specific) :
    Stored (place filters e.filter e.pattern.components.length) (entries ++ [e]) := by
  have notName : isKind .name e = false := by rcases kind with kind | kind <;> simp [isKind,kind]
  have notRegex : isKind .regex e = false := by rcases kind with kind | kind <;> simp [isKind,kind]
  have hashed : ∀ i, hashedIn i e = decide (i = e.pattern.components.length % filterHashSize) := fun i => by
    unfold hashedIn
    rcases kind with kind | kind <;> simp [isKind,kind,eq_comm]
  rw [placeHashed kind]
  refine ⟨?_,fun i => ?_,?_,?_,?_,?_,?_⟩
  · rw [insertedSnoc,if_neg (by simp [notName]),← held.names]
  · rw [insertedSnoc,hashed]
    simp only [decide_eq_true_eq,← held.hash i]
  · rw [storedSnoc,if_neg (by simp [notRegex]),← held.regexes]
  · rw [anySnoc,← held.hasName,notName,Bool.or_false]
  · rw [anySnoc,← held.hasNameSig]
  · rw [anySnoc,← held.hasSpecific]
  · rw [anySnoc,← held.hasRegex,notRegex,Bool.or_false]

theorem Stored.regex (held : Stored filters entries) (kind : e.pattern.kind = .regex) :
    Stored {filters with filterRegexList := e.filter::(if filters.hasRegexFilter then filters.filterRegexList else []),hasRegexFilter := true}
      (entries ++ [e]) := by
  have list : (if filters.hasRegexFilter then filters.filterRegexList else []) = (stored (isKind .regex) entries).reverse := by
    split
    · exact held.regexes
    · rename_i empty
      rw [held.hasRegex] at empty
      rw [storedEmpty empty]
      rfl
  rw [list]
  refine ⟨?_,fun i => ?_,?_,?_,?_,?_,?_⟩
  · rw [insertedSnoc,if_neg (by simp [isKind,kind]),← held.names]
  · rw [insertedSnoc,if_neg (by simp [hashedIn,isKind,kind]),← held.hash i]
  · rw [storedSnoc,if_pos (by simp [isKind,kind]),List.reverse_append]
    rfl
  · rw [anySnoc,← held.hasName]
    simp [isKind,kind]
  · rw [anySnoc,← held.hasNameSig]
    simp [isKind,kind]
  · rw [anySnoc,← held.hasSpecific]
    simp [isKind,kind]
  · simp [isKind,kind]

structure Holds (filters : CompilationFilters) (entries : List Entry) : Prop where
  stored : Stored filters entries
  default : filters.defaultExclude = defaultExcluded entries

theorem Holds.add (held : Holds filters entries) (formed : e.WellFormed) (kept : e.pattern.Kept) :
    ∃ cursor filters', e.add filters = some (cursor,filters') ∧ Holds filters' (entries ++ [e]) := by
  by_cases kind : e.pattern.kind = .regex
  · cases is : e.pattern with
    | regex text r => exact ⟨_,_,addRegex is formed filters,(held.stored.regex kind).default _ _,defaultSnoc held.default⟩
    | name n => rw [is] at kind; cases kind
    | nameSig n t => rw [is] at kind; cases kind
    | classNameSig c n t => rw [is] at kind; cases kind
    | omr f l n => rw [is] at kind; cases kind
  · obtain ⟨filter,length,scanned,added⟩ := addPlain formed kind filters
    obtain ⟨rfl,rfl⟩ := scanned.kept kept
    refine ⟨_,_,added,.default ?_ _ _,defaultSnoc ((placeDefault _ _).trans held.default)⟩
    cases other : e.pattern.kind with
    | name => exact held.stored.name other _
    | nameSig => exact held.stored.hashed (.inl other)
    | specific => exact held.stored.hashed (.inr other)
    | regex => exact absurd other kind

-- The filters after a list of texts, each read at its own cursor.
def addAll (filters : CompilationFilters) : List Entry → Option CompilationFilters
  | [] => some filters
  | e::rest => do addAll (← e.add filters).2 rest

theorem Holds.addAll (held : Holds filters entries) (more : List Entry) (written : ∀ e ∈ more, e.WellFormed ∧ e.pattern.Kept) :
    ∃ filters', addAll filters more = some filters' ∧ Holds filters' (entries ++ more) := by
  induction more generalizing filters entries with
  | nil => exact ⟨filters,rfl,by rwa [List.append_nil]⟩
  | cons e rest ih =>
      obtain ⟨formed,kept⟩ := written e List.mem_cons_self
      obtain ⟨cursor,next,added,held'⟩ := held.add formed kept
      obtain ⟨filters',all,final⟩ := ih held' fun x on => written x (List.mem_cons_of_mem _ on)
      rw [List.append_assoc] at final
      refine ⟨filters',?_,final⟩
      rw [LimitFilters.addAll,added]
      exact all

end Stored

section Decide
variable {filters : CompilationFilters} {entries : List Entry} {p : MethodPieces} {c : Components}

theorem storedFind (which : Entry → Bool) (entries : List Entry) (wanted : Filter → Bool) :
    (stored which entries).find? wanted = (entries.find? fun e => which e && wanted e.filter).map Entry.filter := by
  unfold stored
  rw [List.find?_map,List.find?_filter]
  simp

theorem storedMeasured {which : Entry → Bool} {f : Filter} (on : f ∈ stored which entries) : f.Measured := by
  obtain ⟨e,_,rfl⟩ := List.mem_map.mp on
  rfl

theorem storedNames {f : Filter} (on : f ∈ stored (isKind .name) entries) : f.NameOnly := by
  obtain ⟨e,inside,rfl⟩ := List.mem_map.mp on
  have kind : e.pattern.kind = .name := of_decide_eq_true (List.mem_filter.mp inside).2
  unfold Filter.NameOnly Entry.filter
  cases is : e.pattern with
  | name n => exact ⟨rfl,rfl⟩
  | nameSig n t => rw [is] at kind; cases kind
  | classNameSig c n t => rw [is] at kind; cases kind
  | omr f l n => rw [is] at kind; cases kind
  | regex text r => rw [is] at kind; cases kind

theorem findBucket (held : Stored filters entries) (of : p.Of c) (i : Nat) :
    SearchTree.find p.position (filters.filterHash i) =
      (entries.find? fun e => hashedIn i e && decide (e.pattern.components = c)).map Entry.filter := by
  rw [held.hash,findComponents of fun f on => storedMeasured on,storedFind]
  rfl

theorem specificClass {e : Entry} (formed : e.WellFormed) (kind : e.pattern.kind = .specific) : e.pattern.components.class' ≠ [] := by
  unfold Entry.WellFormed at formed
  cases is : e.pattern with
  | classNameSig c n t =>
      rw [is] at formed
      exact formed.2.2.2.1
  | omr f l n =>
      rw [is] at formed
      rintro (rfl : f = [])
      cases formed.1
  | name n => rw [is] at kind; cases kind
  | nameSig n t => rw [is] at kind; cases kind
  | regex text r => rw [is] at kind; cases kind

theorem nameSigPieces {e : Entry} (kind : e.pattern.kind = .nameSig) : e.pattern.components.class' = [] ∧ e.pattern.components.signature ≠ [] := by
  cases is : e.pattern with
  | nameSig n t => exact ⟨rfl,List.cons_ne_nil _ _⟩
  | classNameSig c n t => rw [is] at kind; cases kind
  | omr f l n => rw [is] at kind; cases kind
  | name n => rw [is] at kind; cases kind
  | regex text r => rw [is] at kind; cases kind

-- In the bucket of its length only a filter with a class is a method's whole signature.
theorem specificOnly {e : Entry} (qualified : c.class' ≠ [] ∨ c.signature = []) :
    (hashedIn (c.length % filterHashSize) e && decide (e.pattern.components = c)) = decide (e.pattern.kind = .specific ∧ e.pattern.components = c) := by
  rw [Bool.eq_iff_iff]
  simp only [hashedIn,isKind,Bool.and_eq_true,Bool.or_eq_true,decide_eq_true_eq]
  constructor
  · rintro ⟨⟨kind | kind,_⟩,same⟩
    · exact ⟨kind,same⟩
    · have pieces := nameSigPieces kind
      rw [same] at pieces
      exact absurd qualified (not_or.mpr ⟨not_not_intro pieces.1,pieces.2⟩)
  · rintro ⟨kind,rfl⟩
    exact ⟨⟨.inl kind,rfl⟩,rfl⟩

theorem nameSigOnly {e : Entry} (formed : e.WellFormed) (i : Nat) (bucket : i = (c.name.length + c.signature.length) % filterHashSize) :
    (hashedIn i e && decide (e.pattern.components = ⟨c.name,[],c.signature⟩)) =
      decide (e.pattern.kind = .nameSig ∧ e.pattern.components.name = c.name ∧ e.pattern.components.signature = c.signature) := by
  rw [Bool.eq_iff_iff]
  simp only [hashedIn,isKind,Bool.and_eq_true,Bool.or_eq_true,decide_eq_true_eq]
  constructor
  · rintro ⟨⟨kind | kind,_⟩,same⟩
    · exact absurd (congrArg Components.class' same) (specificClass formed kind)
    · rw [same]
      exact ⟨kind,rfl,rfl⟩
  · rintro ⟨kind,name,signature⟩
    have same : e.pattern.components = ⟨c.name,[],c.signature⟩ := by
      rw [← name,← signature,← (nameSigPieces kind).1]
    refine ⟨⟨.inr kind,?_⟩,same⟩
    rw [same,bucket]
    rfl

-- A flag that was never set stands for an empty search.
theorem flagged {which : Entry → Bool} {wanted : Entry → Bool} (only : ∀ e, wanted e = true → which e = true) {result : Option Filter}
    (found : result = (entries.find? wanted).map Entry.filter) :
    (if entries.any which then result else none) = (entries.find? wanted).map Entry.filter := by
  split
  · exact found
  · rename_i unset
    have absent : entries.find? wanted = none := by
      rw [List.find?_eq_none]
      exact fun e on want => unset (List.any_eq_true.mpr ⟨e,on,only e want⟩)
    rw [absent]
    rfl

theorem findHashedWritten (held : Stored filters entries) (written : ∀ e ∈ entries, e.WellFormed) (of : p.Of c)
    (qualified : c.class' ≠ [] ∨ c.signature = []) :
    findHashed p filters =
      ((entries.find? fun e => decide (e.pattern.kind = .specific ∧ e.pattern.components = c)).or
        (entries.find? fun e =>
          decide (e.pattern.kind = .nameSig ∧ e.pattern.components.name = c.name ∧ e.pattern.components.signature = c.signature))).map Entry.filter := by
  have whole : (p.methodNameLen + p.methodSignatureLen + p.methodClassLen) % filterHashSize = c.length % filterHashSize := by
    rw [of.nameLen,of.signatureLen,of.classLen,Components.length]
    congr 1
    omega
  have specific := findBucket held of (c.length % filterHashSize)
  simp only [specificOnly qualified] at specific
  have sig : ({p with methodClass := [],methodClassLen := 0} : MethodPieces).Of ⟨c.name,[],c.signature⟩ :=
    ⟨of.name,of.nameLen,rfl,rfl,of.signature,of.signatureLen⟩
  have nameSig := findBucket held sig ((p.methodNameLen + p.methodSignatureLen) % filterHashSize)
  rw [List.find?_congr fun e on => nameSigOnly (written e on) _ (by rw [of.nameLen,of.signatureLen])] at nameSig
  have first := @flagged entries (isKind .specific) _ (fun e want => decide_eq_true (of_decide_eq_true want).1) _ specific
  have second := @flagged entries (isKind .nameSig) _ (fun e want => decide_eq_true (of_decide_eq_true want).1) _ nameSig
  have searched : findHashed p filters =
      (if filters.hasClassNameSigFilter then
          SearchTree.find p.position (filters.filterHash ((p.methodNameLen + p.methodSignatureLen + p.methodClassLen) % filterHashSize))
        else none).or
        (if filters.hasNameSigFilter then
          SearchTree.find ({p with methodClass := [],methodClassLen := 0} : MethodPieces).position
            (filters.filterHash ((p.methodNameLen + p.methodSignatureLen) % filterHashSize))
        else none) := by
    unfold findHashed
    simp only [findPosition]
    split
    · rename_i found
      rw [found]
      rfl
    · rename_i absent
      rw [absent]
      rfl
  rw [searched,whole,held.hasSpecific,held.hasNameSig,first,second,Option.map_or]

theorem findNamedWritten (held : Stored filters entries) (written : ∀ e ∈ entries, e.WellFormed) (of : p.Of c)
    (qualified : c.class' ≠ [] ∨ c.signature = []) : findNamed p filters = (chosen entries c).map Entry.filter := by
  have named : findName p.methodName p.methodNameLen filters.filterNameList =
      (entries.find? fun e => decide (e.pattern.kind = .name ∧ e.pattern.components.name = c.name)).map Entry.filter := by
    rw [held.names,findNames of (fun f on => storedMeasured on) (fun f on => storedNames on),storedFind]
    simp only [isKind,Bool.decide_and]
    rfl
  have third := @flagged entries (isKind .name) _ (fun e want => decide_eq_true (of_decide_eq_true want).1) _ named
  have searched : findNamed p filters =
      (findHashed p filters).or (if filters.hasNameFilter then findName p.methodName p.methodNameLen filters.filterNameList else none) := by
    unfold findNamed
    cases findHashed p filters <;> rfl
  rw [searched,findHashedWritten held written of qualified,held.hasName,third,← Option.map_or]
  rfl

theorem findRegexWritten (rules : Regex.CaseRules) (text : Text) (entries : List Entry) :
    findRegex rules text (stored (isKind .regex) entries) = (firstMatching rules text entries).map (Option.map Entry.filter) := by
  induction entries with
  | nil => rfl
  | cons e rest ih =>
      unfold firstMatching
      cases is : e.pattern with
      | regex pattern r =>
          have keeps : stored (isKind .regex) (e::rest) = e.filter::stored (isKind .regex) rest := by
            simp [stored,isKind,is,Pattern.kind]
          have regex : e.filter.regex = some r := by simp [Entry.filter,is]
          rw [keeps,findRegex]
          simp only [regex]
          cases Regex.matchFilter rules r text with
          | none => rfl
          | some matched =>
              cases matched
              · exact ih
              · rfl
      | name n => exact (congrArg _ (by simp [stored,isKind,is,Pattern.kind])).trans ih
      | nameSig n t => exact (congrArg _ (by simp [stored,isKind,is,Pattern.kind])).trans ih
      | classNameSig c n t => exact (congrArg _ (by simp [stored,isKind,is,Pattern.kind])).trans ih
      | omr f l n => exact (congrArg _ (by simp [stored,isKind,is,Pattern.kind])).trans ih

theorem filterExclude (e : Entry) : e.filter.filterType.isExclude = e.exclude := by
  change e.filterType.isExclude = _
  unfold Entry.filterType
  cases e.pattern.kind <;> cases e.exclude <;> rfl

theorem methodQualified {methodType : MethodType} {m : Method} (formed : m.WellFormed methodType) :
    m.components.class' ≠ [] ∨ m.components.signature = [] := by
  cases m with
  | java c n t => exact .inl formed.2.2.2.2.1
  | omr f l n =>
      refine .inl ?_
      rintro (rfl : f = [])
      rcases formed.1 with mark | ⟨_,mark⟩ <;> cases mark
  | plain n => exact .inr rfl

theorem Holds.decides (held : Holds filters entries) (written : ∀ e ∈ entries, e.WellFormed) (rules : Regex.CaseRules) {methodType : MethodType}
    {m : Method} (formed : m.WellFormed methodType) : methodSigCanBeFound rules m.text filters methodType = asWritten rules entries m := by
  obtain ⟨p,pieces,of⟩ := methodPiecesOf formed
  have named := findNamedWritten held.stored written of (methodQualified formed)
  have regexes : findRegex rules m.text filters.filterRegexList = (firstMatching rules m.text entries.reverse).map (Option.map Entry.filter) := by
    rw [held.stored.regexes,← findRegexWritten]
    simp [LimitFilters.stored,List.filter_reverse]
  unfold methodSigCanBeFound asWritten findFilter
  rw [pieces]
  simp only [Option.bind_eq_bind,Option.bind_some,named]
  cases chosen entries m.components with
  | some e => exact congrArg (fun b => some !b) (filterExclude e)
  | none =>
      have searched : (if filters.hasRegexFilter then findRegex rules m.text filters.filterRegexList else some none) =
          (firstMatching rules m.text entries.reverse).map (Option.map Entry.filter) := by
        split
        · exact regexes
        · rename_i unset
          rw [held.stored.hasRegex] at unset
          rw [held.stored.regexes,storedEmpty unset] at regexes
          exact regexes
      change (if filters.hasRegexFilter then findRegex rules m.text filters.filterRegexList else some none).bind _ = _
      rw [searched,held.default]
      cases firstMatching rules m.text entries.reverse with
      | none => rfl
      | some found =>
          cases found with
          | none => rfl
          | some e => exact congrArg (fun b => some !b) (filterExclude e)

end Decide

end OmrCompiler.LimitFilters
