import OmrCompiler.LimitFilterDecide

/-! Whether a filter whose text is a method's own signature selects the method, and where
the cursor stands after a filter. -/
namespace OmrCompiler.LimitFilters
open SearchTree

section Single
variable {filter : Filter} {length : Nat} {p : MethodPieces}

theorem pieceLength {chars other : Text} {len otherLen : Nat} (zero : comparePiece chars len other otherLen = 0) : otherLen = len := by
  unfold comparePiece at zero
  dsimp only at zero
  split at zero
  · omega
  · rename_i differs
    exact absurd zero differs

theorem findOne {position : Filter → Int} {f g : Filter} (found : SearchTree.find position (SearchTree.insert compareFilters f .empty) = some g) :
    position f = 0 := by
  unfold SearchTree.insert SearchTree.find at found
  split at found
  · rename_i zero
    exact zero
  · split at found <;> cases found

theorem positionLengths (zero : p.position filter = 0) : filter.nameLen = p.methodNameLen ∧ filter.class'.length = p.methodClassLen ∧
    filter.signature.length = p.methodSignatureLen := by
  unfold MethodPieces.position at zero
  split at zero
  · rename_i name
    split at zero
    · rename_i class'
      exact ⟨pieceLength name,pieceLength class',pieceLength zero⟩
    · rename_i differs
      exact absurd zero differs
  · rename_i differs
    exact absurd zero differs

def oneBucket (filter : Filter) (bucket i : Nat) : FilterBST := if i = bucket then insert filter .empty else .empty

theorem findBucketed {position : Filter → Int} {bucket i : Nat} {g : Filter} (found : SearchTree.find position (oneBucket filter bucket i) = some g) :
    position filter = 0 := by
  unfold oneBucket at found
  split at found
  · exact findOne found
  · cases found

variable {filters : CompilationFilters}

theorem unnamed (off : filters.hasNameFilter = false) : findNamed p filters = findHashed p filters := by
  unfold findNamed
  rw [off]
  cases findHashed p filters <;> rfl

theorem wholeOnly (on : filters.hasClassNameSigFilter = true) (off : filters.hasNameSigFilter = false) : findHashed p filters =
    SearchTree.find p.position (filters.filterHash ((p.methodNameLen + p.methodSignatureLen + p.methodClassLen) % filterHashSize)) := by
  unfold findHashed
  simp only [findPosition,on,off,if_true,Bool.false_eq_true,if_false]
  split
  · rename_i found
    exact found.symm
  · rename_i absent
    exact absent.symm

-- What the one filter must have for the method to be found by it.
theorem foundSingle {g : Filter} (found : findNamed p (newDefault (place clearFilters filter length) false 0) = some g) :
    filter.nameLen = p.methodNameLen ∧
      (filter.filterType = .specificMethod → filter.class'.length = p.methodClassLen ∧ filter.signature.length = p.methodSignatureLen) := by
  have same : findNamed p (newDefault (place clearFilters filter length) false 0) = findNamed p (place clearFilters filter length) := rfl
  rw [same] at found
  unfold place at found
  split at found
  · rename_i kind
    have named : findName p.methodName p.methodNameLen (insert filter .empty) = some g := found
    have zero := findOne named
    refine ⟨pieceLength zero,fun specific => ?_⟩
    rw [specific] at kind
    rcases kind with kind | kind <;> cases kind
  · dsimp only at found
    split at found
    · rename_i kind
      rw [unnamed rfl] at found
      have hashed : SearchTree.find ({p with methodClass := [],methodClassLen := 0} : MethodPieces).position
          (oneBucket filter (length % filterHashSize) ((p.methodNameLen + p.methodSignatureLen) % filterHashSize)) = some g := found
      refine ⟨(positionLengths (findBucketed hashed)).1,fun specific => ?_⟩
      rw [specific] at kind
      rcases kind with kind | kind <;> cases kind
    · have hashed : SearchTree.find p.position
          (oneBucket filter (length % filterHashSize) ((p.methodNameLen + p.methodSignatureLen + p.methodClassLen) % filterHashSize)) = some g := by
        rw [unnamed rfl,wholeOnly rfl rfl] at found
        exact found
      have lengths := positionLengths (findBucketed hashed)
      exact ⟨lengths.1,fun _ => lengths.2⟩

end Single

section Bounds
variable {exclude : Bool} {s : Scan} {bound : Nat}

theorem nameBound (r : Text) (name : s.name.len ≤ bound) (left : s.signature.len + r.length ≤ bound + 1) :
    (scanJava exclude r s).name.len ≤ bound := by
  induction r generalizing s with
  | nil => exact name
  | cons c r ih =>
      rw [List.length_cons] at left
      unfold scanJava
      split
      · exact name
      · split
        · refine ih name ?_
          change 0 + r.length ≤ _
          omega
        · split
          · refine ih (s := {s with name := s.signature,signature := _,filterType := _}) ?_ ?_
            · change s.signature.len ≤ _
              omega
            · change 1 + r.length ≤ _
              omega
          · refine ih name ?_
            change s.signature.len + 1 + r.length ≤ _
            omega

theorem signatureBound (r : Text) (left : s.signature.len + r.length ≤ bound) : (scanJava exclude r s).signature.len ≤ bound := by
  induction r generalizing s with
  | nil => exact left
  | cons c r ih =>
      rw [List.length_cons] at left
      unfold scanJava
      split
      · omega
      · split
        · refine ih ?_
          change 0 + r.length ≤ _
          omega
        · split
          · refine ih ?_
            change 1 + r.length ≤ _
            omega
          · refine ih ?_
            change s.signature.len + 1 + r.length ≤ _
            omega

theorem nameStays (r : Text) (named : s.name.chars.isNone = false) (reading : s.signature.chars.isNone = false) : (scanJava exclude r s).name.chars.isNone = false := by
  induction r generalizing s with
  | nil => exact named
  | cons c r ih =>
      unfold scanJava
      split
      · exact named
      · split
        · exact ih named rfl
        · split
          · exact ih reading rfl
          · exact ih named reading

end Bounds

section Own
variable {rules : Regex.CaseRules} {methodType : MethodType} {lineNum : Nat} {m : Method}

-- The method's own text, added as the only filter, includes it.
def OwnTextSelects (rules : Regex.CaseRules) (methodType : MethodType) (lineNum : Nat) (m : Method) : Prop :=
  ∃ cursor filters, addFilter m.text false 0 lineNum clearFilters = some (cursor,filters) ∧
    methodSigCanBeFound rules m.text filters methodType = some true

theorem placeRegex (filters : CompilationFilters) (filter : Filter) (length : Nat) :
    (place filters filter length).hasRegexFilter = filters.hasRegexFilter := by
  unfold place
  split
  · rfl
  · dsimp only
    split <;> rfl

structure Matched (filter : Filter) (length : Nat) (c : Components) : Prop where
  positive : length ≠ 0
  name : filter.nameLen = c.name.length
  class' : filter.filterType = .specificMethod → filter.class'.length = c.class'.length
  signature : filter.filterType = .specificMethod → filter.signature.length = c.signature.length

theorem ownFound (formed : m.WellFormed methodType) (brace : m.text.head? ≠ some '{') (selects : OwnTextSelects rules methodType lineNum m) :
    Matched (scanFilterName m.text (newFilter false 0 lineNum)).1 (scanFilterName m.text (newFilter false 0 lineNum)).2 m.components := by
  obtain ⟨cursor,filters,added,found⟩ := selects
  obtain ⟨p,pieces,of⟩ := methodPiecesOf formed
  unfold addFilter at added
  rw [if_neg brace] at added
  change (if (scanFilterName m.text (newFilter false 0 lineNum)).2 = 0 then none else _) = _ at added
  split at added
  · cases added
  · rename_i positive
    have same : filters = newDefault (place clearFilters (scanFilterName m.text (newFilter false 0 lineNum)).1
        (scanFilterName m.text (newFilter false 0 lineNum)).2) false 0 := (congrArg Prod.snd (Option.some.inj added)).symm
    have noRegex : filters.hasRegexFilter = false := by
      rw [same]
      exact placeRegex _ _ _
    have excluded : filters.defaultExclude = true := by rw [same]; rfl
    unfold methodSigCanBeFound findFilter at found
    rw [pieces] at found
    simp only [Option.bind_eq_bind,Option.bind_some] at found
    cases named : findNamed p filters with
    | some g =>
        rw [same] at named
        obtain ⟨name,specific⟩ := foundSingle named
        refine ⟨positive,name.trans of.nameLen,fun is => ?_,fun is => ?_⟩
        · exact (specific is).1.trans of.classLen
        · exact (specific is).2.trans of.signatureLen
    | none =>
        rw [named] at found
        simp [noRegex,excluded] at found

theorem stopsEnd : Stops [] := fun c is => by cases is

theorem firstBreak {ok : Char → Prop} {s : Text} (broken : ¬ ∀ c ∈ s, ok c) : ∃ w x r, s = w ++ x::r ∧ (∀ c ∈ w, ok c) ∧ ¬ ok x := by
  induction s with
  | nil => exact absurd nofun broken
  | cons c s ih =>
      by_cases fine : ok c
      · have later : ¬ ∀ d ∈ s, ok d := fun all => broken (List.forall_mem_cons.mpr ⟨fine,all⟩)
        obtain ⟨w,x,r,rfl,before,here⟩ := ih later
        exact ⟨c::w,x,r,rfl,List.forall_mem_cons.mpr ⟨fine,before⟩,here⟩
      · exact ⟨[],c,s,rfl,nofun,fine⟩

theorem scanOmrFilter {text : Text} (omr : isOmrPattern text = true) (exclude : Bool) (optionSet lineNum : Nat) :
    scanFilterName text (newFilter exclude optionSet lineNum) =
      let s := arrange true exclude (scanOmr text ⟨false,false,.none,.none,.start text,(newFilter exclude optionSet lineNum).filterType⟩)
      ({newFilter exclude optionSet lineNum with name := s.name.copy,nameLen := s.name.len,class' := s.class'.copy,
                                                 signature := s.signature.copy,filterType := s.filterType},
        s.name.len + s.class'.len + s.signature.len) := by
  unfold scanFilterName
  rw [omr,newExclude]
  rfl

theorem copyBound (p : Piece) : p.copy.length ≤ p.len := by
  unfold Piece.copy
  split
  · exact Nat.zero_le _
  · exact List.length_take_le _ _

-- A break in the file or the line number ends the filter there.
theorem brokenFile {w r : Text} {x : Char} (inside : Place w) (stop : isEnd x = true) (omr : isOmrPattern (w ++ x::r) = true) :
    (scanFilterName (w ++ x::r) (newFilter false 0 lineNum)).1.class' = [] ∧
      (scanFilterName (w ++ x::r) (newFilter false 0 lineNum)).1.filterType = .specificMethod := by
  rw [scanOmrFilter omr,scanPlace inside rfl,omrEnds stop]
  exact ⟨rfl,rfl⟩

theorem brokenLine {f w r : Text} {x : Char} (file : Place f) (inside : Place w) (stop : isEnd x = true)
    (omr : isOmrPattern (f ++ ':'::(w ++ x::r)) = true) :
    (scanFilterName (f ++ ':'::(w ++ x::r)) (newFilter false 0 lineNum)).1.signature.length ≤ w.length ∧
      (scanFilterName (f ++ ':'::(w ++ x::r)) (newFilter false 0 lineNum)).1.filterType = .specificMethod := by
  rw [scanOmrFilter omr,scanPlace file rfl,scanFirstColon rfl,scanPlace inside rfl,omrEnds stop]
  refine ⟨?_,rfl⟩
  have bound := copyBound ((Piece.start (w ++ x::r)).skip w.length)
  have counted : ((Piece.start (w ++ x::r)).skip w.length).len = w.length := Nat.zero_add _
  rw [counted] at bound
  exact bound

theorem ownOmr {f l n : Text} (formed : (Method.omr f l n).WellFormed methodType) (selects : OwnTextSelects rules methodType lineNum (.omr f l n)) :
    (Method.omr f l n).Kept := by
  obtain ⟨mark,file,line⟩ := formed
  have filled : f ≠ [] := by
    rintro rfl
    rcases mark with mark | ⟨_,mark⟩ <;> cases mark
  have pattern : ∀ r, isOmrPattern (f ++ r) = true := fun r => by
    cases f with
    | nil => exact absurd rfl filled
    | cons x f => rcases mark with mark | ⟨_,mark⟩ <;> cases mark <;> rfl
  have brace : (f ++ ':'::(l ++ ':'::n)).head? ≠ some '{' := by
    cases f with
    | nil => exact absurd rfl filled
    | cons x f => rcases mark with mark | ⟨_,mark⟩ <;> cases mark <;> simp
  have matched := ownFound (m := .omr f l n) ⟨mark,file,line⟩ brace selects
  have stopOnly : ∀ {s : Text}, ':' ∉ s → ∀ x ∈ s, ¬ (isEnd x = false ∧ x ≠ ':') → isEnd x = true := fun absent x on broken => by
    cases stop : isEnd x with
    | true => rfl
    | false => exact absurd ⟨stop,fun same => absent (same ▸ on)⟩ broken
  have place : Place f := by
    refine Classical.byContradiction fun broken => ?_
    obtain ⟨w,x,r,rfl,inside,here⟩ := firstBreak broken
    have stop := stopOnly file x (List.mem_append_right _ List.mem_cons_self) here
    have text : (Method.omr (w ++ x::r) l n).text = w ++ x::(r ++ ':'::(l ++ ':'::n)) := by simp [Method.text]
    rw [text] at matched
    obtain ⟨none,specific⟩ := @brokenFile lineNum w (r ++ ':'::(l ++ ':'::n)) x inside stop (text ▸ pattern _)
    have length := matched.class' specific
    rw [none] at length
    exact filled (List.length_eq_zero_iff.mp length.symm)
  have placeLine : Place l := by
    refine Classical.byContradiction fun broken => ?_
    obtain ⟨w,x,r,rfl,inside,here⟩ := firstBreak broken
    have stop := stopOnly line x (List.mem_append_right _ List.mem_cons_self) here
    have text : (Method.omr f (w ++ x::r) n).text = f ++ ':'::(w ++ x::(r ++ ':'::n)) := by simp [Method.text]
    rw [text] at matched
    obtain ⟨short,specific⟩ := @brokenLine lineNum f w (r ++ ':'::n) x place inside stop (pattern _)
    have length := matched.signature specific
    have longer : (Method.omr f (w ++ x::r) n).components.signature.length = w.length + (r.length + 1) := by simp [Method.components]
    omega
  have unbroken : Unbroken n := by
    refine Classical.byContradiction fun broken => ?_
    obtain ⟨w,x,r,rfl,inside,here⟩ := firstBreak broken
    have stops : Stops (x::r) := fun c is => by
      cases is
      cases stop : isEnd x with
      | true => exact .inl rfl
      | false => exact .inr (Classical.byContradiction fun other => here ⟨stop,other⟩)
    have name := matched.name
    rw [Method.text,readOmr (by simpa using pattern []) place placeLine inside stops] at name
    have bound := countedBound w
    have longer : (Method.omr f l (w ++ x::r)).components.name.length = w.length + (r.length + 1) := by simp [Method.components]
    have counts : counted w = (Method.omr f l (w ++ x::r)).components.name.length := name
    omega
  refine ⟨place,placeLine,unbroken,fun colon => ?_⟩
  have name := matched.name
  have text : (Method.omr f l n).text = f ++ ':'::(l ++ ':'::(n ++ [])) := by simp [Method.text]
  rw [text,readOmr (by simpa using pattern []) place placeLine unbroken stopsEnd] at name
  have counts : counted n = n.length := name
  exact absurd counts (Nat.ne_of_lt (countedLess colon))

theorem arrangedBound {s : Scan} {bound : Nat} (name : s.name.len ≤ bound) (signature : s.name.chars.isNone = true → s.signature.len ≤ bound)
    (exclude : Bool) : (arrange false exclude s).name.len ≤ bound := by
  unfold arrange
  cases unnamed : s.name.chars.isNone with
  | true => exact signature unnamed
  | false => exact name

-- A separator or a break in the text takes something from the name.
theorem brokenName {w r : Text} {x : Char} (word : Word w) (broken : ¬ (isEnd x = false ∧ x ≠ ' ' ∧ x ≠ '.' ∧ x ≠ '('))
    (plain : isOmrPattern (w ++ x::r) = false) : (scanFilterName (w ++ x::r) (newFilter false 0 lineNum)).1.nameLen ≤ w.length + r.length := by
  rw [scanJavaFilter word _ plain]
  change (arrange false false (scanJava false (x::r) ⟨false,false,.none,.none,⟨some (w ++ x::r),w.length⟩,.nameOnly⟩)).name.len ≤ _
  by_cases dot : x = '.'
  · rw [dot,scanDot]
    refine arrangedBound (nameBound r (Nat.zero_le _) ?_) (fun _ => signatureBound r ?_) false
    · change 0 + r.length ≤ _
      omega
    · change 0 + r.length ≤ _
      omega
  by_cases open' : x = '('
  · rw [open',scanOpen]
    refine arrangedBound (nameBound r ?_ ?_) (fun none => ?_) false
    · exact Nat.le_add_right _ _
    · change 1 + r.length ≤ _
      omega
    · rw [nameStays r rfl rfl] at none
      cases none
  · have stops : Stops (x::r) := fun c is => by
      cases is
      cases stop : isEnd x with
      | true => exact .inl rfl
      | false => exact .inr (Classical.byContradiction fun other => broken ⟨stop,other,dot,open'⟩)
    rw [scanStops stops]
    exact Nat.le_add_right _ _

theorem ownPlain {n : Text} (formed : (Method.plain n).WellFormed methodType) (selects : OwnTextSelects rules methodType lineNum (.plain n)) :
    (Method.plain n).Kept := by
  have matched := ownFound formed formed.2.2 selects
  constructor
  · rintro rfl
    exact matched.positive rfl
  · refine Classical.byContradiction fun broken => ?_
    obtain ⟨w,x,r,rfl,word,here⟩ := firstBreak broken
    have bound := @brokenName lineNum w r x word here formed.2.1
    have name : (scanFilterName (w ++ x::r) (newFilter false 0 lineNum)).1.nameLen = (w ++ x::r).length := matched.name
    rw [name,List.length_append,List.length_cons] at bound
    omega

def Method.pattern : Method → Pattern
  | .java c n t => .classNameSig c n t
  | .omr f l n => .omr f l n
  | .plain n => .name n

theorem ownSelects (formed : m.WellFormed methodType) (kept : m.Kept) : OwnTextSelects rules methodType lineNum m := by
  have text : m.pattern.text = m.text := by cases m <;> rfl
  have written : (Entry.mk m.pattern false 0 lineNum []).WellFormed := by
    cases m with
    | java c n t => exact ⟨formed.2.1,formed.2.2.1,formed.2.2.2.1,formed.2.2.2.2.1,formed.2.2.2.2.2,stopsEnd⟩
    | omr f l n =>
        refine ⟨?_,kept.1,kept.2.1,kept.2.2.1,stopsEnd⟩
        rcases formed.1 with mark | ⟨_,mark⟩ <;> simp [isOmrPattern,mark]
    | plain n =>
        have unmarked : isOmrPattern n = false := formed.2.1
        have mark : NoMark n := ⟨fun slash => by simp [isOmrPattern,slash] at unmarked,formed.2.2⟩
        exact ⟨kept.2,kept.1,mark,stopsEnd⟩
  have keeps : m.pattern.Kept := by
    cases m with
    | java c n t => trivial
    | omr f l n => exact kept.2.2.2
    | plain n => trivial
  obtain ⟨cursor,filters,added,held⟩ := (⟨nothingStored,rfl⟩ : Holds clearFilters []).add written keeps
  unfold Entry.add at added
  rw [text,List.append_nil] at added
  refine ⟨cursor,filters,added,?_⟩
  rw [held.decides (by simpa using written) rules formed]
  cases m <;> simp [asWritten,chosen,Method.pattern,Pattern.kind,Pattern.components,Method.components]

theorem ownText (formed : m.WellFormed methodType) : OwnTextSelects rules methodType lineNum m ↔ m.Kept := by
  refine ⟨fun selects => ?_,ownSelects formed⟩
  cases m with
  | java c n t => trivial
  | omr f l n => exact ownOmr formed selects
  | plain n => exact ownPlain formed selects

end Own

section Written

theorem cursorAfter {e : Entry} (formed : e.WellFormed) (filters : CompilationFilters) :
    ∃ cursor filters', e.add filters = some (cursor,filters') ∧ (cursor = e.rest ↔ e.pattern.kind ≠ .specific) := by
  by_cases kind : e.pattern.kind = .regex
  · cases is : e.pattern with
    | regex text r => exact ⟨_,_,addRegex is formed filters,by simp [Pattern.kind]⟩
    | name n => rw [is] at kind; cases kind
    | nameSig n t => rw [is] at kind; cases kind
    | classNameSig c n t => rw [is] at kind; cases kind
    | omr f l n => rw [is] at kind; cases kind
  · obtain ⟨filter,length,scanned,added⟩ := addPlain formed kind filters
    refine ⟨_,_,added,?_⟩
    rw [← scanned.whole]
    constructor
    · intro same
      have lengths := congrArg List.length same
      rw [List.length_drop,List.length_append] at lengths
      have within := scanned.within
      omega
    · intro same
      rw [same,List.drop_left]

/- Every list of filters decides as written while no name of a file pattern has a colon; a
method's own text selects it just when it is read as that method; and the cursor is just
after the text unless the filter has a class or a file. -/
theorem filtersDecideAsWritten (rules : Regex.CaseRules) :
    (∀ entries : List Entry, (∀ e ∈ entries, e.WellFormed ∧ e.pattern.Kept) →
      ∃ filters, addAll clearFilters entries = some filters ∧ ∀ methodType (m : Method), m.WellFormed methodType →
        methodSigCanBeFound rules m.text filters methodType = asWritten rules entries m) ∧
    (∀ methodType (m : Method) lineNum, m.WellFormed methodType → (OwnTextSelects rules methodType lineNum m ↔ m.Kept)) ∧
    (∀ (e : Entry) filters, e.WellFormed →
      ∃ cursor filters', e.add filters = some (cursor,filters') ∧ (cursor = e.rest ↔ e.pattern.kind ≠ .specific)) := by
  refine ⟨fun entries written => ?_,fun methodType m lineNum formed => ownText formed,fun e filters formed => cursorAfter formed filters⟩
  obtain ⟨filters,all,held⟩ := (⟨nothingStored,rfl⟩ : Holds clearFilters []).addAll entries written
  refine ⟨filters,all,fun methodType m formed => held.decides (fun e on => (written e on).1) rules formed⟩

theorem filtersDecideAsWrittenSample :
    ∃ filters, addAll clearFilters [⟨.classNameSig ['A'] ['f'] [')','V'],true,0,1,[]⟩] = some filters ∧
      methodSigCanBeFound ⟨true,id,id⟩ ['A','.','f','(',')','V'] filters .j9 = some false ∧
      methodSigCanBeFound ⟨true,id,id⟩ ['A','.','g','(',')','V'] filters .j9 = some true := by
  have word : Word ['A'] ∧ Word ['f'] ∧ Word ['g'] ∧ Word [')','V'] := by simp [Word,isEnd]
  have mark : NoMark ['A'] := by constructor <;> decide
  have formed : ∀ n, Word n → (Method.java ['A'] n [')','V']).WellFormed .j9 := fun n name =>
    ⟨rfl,word.1,name,word.2.2.2,List.cons_ne_nil _ _,mark⟩
  obtain ⟨filters,all,decides⟩ := (filtersDecideAsWritten ⟨true,id,id⟩).1 [⟨.classNameSig ['A'] ['f'] [')','V'],true,0,1,[]⟩] fun e on => by
    cases List.mem_singleton.mp on
    exact ⟨⟨word.1,word.2.1,word.2.2.2,List.cons_ne_nil _ _,mark,stopsEnd⟩,trivial⟩
  refine ⟨filters,all,?_,?_⟩
  · exact (decides .j9 (.java ['A'] ['f'] [')','V']) (formed _ word.2.1)).trans rfl
  · exact (decides .j9 (.java ['A'] ['g'] [')','V']) (formed _ word.2.2.1)).trans rfl

-- The colon in the name costs its last character, and the cursor stops three characters early.
theorem ownTextLost :
    let text : Text := ['/','f',':','1',':','a',':','b']
    (addFilter text false 0 1 clearFilters).map Prod.fst = some ['a',':','b'] ∧
      (addFilter text false 0 1 clearFilters).bind (fun added => methodSigCanBeFound ⟨true,id,id⟩ text added.2 .jitBuilder) = some false := by
  constructor <;> rfl

end Written

end OmrCompiler.LimitFilters
