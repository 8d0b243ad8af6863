import OmrCompiler.LimitFilters

/-! Filters and methods as they are written, and what the scanner makes of a filter's text. -/
namespace OmrCompiler.LimitFilters

section Written

def Unbroken (s : Text) : Prop := ∀ c ∈ s, isEnd c = false ∧ c ≠ ' '

-- Text without a break and without the separators of a Java signature.
def Word (s : Text) : Prop := ∀ c ∈ s, isEnd c = false ∧ c ≠ ' ' ∧ c ≠ '.' ∧ c ≠ '('

instance (s : Text) : Decidable (Word s) := inferInstanceAs (Decidable (∀ c ∈ s, isEnd c = false ∧ c ≠ ' ' ∧ c ≠ '.' ∧ c ≠ '('))

-- A file or a line number.
def Place (s : Text) : Prop := ∀ c ∈ s, isEnd c = false ∧ c ≠ ':'

def Stops (rest : Text) : Prop := ∀ c, rest.head? = some c → isEnd c = true ∨ c = ' '

structure Components where
  name : Text
  class' : Text
  signature : Text
  deriving DecidableEq, Repr

-- The parameters of a signature follow its '('.
inductive Pattern where
  | name (n : Text)
  | nameSig (n t : Text)
  | classNameSig (c n t : Text)
  | omr (f l n : Text)
  | regex (text : Text) (r : Regex.SimpleRegex)

def Pattern.text : Pattern → Text
  | .name n => n
  | .nameSig n t => n ++ '('::t
  | .classNameSig c n t => c ++ '.'::(n ++ '('::t)
  | .omr f l n => f ++ ':'::(l ++ ':'::n)
  | .regex text _ => text

def Pattern.components : Pattern → Components
  | .name n => ⟨n,[],[]⟩
  | .nameSig n t => ⟨n,[],'('::t⟩
  | .classNameSig c n t => ⟨n,c,'('::t⟩
  | .omr f l n => ⟨n,f,l⟩
  | .regex _ _ => ⟨[],[],[]⟩

def NoMark (s : Text) : Prop := s.head? ≠ some '/' ∧ s.head? ≠ some '{'

structure Entry where
  pattern : Pattern
  exclude : Bool
  optionSet : Nat
  lineNum : Nat
  -- what follows the filter at the cursor
  rest : Text

def Entry.WellFormed (e : Entry) : Prop :=
  match e.pattern with
  | .name n => Word n ∧ n ≠ [] ∧ NoMark n ∧ Stops e.rest
  | .nameSig n t => Word n ∧ Word t ∧ NoMark n ∧ Stops e.rest
  | .classNameSig c n t => Word c ∧ Word n ∧ Word t ∧ c ≠ [] ∧ NoMark c ∧ Stops e.rest
  | .omr f l n => isOmrPattern f = true ∧ Place f ∧ Place l ∧ Unbroken n ∧ Stops e.rest
  | .regex text r => Regex.create (text ++ e.rest) = some (r,e.rest)

-- No character of the name is dropped.
def Pattern.Kept : Pattern → Prop
  | .omr _ _ n => ':' ∉ n
  | _ => True

inductive Kind where
  | specific
  | nameSig
  | name
  | regex
  deriving DecidableEq, Repr

def Pattern.kind : Pattern → Kind
  | .name _ => .name
  | .nameSig _ _ => .nameSig
  | .classNameSig _ _ _ | .omr _ _ _ => .specific
  | .regex _ _ => .regex

def Entry.filterType (e : Entry) : FilterType :=
  match e.pattern.kind with
  | .name => if e.exclude then .excludeNameOnly else .nameOnly
  | .nameSig => if e.exclude then .excludeNameAndSig else .nameAndSig
  | .specific => if e.exclude then .excludeSpecificMethod else .specificMethod
  | .regex => if e.exclude then .excludeRegex else .regex

def Entry.filter (e : Entry) : Filter :=
  let c := e.pattern.components
  ⟨e.filterType,e.optionSet,e.lineNum,c.name,c.name.length,c.class',c.signature,
    match e.pattern with
    | .regex _ r => some r
    | _ => none⟩

inductive Method where
  | java (c n t : Text)
  | omr (f l n : Text)
  | plain (n : Text)

def Method.text : Method → Text
  | .java c n t => c ++ '.'::(n ++ '('::t)
  | .omr f l n => f ++ ':'::(l ++ ':'::n)
  | .plain n => n

def Method.components : Method → Components
  | .java c n t => ⟨n,c,'('::t⟩
  | .omr f l n => ⟨n,f,l⟩
  | .plain n => ⟨n,[],[]⟩

def Method.WellFormed (methodType : MethodType) : Method → Prop
  | .java c n t => methodType = .j9 ∧ Word c ∧ Word n ∧ Word t ∧ c ≠ [] ∧ NoMark c
  | .omr f l _ => (f.head? = some '/' ∨ methodType ≠ .j9 ∧ f.head? = some '.') ∧ ':' ∉ f ∧ ':' ∉ l
  | .plain n => methodType ≠ .j9 ∧ isOmrPattern n = false ∧ n.head? ≠ some '{'

-- The scanner reads the method's own text as the method.
def Method.Kept : Method → Prop
  | .java _ _ _ => True
  | .omr f l n => Place f ∧ Place l ∧ Unbroken n ∧ ':' ∉ n
  | .plain n => n ≠ [] ∧ Word n

/- The first filter of the most specific kind with the method's components, otherwise the
last regular expression that matches. -/
def chosen (entries : List Entry) (c : Components) : Option Entry :=
  ((entries.find? fun e => decide (e.pattern.kind = .specific ∧ e.pattern.components = c)).or
    (entries.find? fun e =>
      decide (e.pattern.kind = .nameSig ∧ e.pattern.components.name = c.name ∧ e.pattern.components.signature = c.signature))).or
    (entries.find? fun e => decide (e.pattern.kind = .name ∧ e.pattern.components.name = c.name))

def firstMatching (rules : Regex.CaseRules) (text : Text) : List Entry → Option (Option Entry)
  | [] => some none
  | e::rest =>
      match e.pattern with
      | .regex _ r => do if ← Regex.matchFilter rules r text then some (some e) else firstMatching rules text rest
      | _ => firstMatching rules text rest

def defaultExcluded (entries : List Entry) : Bool := entries.any fun e => !e.exclude && e.optionSet = 0

def asWritten (rules : Regex.CaseRules) (entries : List Entry) (m : Method) : Option Bool := do
  let e ←
    match chosen entries m.components with
    | some e => some (some e)
    | none => firstMatching rules m.text entries.reverse
  match e with
  | some e => some !e.exclude
  | none => some !defaultExcluded entries

end Written

section Java
variable {exclude : Bool} {s : Scan}

def Piece.skip (p : Piece) (n : Nat) : Piece := ⟨p.chars,p.len + n⟩

theorem Piece.skipNext (p : Piece) (n : Nat) : p.next.skip n = p.skip (n + 1) := by
  unfold Piece.next Piece.skip
  rw [Nat.add_comm n,← Nat.add_assoc]

theorem scanWord {w : Text} (word : Word w) (r : Text) (s : Scan) :
    scanJava exclude (w ++ r) s = scanJava exclude r {s with signature := s.signature.skip w.length} := by
  induction w generalizing s with
  | nil => rfl
  | cons c w ih =>
      obtain ⟨inside,blank,dot,open'⟩ := word c List.mem_cons_self
      have step : scanJava exclude (c::(w ++ r)) s = scanJava exclude (w ++ r) {s with signature := s.signature.next} := by
        rw [scanJava]
        simp [inside,blank,dot,open']
      rw [List.cons_append,step,ih fun x on => word x (List.mem_cons_of_mem _ on)]
      simp only [Piece.skipNext,List.length_cons]

theorem scanStops {rest : Text} (stops : Stops rest) (s : Scan) : scanJava exclude rest s = s := by
  cases rest with
  | nil => rfl
  | cons c r =>
      rw [scanJava]
      rcases stops c rfl with stop | blank
      · simp [stop]
      · simp [blank]

theorem scanDot (r : Text) (s : Scan) : scanJava exclude ('.'::r) s =
    scanJava exclude r {s with class' := s.signature,signature := .start r,filterType := if exclude then .excludeSpecificMethod else .specificMethod} := by
  rw [scanJava]
  rfl

theorem scanOpen (r : Text) (s : Scan) : scanJava exclude ('('::r) s =
    scanJava exclude r {s with name := s.signature,signature := ⟨some ('('::r),1⟩,
                               filterType :=
                                 if s.filterType = .excludeNameOnly ∨ s.filterType = .nameOnly then
                                   if exclude then .excludeNameAndSig else .nameAndSig
                                 else s.filterType} := by
  rw [scanJava]
  rfl

end Java

section Omr
variable {s : Scan}

theorem scanPlace {w : Text} (inside : Place w) (before : s.seenLineNumber = false) (r : Text) :
    scanOmr (w ++ r) s = scanOmr r {s with signature := s.signature.skip w.length} := by
  induction w generalizing s with
  | nil => rfl
  | cons c w ih =>
      obtain ⟨inner,colon⟩ := inside c List.mem_cons_self
      have step : scanOmr (c::(w ++ r)) s = scanOmr (w ++ r) {s with signature := s.signature.next} := by
        rw [scanOmr]
        simp [inner,colon,before]
      rw [List.cons_append,step,@ih {s with signature := s.signature.next} (fun x on => inside x (List.mem_cons_of_mem _ on)) before]
      simp only [Piece.skipNext,List.length_cons]

-- A colon in the name is passed over without being counted.
def counted (n : Text) : Nat := (n.filter fun c => decide (c ≠ ':')).length

theorem scanOmrName {n : Text} (unbroken : Unbroken n) (file : s.seenFileName = true) (line : s.seenLineNumber = true) (r : Text) :
    scanOmr (n ++ r) s = scanOmr r {s with signature := s.signature.skip (counted n)} := by
  induction n generalizing s with
  | nil => rfl
  | cons c n ih =>
      obtain ⟨inner,blank⟩ := unbroken c List.mem_cons_self
      have later := fun x on => unbroken x (List.mem_cons_of_mem c on)
      by_cases colon : c = ':'
      · have step : scanOmr (c::(n ++ r)) s = scanOmr (n ++ r) s := by
          rw [scanOmr]
          simp [colon,file,line,isEnd]
        rw [List.cons_append,step,ih later file line]
        simp [counted,colon]
      · have step : scanOmr (c::(n ++ r)) s = scanOmr (n ++ r) {s with signature := s.signature.next} := by
          rw [scanOmr]
          simp [inner,colon,blank]
        rw [List.cons_append,step,@ih {s with signature := s.signature.next} later file line]
        simp [counted,colon,Piece.skipNext]

theorem omrStops {rest : Text} (stops : Stops rest) (line : s.seenLineNumber = true) : scanOmr rest s = s := by
  cases rest with
  | nil => rfl
  | cons c r =>
      rw [scanOmr]
      rcases stops c rfl with stop | blank
      · simp [stop]
      · simp [blank,line,isEnd]

theorem omrEnds {c : Char} (stop : isEnd c = true) (r : Text) : scanOmr (c::r) s = s := by
  rw [scanOmr,if_pos stop]

theorem scanFirstColon (file : s.seenFileName = false) (r : Text) :
    scanOmr (':'::r) s = scanOmr r {s with class' := s.signature,signature := .start r,seenFileName := true} := by
  rw [scanOmr]
  simp [file,isEnd]

theorem scanSecondColon (file : s.seenFileName = true) (line : s.seenLineNumber = false) (r : Text) :
    scanOmr (':'::r) s = scanOmr r {s with name := s.signature,signature := .start r,seenLineNumber := true} := by
  rw [scanOmr]
  simp [file,line,isEnd]

end Omr

section Read

def newFilter (exclude : Bool) (optionSet lineNum : Nat) : Filter :=
  ⟨if exclude then .excludeNameOnly else .nameOnly,optionSet,lineNum,[],0,[],[],none⟩

theorem newExclude (exclude : Bool) (optionSet lineNum : Nat) : (newFilter exclude optionSet lineNum).filterType.isExclude = exclude := by
  cases exclude <;> rfl

variable {exclude : Bool} {optionSet lineNum : Nat} {rest : Text}

theorem notOmr {s : Text} (word : Word s) (mark : NoMark s) : isOmrPattern s = false := by
  cases s with
  | nil => rfl
  | cons c s =>
      have slash : c ≠ '/' := fun same => mark.1 (by rw [same]; rfl)
      have dot := (word c List.mem_cons_self).2.2.1
      simp [isOmrPattern,slash,dot]

-- Every kind of Java filter has a word up to its first separator.
theorem scanJavaFilter {w : Text} (word : Word w) (r : Text) (first : isOmrPattern (w ++ r) = false) :
    scanFilterName (w ++ r) (newFilter exclude optionSet lineNum) =
      let s := arrange false exclude (scanJava exclude r ⟨false,false,.none,.none,⟨some (w ++ r),w.length⟩,(newFilter exclude optionSet lineNum).filterType⟩)
      ({newFilter exclude optionSet lineNum with name := s.name.copy,nameLen := s.name.len,class' := s.class'.copy,
                                                 signature := s.signature.copy,filterType := s.filterType},
        s.name.len + s.class'.len + s.signature.len) := by
  unfold scanFilterName
  rw [first,newExclude]
  simp only [Bool.false_eq_true,if_false,scanWord word]
  simp [Piece.start,Piece.skip]

theorem firstWord {w r : Text} (word : Word w) (mark : NoMark w) (next : w = [] → isOmrPattern r = false) : isOmrPattern (w ++ r) = false := by
  cases w with
  | nil => exact next rfl
  | cons c w => exact notOmr (s := c::w) word mark

theorem takeSignature (t r : Text) : ('('::(t ++ r)).take (t.length + 1) = '('::t := by
  rw [List.take_succ_cons,List.take_left]

theorem readName {n : Text} (word : Word n) (mark : NoMark n) (filled : n ≠ []) (stops : Stops rest) :
    scanFilterName (n ++ rest) (newFilter exclude optionSet lineNum) =
      ({newFilter exclude optionSet lineNum with name := n,nameLen := n.length},n.length) := by
  rw [scanJavaFilter word rest (firstWord word mark fun none => absurd none filled),scanStops stops]
  simp [arrange,Piece.none,Piece.copy,newFilter]

theorem readNameSig {n t : Text} (word : Word n) (parameters : Word t) (mark : NoMark n) (stops : Stops rest) :
    scanFilterName (n ++ '('::(t ++ rest)) (newFilter exclude optionSet lineNum) =
      ({newFilter exclude optionSet lineNum with name := n,nameLen := n.length,signature := '('::t,
                                                 filterType := if exclude then .excludeNameAndSig else .nameAndSig},
        n.length + ('('::t).length) := by
  rw [scanJavaFilter word _ (firstWord word mark fun _ => rfl),scanOpen,scanWord parameters,scanStops stops]
  have kind : (newFilter exclude optionSet lineNum).filterType = .excludeNameOnly ∨ (newFilter exclude optionSet lineNum).filterType = .nameOnly := by
    cases exclude
    · exact .inr rfl
    · exact .inl rfl
  simp only [if_pos kind,arrange,Piece.skip,Piece.copy,Piece.none,Option.isNone_some,Bool.false_eq_true,if_false,takeSignature,List.take_left,
    List.length_cons,Nat.add_comm 1,Nat.add_zero]
  rfl

theorem readClassNameSig {c n t : Text} (word : Word c) (name : Word n) (parameters : Word t) (mark : NoMark c) (filled : c ≠ []) (stops : Stops rest) :
    scanFilterName (c ++ '.'::(n ++ '('::(t ++ rest))) (newFilter exclude optionSet lineNum) =
      ({newFilter exclude optionSet lineNum with name := n,nameLen := n.length,class' := c,signature := '('::t,
                                                 filterType := if exclude then .excludeSpecificMethod else .specificMethod},
        n.length + c.length + ('('::t).length) := by
  rw [scanJavaFilter word _ (firstWord word mark fun none => absurd none filled),scanDot,scanWord name,scanOpen,scanWord parameters,scanStops stops]
  have kind : ¬ ((if exclude then FilterType.excludeSpecificMethod else .specificMethod) = .excludeNameOnly ∨
      (if exclude then FilterType.excludeSpecificMethod else .specificMethod) = .nameOnly) := by
    cases exclude <;> decide
  simp only [if_neg kind,arrange,Piece.skip,Piece.copy,Piece.start,Option.isNone_some,Bool.false_eq_true,if_false,takeSignature,List.take_left,
    List.length_cons,Nat.add_comm 1,Nat.zero_add]

-- The name of a file pattern loses one character for each colon in it.
theorem readOmr {f l n : Text} (omr : isOmrPattern f = true) (file : Place f) (line : Place l) (unbroken : Unbroken n) (stops : Stops rest) :
    scanFilterName (f ++ ':'::(l ++ ':'::(n ++ rest))) (newFilter exclude optionSet lineNum) =
      ({newFilter exclude optionSet lineNum with name := (n ++ rest).take (counted n),nameLen := counted n,class' := f,signature := l,
                                                 filterType := if exclude then .excludeSpecificMethod else .specificMethod},
        counted n + f.length + l.length) := by
  have pattern : isOmrPattern (f ++ ':'::(l ++ ':'::(n ++ rest))) = true := by
    cases f with
    | nil => cases omr
    | cons c f => exact omr
  unfold scanFilterName
  rw [pattern,newExclude]
  simp only [if_true]
  rw [scanPlace file rfl,scanFirstColon rfl,scanPlace line rfl,scanSecondColon rfl rfl,scanOmrName unbroken rfl rfl,omrStops stops rfl]
  simp only [arrange,Piece.skip,Piece.copy,Piece.start,Option.isNone_some,Bool.false_eq_true,if_false,if_true,List.take_left,Nat.zero_add]

theorem countedAll {n : Text} (kept : ':' ∉ n) : counted n = n.length := by
  have all : n.filter (fun c => decide (c ≠ ':')) = n := by
    rw [List.filter_eq_self]
    intro c on
    exact decide_eq_true fun same => kept (same ▸ on)
  rw [counted,all]

theorem countedLess {n : Text} (colon : ':' ∈ n) : counted n < n.length := by
  unfold counted
  rw [List.length_filter_lt_length_iff_exists]
  exact ⟨':',colon,by decide⟩

theorem countedBound (n : Text) : counted n ≤ n.length := List.length_filter_le _ _

end Read

end OmrCompiler.LimitFilters
