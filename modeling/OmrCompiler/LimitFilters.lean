import OmrCompiler.SearchTree
import OmrCompiler.SimpleRegex

/-! Limit filters: how the text of a filter is split and stored, and how the filters
decide about a method. A list of characters stands for a NUL-terminated string. -/
namespace OmrCompiler.LimitFilters

abbrev Text := List Char

inductive FilterType where
  | excludeNameOnly
  | excludeNameAndSig
  | excludeSpecificMethod
  | excludeRegex
  | nameOnly
  | nameAndSig
  | specificMethod
  | regex
  deriving DecidableEq, Repr

def FilterType.isExclude : FilterType → Bool
  | excludeNameOnly | excludeNameAndSig | excludeSpecificMethod | excludeRegex => true
  | nameOnly | nameAndSig | specificMethod | regex => false

structure Filter where
  filterType : FilterType
  optionSet : Nat
  lineNumber : Nat
  name : Text
  nameLen : Nat
  class' : Text
  signature : Text
  regex : Option Regex.SimpleRegex

-- Only the sign of a comparison counts.
def strcmp : Text → Text → Int
  | [],[] => 0
  | [],_::_ => -1
  | _::_,[] => 1
  | x::s,y::t => if x = y then strcmp s t else (x.toNat : Int) - y.toNat

def strncmp : Text → Text → Nat → Int
  | _,_,0 => 0
  | [],[],_ + 1 => 0
  | [],_::_,_ + 1 => -1
  | _::_,[],_ + 1 => 1
  | x::s,y::t,n + 1 => if x = y then strncmp s t n else (x.toNat : Int) - y.toNat

section Scan

-- Characters of the text from a pointer on, and how many of them belong to the piece.
structure Piece where
  chars : Option Text
  len : Nat

def Piece.none : Piece := ⟨Option.none,0⟩

def Piece.start (string : Text) : Piece := ⟨some string,0⟩

def Piece.next (p : Piece) : Piece := ⟨p.chars,p.len + 1⟩

def Piece.copy (p : Piece) : Text :=
  match p.chars with
  | Option.none => []
  | some chars => chars.take p.len

structure Scan where
  seenFileName : Bool
  seenLineNumber : Bool
  name : Piece
  class' : Piece
  signature : Piece
  filterType : FilterType

def isEnd (c : Char) : Bool := c = '\t' || c = ',' || c = '\n'

def scanOmr : Text → Scan → Scan
  | [],s => s
  | c::string,s =>
      if isEnd c then s
      else if c = ':' then
        if !s.seenFileName then scanOmr string {s with class' := s.signature,signature := .start string,seenFileName := true}
        else if !s.seenLineNumber then scanOmr string {s with name := s.signature,signature := .start string,seenLineNumber := true}
        else scanOmr string s
      else if s.seenLineNumber && c = ' ' then s
      else scanOmr string {s with signature := s.signature.next}

def scanJava (exclude : Bool) : Text → Scan → Scan
  | [],s => s
  | c::string,s =>
      if isEnd c || c = ' ' then s
      else if c = '.' then
        scanJava exclude string {s with class' := s.signature,signature := .start string,
                                        filterType := if exclude then .excludeSpecificMethod else .specificMethod}
      else if c = '(' then
        scanJava exclude string {s with name := s.signature,signature := ⟨some (c::string),1⟩,
                                        filterType :=
                                          if s.filterType = .excludeNameOnly ∨ s.filterType = .nameOnly then
                                            if exclude then .excludeNameAndSig else .nameAndSig
                                          else s.filterType}
      else scanJava exclude string {s with signature := s.signature.next}

def isOmrPattern (string : Text) : Bool := string.head? = some '/' || string.head? = some '.'

-- Without a name the last piece is the name; a file pattern has its name last.
def arrange (omrPattern exclude : Bool) (s : Scan) : Scan :=
  let s := if s.name.chars.isNone then {s with name := s.signature,signature := .none} else s
  if omrPattern then {s with name := s.signature,signature := s.name,
                             filterType := if exclude then .excludeSpecificMethod else .specificMethod}
  else s

-- The filter with its name, class and signature, and the length of the three.
def scanFilterName (string : Text) (filter : Filter) : Filter × Nat :=
  let start : Scan := ⟨false,false,.none,.none,.start string,filter.filterType⟩
  let exclude := filter.filterType.isExclude
  let s := arrange (isOmrPattern string) exclude (if isOmrPattern string then scanOmr string start else scanJava exclude string start)
  ({filter with name := s.name.copy,nameLen := s.name.len,class' := s.class'.copy,signature := s.signature.copy,filterType := s.filterType},
    s.name.len + s.class'.len + s.signature.len)

end Scan

def filterHashSize : Nat := 211

abbrev FilterBST := SearchTree.Tree Filter

structure CompilationFilters where
  filterHash : Nat → FilterBST
  filterNameList : FilterBST
  filterRegexList : List Filter
  hasNameFilter : Bool
  hasNameSigFilter : Bool
  hasClassNameSigFilter : Bool
  hasRegexFilter : Bool
  defaultExclude : Bool

def clearFilters : CompilationFilters := ⟨fun _ => .empty,.empty,[],false,false,false,false,false⟩

def compareFilters (a b : Filter) : Int :=
  let rc := strcmp a.name b.name
  if rc = 0 then
    let rc := strcmp a.class' b.class'
    if rc = 0 then strcmp a.signature b.signature else rc
  else rc

def insert (filter : Filter) (tree : FilterBST) : FilterBST := SearchTree.insert compareFilters filter tree

def place (filters : CompilationFilters) (filter : Filter) (nameLength : Nat) : CompilationFilters :=
  if filter.filterType = .excludeNameOnly ∨ filter.filterType = .nameOnly then
    {filters with filterNameList := insert filter filters.filterNameList,hasNameFilter := true}
  else
    let bucket := nameLength % filterHashSize
    let filters := {filters with filterHash := fun i => if i = bucket then insert filter (filters.filterHash i) else filters.filterHash i}
    if filter.filterType = .nameAndSig ∨ filter.filterType = .excludeNameAndSig then {filters with hasNameSigFilter := true}
    else {filters with hasClassNameSigFilter := true}

def newDefault (filters : CompilationFilters) (scanningExclude : Bool) (optionSetIndex : Nat) : CompilationFilters :=
  if !scanningExclude && optionSetIndex = 0 then {filters with defaultExclude := true} else filters

-- The cursor after the text, and the filters; nothing for a text that cannot be read.
def addFilter (filterString : Text) (scanningExclude : Bool) (optionSetIndex lineNum : Nat) (filters : CompilationFilters) :
    Option (Text × CompilationFilters) :=
  let filterType : FilterType := if scanningExclude then .excludeNameOnly else .nameOnly
  let filter : Filter := ⟨filterType,optionSetIndex,lineNum,[],0,[],[],none⟩
  if filterString.head? = some '{' then
    match Regex.create filterString with
    | none => none
    | some (regex,filterCursor) =>
        let filter := {filter with filterType := if scanningExclude then .excludeRegex else .regex,regex := some regex}
        let filterRegexList := filter::if filters.hasRegexFilter then filters.filterRegexList else []
        some (filterCursor,newDefault {filters with filterRegexList := filterRegexList,hasRegexFilter := true} scanningExclude optionSetIndex)
  else
    let (filter,nameLength) := scanFilterName filterString filter
    if nameLength = 0 then none
    else some (filterString.drop nameLength,newDefault (place filters filter nameLength) scanningExclude optionSetIndex)

section Search

-- A method's piece is compared by its length: it is not terminated.
def comparePiece (chars : Text) (len : Nat) (other : Text) (otherLen : Nat) : Int :=
  let rc := strncmp chars other len
  if rc = 0 then (len : Int) - otherLen else rc

def findName (methodName : Text) (methodNameLen : Nat) (tree : FilterBST) : Option Filter :=
  SearchTree.find (fun node => comparePiece methodName methodNameLen node.name node.nameLen) tree

def find (methodName : Text) (methodNameLen : Nat) (methodClass : Text) (methodClassLen : Nat) (methodSignature : Text) (methodSignatureLen : Nat)
    (tree : FilterBST) : Option Filter :=
  SearchTree.find (fun node =>
    let rc := comparePiece methodName methodNameLen node.name node.nameLen
    if rc = 0 then
      let rc := comparePiece methodClass methodClassLen node.class' node.class'.length
      if rc = 0 then comparePiece methodSignature methodSignatureLen node.signature node.signature.length else rc
    else rc) tree

-- Nothing when a match looks past the end of the text.
def findRegex (rules : Regex.CaseRules) (methodSpec : Text) : List Filter → Option (Option Filter)
  | [] => some none
  | f::rest =>
      match f.regex with
      | none => none
      | some regex => do if ← Regex.matchFilter rules regex methodSpec then some (some f) else findRegex rules methodSpec rest

-- The text from the first occurrence of a character on.
def strchr (c : Char) : Text → Option Text
  | [] => none
  | x::s => if x = c then some (x::s) else strchr c s

structure MethodPieces where
  methodName : Text
  methodNameLen : Nat
  methodClass : Text
  methodClassLen : Nat
  methodSignature : Text
  methodSignatureLen : Nat

def omrPieces (methodSig : Text) : Option MethodPieces := do
  let first ← strchr ':' methodSig
  let second ← strchr ':' first.tail
  some ⟨second.tail,second.tail.length,methodSig,methodSig.length - first.length,first.tail,first.tail.length - second.length⟩

def javaPieces (methodSig : Text) : Option MethodPieces := do
  let dot ← strchr '.' methodSig
  let methodSignature ← strchr '(' dot.tail
  some ⟨dot.tail,dot.tail.length - methodSignature.length,methodSig,methodSig.length - dot.length,methodSignature,methodSignature.length⟩

inductive MethodType where
  | j9
  | test
  | jitBuilder
  deriving DecidableEq, Repr

-- Nothing when a separator is missing.
def methodPieces (methodType : MethodType) (methodSig : Text) : Option MethodPieces :=
  if methodType ≠ .j9 then
    if isOmrPattern methodSig then omrPieces methodSig else some ⟨methodSig,methodSig.length,methodSig,0,[],0⟩
  else if methodSig.head? = some '/' then omrPieces methodSig
  else javaPieces methodSig

def findHashed (m : MethodPieces) (filters : CompilationFilters) : Option Filter :=
  let length := m.methodNameLen + m.methodSignatureLen
  let filter :=
    if filters.hasClassNameSigFilter then
      find m.methodName m.methodNameLen m.methodClass m.methodClassLen m.methodSignature m.methodSignatureLen
        (filters.filterHash ((length + m.methodClassLen) % filterHashSize))
    else none
  match filter with
  | some f => some f
  | none =>
      if filters.hasNameSigFilter then
        find m.methodName m.methodNameLen [] 0 m.methodSignature m.methodSignatureLen (filters.filterHash (length % filterHashSize))
      else none

def findNamed (m : MethodPieces) (filters : CompilationFilters) : Option Filter :=
  match findHashed m filters with
  | some f => some f
  | none => if filters.hasNameFilter then findName m.methodName m.methodNameLen filters.filterNameList else none

def findFilter (rules : Regex.CaseRules) (methodSig : Text) (m : MethodPieces) (filters : CompilationFilters) : Option (Option Filter) :=
  match findNamed m filters with
  | some f => some (some f)
  | none => if filters.hasRegexFilter then findRegex rules methodSig filters.filterRegexList else some none

-- The filter is null when the caller starts.
def methodSigCanBeFound (rules : Regex.CaseRules) (methodSig : Text) (filters : CompilationFilters) (methodType : MethodType) : Option Bool := do
  let m ← methodPieces methodType methodSig
  let filter ← findFilter rules methodSig m filters
  match filter with
  | some f => some !f.filterType.isExclude
  | none => some !filters.defaultExclude

end Search

end OmrCompiler.LimitFilters
