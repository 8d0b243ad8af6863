import OmrCompiler.SimpleRegex

/-! The grammar of filters and what a filter means. A text is read as
alternatives, each a sequence of parts: literal characters, a run of wildcards,
or a bracket. The parser reads exactly that and compiles it. -/
namespace OmrCompiler.Regex

inductive Wild where
  | one
  | any
  deriving DecidableEq, Repr

inductive Part where
  | str (chars : List Char)
  | wildcards (run : List Wild)
  | alternate (negated : Bool) (ranges : List (Char × Char))
  deriving DecidableEq, Repr

-- Literal characters; a backslash takes the next character as it is.
inductive Literals (m : YesNoMaybe) : Text → List Char → Text → Prop where
  | done {r} (stop : ∀ c ∈ r.head?, endsString m c = true) : Literals m r [] r
  | escaped {c s chars r} (next : Literals m s chars r) : Literals m ('\\'::c::s) (c::chars) r
  | lone : Literals m ['\\'] ['\\'] []
  | plain {c s chars r} (free : endsString m c = false) (bare : c ≠ '\\') (next : Literals m s chars r) :
      Literals m (c::s) (c::chars) r

inductive Wildcards : Text → List Wild → Text → Prop where
  | done {r} (stop : ∀ c ∈ r.head?, c ≠ '?' ∧ c ≠ '*') : Wildcards r [] r
  | one {s run r} (next : Wildcards s run r) : Wildcards ('?'::s) (.one::run) r
  | any {s run r} (next : Wildcards s run r) : Wildcards ('*'::s) (.any::run) r

inductive Symbol : Text → Char → Text → Prop where
  | escaped {c r} : Symbol ('\\'::c::r) c r
  | plain {c r} (bare : c ≠ '\\' ∨ r = []) : Symbol (c::r) c r

-- The upper end of a range, where a backslash before ']' is itself the end.
inductive UpperEnd : Text → Char → Text → Prop where
  | escaped {c r} (inside : c ≠ ']') : UpperEnd ('\\'::c::r) c r
  | plain {c r} (bare : c ≠ '\\' ∨ r = [] ∨ r.head? = some ']') : UpperEnd (c::r) c r

def startsRange (s : Text) : Bool :=
  match s with
  | a::c::_ => a = '-' && c != ']'
  | _ => false

inductive Range : Text → Char × Char → Text → Prop where
  | single {s a r} (symbol : Symbol s a r) (alone : startsRange r = false) : Range s (a,a) r
  | between {s a t b r} (symbol : Symbol s a ('-'::t)) (range : startsRange ('-'::t) = true)
      (upper : UpperEnd t b r) : Range s (a,b) r

inductive Ranges : Text → List (Char × Char) → Text → Prop where
  | close {r} : Ranges (']'::r) [] r
  | more {s range s' ranges r} (inside : ∀ c ∈ s.head?, c ≠ ']' ∧ c ≠ '}') (one : Range s range s')
      (next : Ranges s' ranges r) : Ranges s (range::ranges) r

inductive ReadsPart (m : YesNoMaybe) : Text → Part → Text → Prop where
  | str {s chars r} (read : Literals m s chars r) (some : chars ≠ []) : ReadsPart m s (.str chars) r
  | wildcards {s run r} (read : Wildcards s run r) (some : run ≠ []) : ReadsPart m s (.wildcards run) r
  | bracket {s ranges r} (allowed : m = .yes) (positive : s.head? ≠ some '^') (read : Ranges s ranges r) :
      ReadsPart m ('['::s) (.alternate false ranges) r
  | negated {s ranges r} (allowed : m = .yes) (read : Ranges s ranges r) :
      ReadsPart m ('[' :: '^' :: s) (.alternate true ranges) r

/- Brackets are literal characters in an alternative whose first '[' is followed
by no ']' in the filter. -/
inductive Pattern : YesNoMaybe → Text → List Part → Text → Prop where
  | done {m r} (ends : endsSimple r = true) : Pattern m r [] r
  | more {m s part s' parts r} (starts : endsSimple s = false) (one : ReadsPart (decideAlternates s m) s part s')
      (next : Pattern (decideAlternates s m) s' parts r) : Pattern m s (part::parts) r

inductive Alternatives : Text → List (List Part) → Text → Prop where
  | done {s} (ends : endsSimple (skipSeparators s) = true) : Alternatives s [] (skipSeparators s)
  | more {s parts s' alternatives r} (starts : endsSimple (skipSeparators s) = false)
      (one : Pattern .maybe (skipSeparators s) parts s') (next : Alternatives s' alternatives r) :
      Alternatives s (parts::alternatives) r

inductive Filter : Text → Bool → List (List Part) → Text → Prop where
  | positive {s alternatives rest} (first : s.head? ≠ some '^') (some : alternatives ≠ [])
      (read : Alternatives s alternatives ('}'::rest)) : Filter ('{'::s) false alternatives rest
  | negated {s alternatives rest} (some : alternatives ≠ [])
      (read : Alternatives s alternatives ('}'::rest)) : Filter ('{' :: '^' :: s) true alternatives rest

def inRanges (ranges : List (Char × Char)) (i : Nat) : Bool :=
  ranges.any fun (a,b) => decide (min a.toNat b.toNat ≤ i) && decide (i ≤ max a.toNat b.toNat)

def runMeans : List Wild → Text → Prop
  | [],u => u = []
  | .one::run,u => ∃ x v, u = x::v ∧ runMeans run v
  | .any::run,u => ∃ v w, u = v ++ w ∧ runMeans run w

def partMeans : Part → Text → Prop
  | .str chars,u => u = chars
  | .wildcards run,u => runMeans run u
  | .alternate negated ranges,u => ∃ x, u = [x] ∧ inRanges ranges x.toNat ≠ negated

def patternMeans : List Part → Text → Prop
  | [],u => u = []
  | part::parts,u => ∃ v w, u = v ++ w ∧ partMeans part v ∧ patternMeans parts w

def filterMeans (negate : Bool) (alternatives : List (List Part)) (u : Text) : Prop :=
  if negate then ¬ ∃ parts ∈ alternatives, patternMeans parts u else ∃ parts ∈ alternatives, patternMeans parts u

def countOf (run : List Wild) : Nat := 2 * run.count .one + if .any ∈ run then 1 else 0

def compilePart : Part → Component
  | .str chars => .simpleString chars
  | .wildcards run => .wildcards (countOf run)
  | .alternate negated ranges => .charAlternatives fun i => inRanges ranges i != negated

def compile : List Part → List Simple
  | [] => []
  | part::parts => ⟨compilePart part,fixedCharsRight (compile parts)⟩::compile parts

theorem ordinaryReads (m : YesNoMaybe) (s : Text) : Literals m s (ordinary m s).1 (ordinary m s).2 := by
  fun_induction ordinary m s with
  | case1 => exact .done (by simp)
  | case2 c s ends => exact .done (by simpa using ends)
  | case3 => exact .lone
  | case4 ends d t ih => exact .escaped ih
  | case5 c s free bare ih => exact .plain (by simpa using free) bare ih

theorem wildcardReads (s : Text) (counts : Nat) : ∃ run, Wildcards s run (wildcardCounts counts s).2 ∧
    (wildcardCounts counts s).1 = 2 * (counts / 2 + run.count .one) + if counts % 2 = 1 ∨ .any ∈ run then 1 else 0 := by
  induction s generalizing counts with
  | nil =>
    refine ⟨[],.done (by simp),?_⟩
    simp only [wildcardCounts,List.count_nil,List.not_mem_nil,or_false]
    split <;> omega
  | cons c s ih =>
    simp only [wildcardCounts]
    split
    · rename_i one
      subst one
      obtain ⟨run,read,count⟩ := ih (counts + 2)
      refine ⟨.one::run,.one read,?_⟩
      rw [count,List.count_cons_self]
      have parity : (counts + 2) % 2 = counts % 2 := by omega
      have half : (counts + 2) / 2 = counts / 2 + 1 := by omega
      simp only [parity,half,List.mem_cons,reduceCtorEq,false_or]
      omega
    split
    · rename_i any
      subst any
      obtain ⟨run,read,count⟩ := ih (counts ||| 1)
      refine ⟨.any::run,.any read,?_⟩
      have odd : (counts ||| 1) % 2 = 1 := by
        rw [Nat.or_mod_two_eq_one]
        exact Or.inr rfl
      have half : (counts ||| 1) / 2 = counts / 2 := by
        rw [Nat.or_div_two]
        simp
      rw [count,List.count_cons_of_ne (by simp)]
      simp [odd,half]
    · rename_i one any
      refine ⟨[],.done (by simp [one,any]),?_⟩
      simp only [List.count_nil,List.not_mem_nil,or_false]
      split <;> omega

theorem unescapeReads {s : Text} {a : Char} {t : Text} (read : unescape s = a::t) : Symbol s a t := by
  cases s with
  | nil => cases read
  | cons c s =>
    simp only [unescape] at read
    split at read
    · rename_i escape
      rw [escape.1,read]
      exact .escaped
    · rename_i bare
      cases read
      exact .plain (by
        by_cases escape : a = '\\'
        · exact Or.inr (by simpa [escape] using bare)
        · exact Or.inl escape)

theorem alternativeReads {s : Text} {range : Char × Char} {r : Text} (read : alternative s = some (range,r)) :
    Range s range r := by
  simp only [alternative] at read
  split at read
  · rename_i a b c t open'
    have symbol := unescapeReads open'
    split at read
    · rename_i range'
      obtain ⟨rfl,inside⟩ := range'
      have starts : startsRange ('-'::c::t) = true := by simpa [startsRange] using inside
      split at read
      · rename_i d u
        split at read
        · rename_i upper
          cases read
          rw [upper.1] at symbol starts
          exact .between symbol starts (.escaped upper.2)
        · rename_i upper
          cases read
          refine .between symbol starts (.plain ?_)
          by_cases escape : c = '\\'
          · exact Or.inr (Or.inr (by simpa [escape] using upper))
          · exact Or.inl escape
      · cases read
        exact .between symbol starts (.plain (Or.inr (Or.inl rfl)))
    · rename_i alone
      cases read
      exact .single symbol (by simpa [startsRange] using alone)
  · rename_i a t short open'
    cases read
    refine .single (unescapeReads open') ?_
    rcases r with _ | ⟨_,_ | ⟨_,_⟩⟩
    · rfl
    · rfl
    · exact (short _ _ _ rfl).elim
  · cases read

theorem bracketReads {s : Text} {bitMap bits : Nat → Bool} {r : Text} (read : bracket s bitMap = some (bits,r)) :
    ∃ ranges, Ranges s ranges r ∧ ∀ i, bits i = (bitMap i || inRanges ranges i) := by
  fun_induction bracket s bitMap with
  | case1 => cases read
  | case2 => cases read; exact ⟨[],.close,by simp [inRanges]⟩
  | case3 => cases read
  | case4 => cases read
  | case5 bitMap c t close stop a b r' step ih =>
    obtain ⟨ranges,rest,bit⟩ := ih read
    refine ⟨(a,b)::ranges,.more (by simp [close,stop]) (alternativeReads step) rest,?_⟩
    intro i
    rw [bit]
    simp [setBits,inRanges,Bool.or_assoc]

theorem processComponentReads {s : Text} {m : YesNoMaybe} {component : Component} {r : Text}
    (ends : ¬ endsSimple s = true) (read : processComponent s (decideAlternates s m) = some (component,r)) :
    ∃ part, ReadsPart (decideAlternates s m) s part r ∧ component = compilePart part := by
  have consumed := processComponentShorter ends read
  cases s with
  | nil => exact absurd rfl ends
  | cons c t =>
    simp only [processComponent] at read
    split at read
    · rename_i open'
      obtain ⟨rfl,allowed⟩ := open'
      split at read
      · rename_i negated
        obtain ⟨⟨bits,rest⟩,inner,result⟩ := Option.map_eq_some_iff.mp read
        cases result
        obtain ⟨ranges,reads,bit⟩ := bracketReads inner
        obtain ⟨u,rfl⟩ := List.head?_eq_some_iff.mp negated
        refine ⟨.alternate true ranges,.negated allowed reads,?_⟩
        simp [compilePart,bit]
      · rename_i positive
        obtain ⟨⟨bits,rest⟩,inner,result⟩ := Option.map_eq_some_iff.mp read
        cases result
        obtain ⟨ranges,reads,bit⟩ := bracketReads inner
        refine ⟨.alternate false ranges,.bracket allowed positive reads,?_⟩
        simp only [compilePart,Component.charAlternatives.injEq]
        funext i
        simp [bit]
    split at read
    · cases read
      obtain ⟨run,reads,count⟩ := wildcardReads (c::t) 0
      have some : run ≠ [] := by
        rintro rfl
        generalize (wildcardCounts 0 (c::t)).2 = r at reads consumed
        cases reads with
        | done stop => simp at consumed
      refine ⟨.wildcards run,.wildcards reads some,?_⟩
      simpa [compilePart,countOf] using count
    · cases read
      have reads := ordinaryReads (decideAlternates (c::t) m) (c::t)
      refine ⟨.str _,.str reads ?_,rfl⟩
      intro nil
      rw [nil] at reads
      generalize (ordinary (decideAlternates (c::t) m) (c::t)).2 = r at reads consumed
      cases reads with
      | done stop => simp at consumed

theorem processSimpleReads {s : Text} {m : YesNoMaybe} {simple : List Simple} {r : Text}
    (read : processSimple s m = some (simple,r)) : ∃ parts, Pattern m s parts r ∧ simple = compile parts := by
  fun_induction processSimple s m generalizing simple r with
  | case1 s m ends => cases read; exact ⟨[],.done ends,rfl⟩
  | case2 => cases read
  | case3 => cases read
  | case4 s m ends component r' step remainder r'' next ih =>
    cases read
    obtain ⟨part,one,same⟩ := processComponentReads ends step
    obtain ⟨parts,rest,tail⟩ := ih next
    exact ⟨part::parts,.more (by simpa using ends) one rest,by rw [compile,← same,← tail]⟩

theorem processRegexReads {s : Text} {regex : List (List Simple)} {r : Text}
    (read : processRegex s = some (regex,r)) :
    ∃ alternatives, Alternatives s alternatives r ∧ regex = alternatives.map compile := by
  fun_induction processRegex s generalizing regex r with
  | case1 s stop => cases read; exact ⟨[],.done stop,rfl⟩
  | case2 => cases read
  | case3 => cases read
  | case4 s starts simple r' step remainder r'' next ih =>
    cases read
    obtain ⟨parts,one,same⟩ := processSimpleReads step
    obtain ⟨alternatives,rest,tail⟩ := ih next
    exact ⟨parts::alternatives,.more (by simpa using starts) one rest,by rw [List.map_cons,← same,← tail]⟩

theorem createReads {s : Text} {filter : SimpleRegex} {rest : Text} (read : create s = some (filter,rest)) :
    ∃ alternatives, Filter s filter.negate alternatives rest ∧ filter.regex = alternatives.map compile := by
  simp only [create] at read
  split at read
  · rename_i t
    split at read
    · rename_i regex rest' inner
      split at read
      · cases read
      · rename_i some
        cases read
        obtain ⟨alternatives,reads,same⟩ := processRegexReads inner
        have nonempty : alternatives ≠ [] := by
          rintro rfl
          simp [same] at some
        refine ⟨alternatives,?_,same⟩
        by_cases negated : t.head? = Option.some '^'
        · obtain ⟨u,rfl⟩ := List.head?_eq_some_iff.mp negated
          simpa using Filter.negated nonempty (by simpa using reads)
        · simp only [negated,decide_false,if_false] at reads ⊢
          exact .positive negated nonempty reads
    · cases read
  · cases read

end OmrCompiler.Regex
