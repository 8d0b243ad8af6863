import OmrCompiler.SimpleRegexGrammar

/-! The matcher against the meaning of a pattern. Where it has a result, the
result is the meaning; it looks past the terminator when a pattern that does not
match has used up the string before a negated bracket or a further '*'. -/
namespace OmrCompiler.Regex

def isWild : Part → Bool
  | .wildcards _ => true
  | _ => false

def hasAny : Part → Bool
  | .wildcards run => .any ∈ run
  | _ => false

def partLength : Part → Nat
  | .str chars => chars.length
  | .wildcards run => run.count .one
  | .alternate _ _ => 1

def hasStar (parts : List Part) : Bool := parts.any hasAny

def minLength (parts : List Part) : Nat := (parts.map partLength).sum

def someText : Part → Prop
  | .str chars => chars ≠ []
  | .wildcards run => run ≠ []
  | .alternate _ _ => True

-- Runs are maximal: two wildcard parts never stand side by side.
inductive Separate : List Part → Prop where
  | nil : Separate []
  | cons {part parts} (some : someText part) (apart : isWild part = true → ∀ next ∈ parts.head?, isWild next = false)
      (rest : Separate parts) : Separate (part::parts)

theorem wildcardsMaximal {s run r} (read : Wildcards s run r) : ∀ c ∈ r.head?, c ≠ '?' ∧ c ≠ '*' := by
  induction read with
  | done stop => exact stop
  | one next ih => exact ih
  | any next ih => exact ih

theorem patternSeparate {m s parts r} (read : Pattern m s parts r) : Separate parts := by
  induction read with
  | done ends => exact .nil
  | @more m s part s' parts r starts one next ih =>
    refine .cons ?_ ?_ ih
    · cases one with
      | str read some => exact some
      | wildcards read some => exact some
      | bracket allowed positive read => trivial
      | negated allowed read => trivial
    · intro wild
      cases one with
      | wildcards read some =>
        have stop := wildcardsMaximal read
        cases next with
        | done ends => simp
        | more starts' one' next' =>
          intro part' here
          cases here
          cases one' with
          | wildcards read' some' =>
            cases read' with
            | done stop' => exact absurd rfl some'
            | one next => exact absurd rfl (stop '?' rfl).1
            | any next => exact absurd rfl (stop '*' rfl).2
          | str read some => rfl
          | bracket allowed positive read => rfl
          | negated allowed read => rfl
      | str read some => cases wild
      | bracket allowed positive read => cases wild
      | negated allowed read => cases wild

theorem runMeansLength (run : List Wild) (u : Text) :
    runMeans run u ↔ if .any ∈ run then run.count .one ≤ u.length else u.length = run.count .one := by
  induction run generalizing u with
  | nil => simp [runMeans]
  | cons w run ih =>
    cases w with
    | one =>
      simp only [runMeans,List.mem_cons,reduceCtorEq,false_or,List.count_cons_self]
      constructor
      · rintro ⟨x,v,rfl,rest⟩
        have := (ih v).mp rest
        split at this <;> simp_all
      · intro long
        cases u with
        | nil => split at long <;> simp at long
        | cons x v =>
          refine ⟨x,v,rfl,(ih v).mpr ?_⟩
          split at long <;> simp_all
    | any =>
      simp only [runMeans,List.mem_cons,true_or,if_true,List.count_cons_of_ne (show Wild.any ≠ Wild.one by decide)]
      constructor
      · rintro ⟨v,w,rfl,rest⟩
        have := (ih w).mp rest
        rw [List.length_append]
        split at this <;> omega
      · intro long
        refine ⟨u.take (u.length - run.count .one),u.drop (u.length - run.count .one),(List.take_append_drop _ _).symm,?_⟩
        rw [ih]
        simp only [List.length_drop]
        split <;> omega

theorem partMeansLength {part : Part} {u : Text} (plain : hasAny part = false) (means : partMeans part u) :
    u.length = partLength part := by
  cases part with
  | str chars => rw [partMeans] at means; rw [means]; rfl
  | wildcards run =>
    rw [partMeans,runMeansLength] at means
    simp only [hasAny,decide_eq_false_iff_not] at plain
    simpa [plain,partLength] using means
  | alternate negated ranges =>
    obtain ⟨x,rfl,_⟩ := means
    rfl

theorem patternMeansLength {parts : List Part} {u : Text} (plain : hasStar parts = false)
    (means : patternMeans parts u) : u.length = minLength parts := by
  induction parts generalizing u with
  | nil => rw [patternMeans] at means; rw [means]; rfl
  | cons part parts ih =>
    obtain ⟨v,w,rfl,one,rest⟩ := means
    simp only [hasStar,List.any_cons,Bool.or_eq_false_iff] at plain
    have head := partMeansLength plain.1 one
    have tail := ih plain.2 rest
    simp only [minLength,List.map_cons,List.sum_cons,List.length_append] at tail ⊢
    omega

theorem patternMeansStar {run : List Wild} {parts : List Part} {u : Text} (any : .any ∈ run) :
    patternMeans (.wildcards run::parts) u ↔
      run.count .one ≤ u.length ∧ ∃ w, w <:+ u.drop (run.count .one) ∧ patternMeans parts w := by
  constructor
  · rintro ⟨v,w,rfl,one,rest⟩
    rw [partMeans,runMeansLength,if_pos any] at one
    refine ⟨by rw [List.length_append]; omega,w,?_,rest⟩
    rw [List.drop_append_of_le_length one]
    exact List.suffix_append _ _
  · rintro ⟨long,w,⟨v,split⟩,rest⟩
    refine ⟨u.take (run.count .one) ++ v,w,?_,?_,rest⟩
    · rw [List.append_assoc,split,List.take_append_drop]
    · rw [partMeans,runMeansLength,if_pos any,List.length_append,List.length_take]
      omega

/- What stands after `before` asks for one more character: a bracket that takes
the terminator for a character, or a '*' with another '*' to its right. -/
inductive Needs (before : List Part) : Part → List Part → List Part → Prop where
  | bracket {negated ranges after} (accepts : inRanges ranges 0 ≠ negated)
      (loose : hasStar after = true ∨ hasStar before = false) (apart : ∀ last ∈ before.getLast?, hasAny last = false) :
      Needs before (.alternate negated ranges) after []
  | star {run after} (any : .any ∈ run) (loose : hasStar after = true) :
      Needs before (.wildcards run) after [.wildcards (List.replicate (run.count .one) .one)]

def Exhausted (parts : List Part) (u : Text) : Prop :=
  ∃ before part after more, parts = before ++ part::after ∧ Needs before part after more ∧
    patternMeans (before ++ more) u

theorem needsCons {part : Part} (plain : hasAny part = false) {before : List Part} {next : Part} {after more : List Part} :
    Needs (part::before) next after more ↔ Needs before next after more := by
  have star : hasStar (part::before) = hasStar before := by simp [hasStar,plain]
  have last : (∀ last ∈ (part::before).getLast?, hasAny last = false) ↔
      ∀ last ∈ before.getLast?, hasAny last = false := by
    cases before with
    | nil => simpa using plain
    | cons other before => simp [List.getLast?_cons_cons]
  constructor
  · intro needs
    cases needs with
    | bracket accepts loose apart => exact .bracket accepts (star ▸ loose) (last.mp apart)
    | star any loose => exact .star any loose
  · intro needs
    cases needs with
    | bracket accepts loose apart => exact .bracket accepts (star ▸ loose) (last.mpr apart)
    | star any loose => exact .star any loose

theorem exhaustedCons {part : Part} {parts : List Part} {u : Text} (plain : hasAny part = false) :
    Exhausted (part::parts) u ↔ (∃ more, Needs [] part parts more ∧ patternMeans more u) ∨
      ∃ v w, u = v ++ w ∧ partMeans part v ∧ Exhausted parts w := by
  constructor
  · rintro ⟨before,next,after,more,split,needs,means⟩
    cases before with
    | nil =>
      cases split
      exact Or.inl ⟨more,needs,means⟩
    | cons first before =>
      cases split
      obtain ⟨v,w,rfl,one,rest⟩ := means
      exact Or.inr ⟨v,w,rfl,one,before,next,after,more,rfl,(needsCons plain).mp needs,rest⟩
  · rintro (⟨more,needs,means⟩ | ⟨v,w,rfl,one,before,next,after,more,rfl,needs,means⟩)
    · exact ⟨[],part,parts,more,rfl,needs,means⟩
    · exact ⟨part::before,next,after,more,rfl,(needsCons plain).mpr needs,v,w,rfl,one,means⟩

theorem headNotEmpty {part : Part} {rest : List Part} (text : someText part) (plain : isWild part = false) :
    ¬ patternMeans (part::rest) [] := by
  rintro ⟨v,w,split,one,_⟩
  obtain ⟨rfl,rfl⟩ := List.append_eq_nil_iff.mp split.symm
  cases part with
  | str chars => exact text one.symm
  | wildcards run => cases plain
  | alternate negated ranges => obtain ⟨x,impossible,_⟩ := one; cases impossible

theorem exhaustedStar {run : List Wild} {parts : List Part} {u : Text} (any : .any ∈ run)
    (separate : Separate (.wildcards run::parts)) :
    Exhausted (.wildcards run::parts) u ↔ hasStar parts = true ∧ (u.length = run.count .one ∨
      (run.count .one ≤ u.length ∧ ∃ w, w <:+ u.drop (run.count .one) ∧ w ≠ [] ∧ Exhausted parts w)) := by
  have here : hasAny (.wildcards run) = true := by simpa [hasAny] using any
  cases separate with
  | cons _ apart rest =>
  have plain := apart rfl
  constructor
  · rintro ⟨before,next,after,more,split,needs,means⟩
    cases before with
    | nil =>
      cases split
      cases needs with
      | star _ loose =>
        refine ⟨loose,Or.inl ?_⟩
        have fixed : hasStar [Part.wildcards (List.replicate (run.count .one) .one)] = false := by
          simp [hasStar,hasAny]
        have length := patternMeansLength fixed means
        simpa [minLength,partLength] using length
    | cons first before =>
      cases split
      have more' : patternMeans (.wildcards run::(before ++ more)) u := means
      obtain ⟨long,w,suffix,rest'⟩ := (patternMeansStar any).mp more'
      have starred : hasStar (.wildcards run::before) = true := by simp [hasStar,here]
      cases needs with
      | bracket accepts loose apart' =>
        have right := loose.resolve_right (by rw [starred]; exact Bool.noConfusion)
        refine ⟨by simp_all [hasStar],Or.inr ⟨long,w,suffix,?_,before,_,after,[],rfl,?_,rest'⟩⟩
        · rintro rfl
          cases before with
          | nil => simp [here] at apart'
          | cons other before =>
            cases rest with
            | cons text _ _ => exact headNotEmpty text (plain other rfl) rest'
        · refine .bracket accepts (Or.inl right) ?_
          cases before with
          | nil => simp
          | cons other before => simpa [List.getLast?_cons_cons] using apart'
      | star any' loose =>
        refine ⟨by simp_all [hasStar],Or.inr ⟨long,w,suffix,?_,before,_,after,_,rfl,.star any' loose,rest'⟩⟩
        rintro rfl
        cases before with
        | nil => cases plain _ rfl
        | cons other before =>
          cases rest with
          | cons text _ _ => exact headNotEmpty text (plain other rfl) rest'
  · rintro ⟨loose,exact | ⟨long,w,suffix,some,before,next,after,more,rfl,needs,means⟩⟩
    · refine ⟨[],_,parts,_,rfl,.star any loose,u,[],by simp,?_,rfl⟩
      rw [partMeans,runMeansLength]
      simp [exact]
    · refine ⟨.wildcards run::before,next,after,more,rfl,?_,(patternMeansStar any).mpr ⟨long,w,suffix,means⟩⟩
      cases needs with
      | bracket accepts loose' apart' =>
        have nonempty : before ≠ [] := by
          rintro rfl
          exact some (by simpa [patternMeans] using means)
        refine .bracket accepts (Or.inl ?_) ?_
        · rcases loose' with right | left
          · exact right
          · rw [hasStar,List.any_append,List.any_cons] at loose
            simp only [hasStar] at left
            simpa [left,hasAny,hasStar] using loose
        · obtain ⟨other,before',rfl⟩ := List.exists_cons_of_ne_nil nonempty
          simpa [List.getLast?_cons_cons] using apart'
      | star any' loose' => exact .star any' loose'

theorem Exhausted.short {parts : List Part} {u : Text} (plain : hasStar parts = false) (out : Exhausted parts u) :
    u.length < minLength parts := by
  obtain ⟨before,next,after,more,rfl,needs,means⟩ := out
  simp only [hasStar,List.any_append,List.any_cons,Bool.or_eq_false_iff] at plain
  cases needs with
  | bracket accepts loose apart =>
    rw [List.append_nil] at means
    have length := patternMeansLength plain.1 means
    simp only [minLength,List.map_append,List.map_cons,List.sum_append,List.sum_cons,partLength] at length ⊢
    omega
  | star any loose =>
    rw [hasStar,plain.2.2] at loose
    cases loose

/- A pattern that has used up a string but not matched it matches no shorter
suffix either: the next '*' could have taken what lies between. -/
theorem Exhausted.suffix {parts : List Part} {u w : Text} (loose : hasStar parts = true) (out : Exhausted parts u)
    (proper : w <:+ u) (shorter : w.length < u.length) (means : patternMeans parts w) : patternMeans parts u := by
  induction parts generalizing u w with
  | nil => cases loose
  | cons part parts ih =>
    cases plain : hasAny part with
    | true =>
      cases part with
      | str chars => cases plain
      | alternate negated ranges => cases plain
      | wildcards run =>
        have any : Wild.any ∈ run := by simpa [hasAny] using plain
        obtain ⟨long,t,end',rest⟩ := (patternMeansStar any).mp means
        refine (patternMeansStar any).mpr ⟨by omega,t,end'.trans ?_,rest⟩
        obtain ⟨x,rfl⟩ := proper
        rw [List.drop_append]
        rw [List.length_append] at shorter
        have inner : w.drop (run.count .one) <:+ w.drop (run.count .one - x.length) :=
          List.suffix_of_suffix_length_le (List.drop_suffix _ _) (List.drop_suffix _ _)
            (by simp only [List.length_drop]; omega)
        exact inner.trans (List.suffix_append _ _)
    | false =>
      rcases (exhaustedCons plain).mp out with ⟨more,needs,used⟩ | ⟨v,u',rfl,one,rest⟩
      · cases needs with
        | bracket accepts loose' apart =>
          rw [patternMeans] at used
          subst used
          simp at shorter
        | star any loose' => simp [hasAny,any] at plain
      · obtain ⟨v',w',rfl,one',rest'⟩ := means
        have same : v.length = v'.length :=
          (partMeansLength plain one).trans (partMeansLength plain one').symm
        have inner : w' <:+ u' := by
          have cut : (v' ++ w') <:+ (v ++ u') := proper
          have left : w' <:+ v ++ u' := (List.suffix_append _ _).trans cut
          exact List.suffix_of_suffix_length_le left (List.suffix_append _ _)
            (by simp only [List.length_append] at shorter; omega)
        have tail : hasStar parts = true := by simpa [hasStar,plain] using loose
        refine ⟨v,u',rfl,one,ih tail rest inner ?_ rest'⟩
        simp only [List.length_append] at shorter
        omega

theorem partLengthPos {part : Part} (text : someText part) (plain : hasAny part = false) : 0 < partLength part := by
  cases part with
  | str chars => exact List.length_pos_iff.mpr text
  | alternate negated ranges => exact Nat.one_pos
  | wildcards run =>
    simp only [hasAny,decide_eq_false_iff_not] at plain
    simp only [partLength]
    obtain ⟨first,rest,rfl⟩ := List.exists_cons_of_ne_nil text
    cases first with
    | one => simp
    | any => simp at plain

theorem compileStar (part : Part) : isStar (compilePart part) = hasAny part := by
  cases part with
  | str chars => rfl
  | alternate negated ranges => rfl
  | wildcards run =>
    simp only [compilePart,isStar,countOf,hasAny]
    by_cases any : Wild.any ∈ run
    · simp [any]
    · simp [any]

theorem compileLength (part : Part) : fixedLength (compilePart part) = partLength part := by
  cases part with
  | str chars => rfl
  | alternate negated ranges => rfl
  | wildcards run =>
    simp only [compilePart,fixedLength,countOf,partLength]
    split <;> omega

theorem compileEmpty (parts : List Part) : (compile parts).isEmpty = parts.isEmpty := by
  cases parts <;> rfl

theorem fixedCharsRightCompile {parts : List Part} (separate : Separate parts) :
    fixedCharsRight (compile parts) = if hasStar parts then 0 else minLength parts := by
  induction separate with
  | nil => rfl
  | @cons part parts text apart rest ih =>
    have unfold' : fixedCharsRight (compile (part::parts)) =
        if isStar (compilePart part) ∨ (fixedCharsRight (compile parts) = 0 ∧ (compile parts).isEmpty = false) then 0
        else fixedCharsRight (compile parts) + fixedLength (compilePart part) := rfl
    rw [unfold',compileStar,compileLength,ih,compileEmpty]
    cases star : hasAny part with
    | true => simp [hasStar,star]
    | false =>
      cases later : hasStar parts with
      | true =>
        have some : parts.isEmpty = false := by
          cases parts with
          | nil => cases later
          | cons _ _ => rfl
        simp [some,show hasStar (part::parts) = true by simpa [hasStar,star] using later]
      | false =>
        have whole : hasStar (part::parts) = false := by simpa [hasStar,star] using later
        have positive : parts.isEmpty = false → minLength parts ≠ 0 := by
          intro some
          cases rest with
          | nil => cases some
          | @cons next _ text' _ _ =>
            simp only [hasStar,List.any_cons,Bool.or_eq_false_iff] at later
            have := partLengthPos text' later.1
            simp only [minLength,List.map_cons,List.sum_cons]
            omega
        simp only [Bool.false_eq_true,if_false,whole,false_or]
        rw [if_neg fun both => positive both.2 both.1]
        simp only [minLength,List.map_cons,List.sum_cons]
        omega

end OmrCompiler.Regex
