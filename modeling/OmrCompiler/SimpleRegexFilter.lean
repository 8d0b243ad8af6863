import OmrCompiler.SimpleRegexMatch

/-! What the matcher returns on a compiled filter, and when it looks past the
terminator of the string. -/
namespace OmrCompiler.Regex

variable {rules : CaseRules}

structure Verdict (result : Option Bool) (means exhausted : Prop) : Prop where
  yes : result = some true ↔ means
  past : result = none ↔ ¬ means ∧ exhausted

theorem Verdict.no {means exhausted : Prop} (fails : ¬ means) (safe : ¬ exhausted) :
    Verdict (some false) means exhausted := by
  constructor
  · simp [fails]
  · simp [safe]

theorem Verdict.congr {result : Option Bool} {means exhausted means' exhausted' : Prop}
    (verdict : Verdict result means exhausted) (same : means' ↔ means) (same' : exhausted' ↔ exhausted) :
    Verdict result means' exhausted' := by
  rw [propext same,propext same']
  exact verdict

theorem afterStringRead (sensitive : rules.isCaseSensitive = true) {chars : List Char} {s t : Text} :
    afterString rules chars s = some t ↔ s = chars ++ t := by
  induction chars generalizing s with
  | nil => simp [afterString]
  | cons c chars ih =>
    cases s with
    | nil => simp [afterString]
    | cons x s =>
      by_cases same : x = c
      · simp [afterString,sameChar,sensitive,same,ih]
      · simp [afterString,sameChar,sensitive,same]

theorem inBitMapSensitive (sensitive : rules.isCaseSensitive = true) (bitMap : Nat → Bool) (i : Nat) :
    inBitMap rules bitMap i = bitMap i := by
  simp [inBitMap,sensitive]

theorem exhaustedNil (u : Text) : ¬ Exhausted [] u := by
  rintro ⟨before,part,after,more,split,_⟩
  cases before <;> cases split

theorem stringVerdict (sensitive : rules.isCaseSensitive = true) {chars : List Char} {parts : List Part}
    (rest : ∀ u, Verdict (matchSimple rules (compile parts) u) (patternMeans parts u) (Exhausted parts u)) (u : Text) :
    Verdict (matchSimple rules (compile (.str chars::parts)) u) (patternMeans (.str chars::parts) u)
      (Exhausted (.str chars::parts) u) := by
  have needsNot : ∀ more, ¬ Needs [] (.str chars) parts more := nofun
  simp only [compile,compilePart,matchSimple]
  cases after : afterString rules chars u with
  | none =>
    have apart : ∀ t, u ≠ chars ++ t := fun t split => by
      rw [(afterStringRead sensitive).mpr split] at after
      cases after
    apply Verdict.no
    · rintro ⟨v,w,rfl,rfl,_⟩
      exact apart w rfl
    · intro out
      rcases (exhaustedCons rfl).mp out with ⟨more,needs,_⟩ | ⟨v,w,rfl,rfl,_⟩
      · exact needsNot more needs
      · exact apart w rfl
  | some t =>
    have split := (afterStringRead sensitive).mp after
    subst split
    apply (rest t).congr
    · constructor
      · rintro ⟨v,w,split,rfl,means⟩
        rwa [List.append_cancel_left split]
      · exact fun means => ⟨chars,t,rfl,rfl,means⟩
    · rw [exhaustedCons rfl]
      constructor
      · rintro (⟨more,needs,_⟩ | ⟨v,w,split,rfl,out⟩)
        · exact absurd needs (needsNot more)
        · rwa [List.append_cancel_left split]
      · exact fun out => Or.inr ⟨chars,t,rfl,rfl,out⟩

theorem bracketVerdict (sensitive : rules.isCaseSensitive = true) {negated : Bool} {ranges : List (Char × Char)}
    {parts : List Part}
    (rest : ∀ u, Verdict (matchSimple rules (compile parts) u) (patternMeans parts u) (Exhausted parts u)) (u : Text) :
    Verdict (matchSimple rules (compile (.alternate negated ranges::parts)) u)
      (patternMeans (.alternate negated ranges::parts) u) (Exhausted (.alternate negated ranges::parts) u) := by
  simp only [compile,compilePart,matchSimple,inBitMapSensitive sensitive]
  cases u with
  | nil =>
    have fails : ¬ patternMeans (.alternate negated ranges::parts) [] := by
      rintro ⟨v,w,split,⟨x,rfl,_⟩,_⟩
      cases split
    show Verdict (if (inRanges ranges 0 != negated) = true then none else some false) _ _
    by_cases accepts : inRanges ranges 0 = negated
    · simp only [accepts,bne_self_eq_false,Bool.false_eq_true,if_false]
      apply Verdict.no fails
      intro out
      rcases (exhaustedCons rfl).mp out with ⟨more,needs,_⟩ | ⟨v,w,split,⟨x,rfl,_⟩,_⟩
      · cases needs with
        | bracket accepts' _ _ => exact accepts' accepts
      · cases split
    · rw [if_pos (by simpa using accepts)]
      have out : Exhausted (.alternate negated ranges::parts) [] :=
        (exhaustedCons rfl).mpr (Or.inl ⟨[],.bracket accepts (Or.inr rfl) (by simp),rfl⟩)
      exact ⟨by simp [fails],by simp [fails,out]⟩
  | cons x t =>
    show Verdict (if (inRanges ranges x.toNat != negated) = true then matchSimple rules (compile parts) t
      else some false) _ _
    by_cases accepts : inRanges ranges x.toNat = negated
    · simp only [accepts,bne_self_eq_false,Bool.false_eq_true,if_false]
      apply Verdict.no
      · rintro ⟨v,w,split,⟨y,rfl,other⟩,_⟩
        cases split
        exact other accepts
      · intro out
        rcases (exhaustedCons rfl).mp out with ⟨more,needs,means⟩ | ⟨v,w,split,⟨y,rfl,other⟩,_⟩
        · cases needs with
          | bracket _ _ _ => cases means
        · cases split
          exact other accepts
    · rw [if_pos (by simpa using accepts)]
      apply (rest t).congr
      · constructor
        · rintro ⟨v,w,split,⟨y,rfl,_⟩,means⟩
          cases split
          exact means
        · exact fun means => ⟨[x],t,rfl,⟨x,rfl,accepts⟩,means⟩
      · rw [exhaustedCons rfl]
        constructor
        · rintro (⟨more,needs,means⟩ | ⟨v,w,split,⟨y,rfl,_⟩,out⟩)
          · cases needs with
            | bracket _ _ _ => cases means
          · cases split
            exact out
        · exact fun out => Or.inr ⟨[x],t,rfl,⟨x,rfl,accepts⟩,out⟩

theorem scanVerdict {parts : List Part} (loose : hasStar parts = true) (nonempty : ¬ patternMeans parts [])
    {matches' : Text → Option Bool}
    (rest : ∀ u, Verdict (matches' u) (patternMeans parts u) (Exhausted parts u)) (u : Text) :
    Verdict (scan matches' u) (∃ w, w <:+ u ∧ patternMeans parts w)
      (u = [] ∨ ∃ w, w <:+ u ∧ w ≠ [] ∧ Exhausted parts w) := by
  induction u with
  | nil =>
    have stuck : scan matches' [] = none := by
      simp only [scan]
      cases result : matches' [] with
      | none => rfl
      | some found =>
        cases found with
        | false => rfl
        | true => exact absurd ((rest []).yes.mp result) nonempty
    exact ⟨by simp [stuck,nonempty],by simp [stuck,nonempty]⟩
  | cons x t ih =>
    simp only [scan]
    cases result : matches' (x::t) with
    | none =>
      obtain ⟨fails,out⟩ := (rest (x::t)).past.mp result
      have all : ¬ ∃ w, w <:+ x::t ∧ patternMeans parts w := by
        rintro ⟨w,suffix,means⟩
        rcases List.suffix_cons_iff.mp suffix with rfl | later
        · exact fails means
        · exact fails (out.suffix loose suffix (Nat.lt_succ_of_le later.length_le) means)
      exact ⟨by simp [all],by simpa [all] using ⟨x::t,List.suffix_refl _,by simp,out⟩⟩
    | some found =>
      cases found with
      | true =>
        have means := (rest (x::t)).yes.mp result
        have all : ∃ w, w <:+ x::t ∧ patternMeans parts w := ⟨x::t,List.suffix_refl _,means⟩
        exact ⟨by simp [all],by simp [all]⟩
      | false =>
        have fails : ¬ patternMeans parts (x::t) := fun means => by
          rw [(rest (x::t)).yes.mpr means] at result
          cases result
        have safe : ¬ Exhausted parts (x::t) := fun out => by
          rw [(rest (x::t)).past.mpr ⟨fails,out⟩] at result
          cases result
        have meansLater : (∃ w, w <:+ x::t ∧ patternMeans parts w) ↔ ∃ w, w <:+ t ∧ patternMeans parts w := by
          simp only [List.suffix_cons_iff]
          constructor
          · rintro ⟨w,rfl | later,means⟩
            · exact absurd means fails
            · exact ⟨w,later,means⟩
          · exact fun ⟨w,later,means⟩ => ⟨w,Or.inr later,means⟩
        have outLater : (x::t = [] ∨ ∃ w, w <:+ x::t ∧ w ≠ [] ∧ Exhausted parts w) ↔
            ∃ w, w <:+ t ∧ w ≠ [] ∧ Exhausted parts w := by
          simp only [List.suffix_cons_iff,reduceCtorEq,false_or]
          constructor
          · rintro ⟨w,rfl | later,some,out⟩
            · exact absurd out safe
            · exact ⟨w,later,some,out⟩
          · exact fun ⟨w,later,held,out⟩ => ⟨w,Or.inr later,held,out⟩
        cases t with
        | nil =>
          show Verdict (some false) _ _
          apply Verdict.no
          · rw [meansLater]
            rintro ⟨w,suffix,means⟩
            rw [List.suffix_nil.mp suffix] at means
            exact nonempty means
          · rw [outLater]
            rintro ⟨w,suffix,some,_⟩
            exact some (List.suffix_nil.mp suffix)
        | cons y t =>
          show Verdict (scan matches' (y::t)) _ _
          exact ih.congr meansLater (by rw [outLater]; simp)

theorem countOfHalf (run : List Wild) : countOf run / 2 = run.count .one := by
  simp only [countOf]
  split <;> omega

theorem countOfParity (run : List Wild) : countOf run % 2 = 0 ↔ .any ∉ run := by
  simp only [countOf]
  split <;> simp_all

theorem suffixSame {w v u : Text} (left : w <:+ u) (right : v <:+ u) (length : w.length = v.length) : w = v :=
  (List.suffix_of_suffix_length_le left right (Nat.le_of_eq length)).eq_of_length length

theorem wildcardVerdict {run : List Wild} {parts : List Part} (separate : Separate (.wildcards run::parts))
    (rest : ∀ u, Verdict (matchSimple rules (compile parts) u) (patternMeans parts u) (Exhausted parts u)) (u : Text) :
    Verdict (matchSimple rules (compile (.wildcards run::parts)) u) (patternMeans (.wildcards run::parts) u)
      (Exhausted (.wildcards run::parts) u) := by
  simp only [compile,compilePart,matchSimple,countOfHalf,countOfParity,compileEmpty]
  by_cases any : Wild.any ∈ run
  · by_cases short : u.length < run.count .one
    · rw [if_pos short]
      apply Verdict.no
      · rw [patternMeansStar any]
        omega
      · rw [exhaustedStar any separate]
        omega
    · rw [if_neg short,if_neg (not_not.mpr any)]
      cases separate with
      | cons text apart tail =>
      rw [fixedCharsRightCompile tail]
      cases loose : hasStar parts with
      | false =>
        have guard : (if false = true then 0 else minLength parts) ≠ 0 ∨ parts.isEmpty = true := by
          cases tail with
          | nil => exact Or.inr rfl
          | @cons part _ text' _ _ =>
            left
            simp only [hasStar,List.any_cons,Bool.or_eq_false_iff] at loose
            have := partLengthPos text' loose.1
            simp only [Bool.false_eq_true,if_false,minLength,List.map_cons,List.sum_cons]
            omega
        have safe : ¬ Exhausted (.wildcards run::parts) u := by
          rw [exhaustedStar any (.cons text apart tail),loose]
          simp
        rw [if_pos guard]
        simp only [Bool.false_eq_true,if_false]
        split
        · rename_i fits
          have length : ((u.drop (run.count .one)).drop ((u.drop (run.count .one)).length - minLength parts)).length =
              minLength parts := by
            rw [List.length_drop]
            omega
          have verdict := rest ((u.drop (run.count .one)).drop ((u.drop (run.count .one)).length - minLength parts))
          have inner : ¬ Exhausted parts ((u.drop (run.count .one)).drop
              ((u.drop (run.count .one)).length - minLength parts)) := fun out => by
            have := out.short loose
            omega
          apply verdict.congr
          · rw [patternMeansStar any]
            constructor
            · rintro ⟨_,w,suffix,means⟩
              have same := patternMeansLength loose means
              rwa [← suffixSame suffix (List.drop_suffix _ _) (same.trans length.symm)]
            · exact fun means => ⟨by omega,_,List.drop_suffix _ _,means⟩
          · exact ⟨fun out => absurd out safe,fun out => absurd out inner⟩
        · rename_i few
          apply Verdict.no _ safe
          rw [patternMeansStar any]
          rintro ⟨_,w,suffix,means⟩
          have same := patternMeansLength loose means
          have := suffix.length_le
          omega
      | true =>
        have some : parts.isEmpty = false := by
          cases parts with
          | nil => cases loose
          | cons _ _ => rfl
        have nonempty : ¬ patternMeans parts [] := by
          cases tail with
          | nil => cases loose
          | @cons part _ text' _ _ => exact headNotEmpty text' (apart rfl part rfl)
        rw [if_neg (by simp [some])]
        apply (scanVerdict loose nonempty rest (u.drop (run.count .one))).congr
        · rw [patternMeansStar any]
          exact and_iff_right (by omega)
        · rw [exhaustedStar any (.cons text apart tail),loose]
          simp only [true_and]
          apply or_congr
          · rw [List.drop_eq_nil_iff]
            omega
          · exact and_iff_right (by omega)
  · have plain : hasAny (.wildcards run) = false := by simpa [hasAny] using any
    have needsNot : ∀ more, ¬ Needs [] (.wildcards run) parts more := by
      rintro more (_ | ⟨any',_⟩)
      exact any any'
    have means := fun u : Text => runMeansLength run u
    simp only [any,if_false] at means
    have cut : ∀ P : Text → Prop, (∃ v w, u = v ++ w ∧ partMeans (.wildcards run) v ∧ P w) ↔
        run.count .one ≤ u.length ∧ P (u.drop (run.count .one)) := by
      intro P
      constructor
      · rintro ⟨v,w,rfl,one,here⟩
        have length := (means v).mp one
        rw [← length,List.drop_left,List.length_append]
        exact ⟨by omega,here⟩
      · rintro ⟨long,here⟩
        refine ⟨u.take (run.count .one),_,(List.take_append_drop _ _).symm,(means _).mpr ?_,here⟩
        rw [List.length_take]
        omega
    have meansCut : patternMeans (.wildcards run::parts) u ↔ _ := cut (patternMeans parts)
    have outCut : Exhausted (.wildcards run::parts) u ↔ _ := (exhaustedCons plain).trans
      ((or_iff_right (fun out => out.elim fun more both => needsNot more both.1)).trans (cut (Exhausted parts)))
    by_cases short : u.length < run.count .one
    · rw [if_pos short]
      apply Verdict.no
      · rw [meansCut]
        omega
      · rw [outCut]
        omega
    · rw [if_neg short,if_pos any]
      apply (rest _).congr
      · rw [meansCut]
        exact and_iff_right (by omega)
      · rw [outCut]
        exact and_iff_right (by omega)

theorem matchVerdict (sensitive : rules.isCaseSensitive = true) {parts : List Part} (separate : Separate parts)
    (u : Text) : Verdict (matchSimple rules (compile parts) u) (patternMeans parts u) (Exhausted parts u) := by
  induction separate generalizing u with
  | nil => exact ⟨by simp [compile,matchSimple,patternMeans],by simp [compile,matchSimple,exhaustedNil]⟩
  | @cons part parts text apart rest ih =>
    cases part with
    | str chars => exact stringVerdict sensitive ih u
    | wildcards run => exact wildcardVerdict (.cons text apart rest) ih u
    | alternate negated ranges => exact bracketVerdict sensitive ih u

/- An alternative that is tried, because none before it matches, and does not
match itself, has used up the string with a part left that takes a character. -/
def PastEnd (alternatives : List (List Part)) (u : Text) : Prop :=
  ∃ before parts after, alternatives = before ++ parts::after ∧ (∀ earlier ∈ before, ¬ patternMeans earlier u) ∧
    ¬ patternMeans parts u ∧ Exhausted parts u

theorem pastEndCons {parts : List Part} {alternatives : List (List Part)} {u : Text} :
    PastEnd (parts::alternatives) u ↔ ¬ patternMeans parts u ∧ (Exhausted parts u ∨ PastEnd alternatives u) := by
  constructor
  · rintro ⟨before,last,after,split,earlier,fails,out⟩
    cases before with
    | nil => cases split; exact ⟨fails,Or.inl out⟩
    | cons first before =>
      cases split
      exact ⟨earlier _ List.mem_cons_self,Or.inr ⟨before,last,after,rfl,
        fun other member => earlier other (List.mem_cons_of_mem _ member),fails,out⟩⟩
  · rintro ⟨fails,out | ⟨before,last,after,rfl,earlier,fails',out⟩⟩
    · exact ⟨[],parts,alternatives,rfl,nofun,fails,out⟩
    · refine ⟨parts::before,last,after,rfl,?_,fails',out⟩
      intro other member
      rcases List.mem_cons.mp member with rfl | later
      · exact fails
      · exact earlier other later

theorem regexVerdict (sensitive : rules.isCaseSensitive = true) {alternatives : List (List Part)}
    (separate : ∀ parts ∈ alternatives, Separate parts) (u : Text) :
    (matchRegex rules (alternatives.map compile) u = none ↔ PastEnd alternatives u) ∧
      (matchRegex rules (alternatives.map compile) u = some true → ∃ parts ∈ alternatives, patternMeans parts u) ∧
      (matchRegex rules (alternatives.map compile) u = some false → ¬ ∃ parts ∈ alternatives, patternMeans parts u) := by
  induction alternatives with
  | nil =>
    refine ⟨⟨nofun,?_⟩,nofun,by simp⟩
    rintro ⟨before,parts,after,split,_⟩
    cases before <;> cases split
  | cons parts alternatives ih =>
    have verdict := matchVerdict sensitive (separate parts List.mem_cons_self) u
    obtain ⟨past,yes,no⟩ := ih fun other member => separate other (List.mem_cons_of_mem _ member)
    simp only [List.map_cons,matchRegex,pastEndCons]
    cases result : matchSimple rules (compile parts) u with
    | none =>
      obtain ⟨fails,out⟩ := verdict.past.mp result
      exact ⟨by simp [fails,out],nofun,nofun⟩
    | some found =>
      cases found with
      | true =>
        have means := verdict.yes.mp result
        exact ⟨by simp [means],fun _ => ⟨parts,List.mem_cons_self,means⟩,by simp⟩
      | false =>
        have fails : ¬ patternMeans parts u := fun means => by
          rw [verdict.yes.mpr means] at result
          cases result
        have safe : ¬ Exhausted parts u := fun out => by
          rw [verdict.past.mpr ⟨fails,out⟩] at result
          cases result
        show (matchRegex rules (alternatives.map compile) u = none ↔ _) ∧ _ ∧ _
        refine ⟨by rw [past]; simp [fails,safe],?_,?_⟩
        · intro found
          obtain ⟨other,member,means⟩ := yes found
          exact ⟨other,List.mem_cons_of_mem _ member,means⟩
        · intro none
          simpa [fails] using no none

theorem alternativesSeparate {s alternatives r} (read : Alternatives s alternatives r) :
    ∀ parts ∈ alternatives, Separate parts := by
  induction read with
  | done ends => nofun
  | more starts one next ih =>
    intro parts member
    rcases List.mem_cons.mp member with rfl | later
    · exact patternSeparate one
    · exact ih parts later

theorem filterSeparate {text negate alternatives rest} (read : Filter text negate alternatives rest) :
    ∀ parts ∈ alternatives, Separate parts := by
  cases read with
  | positive first some read => exact alternativesSeparate read
  | negated some read => exact alternativesSeparate read

/- Every accepted text has a reading in the grammar, and on every string the
matcher returns what that reading means exactly when it never looks past the end. -/
theorem filtersMatch {rules : CaseRules} (sensitive : rules.isCaseSensitive = true) {text : Text}
    {filter : SimpleRegex} {rest : Text} (accepted : create text = some (filter,rest)) :
    ∃ alternatives, Filter text filter.negate alternatives rest ∧ ∀ u,
      (∃ result, matchFilter rules filter u = some result ∧ (result = true ↔ filterMeans filter.negate alternatives u)) ↔
        ¬ PastEnd alternatives u := by
  obtain ⟨alternatives,read,same⟩ := createReads accepted
  refine ⟨alternatives,read,fun u => ?_⟩
  obtain ⟨past,yes,no⟩ := regexVerdict sensitive (filterSeparate read) u
  rw [← past,matchFilter,same]
  cases result : matchRegex rules (alternatives.map compile) u with
  | none => simp
  | some found =>
    have means : (found = true ↔ ∃ parts ∈ alternatives, patternMeans parts u) := by
      cases found with
      | true => simpa using yes result
      | false => simpa using no result
    simp only [filterMeans,reduceCtorEq,not_false_eq_true,iff_true]
    refine ⟨_,rfl,?_⟩
    cases filter.negate with
    | false => simpa using means
    | true =>
      simp only [if_true,Bool.not_eq_true',← means]
      cases found <;> simp

theorem filtersMatchSample :
    ∃ filter, create "{f[a-c]*z|x}".toList = some (filter,[]) ∧
      ∃ alternatives, Filter "{f[a-c]*z|x}".toList filter.negate alternatives [] ∧ ∀ u,
        (∃ result, matchFilter ⟨true,id,id⟩ filter u = some result ∧
          (result = true ↔ filterMeans filter.negate alternatives u)) ↔ ¬ PastEnd alternatives u := by
  have parsed : (create "{f[a-c]*z|x}".toList).map Prod.snd = some [] := by decide +kernel
  obtain ⟨⟨filter,rest⟩,accepted,rfl⟩ := Option.map_eq_some_iff.mp parsed
  exact ⟨filter,accepted,filtersMatch rfl accepted⟩

-- A negated bracket takes the terminator of the empty string for a character.
theorem filterReadsPastEnd :
    ∃ filter, create "{[^a]}".toList = some (filter,[]) ∧ matchFilter ⟨true,id,id⟩ filter [] = none := by
  have parsed : (create "{[^a]}".toList).map (fun read => (read.2,matchFilter ⟨true,id,id⟩ read.1 [])) =
      some ([],none) := by decide +kernel
  obtain ⟨⟨filter,rest⟩,accepted,result⟩ := Option.map_eq_some_iff.mp parsed
  obtain ⟨rfl,past⟩ := Prod.mk.inj result
  exact ⟨filter,accepted,past⟩

end OmrCompiler.Regex
