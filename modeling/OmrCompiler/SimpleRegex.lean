import Mathlib.Algebra.Ring.Nat
import Mathlib.Data.List.Basic
import Mathlib.Order.Basic

/-! Filter regular expressions: the parser of a filter text and the matcher.
A list of characters stands for a NUL-terminated string; the end of the list is
the terminator, and a matcher that looks beyond it has no result. -/
namespace OmrCompiler.Regex

abbrev Text := List Char

inductive YesNoMaybe where
  | yes
  | no
  | maybe
  deriving DecidableEq, Repr

-- A bit map is indexed by character code; the terminator is code 0.
inductive Component where
  | simpleString (str : List Char)
  | wildcards (counts : Nat)
  | charAlternatives (bitMap : Nat → Bool)

structure Simple where
  component : Component
  fixedCharsRight : Nat

structure SimpleRegex where
  regex : List (List Simple)
  negate : Bool

def setBits (bitMap : Nat → Bool) (lo hi : Nat) : Nat → Bool := fun i => bitMap i || (decide (lo ≤ i) && decide (i ≤ hi))

-- Is there a ']' before the end of the filter?
def closes : Text → Bool
  | [] => false
  | c::s =>
      if c = '}' then false
      else if c = ']' then true
      else if c = '\\' then
        match s with
        | [] => false
        | _::t => closes t
      else closes s

def decideAlternates (s : Text) (allowAlternates : YesNoMaybe) : YesNoMaybe :=
  match s with
  | '['::t =>
      if allowAlternates = .maybe then
        if t.head? = some '^' then .yes else if closes s then .yes else .no
      else allowAlternates
  | _ => allowAlternates

def unescape : Text → Text
  | [] => []
  | c::s => if c = '\\' ∧ s ≠ [] then s else c::s

-- One character or range of a bracket, and the text after it.
def alternative (s : Text) : Option ((Char × Char) × Text) :=
  match unescape s with
  | a::b::c::t =>
      if b = '-' ∧ c ≠ ']' then
        match t with
        | d::u => if c = '\\' ∧ d ≠ ']' then some ((a,d),u) else some ((a,c),t)
        | [] => some ((a,c),t)
      else some ((a,a),b::c::t)
  | a::t => some ((a,a),t)
  | [] => none

theorem unescapeShorter (s : Text) : (unescape s).length ≤ s.length := by
  cases s with
  | nil => exact Nat.le_refl _
  | cons c s =>
    simp only [unescape]
    split <;> simp

theorem alternativeShorter {s : Text} {range : Char × Char} {r : Text}
    (read : alternative s = some (range,r)) : r.length < s.length := by
  have bound := unescapeShorter s
  simp only [alternative] at read
  split at read
  · rename_i a b c t open_
    rw [open_] at bound
    simp only [List.length_cons] at bound
    split at read
    · split at read
      · split at read <;> cases read
        · simp only [List.length_cons] at bound
          omega
        · simp only [List.length_cons] at bound ⊢
          omega
      · cases read
        simp only [List.length_nil] at bound ⊢
        omega
    · cases read
      simp only [List.length_cons]
      omega
  · rename_i a t _ open_
    rw [open_] at bound
    cases read
    simp only [List.length_cons] at bound
    omega
  · cases read

def bracket (s : Text) (bitMap : Nat → Bool) : Option ((Nat → Bool) × Text) :=
  match s with
  | [] => none
  | c::t =>
      if c = ']' then some (bitMap,t)
      else if c = '}' then none
      else
        match read : alternative (c::t) with
        | none => none
        | some ((a,b),r) => bracket r (setBits bitMap (min a.toNat b.toNat) (max a.toNat b.toNat))
  termination_by s.length
  decreasing_by exact alternativeShorter read

def wildcardCounts : Nat → Text → Nat × Text
  | counts,[] => (counts,[])
  | counts,c::s =>
      if c = '?' then wildcardCounts (counts + 2) s
      else if c = '*' then wildcardCounts (counts ||| 1) s
      else (counts,c::s)

def endsString (allowAlternates : YesNoMaybe) (c : Char) : Bool :=
  c = '*' || c = '?' || c = ',' || c = '|' || c = '}' || (c = '[' && allowAlternates != .no)

def ordinary (allowAlternates : YesNoMaybe) : Text → List Char × Text
  | [] => ([],[])
  | c::s =>
      if endsString allowAlternates c then ([],c::s)
      else if c = '\\' then
        match s with
        | [] => (['\\'],[])
        | d::t => (d::(ordinary allowAlternates t).1,(ordinary allowAlternates t).2)
      else (c::(ordinary allowAlternates s).1,(ordinary allowAlternates s).2)

def processComponent (s : Text) (allowAlternates : YesNoMaybe) : Option (Component × Text) :=
  match s with
  | [] => none
  | c::t =>
      if c = '[' ∧ allowAlternates = .yes then
        if t.head? = some '^' then
          (bracket t.tail fun _ => false).map fun (bitMap,r) => (.charAlternatives fun i => !bitMap i,r)
        else (bracket t fun _ => false).map fun (bitMap,r) => (.charAlternatives bitMap,r)
      else if c = '?' ∨ c = '*' then some (.wildcards (wildcardCounts 0 s).1,(wildcardCounts 0 s).2)
      else some (.simpleString (ordinary allowAlternates s).1,(ordinary allowAlternates s).2)

def fixedLength : Component → Nat
  | .simpleString str => str.length
  | .wildcards counts => counts / 2
  | .charAlternatives _ => 1

def isStar : Component → Bool
  | .wildcards counts => counts % 2 = 1
  | _ => false

def fixedCharsRight : List Simple → Nat
  | [] => 0
  | m::remainder =>
      if isStar m.component ∨ (m.fixedCharsRight = 0 ∧ remainder.isEmpty = false) then 0
      else m.fixedCharsRight + fixedLength m.component

def endsSimple (s : Text) : Bool :=
  match s with
  | [] => true
  | c::_ => c = ',' || c = '|' || c = '}'

theorem bracketShorter {s : Text} {bitMap bits : Nat → Bool} {r : Text}
    (read : bracket s bitMap = some (bits,r)) : r.length < s.length := by
  fun_induction bracket s bitMap with
  | case1 => cases read
  | case2 => cases read; simp
  | case3 => cases read
  | case4 => cases read
  | case5 bitMap c t _ _ a b r' step ih =>
    have shorter := alternativeShorter step
    have rest := ih read
    omega

theorem wildcardShorter (counts : Nat) (s : Text) : (wildcardCounts counts s).2.length ≤ s.length := by
  induction s generalizing counts with
  | nil => exact Nat.le_refl _
  | cons c s ih =>
    have one := ih (counts + 2)
    have any := ih (counts ||| 1)
    simp only [wildcardCounts]
    split
    · simp only [List.length_cons]
      omega
    split
    · simp only [List.length_cons]
      omega
    · exact Nat.le_refl _

theorem ordinaryShorter (allowAlternates : YesNoMaybe) (s : Text) :
    (ordinary allowAlternates s).2.length ≤ s.length := by
  fun_induction ordinary allowAlternates s with
  | case1 => exact Nat.le_refl _
  | case2 => exact Nat.le_refl _
  | case3 => simp
  | case4 ends d t ih =>
    simp only [List.length_cons]
    omega
  | case5 c s ends plain ih =>
    simp only [List.length_cons]
    omega

theorem ordinaryConsumes {allowAlternates : YesNoMaybe} {c : Char} {t : Text}
    (inside : endsString allowAlternates c = false) : (ordinary allowAlternates (c::t)).2.length ≤ t.length := by
  have rest := ordinaryShorter allowAlternates t
  cases t with
  | nil =>
    rw [ordinary.eq_def]
    simp only [inside,Bool.false_eq_true,if_false]
    split <;> simp [ordinary]
  | cons d t =>
    have rest' := ordinaryShorter allowAlternates t
    rw [ordinary.eq_def]
    simp only [inside,Bool.false_eq_true,if_false]
    split
    · simp only [List.length_cons]
      omega
    · exact rest

theorem processComponentShorter {s : Text} {allowAlternates : YesNoMaybe} {component : Component} {r : Text}
    (ends : ¬ endsSimple s = true)
    (read : processComponent s (decideAlternates s allowAlternates) = some (component,r)) :
    r.length < s.length := by
  cases s with
  | nil => exact absurd rfl ends
  | cons c t =>
    simp only [processComponent] at read
    split at read
    · split at read
      · obtain ⟨⟨bits,rest⟩,inner,result⟩ := Option.map_eq_some_iff.mp read
        cases result
        have shorter := bracketShorter inner
        simp only [List.length_tail,List.length_cons] at shorter ⊢
        omega
      · obtain ⟨⟨bits,rest⟩,inner,result⟩ := Option.map_eq_some_iff.mp read
        cases result
        have shorter := bracketShorter inner
        simp only [List.length_cons]
        omega
    rename_i plain
    split at read
    · rename_i wild
      cases read
      have one := wildcardShorter (0 + 2) t
      have any := wildcardShorter (0 ||| 1) t
      simp only [wildcardCounts,List.length_cons]
      split
      · omega
      · rw [if_pos (wild.resolve_left (by assumption))]
        omega
    · rename_i wild
      cases read
      have inside : endsString (decideAlternates (c::t) allowAlternates) c = false := by
        simp only [endsSimple,Bool.or_eq_true,decide_eq_true_eq,not_or] at ends
        simp only [endsString,Bool.or_eq_false_iff,decide_eq_false_iff_not,Bool.and_eq_false_iff]
        refine ⟨⟨⟨⟨⟨fun e => wild (Or.inr e),fun e => wild (Or.inl e)⟩,ends.1.1⟩,ends.1.2⟩,ends.2⟩,?_⟩
        by_cases open_ : c = '['
        · subst c
          right
          simp only [true_and] at plain
          simp only [decideAlternates] at plain ⊢
          cases allowAlternates <;> simp at plain ⊢
          split <;> simp_all
        · exact Or.inl open_
      exact Nat.lt_succ_of_le (ordinaryConsumes inside)

def processSimple (s : Text) (allowAlternates : YesNoMaybe) : Option (List Simple × Text) :=
  if ends : endsSimple s then some ([],s)
  else
    match read : processComponent s (decideAlternates s allowAlternates) with
    | none => none
    | some (component,r) =>
        match processSimple r (decideAlternates s allowAlternates) with
        | none => none
        | some (remainder,r') => some (⟨component,fixedCharsRight remainder⟩::remainder,r')
  termination_by s.length
  decreasing_by exact processComponentShorter ends read

theorem processSimpleShorter {s : Text} {allowAlternates : YesNoMaybe} {simple : List Simple} {r : Text}
    (read : processSimple s allowAlternates = some (simple,r)) : r.length ≤ s.length := by
  fun_induction processSimple s allowAlternates generalizing simple r with
  | case1 => cases read; exact Nat.le_refl _
  | case2 => cases read
  | case3 => cases read
  | case4 s allowAlternates ends component r' step remainder r'' next ih =>
    cases read
    have here := processComponentShorter ends step
    have later := ih next
    omega

-- Alternatives are separated by ',' and '|'.
def skipSeparators : Text → Text
  | [] => []
  | c::s => if c = ',' ∨ c = '|' then skipSeparators s else c::s

theorem skipShorter (s : Text) : (skipSeparators s).length ≤ s.length := by
  induction s with
  | nil => exact Nat.le_refl _
  | cons c s ih =>
    simp only [skipSeparators]
    split
    · simp only [List.length_cons]
      omega
    · exact Nat.le_refl _

theorem processSimpleConsumes {s : Text} {allowAlternates : YesNoMaybe} {simple : List Simple} {r : Text}
    (ends : ¬ endsSimple s = true) (read : processSimple s allowAlternates = some (simple,r)) :
    r.length < s.length := by
  rw [processSimple,dif_neg ends] at read
  split at read
  · cases read
  · rename_i component r' step
    split at read
    · cases read
    · rename_i remainder r'' next
      cases read
      have here := processComponentShorter ends step
      have later := processSimpleShorter next
      omega

def processRegex (s : Text) : Option (List (List Simple) × Text) :=
  if stop : endsSimple (skipSeparators s) then some ([],skipSeparators s)
  else
    match read : processSimple (skipSeparators s) .maybe with
    | none => none
    | some (simple,r) =>
        match processRegex r with
        | none => none
        | some (remainder,r') => some (simple::remainder,r')
  termination_by s.length
  decreasing_by
    have skipped := skipShorter s
    have consumed := processSimpleConsumes stop read
    omega

-- The filter and the text after its closing brace.
def create (s : Text) : Option (SimpleRegex × Text) :=
  match s with
  | '{'::t =>
      let negate := t.head? = some '^'
      match processRegex (if negate then t.tail else t) with
      | some (regex,'}'::rest) => if regex.isEmpty then none else some (⟨regex,negate⟩,rest)
      | _ => none
  | _ => none

structure CaseRules where
  isCaseSensitive : Bool
  lower : Nat → Nat
  upper : Nat → Nat

def sameChar (rules : CaseRules) (a b : Char) : Bool :=
  if rules.isCaseSensitive then a = b else rules.lower a.toNat = rules.lower b.toNat

def inBitMap (rules : CaseRules) (bitMap : Nat → Bool) (i : Nat) : Bool :=
  bitMap i || (!rules.isCaseSensitive && (bitMap (rules.lower i) || bitMap (rules.upper i)))

-- No character of a string component equals the terminator.
def afterString (rules : CaseRules) : List Char → Text → Option Text
  | [],s => some s
  | _::_,[] => none
  | c::str,x::s => if sameChar rules x c then afterString rules str s else none

-- do { if (matches(s)) return true; } while (*++s)
def scan (matches' : Text → Option Bool) : Text → Option Bool
  | [] => do if ← matches' [] then some true else none
  | x::s => do if ← matches' (x::s) then some true else if s.isEmpty then some false else scan matches' s

def matchSimple (rules : CaseRules) : List Simple → Text → Option Bool
  | [],s => some s.isEmpty
  | m::remainder,s =>
      match m.component with
      | .simpleString str =>
          match afterString rules str s with
          | none => some false
          | some s => matchSimple rules remainder s
      | .wildcards counts =>
          if s.length < counts / 2 then some false
          else
            let s := s.drop (counts / 2)
            if counts % 2 = 0 then matchSimple rules remainder s
            else if m.fixedCharsRight ≠ 0 ∨ remainder.isEmpty then
              if m.fixedCharsRight ≤ s.length then matchSimple rules remainder (s.drop (s.length - m.fixedCharsRight))
              else some false
            else scan (matchSimple rules remainder) s
      | .charAlternatives bitMap =>
          match s with
          | [] => if inBitMap rules bitMap 0 then none else some false
          | x::s => if inBitMap rules bitMap x.toNat then matchSimple rules remainder s else some false

def matchRegex (rules : CaseRules) : List (List Simple) → Text → Option Bool
  | [],_ => some false
  | simple::remainder,s => do if ← matchSimple rules simple s then some true else matchRegex rules remainder s

def matchFilter (rules : CaseRules) (filter : SimpleRegex) (s : Text) : Option Bool := do
  let result ← matchRegex rules filter.regex s
  some (if filter.negate then !result else result)

end OmrCompiler.Regex
