import OmrCompiler.LimitFilterText
import Mathlib.Data.List.Find

/-! What the stored filters are after a list of filters was added, and what a search of
them finds. -/
namespace OmrCompiler.LimitFilters
open SearchTree

section Compare

theorem compareSelf (a : Text) : strcmp a a = 0 := by
  induction a with
  | nil => rfl
  | cons x a ih => rw [strcmp,if_pos rfl,ih]

theorem charsApart {x y : Char} (differ : x ≠ y) : (x.toNat : Int) - y.toNat ≠ 0 := by
  intro zero
  have same : x.toNat = y.toNat := by omega
  exact differ (Char.toNat_inj.mp same)

theorem compareZero {a b : Text} : strcmp a b = 0 ↔ a = b := by
  constructor
  · intro zero
    induction a generalizing b with
    | nil =>
        cases b with
        | nil => rfl
        | cons y b => simp [strcmp] at zero
    | cons x a ih =>
        cases b with
        | nil => simp [strcmp] at zero
        | cons y b =>
            rw [strcmp] at zero
            split at zero
            · rename_i same
              rw [same,ih zero]
            · rename_i differ
              exact absurd zero (charsApart differ)
  · rintro rfl
    exact compareSelf a

theorem pieceSign {chars : Text} {len : Nat} (within : len ≤ chars.length) (other : Text) :
    SameSign (strcmp (chars.take len) other) (comparePiece chars len other other.length) := by
  unfold comparePiece
  induction len generalizing chars other with
  | zero =>
      cases other with
      | nil => simp [strcmp,strncmp,SameSign]
      | cons y other =>
          simp only [List.take_zero,strcmp,strncmp,if_true,List.length_cons]
          constructor <;> omega
  | succ len ih =>
      cases chars with
      | nil => cases within
      | cons x chars =>
          have within' : len ≤ chars.length := Nat.le_of_succ_le_succ within
          rw [List.take_succ_cons]
          cases other with
          | nil => simp [strcmp,strncmp,SameSign]
          | cons y other =>
              rw [strcmp,strncmp]
              split
              · have step := ih within' other
                have shift : ((len + 1 : Nat) : Int) - ((y::other).length : Nat) = (len : Int) - other.length := by
                  rw [List.length_cons]
                  omega
                simp only [shift]
                exact step
              · rename_i differ
                simp only [if_neg (charsApart differ)]
                exact ⟨Iff.rfl,Iff.rfl⟩

-- A comparison that goes on to the next piece when one is equal.
theorem signThen {a b c d : Int} (first : SameSign a c) (second : SameSign b d) : SameSign (if a = 0 then b else a) (if c = 0 then d else c) := by
  by_cases zero : a = 0
  · rw [if_pos zero,if_pos (first.1.mp zero)]
    exact second
  · rw [if_neg zero,if_neg fun other => zero (first.1.mpr other)]
    exact first

def Filter.components (f : Filter) : Components := ⟨f.name,f.class',f.signature⟩

def compareComponents (a b : Components) : Int :=
  if strcmp a.name b.name = 0 then
    if strcmp a.class' b.class' = 0 then strcmp a.signature b.signature else strcmp a.class' b.class'
  else strcmp a.name b.name

theorem compareFiltersComponents (a b : Filter) : compareFilters a b = compareComponents a.components b.components := rfl

theorem compareComponentsZero {a b : Components} : compareComponents a b = 0 ↔ a = b := by
  have each := @compareZero
  obtain ⟨name,class',signature⟩ := a
  obtain ⟨name',class'',signature'⟩ := b
  simp only [compareComponents,Components.mk.injEq]
  by_cases sameName : strcmp name name' = 0
  · rw [if_pos sameName]
    by_cases sameClass : strcmp class' class'' = 0
    · rw [if_pos sameClass,each]
      simp [each.mp sameName,each.mp sameClass]
    · rw [if_neg sameClass]
      simp [sameClass,mt each.mpr sameClass]
  · rw [if_neg sameName]
    simp [sameName,mt each.mpr sameName]

end Compare

section Pieces

-- What the searches compare with: where a method's pieces lie in its text.
structure MethodPieces.Of (m : MethodPieces) (c : Components) : Prop where
  name : m.methodName.take m.methodNameLen = c.name
  nameLen : m.methodNameLen = c.name.length
  class' : m.methodClass.take m.methodClassLen = c.class'
  classLen : m.methodClassLen = c.class'.length
  signature : m.methodSignature.take m.methodSignatureLen = c.signature
  signatureLen : m.methodSignatureLen = c.signature.length

theorem strchrSkip {c : Char} {s : Text} (absent : c ∉ s) (r : Text) : strchr c (s ++ c::r) = some (c::r) := by
  induction s with
  | nil => exact if_pos rfl
  | cons x s ih =>
      have other : x ≠ c := fun same => absent (same ▸ List.mem_cons_self)
      have later := ih fun on => absent (List.mem_cons_of_mem _ on)
      rw [List.cons_append,strchr,if_neg other,later]

theorem omrPiecesOf {f l : Text} (file : ':' ∉ f) (line : ':' ∉ l) (n : Text) :
    ∃ m, omrPieces (f ++ ':'::(l ++ ':'::n)) = some m ∧ m.Of ⟨n,f,l⟩ := by
  unfold omrPieces
  rw [strchrSkip file]
  simp only [Option.bind_eq_bind,Option.bind_some,List.tail_cons]
  rw [strchrSkip line]
  refine ⟨_,rfl,⟨List.take_length,rfl,?_,?_,?_,?_⟩⟩
  · simp
  · simp
  · simp
  · simp

theorem javaPiecesOf {c n : Text} (class' : '.' ∉ c) (name : '(' ∉ n) (t : Text) :
    ∃ m, javaPieces (c ++ '.'::(n ++ '('::t)) = some m ∧ m.Of ⟨n,c,'('::t⟩ := by
  unfold javaPieces
  rw [strchrSkip class']
  simp only [Option.bind_eq_bind,Option.bind_some,List.tail_cons]
  rw [strchrSkip name]
  refine ⟨_,rfl,⟨?_,?_,?_,?_,List.take_length,rfl⟩⟩
  · simp
  · simp
  · simp
  · simp

theorem methodPiecesOf {methodType : MethodType} {m : Method} (formed : m.WellFormed methodType) :
    ∃ p, methodPieces methodType m.text = some p ∧ p.Of m.components := by
  cases m with
  | java c n t =>
      obtain ⟨rfl,class',name,_,filled,mark⟩ := formed
      have slash : (c ++ '.'::(n ++ '('::t)).head? ≠ some '/' := by
        cases c with
        | nil => exact absurd rfl filled
        | cons x c => exact mark.1
      unfold methodPieces
      rw [if_neg (not_not_intro rfl),Method.text,if_neg slash]
      exact javaPiecesOf (fun on => (class' _ on).2.2.1 rfl) (fun on => (name _ on).2.2.2 rfl) t
  | omr f l n =>
      obtain ⟨mark,file,line⟩ := formed
      have head : (f ++ ':'::(l ++ ':'::n)).head? = f.head? := by
        cases f with
        | nil => simp at mark
        | cons x f => rfl
      unfold methodPieces isOmrPattern
      rw [Method.text,head]
      split
      · rename_i other
        rw [if_pos (by simpa using mark.imp_right fun both => both.2)]
        exact omrPiecesOf file line n
      · rename_i j9
        rw [if_pos (mark.resolve_right fun both => j9 both.1)]
        exact omrPiecesOf file line n
  | plain n =>
      obtain ⟨other,mark,_⟩ := formed
      unfold methodPieces
      rw [if_pos other,Method.text,mark]
      exact ⟨_,rfl,⟨List.take_length,rfl,rfl,rfl,rfl,rfl⟩⟩

end Pieces

section Find
variable {p : MethodPieces} {c : Components}

def Filter.Measured (f : Filter) : Prop := f.nameLen = f.name.length

theorem withinText {chars s : Text} {len : Nat} (piece : chars.take len = s) (length : len = s.length) : len ≤ chars.length := by
  have taken := congrArg List.length piece
  rw [List.length_take] at taken
  omega

theorem MethodPieces.Of.nameSign (of : p.Of c) {f : Filter} (measured : f.Measured) :
    SameSign (strcmp c.name f.name) (comparePiece p.methodName p.methodNameLen f.name f.nameLen) := by
  have sign := pieceSign (withinText of.name of.nameLen) f.name
  rwa [of.name,← measured] at sign

def MethodPieces.position (p : MethodPieces) (node : Filter) : Int :=
  if comparePiece p.methodName p.methodNameLen node.name node.nameLen = 0 then
    if comparePiece p.methodClass p.methodClassLen node.class' node.class'.length = 0 then
      comparePiece p.methodSignature p.methodSignatureLen node.signature node.signature.length
    else comparePiece p.methodClass p.methodClassLen node.class' node.class'.length
  else comparePiece p.methodName p.methodNameLen node.name node.nameLen

theorem findPosition (tree : FilterBST) :
    find p.methodName p.methodNameLen p.methodClass p.methodClassLen p.methodSignature p.methodSignatureLen tree = SearchTree.find p.position tree := rfl

theorem MethodPieces.Of.positionSign (of : p.Of c) {f : Filter} (measured : f.Measured) : SameSign (compareComponents c f.components) (p.position f) := by
  have class' := pieceSign (withinText of.class' of.classLen) f.class'
  have signature := pieceSign (withinText of.signature of.signatureLen) f.signature
  rw [of.class'] at class'
  rw [of.signature] at signature
  exact signThen (of.nameSign measured) (signThen class' signature)

theorem MethodPieces.Of.positionZero (of : p.Of c) {f : Filter} (measured : f.Measured) : p.position f = 0 ↔ f.components = c := by
  rw [← (of.positionSign measured).1,compareComponentsZero,eq_comm]

theorem findComponents (of : p.Of c) {filters : List Filter} (measured : ∀ f ∈ filters, f.Measured) :
    SearchTree.find p.position (insertAll compareFilters filters) = filters.find? fun f => decide (f.components = c) := by
  rw [findFirst filters fun x onX y onY => ⟨fun here => ?_,fun equal here => ?_⟩]
  · refine List.find?_congr fun f on => ?_
    rw [decide_eq_decide]
    exact of.positionZero (measured f on)
  · have same : x.components = c := (of.positionZero (measured x onX)).mp here
    rw [compareFiltersComponents,same]
    exact of.positionSign (measured y onY)
  · rw [compareFiltersComponents,compareComponentsZero] at equal
    exact (of.positionZero (measured y onY)).mpr (equal ▸ (of.positionZero (measured x onX)).mp here)

def Filter.NameOnly (f : Filter) : Prop := f.class' = [] ∧ f.signature = []

theorem compareNames {a b : Filter} (plain : a.NameOnly) (plain' : b.NameOnly) : compareFilters a b = strcmp a.name b.name := by
  unfold compareFilters
  rw [plain.1,plain.2,plain'.1,plain'.2]
  by_cases same : strcmp a.name b.name = 0
  · simp [same,strcmp]
  · simp [same]

theorem findNames (of : p.Of c) {filters : List Filter} (measured : ∀ f ∈ filters, f.Measured) (plain : ∀ f ∈ filters, f.NameOnly) :
    findName p.methodName p.methodNameLen (insertAll compareFilters filters) = filters.find? fun f => decide (f.name = c.name) := by
  have zero : ∀ f ∈ filters, comparePiece p.methodName p.methodNameLen f.name f.nameLen = 0 ↔ f.name = c.name := fun f on => by
    rw [← (of.nameSign (measured f on)).1,compareZero,eq_comm]
  unfold findName
  rw [findFirst filters fun x onX y onY => ⟨fun here => ?_,fun equal here => ?_⟩]
  · refine List.find?_congr fun f on => ?_
    rw [decide_eq_decide]
    exact zero f on
  · rw [compareNames (plain x onX) (plain y onY),(zero x onX).mp here]
    exact of.nameSign (measured y onY)
  · rw [compareNames (plain x onX) (plain y onY),compareZero] at equal
    exact (zero y onY).mpr (equal ▸ (zero x onX).mp here)

end Find

end OmrCompiler.LimitFilters
