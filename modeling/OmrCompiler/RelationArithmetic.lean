import OmrCompiler.ConstraintRelation

/-! What follows from relations between 32-bit values, over all values: exact
conditions on the increments and on which of them wrap. The cases of
VPGreaterThanOrEqual are those of VPLessThanOrEqual with the number line turned
round. -/
namespace OmrCompiler.RelationArithmetic
open MachineInt ConstraintRelation

theorem range32 {x : Int} : InRange 32 x ↔ -2147483648 ≤ x ∧ x ≤ 2147483647 := Iff.rfl

-- An increment that comes from an addition or a subtraction of the program.
def Admitted (i : Int) : Prop := -2147483648 < i ∧ i ≤ 2147483647

instance (i : Int) : Decidable (Admitted i) := inferInstanceAs (Decidable (_ ∧ _))

theorem admittedRange {i : Int} (h : Admitted i) : InRange 32 i := ⟨Int.le_of_lt h.1,h.2⟩

-- A sum and its value after at most one turn.
def Turns (sum value : Int) : Prop :=
  (-2147483648 ≤ sum ∧ sum ≤ 2147483647 ∧ value = sum) ∨ (sum < -2147483648 ∧ value = sum + 4294967296) ∨
    (2147483647 < sum ∧ value = sum - 4294967296)

theorem wrap32 {v : Int} (low : -6442450944 ≤ v) (high : v ≤ 6442450943) : Turns v (wrap 32 v) := by
  rcases wrapTurn (w := 32) (by decide) (x := v) low high with ⟨inside,same⟩ | below | above
  · exact .inl ⟨inside.1,inside.2,same⟩
  · exact .inr (.inl below)
  · exact .inr (.inr above)

-- The right-hand side of a relation with increment i.
def reading (flag : Bool) (y i : Int) : Int := if flag then y + i else wrap 32 (y + i)

theorem readingMarked (y i : Int) : reading true y i = y + i := rfl

theorem readingTurns {y i : Int} (hy : InRange 32 y) (hi : InRange 32 i) : Turns (y + i) (reading false y i) := by
  rw [range32] at hy hi
  exact wrap32 (by omega) (by omega)

theorem readingZero (flag : Bool) {y : Int} (hy : InRange 32 y) : reading flag y 0 = y := by
  have turns := readingTurns (i := 0) hy (by decide)
  rw [range32] at hy
  simp only [Turns] at turns
  cases flag
  · omega
  · rw [readingMarked,Int.add_zero]

theorem readingShift (flag : Bool) (y i : Int) : ∃ k, reading flag y i = y + i + k * 4294967296 := by
  cases flag with
  | false => exact wrapShift 32 (y + i)
  | true => exact ⟨0,by rw [readingMarked]; omega⟩

theorem readingFits {v y i k : Int} (hv : InRange 32 v) (turn : v = y + i + k * 4294967296) : v = reading false y i :=
  (wrapUnique (by decide) hv turn).symm

/- r on (x,y) and s on (x,z) give q on (y,z). -/
def Transfers (r s q : VPRelation) : Prop :=
  ∀ x y z, InRange 32 x → InRange 32 y → InRange 32 z → r.Holds 32 x y → s.Holds 32 x z → q.Holds 32 y z

/- r on (x,y) gives q on (x,y). -/
def Includes (r q : VPRelation) : Prop :=
  ∀ x y, InRange 32 x → InRange 32 y → r.Holds 32 x y → q.Holds 32 x y

/- The number line turned round: x becomes -1 - x. -/
def turned (x : Int) : Int := -1 - x

theorem turnedTwice (x : Int) : turned (turned x) = x := by
  simp only [turned]
  omega

theorem turnedRange {x : Int} : InRange 32 (turned x) ↔ InRange 32 x := by
  simp only [range32,turned]
  omega

def turnKind : Kind → Kind
  | .equal => .equal
  | .notEqual => .notEqual
  | .lessThanOrEqual => .greaterThanOrEqual
  | .greaterThanOrEqual => .lessThanOrEqual

def turnRelation (r : VPRelation) : VPRelation := ⟨turnKind r.kind,-r.increment,r.hasArtificialIncrement⟩

theorem wrapTurned (v : Int) : wrap 32 (turned v) = turned (wrap 32 v) := by
  obtain ⟨k,shift⟩ := wrapShift 32 v
  refine wrapUnique (by decide) (k := -k) (turnedRange.mpr (wrapRange (by decide) v)) ?_
  simp only [turned,shift,Int.neg_mul]
  omega

theorem targetTurned (r : VPRelation) (y : Int) : (turnRelation r).target 32 (turned y) = turned (r.target 32 y) := by
  have sum : turned y + -r.increment = turned (y + r.increment) := by
    simp only [turned]
    omega
  simp only [VPRelation.target,turnRelation,sum]
  split
  · rfl
  · exact wrapTurned _

theorem relatesTurned (k : Kind) (x y : Int) : (turnKind k).Relates (turned x) (turned y) ↔ k.Relates x y := by
  cases k <;> simp only [turnKind,Kind.Relates,turned] <;> omega

theorem holdsTurned (r : VPRelation) (x y : Int) : (turnRelation r).Holds 32 (turned x) (turned y) ↔ r.Holds 32 x y := by
  rw [VPRelation.Holds,targetTurned]
  exact relatesTurned r.kind x (r.target 32 y)

theorem transfersTurned {r s q : VPRelation} (h : Transfers r s q) :
    Transfers (turnRelation r) (turnRelation s) (turnRelation q) := by
  intro x y z hx hy hz first second
  rw [← turnedTwice x,← turnedTwice y,holdsTurned] at first
  rw [← turnedTwice x,← turnedTwice z,holdsTurned] at second
  rw [← turnedTwice y,← turnedTwice z,holdsTurned]
  exact h _ _ _ (turnedRange.mpr hx) (turnedRange.mpr hy) (turnedRange.mpr hz) first second

theorem includesTurned {r q : VPRelation} (h : Includes r q) : Includes (turnRelation r) (turnRelation q) := by
  intro x y hx hy first
  rw [← turnedTwice x,← turnedTwice y,holdsTurned] at first ⊢
  exact h _ _ (turnedRange.mpr hx) (turnedRange.mpr hy) first

theorem turnRelationTwice (r : VPRelation) : turnRelation (turnRelation r) = r := by
  obtain ⟨kind,increment,flag⟩ := r
  cases kind <;> simp [turnRelation,turnKind]

theorem transfersTurnedIff {r s q : VPRelation} :
    Transfers (turnRelation r) (turnRelation s) (turnRelation q) ↔ Transfers r s q := by
  refine ⟨fun h => ?_,transfersTurned⟩
  have back := transfersTurned h
  rwa [turnRelationTwice,turnRelationTwice,turnRelationTwice] at back

section Ordered
variable {f g h : Bool} {i j : Int}

/- When y >= z + (j - i) follows from x <= y + i and x >= z + j, for i other than
zero; f, g and h say which increments do not wrap. -/
def Carries (f g h : Bool) (i j : Int) : Prop :=
  match f, g, h with
  | true, true, true => True
  | true, true, false => i ≤ j
  | true, false, true => j ≤ 0
  | true, false, false => i < 0
  | false, true, true => 0 < i
  | false, true, false => 0 < i ∧ i ≤ j
  | false, false, true => 0 < i ∧ j ≤ 0
  | false, false, false => False

theorem readingsTurn (hi : Admitted i) (hj : Admitted j) (hn : Admitted (j - i)) {y z : Int} (hy : InRange 32 y)
    (hz : InRange 32 z) :
    Turns (y + i) (reading false y i) ∧ Turns (z + j) (reading false z j) ∧
      Turns (z + (j - i)) (reading false z (j - i)) :=
  ⟨readingTurns hy (admittedRange hi),readingTurns hz (admittedRange hj),readingTurns hz (admittedRange hn)⟩

theorem carriesSound (hi : Admitted i) (hj : Admitted j) (hn : Admitted (j - i)) (carries : Carries f g h i j) {x y z : Int}
    (hx : InRange 32 x) (hy : InRange 32 y) (hz : InRange 32 z) (above : x ≤ reading f y i) (below : reading g z j ≤ x) :
    reading h z (j - i) ≤ y := by
  have turns := readingsTurn hi hj hn hy hz
  rw [range32] at hx hy hz
  simp only [Turns] at turns
  cases f <;> cases g <;> cases h <;> simp only [Carries,readingMarked] at * <;> omega

/- Where the condition fails there are values, with x equal to y + i, that refute
the conclusion. -/
theorem carriesSharp (hi : Admitted i) (hj : Admitted j) (hn : Admitted (j - i)) (nonzero : i ≠ 0)
    (stuck : ¬ Carries f g h i j) :
    ∃ y z, InRange 32 y ∧ InRange 32 z ∧ InRange 32 (reading f y i) ∧ reading g z j ≤ reading f y i ∧
      y < reading h z (j - i) := by
  have turns := fun (y z : Int) hy hz => readingsTurn (y := y) (z := z) hi hj hn hy hz
  unfold Admitted at hi hj hn
  simp only [Turns,range32] at turns
  cases f <;> cases g <;> cases h <;> simp only [Carries,readingMarked,range32,not_true_eq_false,not_false_eq_true] at *
  · by_cases low : j ≤ 0
    · exact ⟨-2147483648,-2147483648 - j,by have := turns (-2147483648) (-2147483648 - j) (by omega) (by omega); omega⟩
    · exact ⟨-2147483648,2147483648 - j,by have := turns (-2147483648) (2147483648 - j) (by omega) (by omega); omega⟩
  · by_cases negative : i < 0
    · exact ⟨-2147483648,-j,by have := turns (-2147483648) (-j) (by omega) (by omega); omega⟩
    · exact ⟨2147483647 - i,2147483647,by have := turns (2147483647 - i) 2147483647 (by omega) (by omega); omega⟩
  · by_cases negative : i < 0
    · exact ⟨-2147483648,-j,by have := turns (-2147483648) (-j) (by omega) (by omega); omega⟩
    · exact ⟨-2147483648,-2147483648,by have := turns (-2147483648) (-2147483648) (by omega) (by omega); omega⟩
  · exact ⟨-2147483648,-j,by have := turns (-2147483648) (-j) (by omega) (by omega); omega⟩
  · by_cases low : j ≤ 0
    · exact ⟨-2147483648,-2147483648 - j,by have := turns (-2147483648) (-2147483648 - j) (by omega) (by omega); omega⟩
    · exact ⟨-2147483648,2147483648 - j,by have := turns (-2147483648) (2147483648 - j) (by omega) (by omega); omega⟩
  · exact ⟨-i,2147483647,by have := turns (-i) 2147483647 (by omega) (by omega); omega⟩
  · by_cases negative : i < 0
    · exact ⟨-2147483648 - i,-2147483648,by
        have := turns (-2147483648 - i) (-2147483648) (by omega) (by omega)
        omega⟩
    · exact ⟨-2147483648,-2147483648,by have := turns (-2147483648) (-2147483648) (by omega) (by omega); omega⟩

theorem lessGreaterTransfers (hi : Admitted i) (hj : Admitted j) (hn : Admitted (j - i)) (nonzero : i ≠ 0) :
    Transfers ⟨.lessThanOrEqual,i,f⟩ ⟨.greaterThanOrEqual,j,g⟩ ⟨.greaterThanOrEqual,j - i,h⟩ ↔ Carries f g h i j := by
  refine ⟨fun transfers => ?_,fun carries x y z hx hy hz above below => carriesSound hi hj hn carries hx hy hz above below⟩
  by_contra stuck
  obtain ⟨y,z,hy,hz,hx,meets,fails⟩ := carriesSharp hi hj hn nonzero stuck
  exact Int.not_le_of_gt fails (transfers _ y z hx hy hz (Int.le_refl _) meets)

theorem equalGreaterTransfers (hi : Admitted i) (hj : Admitted j) (hn : Admitted (j - i)) (nonzero : i ≠ 0) :
    Transfers ⟨.equal,i,f⟩ ⟨.greaterThanOrEqual,j,g⟩ ⟨.greaterThanOrEqual,j - i,h⟩ ↔ Carries f g h i j := by
  refine ⟨fun transfers => ?_,fun carries x y z hx hy hz same below =>
    carriesSound hi hj hn carries hx hy hz (Int.le_of_eq same) below⟩
  by_contra stuck
  obtain ⟨y,z,hy,hz,hx,meets,fails⟩ := carriesSharp hi hj hn nonzero stuck
  exact Int.not_le_of_gt fails (transfers _ y z hx hy hz rfl meets)

theorem zeroGreaterTransfers (k : Kind) (hk : k = .lessThanOrEqual ∨ k = .equal) :
    Transfers ⟨k,0,f⟩ ⟨.greaterThanOrEqual,j,g⟩ ⟨.greaterThanOrEqual,j,g⟩ := by
  intro x y z hx hy hz above below
  have le : x ≤ reading f y 0 := by
    rcases hk with rfl | rfl
    · exact above
    · exact Int.le_of_eq above
  rw [readingZero f hy] at le
  exact Int.le_trans below le

end Ordered

section FromEqual
variable {f g h : Bool} {i j : Int}

/- The same with x = z + j: the sum z + j is a value of the type when it does not
wrap. -/
def CarriesEqual (f g h : Bool) (i j : Int) : Prop :=
  if i = 0 then g = true ∨ h = false ∨ j ≤ 0
  else if f = true ∧ g = true ∧ h = false then i < 0 ∨ i ≤ j
  else Carries f g h i j

theorem lessEqualTransfers (hi : Admitted i) (hj : Admitted j) (hn : Admitted (j - i)) (kept : i = 0 → g = true → h = true) :
    Transfers ⟨.lessThanOrEqual,i,f⟩ ⟨.equal,j,g⟩ ⟨.greaterThanOrEqual,j - i,h⟩ ↔ CarriesEqual f g h i j := by
  have turns := fun (y z : Int) hy hz => readingsTurn (y := y) (z := z) hi hj hn hy hz
  constructor
  · intro transfers
    have instances : ∀ y z, InRange 32 y → InRange 32 z → InRange 32 (reading g z j) → reading g z j ≤ reading f y i →
        reading h z (j - i) ≤ y := fun y z hy hz hx above => transfers _ y z hx hy hz above rfl
    have refute := fun (y z : Int) hy hz => And.intro (turns y z hy hz) (instances y z hy hz)
    by_contra stuck
    unfold CarriesEqual at stuck
    split at stuck
    · rename_i zero
      subst zero
      obtain ⟨rfl,rfl⟩ : g = false ∧ h = true := by
        cases g <;> cases h <;> simp at stuck ⊢
      clear turns instances transfers
      unfold Admitted at hj hn
      simp only [Turns,range32] at refute
      have := refute (-2147483649 + j) 2147483647 (by omega) (by omega)
      cases f <;> simp only [readingMarked] at this stuck <;> omega
    · rename_i nonzero
      cases g with
      | false =>
        rw [if_neg (by simp)] at stuck
        obtain ⟨y,z,hy,hz,-,meets,fails⟩ := carriesSharp hi hj hn nonzero stuck
        exact Int.not_le_of_gt fails (instances y z hy hz (wrapRange (by decide) _) meets)
      | true =>
        clear turns instances transfers
        unfold Admitted at hi hj hn
        simp only [Turns,range32,readingMarked] at refute
        cases f <;> cases h <;> simp only [Carries,readingMarked,Bool.false_eq_true,reduceCtorEq,false_and,and_false,
          and_self,if_true,if_false,not_true_eq_false,not_false_eq_true] at refute stuck
        · by_cases negative : i < 0
          · have := refute (-2147483648) (-j) (by omega) (by omega)
            omega
          · by_cases low : j ≤ 0
            · have := refute (-2147483648) (-2147483648 - j) (by omega) (by omega)
              omega
            · have := refute (-2147483648) (-2147483648) (by omega) (by omega)
              omega
        · have := refute (-2147483648) (-j) (by omega) (by omega)
          omega
        · by_cases low : j ≤ 0
          · have := refute (-2147483648) (-2147483648 - j) (by omega) (by omega)
            omega
          · have := refute (-2147483648) (-2147483648) (by omega) (by omega)
            omega
  · intro carries x y z hx hy hz above same
    replace above : x ≤ reading f y i := above
    replace same : x = reading g z j := same
    change reading h z (j - i) ≤ y
    unfold CarriesEqual at carries
    split at carries
    · rename_i zero
      subst zero
      rw [readingZero f hy] at above
      rw [Int.sub_zero]
      obtain ⟨-,turn,-⟩ := turns y z hy hz
      rw [range32] at hz
      simp only [Turns] at turn
      replace kept := kept rfl
      cases g <;> cases h <;> simp only [readingMarked,reduceCtorEq,false_or,true_implies] at kept carries same ⊢ <;> omega
    · split at carries
      · rename_i marked
        obtain ⟨rfl,rfl,rfl⟩ := marked
        obtain ⟨-,-,turn⟩ := turns y z hy hz
        rw [range32] at hx hy hz
        simp only [Turns,readingMarked] at turn above same
        unfold Admitted at hi hj hn
        omega
      · exact carriesSound hi hj hn carries hx hy hz above (Int.le_of_eq same.symm)

/- When y ≠ z + (j - i) follows from x = y + i and x ≠ z + j. -/
def Separates (f g h : Bool) (i j : Int) : Prop :=
  match f, g, h with
  | _, false, _ => True
  | true, true, true => True
  | false, true, true => ¬ (0 < j ∧ 0 < i ∨ j < 0 ∧ i < 0)
  | true, true, false => ¬ (0 < j ∧ i < j ∨ j < 0 ∧ j < i)
  | false, true, false => j = 0

theorem equalNotEqualTransfers (hi : Admitted i) (hj : Admitted j) (hn : Admitted (j - i)) :
    Transfers ⟨.equal,i,f⟩ ⟨.notEqual,j,g⟩ ⟨.notEqual,j - i,h⟩ ↔ Separates f g h i j := by
  have turns := fun (y z : Int) hy hz => readingsTurn (y := y) (z := z) hi hj hn hy hz
  unfold Admitted at hi hj hn
  simp only [Turns,range32] at turns
  constructor
  · intro transfers
    have instances : ∀ y z, InRange 32 y → InRange 32 z → InRange 32 (reading f y i) → reading f y i ≠ reading g z j →
        y ≠ reading h z (j - i) := fun y z hy hz hx other => transfers _ y z hx hy hz rfl other
    simp only [range32] at instances
    have refute := fun (y z : Int) hy hz => And.intro (And.intro (turns y z hy hz).1 (turns y z hy hz).2.2) (instances y z hy hz)
    clear turns instances transfers
    by_contra stuck
    cases f <;> cases g <;> cases h <;> simp only [Separates,readingMarked,not_true_eq_false] at *
    · by_cases positive : 0 < j
      · have := refute (if i < j then -2147483649 + (j - i) else 2147483647 + (j - i)) 2147483647 (by omega) (by omega)
        omega
      · have := refute (if j < i then 2147483648 + (j - i) else -2147483648 + (j - i)) (-2147483648) (by omega) (by omega)
        omega
    · by_cases positive : 0 < j
      · have := refute (2147483648 - i) (2147483648 - j) (by omega) (by omega)
        omega
      · have := refute (-2147483649 - i) (-2147483649 - j) (by omega) (by omega)
        omega
    · by_cases positive : 0 < j
      · have := refute (-2147483649 + j - i) 2147483647 (by omega) (by omega)
        omega
      · have := refute (2147483648 + j - i) (-2147483648) (by omega) (by omega)
        omega
  · intro separates x y z hx hy hz same other
    replace same : x = reading f y i := same
    replace other : x ≠ reading g z j := other
    change y ≠ reading h z (j - i)
    intro back
    cases g with
    | false =>
      obtain ⟨k,turn⟩ := readingShift f y i
      obtain ⟨l,turn'⟩ := readingShift h z (j - i)
      exact other (readingFits (k := k + l) hx (by omega))
    | true =>
      obtain ⟨first,-,third⟩ := turns y z hy hz
      rw [range32] at hx hy hz
      cases f <;> cases h <;> simp only [Separates,readingMarked] at * <;> omega

/- The same from x ≠ y + i and x = z + j. -/
def SeparatesBack (f g h : Bool) (i j : Int) : Prop :=
  match f, g, h with
  | false, _, _ => True
  | true, true, true => True
  | true, false, true => ¬ (0 < j ∧ 0 < i ∨ j < 0 ∧ i < 0)
  | true, true, false => ¬ (0 < i ∧ j < i ∨ i < 0 ∧ i < j)
  | true, false, false => i = 0

theorem notEqualEqualTransfers (hi : Admitted i) (hj : Admitted j) (hn : Admitted (j - i)) :
    Transfers ⟨.notEqual,i,f⟩ ⟨.equal,j,g⟩ ⟨.notEqual,j - i,h⟩ ↔ SeparatesBack f g h i j := by
  have turns := fun (y z : Int) hy hz => readingsTurn (y := y) (z := z) hi hj hn hy hz
  unfold Admitted at hi hj hn
  simp only [Turns,range32] at turns
  constructor
  · intro transfers
    have instances : ∀ y z, InRange 32 y → InRange 32 z → InRange 32 (reading g z j) → reading g z j ≠ reading f y i →
        y ≠ reading h z (j - i) := fun y z hy hz hx other => transfers _ y z hx hy hz other rfl
    simp only [range32] at instances
    have refute := fun (y z : Int) hy hz => And.intro (turns y z hy hz).2 (instances y z hy hz)
    clear turns instances transfers
    by_contra stuck
    cases f <;> cases g <;> cases h <;> simp only [SeparatesBack,readingMarked,not_true_eq_false] at *
    · by_cases positive : 0 < i
      · have := refute (2147483648 - i) (if j ≤ 0 then -2147483648 - j else 2147483648 - j) (by omega) (by omega)
        omega
      · have := refute (-2147483649 - i) (if 0 ≤ j then 2147483647 - j else -2147483649 - j) (by omega) (by omega)
        omega
    · by_cases positive : 0 < i
      · have := refute (2147483648 - i) (2147483648 - j) (by omega) (by omega)
        omega
      · have := refute (-2147483649 - i) (-2147483649 - j) (by omega) (by omega)
        omega
    · by_cases positive : 0 < i
      · have := refute (if j ≤ 0 then 2147483648 - i else 2147483648 + j - i) (if j ≤ 0 then -2147483648 - j else -2147483648)
          (by omega) (by omega)
        omega
      · have := refute (if 0 ≤ j then -2147483649 - i else -2147483649 + j - i) (if 0 ≤ j then 2147483647 - j else 2147483647)
          (by omega) (by omega)
        omega
  · intro separates x y z hx hy hz other same
    replace same : x = reading g z j := same
    replace other : x ≠ reading f y i := other
    change y ≠ reading h z (j - i)
    intro back
    cases f with
    | false =>
      obtain ⟨k,turn⟩ := readingShift g z j
      obtain ⟨l,turn'⟩ := readingShift h z (j - i)
      exact other (readingFits (k := k - l) hx (by omega))
    | true =>
      obtain ⟨-,second,third⟩ := turns y z hy hz
      rw [range32] at hx hy hz
      cases g <;> cases h <;> simp only [SeparatesBack,readingMarked] at * <;> omega

/- When y = z + (j - i) follows from x = y + i and x = z + j. -/
def Joins (f g h : Bool) (i j : Int) : Prop :=
  match f, g, h with
  | _, _, false => True
  | true, true, true => True
  | true, false, true => ¬ (0 < j ∧ i < j ∨ j < 0 ∧ j < i)
  | false, true, true => ¬ (0 < i ∧ j < i ∨ i < 0 ∧ i < j)
  | false, false, true => i = j

theorem equalEqualTransfers (hi : Admitted i) (hj : Admitted j) (hn : Admitted (j - i)) :
    Transfers ⟨.equal,i,f⟩ ⟨.equal,j,g⟩ ⟨.equal,j - i,h⟩ ↔ Joins f g h i j := by
  have turns := fun (y z : Int) hy hz => readingsTurn (y := y) (z := z) hi hj hn hy hz
  unfold Admitted at hi hj hn
  simp only [Turns,range32] at turns
  constructor
  · intro transfers
    have instances : ∀ y z, InRange 32 y → InRange 32 z → InRange 32 (reading f y i) → reading f y i = reading g z j →
        y = reading h z (j - i) := fun y z hy hz hx same => transfers _ y z hx hy hz rfl same
    simp only [range32] at instances
    have refute := fun (y z : Int) hy hz => And.intro (And.intro (turns y z hy hz).1 (turns y z hy hz).2.1) (instances y z hy hz)
    clear turns instances transfers
    by_contra stuck
    cases f <;> cases g <;> cases h <;> simp only [Joins,readingMarked,not_true_eq_false] at *
    · by_cases positive : i < j
      · have := refute (-2147483649 + (j - i)) 2147483647 (by omega) (by omega)
        omega
      · have := refute (2147483648 + (j - i)) (-2147483648) (by omega) (by omega)
        omega
    · by_cases positive : 0 < i
      · have := refute (if j ≤ 0 then 2147483648 - i else 2147483648 + j - i) (if j ≤ 0 then -2147483648 - j else -2147483648)
          (by omega) (by omega)
        omega
      · have := refute (if 0 ≤ j then -2147483649 - i else -2147483649 + j - i) (if 0 ≤ j then 2147483647 - j else 2147483647)
          (by omega) (by omega)
        omega
    · by_cases positive : 0 < j
      · have := refute (-2147483649 + j - i) 2147483647 (by omega) (by omega)
        omega
      · have := refute (2147483648 + j - i) (-2147483648) (by omega) (by omega)
        omega
  · intro joins x y z hx hy hz first second
    replace first : x = reading f y i := first
    replace second : x = reading g z j := second
    change y = reading h z (j - i)
    cases h with
    | false =>
      obtain ⟨k,turn⟩ := readingShift f y i
      obtain ⟨l,turn'⟩ := readingShift g z j
      exact readingFits (k := l - k) hy (by omega)
    | true =>
      obtain ⟨first',second',-⟩ := turns y z hy hz
      rw [range32] at hx hy hz
      cases f <;> cases g <;> simp only [Joins,readingMarked] at * <;> omega

end FromEqual

/- The mirror images. -/
section Turned
variable {f g h : Bool} {i j : Int}

theorem admittedTurned (hi : Admitted i) : Admitted (-i) := by
  unfold Admitted at *
  omega

theorem turnBack (k : Kind) (i : Int) (flag : Bool) : turnRelation ⟨turnKind k,i,flag⟩ = ⟨k,-i,flag⟩ := by
  cases k <;> rfl

theorem transfersAgain {k l m : Kind} :
    Transfers ⟨turnKind k,i,f⟩ ⟨turnKind l,j,g⟩ ⟨turnKind m,j - i,h⟩ ↔ Transfers ⟨k,-i,f⟩ ⟨l,-j,g⟩ ⟨m,-j - -i,h⟩ := by
  rw [← transfersTurnedIff,turnBack,turnBack,turnBack,show -(j - i) = -j - -i by omega]

theorem differenceTurned (hn : Admitted (j - i)) : Admitted (-j - -i) := by
  rw [show -j - -i = -(j - i) by omega]
  exact admittedTurned hn

theorem greaterLessTransfers (hi : Admitted i) (hj : Admitted j) (hn : Admitted (j - i)) (nonzero : i ≠ 0) :
    Transfers ⟨.greaterThanOrEqual,i,f⟩ ⟨.lessThanOrEqual,j,g⟩ ⟨.lessThanOrEqual,j - i,h⟩ ↔ Carries f g h (-i) (-j) :=
  (transfersAgain (k := .lessThanOrEqual) (l := .greaterThanOrEqual) (m := .greaterThanOrEqual)).trans
    (lessGreaterTransfers (admittedTurned hi) (admittedTurned hj) (differenceTurned hn) (by omega))

theorem equalLessTransfers (hi : Admitted i) (hj : Admitted j) (hn : Admitted (j - i)) (nonzero : i ≠ 0) :
    Transfers ⟨.equal,i,f⟩ ⟨.lessThanOrEqual,j,g⟩ ⟨.lessThanOrEqual,j - i,h⟩ ↔ Carries f g h (-i) (-j) :=
  (transfersAgain (k := .equal) (l := .greaterThanOrEqual) (m := .greaterThanOrEqual)).trans
    (equalGreaterTransfers (admittedTurned hi) (admittedTurned hj) (differenceTurned hn) (by omega))

theorem zeroLessTransfers (k : Kind) (hk : k = .greaterThanOrEqual ∨ k = .equal) :
    Transfers ⟨k,0,f⟩ ⟨.lessThanOrEqual,j,g⟩ ⟨.lessThanOrEqual,j,g⟩ := by
  have zero := zeroGreaterTransfers (f := f) (g := g) (j := -j) (turnKind k) (by rcases hk with rfl | rfl <;> simp [turnKind])
  have back := transfersTurned zero
  rw [turnBack,turnRelation,Int.neg_neg] at back
  exact back

theorem greaterEqualTransfers (hi : Admitted i) (hj : Admitted j) (hn : Admitted (j - i)) (kept : i = 0 → g = true → h = true) :
    Transfers ⟨.greaterThanOrEqual,i,f⟩ ⟨.equal,j,g⟩ ⟨.lessThanOrEqual,j - i,h⟩ ↔ CarriesEqual f g h (-i) (-j) :=
  (transfersAgain (k := .lessThanOrEqual) (l := .equal) (m := .greaterThanOrEqual)).trans
    (lessEqualTransfers (admittedTurned hi) (admittedTurned hj) (differenceTurned hn) fun zero => kept (by omega))

end Turned

/- Two relations on one pair of values. -/
section SamePair
variable {f g h : Bool} {i j : Int}

def Meets (r s q : VPRelation) : Prop :=
  ∀ x y, InRange 32 x → InRange 32 y → r.Holds 32 x y → s.Holds 32 x y → q.Holds 32 x y

def Excludes (r s : VPRelation) : Prop :=
  ∀ x y, InRange 32 x → InRange 32 y → r.Holds 32 x y → ¬ s.Holds 32 x y

theorem meetsTurned {r s q : VPRelation} (h : Meets r s q) : Meets (turnRelation r) (turnRelation s) (turnRelation q) := by
  intro x y hx hy first second
  rw [← turnedTwice x,← turnedTwice y,holdsTurned] at first second ⊢
  exact h _ _ (turnedRange.mpr hx) (turnedRange.mpr hy) first second

theorem meetsTurnedIff {r s q : VPRelation} :
    Meets (turnRelation r) (turnRelation s) (turnRelation q) ↔ Meets r s q := by
  refine ⟨fun h => ?_,meetsTurned⟩
  have back := meetsTurned h
  rwa [turnRelationTwice,turnRelationTwice,turnRelationTwice] at back

theorem includesTurnedIff {r q : VPRelation} : Includes (turnRelation r) (turnRelation q) ↔ Includes r q := by
  refine ⟨fun h => ?_,includesTurned⟩
  have back := includesTurned h
  rwa [turnRelationTwice,turnRelationTwice] at back

-- x <= y + i gives x <= y + j for i < j.
def Widens (f g : Bool) (i j : Int) : Prop :=
  match f, g with
  | true, true => True
  | true, false => j ≤ 0
  | false, true => 0 ≤ i
  | false, false => False

theorem lessIncludes (hi : Admitted i) (hj : Admitted j) (order : i < j) :
    Includes ⟨.lessThanOrEqual,i,f⟩ ⟨.lessThanOrEqual,j,g⟩ ↔ Widens f g i j := by
  have turns := fun (y : Int) hy => And.intro (readingTurns (y := y) hy (admittedRange hi)) (readingTurns (y := y) hy (admittedRange hj))
  unfold Admitted at hi hj
  simp only [Turns,range32] at turns
  constructor
  · intro includes
    have instances : ∀ y, InRange 32 y → InRange 32 (reading f y i) → reading f y i ≤ reading g y j :=
      fun y hy hx => includes _ y hx hy (Int.le_refl _)
    simp only [range32] at instances
    have refute := fun (y : Int) hy => And.intro (turns y hy) (instances y hy)
    clear turns instances includes
    by_contra stuck
    cases f <;> cases g <;> simp only [Widens,readingMarked,not_true_eq_false,not_false_eq_true] at *
    · have := refute (if 0 < j then (if i ≤ 0 then 2147483647 else 2147483647 - i) else -2147483648 - j) (by omega)
      omega
    · have := refute (-2147483648) (by omega)
      omega
    · have := refute (if i ≤ 0 then 2147483647 else 2147483647 - i) (by omega)
      omega
  · intro widens x y hx hy below
    replace below : x ≤ reading f y i := below
    change x ≤ reading g y j
    rw [range32] at hx hy
    have fact := turns y hy
    cases f <;> cases g <;> simp only [Widens,readingMarked] at * <;> omega

-- x = y + i gives x >= y + j for j <= i.
def Bounds (f g : Bool) (i j : Int) : Prop :=
  match f, g with
  | true, true => True
  | true, false => 0 ≤ j ∨ i = j
  | false, true => i ≤ 0
  | false, false => i = j

theorem equalIncludes (hi : Admitted i) (hj : Admitted j) (order : j ≤ i) :
    Includes ⟨.equal,i,f⟩ ⟨.greaterThanOrEqual,j,g⟩ ↔ Bounds f g i j := by
  have turns := fun (y : Int) hy => And.intro (readingTurns (y := y) hy (admittedRange hi)) (readingTurns (y := y) hy (admittedRange hj))
  unfold Admitted at hi hj
  simp only [Turns,range32] at turns
  constructor
  · intro includes
    have instances : ∀ y, InRange 32 y → InRange 32 (reading f y i) → reading g y j ≤ reading f y i :=
      fun y hy hx => includes _ y hx hy rfl
    simp only [range32] at instances
    have refute := fun (y : Int) hy => And.intro (turns y hy) (instances y hy)
    clear turns instances includes
    by_contra stuck
    cases f <;> cases g <;> simp only [Bounds,readingMarked,not_true_eq_false] at *
    · have := refute (if 0 < i then (if 0 ≤ j then 2147483647 - j else 2147483647) else -2147483648 - i) (by omega)
      omega
    · have := refute 2147483647 (by omega)
      omega
    · have := refute (if 0 ≤ i then -2147483648 else -2147483648 - i) (by omega)
      omega
  · intro bounds x y hx hy same
    replace same : x = reading f y i := same
    change reading g y j ≤ x
    rw [range32] at hx hy
    have fact := turns y hy
    cases f <;> cases g <;> simp only [Bounds,readingMarked] at * <;> omega

theorem greaterIncludes (hi : Admitted i) (hj : Admitted j) (order : j < i) :
    Includes ⟨.greaterThanOrEqual,i,f⟩ ⟨.greaterThanOrEqual,j,g⟩ ↔ Widens f g (-i) (-j) := by
  rw [← lessIncludes (admittedTurned hi) (admittedTurned hj) (by omega),← includesTurnedIff]
  rfl

theorem equalIncludesLess (hi : Admitted i) (hj : Admitted j) (order : i ≤ j) :
    Includes ⟨.equal,i,f⟩ ⟨.lessThanOrEqual,j,g⟩ ↔ Bounds f g (-i) (-j) := by
  rw [← equalIncludes (admittedTurned hi) (admittedTurned hj) (by omega),← includesTurnedIff]
  rfl

/- x <= y + i and x ≠ y + i give x <= y + (i - 1). The mark of the first goes over
to the result. -/
def Tightens (f g h : Bool) (i : Int) : Prop :=
  match f, g, h with
  | true, _, _ => True
  | false, _, true => 0 ≤ i
  | false, false, false => True
  | false, true, false => i = 0 ∨ i = 1

theorem lessMeets (hi : Admitted i) (kept : f = true → h = true) :
    Meets ⟨.lessThanOrEqual,i,f⟩ ⟨.notEqual,i,g⟩ ⟨.lessThanOrEqual,i - 1,h⟩ ↔ Tightens f g h i := by
  have predecessor : InRange 32 (i - 1) := by
    unfold Admitted at hi
    rw [range32]
    omega
  have turns := fun (y : Int) hy => And.intro (readingTurns (y := y) hy (admittedRange hi)) (readingTurns (y := y) hy predecessor)
  unfold Admitted at hi
  simp only [Turns,range32] at turns
  constructor
  · intro meets
    have instances : ∀ x y, InRange 32 x → InRange 32 y → x ≤ reading f y i → x ≠ reading g y i → x ≤ reading h y (i - 1) := meets
    simp only [range32] at instances
    have refute := fun (x y : Int) hx hy => And.intro (turns y hy) (instances x y hx hy)
    clear turns instances meets
    by_contra stuck
    cases f <;> cases g <;> cases h <;> simp only [Tightens,readingMarked,not_true_eq_false] at *
    · have := refute (-2147483648) (-2147483648) (by omega) (by omega)
      omega
    · by_cases negative : i < 0
      · have := refute (2147483648 + i) (-2147483648) (by omega) (by omega)
        omega
      · have := refute (-2147483649 + i) 2147483647 (by omega) (by omega)
        omega
    · have := refute (-2147483648) (-2147483648) (by omega) (by omega)
      omega
  · intro tightens x y hx hy below other
    replace below : x ≤ reading f y i := below
    replace other : x ≠ reading g y i := other
    change x ≤ reading h y (i - 1)
    rw [range32] at hx hy
    have fact := turns y hy
    cases f <;> cases g <;> cases h <;> simp [Tightens,readingMarked] at * <;> omega

theorem greaterMeets (hi : Admitted i) (kept : f = true → h = true) :
    Meets ⟨.greaterThanOrEqual,i,f⟩ ⟨.notEqual,i,g⟩ ⟨.greaterThanOrEqual,i + 1,h⟩ ↔ Tightens f g h (-i) := by
  rw [← lessMeets (admittedTurned hi) kept,← meetsTurnedIff,show -i - 1 = -(i + 1) by omega]
  rfl

-- The last increment above has no successor: the result of the addition is the minimum.
theorem lastMeets (kept : f = true → h = true) :
    Meets ⟨.greaterThanOrEqual,2147483647,f⟩ ⟨.notEqual,2147483647,g⟩ ⟨.greaterThanOrEqual,-2147483648,h⟩ ↔
      f = true ∨ g = false := by
  have turns := fun (y : Int) hy => And.intro (readingTurns (y := y) (i := 2147483647) hy (by decide))
    (readingTurns (y := y) (i := -2147483648) hy (by decide))
  simp only [Turns,range32] at turns
  constructor
  · intro meets
    have instances : ∀ x y, InRange 32 x → InRange 32 y → reading f y 2147483647 ≤ x → x ≠ reading g y 2147483647 →
        reading h y (-2147483648) ≤ x := meets
    have refute := And.intro (turns 2147483647 (by decide)) (instances (-2) 2147483647 (by decide) (by decide))
    by_contra stuck
    cases f <;> cases g <;> cases h <;> simp only [readingMarked,reduceCtorEq,or_false,or_true,or_self,not_true_eq_false,
      not_false_eq_true,Bool.false_eq_true] at * <;> omega
  · intro fine x y hx hy above other
    replace above : reading f y 2147483647 ≤ x := above
    replace other : x ≠ reading g y 2147483647 := other
    change reading h y (-2147483648) ≤ x
    rw [range32] at hx hy
    have fact := turns y hy
    cases f <;> cases g <;> cases h <;> simp [readingMarked] at * <;> omega

-- x >= y + i and x <= y + i give x = y + i.
def Pins (f g h : Bool) (i : Int) : Prop :=
  match f, g, h with
  | true, true, _ => True
  | true, false, _ => 0 ≤ i
  | false, true, _ => i ≤ 0
  | false, false, true => i = 0
  | false, false, false => True

theorem orderedMeets (hi : Admitted i) :
    Meets ⟨.greaterThanOrEqual,i,f⟩ ⟨.lessThanOrEqual,i,g⟩ ⟨.equal,i,h⟩ ↔ Pins f g h i := by
  have turns := fun (y : Int) hy => readingTurns (y := y) hy (admittedRange hi)
  unfold Admitted at hi
  simp only [Turns,range32] at turns
  constructor
  · intro meets
    have instances : ∀ x y, InRange 32 x → InRange 32 y → reading f y i ≤ x → x ≤ reading g y i → x = reading h y i := meets
    simp only [range32] at instances
    have refute := fun (x y : Int) hx hy => And.intro (turns y hy) (instances x y hx hy)
    clear turns instances meets
    by_contra stuck
    cases f <;> cases g <;> cases h <;> simp only [Pins,readingMarked,not_true_eq_false] at *
    · by_cases negative : i < 0
      · have := refute (2147483648 + i) (-2147483648) (by omega) (by omega)
        omega
      · have := refute (-2147483649 + i) 2147483647 (by omega) (by omega)
        omega
    all_goals
      have low := refute (-2147483648) (-2147483648) (by omega) (by omega)
      have high := refute 2147483647 2147483647 (by omega) (by omega)
      omega
  · intro pins x y hx hy above below
    replace above : reading f y i ≤ x := above
    replace below : x ≤ reading g y i := below
    change x = reading h y i
    rw [range32] at hx hy
    have fact := turns y hy
    cases f <;> cases g <;> cases h <;> simp only [Pins,readingMarked] at * <;> omega

theorem equalExcludesNotEqual (hi : Admitted i) :
    Excludes ⟨.equal,i,f⟩ ⟨.notEqual,i,g⟩ ↔ f = true ∨ g = false ∨ i = 0 := by
  have turns := fun (y : Int) hy => readingTurns (y := y) hy (admittedRange hi)
  unfold Admitted at hi
  simp only [Turns,range32] at turns
  constructor
  · intro excludes
    have instances : ∀ y, InRange 32 y → InRange 32 (reading f y i) → ¬ reading f y i ≠ reading g y i :=
      fun y hy hx => excludes _ y hx hy rfl
    simp only [range32] at instances
    have low := And.intro (turns (-2147483648) (by omega)) (instances (-2147483648) (by omega))
    have high := And.intro (turns 2147483647 (by omega)) (instances 2147483647 (by omega))
    cases f <;> cases g <;> simp [readingMarked] at *
    omega
  · intro fine x y hx hy same other
    replace same : x = reading f y i := same
    replace other : x ≠ reading g y i := other
    rw [range32] at hx hy
    have fact := turns y hy
    have marked := readingMarked y i
    cases f <;> cases g <;> simp at fine <;> omega

theorem equalExcludesEqual (hi : Admitted i) (hj : Admitted j) (other : i ≠ j) : Excludes ⟨.equal,i,f⟩ ⟨.equal,j,g⟩ := by
  intro x y hx hy first second
  replace first : x = reading f y i := first
  replace second : x = reading g y j := second
  have left := readingTurns hy (admittedRange hi)
  have right := readingTurns hy (admittedRange hj)
  have leftMarked := readingMarked y i
  have rightMarked := readingMarked y j
  unfold Admitted at hi hj
  rw [range32] at hx hy
  simp only [Turns] at left right
  cases f <;> cases g <;> omega

end SamePair

end OmrCompiler.RelationArithmetic
