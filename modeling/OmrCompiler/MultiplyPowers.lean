import OmrCompiler.MultiplySound

/-! Multipliers that are a sum or a difference of two powers of two, and the
decomposer as a whole. -/
namespace OmrCompiler.Multiply
open MachineInt
open BitCounts (trailingZeroes leadingZeroes populationCount)

/- A sequence on two registers that both hold x: it leaves c times x in the
target and d times x in the source. -/
def Combines (w : Nat) (is : List Instruction) (target source : Nat) (c d : Int) : Prop :=
  ∀ (regs : Nat → BitVec w) (x : BitVec w), regs target = x → regs source = x →
    run regs is = Function.update (Function.update regs target (scaled x c)) source (scaled x d)

section
variable {w : Nat} {is : List Instruction} {target source : Nat} {c d : Int}

theorem Combines.start : Combines w [] target source 1 1 := by
  intro regs x left right
  subst left
  rw [scaledOne,Function.update_eq_self,← right,Function.update_eq_self]
  rfl

theorem Combines.onTarget (apart : target ≠ source) (combines : Combines w is target source c d) {i : Instruction} {c' : Int}
    (effect : ∀ (regs : Nat → BitVec w) (x : BitVec w), regs target = scaled x c → regs source = scaled x d →
      execute regs i = Function.update regs target (scaled x c')) : Combines w (is ++ [i]) target source c' d := by
  intro regs x left right
  have now := combines regs x left right
  rw [runAppend,now]
  refine (effect _ x ?_ ?_).trans ?_
  · rw [Function.update_of_ne apart,Function.update_self]
  · rw [Function.update_self]
  · rw [Function.update_comm apart,Function.update_idem,Function.update_comm (Ne.symm apart)]

theorem Combines.onSource (combines : Combines w is target source c d) {i : Instruction} {d' : Int}
    (effect : ∀ (regs : Nat → BitVec w) (x : BitVec w), regs source = scaled x d →
      execute regs i = Function.update regs source (scaled x d')) : Combines w (is ++ [i]) target source c d' := by
  intro regs x left right
  have now := combines regs x left right
  rw [runAppend,now]
  refine (effect _ x ?_).trans ?_
  · rw [Function.update_self]
  · rw [Function.update_idem]

theorem Combines.shl (apart : target ≠ source) (combines : Combines w is target source c d) {k : Nat} (small : k < w) :
    Combines w (is ++ [.shlRegImm1 target k]) target source (c * 2 ^ k) d :=
  combines.onTarget apart fun _ _ left _ => executeShl small left

theorem Combines.add (apart : target ≠ source) (combines : Combines w is target source c d) :
    Combines w (is ++ [.addRegReg target source]) target source (c + d) d :=
  combines.onTarget apart fun _ _ left right => executeAdd left right

theorem Combines.sub (apart : target ≠ source) (combines : Combines w is target source c d) :
    Combines w (is ++ [.subRegReg target source]) target source (c - d) d :=
  combines.onTarget apart fun _ _ left right => executeSub left right

theorem Combines.double (combines : Combines w is target source c d) :
    Combines w (is ++ [.addRegReg source source]) target source c (d + d) :=
  combines.onSource fun _ _ right => executeAdd right right

theorem Combines.shlSource (combines : Combines w is target source c d) {k : Nat} (small : k < w) :
    Combines w (is ++ [.shlRegImm1 source k]) target source c (d * 2 ^ k) :=
  combines.onSource fun _ _ right => executeShl small right

end

theorem bitTest {x : BitVec 64} (k : Nat) : x &&& BitVec.twoPow 64 k ≠ 0 ↔ k < 64 ∧ x.toNat / 2 ^ k % 2 = 1 := by
  rw [BitVec.and_twoPow]
  have bit : x.getLsbD k = true ↔ x.toNat / 2 ^ k % 2 = 1 := by
    rw [BitVec.getLsbD,Nat.testBit_eq_decide_div_mod_eq,decide_eq_true_iff]
  by_cases small : k < 64
  · have some : BitVec.twoPow 64 k ≠ 0#64 := by
      intro none
      have := congrArg BitVec.toNat none
      rw [BitVec.toNat_twoPow_of_lt small] at this
      have pos : 0 < 2 ^ k := Nat.two_pow_pos k
      simp at this
    by_cases set : x.toNat / 2 ^ k % 2 = 1
    · simp [bit.mpr set,small,set,some]
    · have clear : x.getLsbD k = false := by simpa [set] using bit
      simp [clear,set]
  · simp [BitVec.getLsbD_of_ge x k (by omega),small]

theorem bitOne (x : BitVec 64) : x &&& 1 ≠ 0 ↔ x.toNat % 2 = 1 := by
  have := bitTest (x := x) 0
  rwa [show BitVec.twoPow 64 0 = 1 from rfl,Nat.pow_zero,Nat.div_one,and_iff_right (by decide)] at this

theorem bitTwo (x : BitVec 64) : x &&& 2 ≠ 0 ↔ x.toNat / 2 % 2 = 1 := by
  have := bitTest (x := x) 1
  rwa [show BitVec.twoPow 64 1 = 2 from rfl,Nat.pow_one,and_iff_right (by decide)] at this

theorem bitFour (x : BitVec 64) : x &&& 4 ≠ 0 ↔ x.toNat / 4 % 2 = 1 := by
  have := bitTest (x := x) 2
  rwa [show BitVec.twoPow 64 2 = 4 from rfl,and_iff_right (by decide)] at this

theorem trailingZeroesPower {x : BitVec 64} {b : Nat} (power : x.toNat = 2 ^ b) : trailingZeroes x = b :=
  BitCounts.trailingZeroesOdd (j := 0) (by rw [power]; ring)

theorem lessPower {x : BitVec 64} {a b : Nat} (small : a < 64) (sum : x.toNat = 2 ^ a + 2 ^ b) :
    trailingZeroes (x - BitVec.twoPow 64 a) = b := by
  apply trailingZeroesPower
  have power := BitVec.toNat_twoPow_of_lt small
  have pos : 0 < 2 ^ b := Nat.two_pow_pos b
  rw [BitVec.toNat_sub_of_le (BitVec.le_def.mpr (by omega))]
  omega

theorem morePower {x : BitVec 64} {t s : Nat} (order : t < s) (small : s < 64) (difference : x.toNat + 2 ^ t = 2 ^ s) :
    trailingZeroes (x + BitVec.twoPow 64 t) = s := by
  apply trailingZeroesPower
  have power := BitVec.toNat_twoPow_of_lt (show t < 64 by omega)
  have below : 2 ^ s < 2 ^ 64 := Nat.pow_lt_pow_right (by decide) small
  rw [BitVec.toNat_add,power,difference,Nat.mod_eq_of_lt below]

theorem Combines.congr {w : Nat} {is : List Instruction} {target source : Nat} {c c' d : Int}
    (combines : Combines w is target source c d) (same : c = c') : Combines w is target source c' d := same ▸ combines

theorem sumCombines {w : Nat} {bits : BitVec 64} {target source a b : Nat} (apart : target ≠ source) (order : a < b)
    (small : b < w) (fits : b < 64) (sum : bits.toNat = 2 ^ a + 2 ^ b) :
    ∃ d, Combines w (sumInstructions bits target source) target source bits.toNat d ∧ (bits.toNat % 2 = 1 → d = 1) := by
  have less := lessPower (show a < 64 by omega) sum
  have value : (bits.toNat : Int) = 2 ^ a + 2 ^ b := by
    rw [sum]
    push_cast
    rfl
  obtain ⟨k,rfl⟩ : ∃ k, b = a + 1 + k := ⟨b - a - 1,by omega⟩
  have shifted := Combines.start.shl apart small
  rw [Nat.pow_add 2 (a + 1)] at sum
  rw [value]
  simp only [sumInstructions,bitOne,bitTwo,bitFour]
  match a with
  | 0 =>
    have odd : bits.toNat % 2 = 1 := by omega
    rw [if_pos odd,show (1 : BitVec 64) = BitVec.twoPow 64 0 from rfl,less]
    exact ⟨1,(shifted.add apart).congr (by ring),fun _ => rfl⟩
  | 1 =>
    have even : ¬ bits.toNat % 2 = 1 := by omega
    rw [if_neg even,if_pos (by omega),show (2 : BitVec 64) = BitVec.twoPow 64 1 from rfl,less]
    exact ⟨2,(shifted.double.add apart).congr (by ring),fun odd => absurd odd even⟩
  | 2 =>
    have even : ¬ bits.toNat % 2 = 1 := by omega
    rw [if_neg even,if_neg (by omega),if_pos (by omega),show (4 : BitVec 64) = BitVec.twoPow 64 2 from rfl,less]
    exact ⟨4,(shifted.double.double.add apart).congr (by ring),fun odd => absurd odd even⟩
  | a+3 =>
    have eight : bits.toNat = 8 * (2 ^ a + 2 ^ a * 2 * 2 ^ k) := by
      rw [sum]
      ring
    have even : ¬ bits.toNat % 2 = 1 := by omega
    have trailing : trailingZeroes bits = a + 3 := by
      apply BitCounts.trailingZeroesOdd (j := 2 ^ k)
      rw [sum]
      ring
    rw [if_neg even,if_neg (by omega),if_neg (by omega),trailing,← BitVec.twoPow_eq,less]
    have low := (@Combines.start w target source).shl apart (show a + 3 < w by omega)
    exact ⟨_,((low.shlSource small).add apart).congr (by ring),fun odd => absurd odd even⟩

theorem differenceCombines {w : Nat} {bits : BitVec 64} {target source t s : Nat} (apart : target ≠ source)
    (order : t + 2 ≤ s) (small : s < w) (fits : s < 64) (difference : bits.toNat + 2 ^ t = 2 ^ s) :
    ∃ d, Combines w (differenceInstructions bits target source) target source bits.toNat d ∧
      (bits.toNat % 2 = 1 → d = 1) := by
  have more := morePower (by omega) fits difference
  have value : (bits.toNat : Int) = 2 ^ s - 2 ^ t := by
    have cast : (bits.toNat : Int) + 2 ^ t = 2 ^ s := by exact_mod_cast difference
    omega
  obtain ⟨k,rfl⟩ : ∃ k, s = t + 2 + k := ⟨s - t - 2,by omega⟩
  have pos : 0 < 2 ^ k := Nat.two_pow_pos k
  have shifted := Combines.start.shl apart small
  rw [Nat.pow_add 2 (t + 2)] at difference
  rw [value]
  simp only [differenceInstructions,bitOne,bitTwo,bitFour]
  match t with
  | 0 =>
    have odd : bits.toNat % 2 = 1 := by omega
    rw [if_pos odd,show (1 : BitVec 64) = BitVec.twoPow 64 0 from rfl,more]
    exact ⟨1,(shifted.sub apart).congr (by ring),fun _ => rfl⟩
  | 1 =>
    have even : ¬ bits.toNat % 2 = 1 := by omega
    rw [if_neg even,if_pos (by omega),show (2 : BitVec 64) = BitVec.twoPow 64 1 from rfl,more]
    exact ⟨2,(shifted.double.sub apart).congr (by ring),fun odd => absurd odd even⟩
  | 2 =>
    have even : ¬ bits.toNat % 2 = 1 := by omega
    rw [if_neg even,if_neg (by omega),if_pos (by omega),show (4 : BitVec 64) = BitVec.twoPow 64 2 from rfl,more]
    exact ⟨4,(shifted.double.double.sub apart).congr (by ring),fun odd => absurd odd even⟩
  | t+3 =>
    have eight : bits.toNat + 8 * 2 ^ t = 8 * (2 ^ t * 4 * 2 ^ k) := by
      rw [show 8 * 2 ^ t = 2 ^ (t + 3) by ring,difference]
      ring
    have even : ¬ bits.toNat % 2 = 1 := by omega
    have trailing : trailingZeroes bits = t + 3 := by
      apply BitCounts.trailingZeroesOdd (j := 2 * 2 ^ k - 1)
      have odd : 2 * (2 * 2 ^ k - 1) + 1 + 1 = 4 * 2 ^ k := by omega
      have whole : 2 ^ (t + 3) * (2 * (2 * 2 ^ k - 1) + 1) + 2 ^ (t + 3) = 2 ^ (t + 3) * (4 * 2 ^ k) := by
        rw [← odd]
        ring
      rw [show 2 ^ (t + 3 + 2) * 2 ^ k = 2 ^ (t + 3) * (4 * 2 ^ k) by ring] at difference
      omega
    rw [if_neg even,if_neg (by omega),if_neg (by omega),trailing,← BitVec.twoPow_eq,more]
    have low := (@Combines.start w target source).shlSource (show t + 3 < w by omega)
    exact ⟨_,((low.shl apart small).sub apart).congr (by ring),fun odd => absurd odd even⟩

theorem twoPowersSpec {w : Nat} {site : Site} {s : CodeState} (fresh : home site s < s.nextRegister) (absMultiplier : Int)
    {body : BitVec 64 → Nat → Nat → List Instruction} {c : Int}
    (combines : ∀ target source, target ≠ source →
      ∃ d, Combines w (body (BitVec.ofInt 64 absMultiplier) target source) target source c d ∧
        ((BitVec.ofInt 64 absMultiplier).toNat % 2 = 1 → d = 1)) :
    ∃ is, (twoPowers site absMultiplier body s).2.instructions = s.instructions ++ is ∧
      Computes w is (home site s) (twoPowers site absMultiplier body s).1 c (Keeps site s) := by
  obtain ⟨first,prepared⟩ := clobberableSourcePrepared fresh (decide (BitVec.ofInt 64 absMultiplier &&& 1 = 0))
  have unfolded : twoPowers site absMultiplier body s =
      let start := clobberableSource site (decide (BitVec.ofInt 64 absMultiplier &&& 1 = 0)) s
      (start.2.nextRegister,emitAll (emit (allocateTemp start.2).2 (.movRegReg start.2.nextRegister start.1))
        (body (BitVec.ofInt 64 absMultiplier) start.2.nextRegister start.1)) := rfl
  rw [unfolded]
  generalize clobberableSource site (decide (BitVec.ofInt 64 absMultiplier &&& 1 = 0)) s = start at prepared
  obtain ⟨source,s₁⟩ := start
  simp only at prepared ⊢
  have below := prepared.below
  have grown := prepared.grown
  obtain ⟨d,combined,odd⟩ := combines s₁.nextRegister source (by omega)
  have final : ∀ regs : Nat → BitVec w,
      run regs (first ++ .movRegReg s₁.nextRegister source::body (BitVec.ofInt 64 absMultiplier) s₁.nextRegister source) =
        Function.update (Function.update (run regs first) s₁.nextRegister (scaled (regs (home site s)) c)) source
          (scaled (regs (home site s)) d) := by
    intro regs
    have value := prepared.value regs
    have copied := combined (Function.update (run regs first) s₁.nextRegister (run regs first source)) (regs (home site s))
      ((Function.update_self _ _ _).trans value) ((Function.update_of_ne (by omega) _ _).trans value)
    rw [Function.update_idem] at copied
    exact (runAppend regs first _).trans copied
  refine ⟨first ++ .movRegReg s₁.nextRegister source::body (BitVec.ofInt 64 absMultiplier) s₁.nextRegister source,?_,?_,?_⟩
  · have kept : (allocateTemp s₁).2.instructions = s₁.instructions := rfl
    simp only [emitAll,emit,kept,prepared.instructions,List.append_assoc,List.singleton_append]
  · intro regs
    rw [final,Function.update_of_ne (by omega),Function.update_self]
  · intro keeps
    refine ⟨by omega,fun regs => ?_⟩
    rw [final]
    by_cases here : home site s = source
    · have single : (BitVec.ofInt 64 absMultiplier).toNat % 2 = 1 := by
        by_contra even
        have zero : BitVec.ofInt 64 absMultiplier &&& 1 = 0 := not_not.mp (mt (bitOne _).mp even)
        exact prepared.apart ⟨keeps,Or.inl (decide_eq_true zero)⟩ here.symm
      rw [here,Function.update_self,odd single,scaledOne]
    · rw [Function.update_of_ne here,Function.update_of_ne (by omega),prepared.frame regs _ fresh]

def absMultiplier (site : Site) : Int := if site.multiplier < 0 then wrap 64 (-site.multiplier) else site.multiplier

theorem widthCases (site : Site) : width site = 32 ∨ width site = 64 := by
  cases wide : site.nodeIs64Bit <;> simp [width,wide]

theorem shiftSpec {site : Site} {is : List Instruction} {target shiftAmount : Nat} {keeps : Prop} {home : Nat} {c : Int}
    (small : shiftAmount < width site) (computes : Computes (width site) is home target c keeps) :
    Computes (width site) (is ++ shiftInstructions site target shiftAmount) home target (c * 2 ^ shiftAmount) keeps := by
  rw [shiftInstructions]
  split
  · exact computes.doubled shiftAmount
  · exact computes.shifted small

theorem releaseInstructions (site : Site) (s : CodeState) : (releaseSource site s).instructions = s.instructions := by
  rw [releaseSource]
  split
  · split <;> rfl
  · rfl

section
variable {site : Site} (range : InRange (width site) site.multiplier)
include range

theorem multiplierBounds : site.multiplier.natAbs ≤ 2 ^ (width site - 1) ∧ InRange 64 site.multiplier := by
  simp only [InRange,minSigned,maxSigned,half] at range ⊢
  rcases widthCases site with w | w <;> rw [w] at range ⊢ <;> constructor <;> omega

theorem absMultiplierCases : absMultiplier site = site.multiplier.natAbs ∨
    absMultiplier site = -2 ^ 63 ∧ site.multiplier = -2 ^ 63 ∧ width site = 64 := by
  obtain ⟨_,inside⟩ := multiplierBounds range
  have bounds := inside
  simp only [InRange,minSigned,maxSigned,half] at bounds
  by_cases negative : site.multiplier < 0
  · rw [absMultiplier,if_pos negative]
    by_cases least : site.multiplier = -2 ^ 63
    · have wide : width site = 64 := by
        rcases widthCases site with w | w
        · rw [w] at range
          simp only [InRange,minSigned,maxSigned,half] at range
          omega
        · exact w
      rw [least]
      exact Or.inr ⟨by decide,rfl,wide⟩
    · left
      rw [wrapSelf (by decide)]
      · omega
      · simp only [InRange,minSigned,maxSigned,half]
        omega
  · rw [absMultiplier,if_neg negative]
    left
    omega

theorem absMultiplierBits : (BitVec.ofInt 64 (absMultiplier site)).toNat = site.multiplier.natAbs := by
  obtain ⟨_,inside⟩ := multiplierBounds range
  simp only [InRange,minSigned,maxSigned,half] at inside
  rw [BitVec.toNat_ofInt]
  rcases absMultiplierCases range with same | ⟨least,wrapped,_⟩
  · rw [same]
    omega
  · rw [least,wrapped]
    decide

theorem negateSpec {is : List Instruction} {target : Nat} {keeps : Prop} {home : Nat}
    (computes : Computes (width site) is home target site.multiplier.natAbs keeps) (s : CodeState) :
    ∃ js, (negateTarget site (absMultiplier site) target s).instructions = s.instructions ++ js ∧
      Computes (width site) (is ++ js) home target site.multiplier keeps := by
  by_cases same : site.multiplier = absMultiplier site
  · refine ⟨[],?_,?_⟩
    · rw [negateTarget,if_neg (not_not.mpr same),List.append_nil]
    · rw [List.append_nil]
      apply computes.congr
      intro x
      apply scaledModulus
      rcases absMultiplierCases range with plain | ⟨_,wrapped,wide⟩
      · rw [same,plain]
        rfl
      · rw [wrapped,wide]
        decide
  · refine ⟨[.negReg target],?_,?_⟩
    · rw [negateTarget,if_pos same,emit]
    · have negative : site.multiplier = -(site.multiplier.natAbs : Int) := by
        rcases absMultiplierCases range with plain | ⟨least,wrapped,_⟩ <;> omega
      rw [negative]
      exact computes.negated

-- The multiplier without its trailing zeroes, when the table has an entry for it.
theorem shiftedEntry {composition : IntegerMultiplyComposition} (member : composition ∈ integerMultiplySolutions)
    (entry : composition.multiplier = (BitVec.ofInt 64 (absMultiplier site) >>>
      (trailingZeroes (BitVec.ofInt 64 (absMultiplier site)) % 64)).toInt) :
    trailingZeroes (BitVec.ofInt 64 (absMultiplier site)) < width site ∧
      composition.multiplier * 2 ^ trailingZeroes (BitVec.ofInt 64 (absMultiplier site)) = site.multiplier.natAbs := by
  have bits := absMultiplierBits range
  obtain ⟨bound,_⟩ := multiplierBounds range
  have positive := solutionsPositive composition member
  generalize BitVec.ofInt 64 (absMultiplier site) = x at bits entry ⊢
  have some : x.toNat ≠ 0 := by
    intro zero
    obtain rfl : x = 0#64 := BitVec.eq_of_toNat_eq zero
    rw [entry] at positive
    revert positive
    decide
  obtain ⟨t,j,split,trailing⟩ := BitCounts.oddPart some
  have pos : 0 < 2 ^ t := Nat.two_pow_pos t
  have low : 2 ^ t ≤ 2 ^ (width site - 1) := by
    refine le_trans ?_ (bits ▸ bound)
    rw [split]
    exact Nat.le_mul_of_pos_right _ (by omega)
  have small : t ≤ width site - 1 := (Nat.pow_le_pow_iff_right (by decide)).mp low
  have wide := widthCases site
  rw [trailing] at entry ⊢
  refine ⟨by omega,?_⟩
  have quotient : (x >>> (t % 64)).toNat = 2 * j + 1 := by
    rw [Nat.mod_eq_of_lt (by omega),BitVec.toNat_ushiftRight,Nat.shiftRight_eq_div_pow,split,Nat.mul_div_cancel_left _ pos]
  have exactly : composition.multiplier = (2 * j + 1 : Nat) := by
    rw [entry,BitVec.toInt_eq_toNat_cond,quotient] at positive
    rw [entry,BitVec.toInt_eq_toNat_cond,quotient]
    split at positive
    · rename_i less
      rw [if_pos less]
    · have := (x >>> (t % 64)).isLt
      omega
  rw [exactly,← bits,split]
  push_cast
  ring

-- A power of two is found as the entry for 1, whatever registers are live.
theorem powerFound {t : Nat} (power : site.multiplier.natAbs = 2 ^ t) :
    ∃ composition, (findDecomposition site (BitVec.ofInt 64 (absMultiplier site) >>>
      (trailingZeroes (BitVec.ofInt 64 (absMultiplier site)) % 64)).toInt).filter
        (fun composition => ¬ composition.subsequentShiftTooExpensive) = some composition := by
  have bits := absMultiplierBits range
  generalize BitVec.ofInt 64 (absMultiplier site) = x at bits ⊢
  have small : t < 64 := by
    have : 2 ^ t < 2 ^ 64 := by rw [← power,← bits]; exact x.isLt
    exact (Nat.pow_lt_pow_iff_right (by decide)).mp this
  have single : x >>> t = 1#64 := by
    apply BitVec.eq_of_toNat_eq
    rw [BitVec.toNat_ushiftRight,Nat.shiftRight_eq_div_pow,bits,power,Nat.div_self (Nat.two_pow_pos t)]
    rfl
  obtain ⟨composition,found,cheap⟩ := findDecompositionOne site
  refine ⟨composition,?_⟩
  rw [trailingZeroesPower (bits.trans power),Nat.mod_eq_of_lt small,single,show (1#64).toInt = 1 by decide,found]
  simp [cheap]

-- The result of the decomposer: no register, or one that a sequence computes the product in.
def Decomposed (site : Site) (s : CodeState) (result : Option Nat × CodeState) : Prop :=
  ∀ target, result.1 = some target → ∃ is, result.2.instructions = s.instructions ++ is ∧
    Computes (width site) is (home site s) target site.multiplier (Keeps site s)

theorem decomposedNegate {s s' : CodeState} {is : List Instruction} {target : Nat}
    (emitted : s'.instructions = s.instructions ++ is)
    (computes : Computes (width site) is (home site s) target site.multiplier.natAbs (Keeps site s)) :
    Decomposed site s (some target,negateTarget site (absMultiplier site) target s') := by
  intro other same
  obtain ⟨js,negated,final⟩ := negateSpec range computes s'
  cases Option.some.inj same
  exact ⟨is ++ js,by rw [negated,emitted,List.append_assoc],final⟩

theorem decomposeSpec {s : CodeState} (fresh : home site s < s.nextRegister) :
    ∃ result, decomposeIntegerMultiplier site s = some result ∧ Decomposed site s result := by
  have wide : 32 ≤ width site := by rcases widthCases site with w | w <;> omega
  have bits := absMultiplierBits range
  obtain ⟨bound,_⟩ := multiplierBounds range
  have folded : (if site.multiplier < 0 then wrap 64 (-site.multiplier) else site.multiplier) = absMultiplier site := rfl
  simp only [decomposeIntegerMultiplier,folded]
  split
  · exact ⟨_,rfl,nofun⟩
  cases direct : findDecomposition site (absMultiplier site) with
  | some composition =>
    obtain ⟨member,entry⟩ := findDecompositionSpec direct
    have positive := solutionsPositive composition member
    have plain : composition.multiplier = site.multiplier.natAbs := by
      rcases absMultiplierCases range with same | ⟨least,_,_⟩ <;> omega
    obtain ⟨target,s',is,ran,emitted,computes⟩ := generateSpec wide fresh member
    rw [plain] at computes
    simp only [ran]
    exact ⟨_,rfl,decomposedNegate range emitted computes⟩
  | none =>
    simp only
    cases shifted : (findDecomposition site (BitVec.ofInt 64 (absMultiplier site) >>>
      (trailingZeroes (BitVec.ofInt 64 (absMultiplier site)) % 64)).toInt).filter
        (fun composition => ¬ composition.subsequentShiftTooExpensive) with
    | some composition =>
      obtain ⟨found,_⟩ := Option.filter_eq_some_iff.mp shifted
      obtain ⟨member,entry⟩ := findDecompositionSpec found
      obtain ⟨small,product⟩ := shiftedEntry range member entry
      obtain ⟨target,s',is,ran,emitted,computes⟩ := generateSpec wide fresh member
      have final := shiftSpec small computes
      rw [product] at final
      simp only [ran]
      refine ⟨_,rfl,decomposedNegate range ?_ final⟩
      rw [emitAll,emitted,List.append_assoc]
    | none =>
      have notPower : ∀ t, site.multiplier.natAbs ≠ 2 ^ t := by
        intro t power
        obtain ⟨composition,found⟩ := powerFound range power
        rw [found] at shifted
        cases shifted
      simp only
      split
      · rename_i two
        obtain ⟨a,b,order,small,sum⟩ := BitCounts.twoOnes two
        have narrow : b < width site := by
          have less : 2 ^ b < 2 ^ (width site - 1) := by
            have pos : 0 < 2 ^ a := Nat.two_pow_pos a
            omega
          have := (Nat.pow_lt_pow_iff_right (by decide)).mp less
          omega
        obtain ⟨is,emitted,computes⟩ := twoPowersSpec fresh (absMultiplier site) fun target source apart =>
          sumCombines apart order narrow small sum
        rw [bits] at computes
        have final := decomposedNegate range emitted computes
        refine ⟨_,rfl,fun target same => ?_⟩
        simp only [releaseInstructions]
        exact final target same
      · split
        · rename_i full
          obtain ⟨t,top,order,most,difference,count⟩ := BitCounts.contiguousOnes full
          rw [bits] at difference
          have gap : t + 2 ≤ top := by
            by_contra close
            obtain rfl : top = t + 1 := by omega
            apply notPower t
            rw [Nat.pow_succ] at difference
            omega
          have narrow : top < width site := by
            have doubled : 2 ^ (t + 2) ≤ 2 ^ top := Nat.pow_le_pow_right (by decide) gap
            have pos : 0 < 2 ^ t := Nat.two_pow_pos t
            have half : 2 ^ top < 2 ^ (width site - 1 + 1) := by
              rw [Nat.pow_add] at doubled
              rw [Nat.pow_succ]
              omega
            have := (Nat.pow_lt_pow_iff_right (by decide)).mp half
            omega
          have fits : top < 64 := by rcases widthCases site with w | w <;> omega
          obtain ⟨is,emitted,computes⟩ := twoPowersSpec fresh (absMultiplier site) fun target source apart =>
            differenceCombines apart gap narrow fits (bits ▸ difference)
          rw [bits] at computes
          exact ⟨_,rfl,decomposedNegate range ((releaseInstructions site _).trans emitted) computes⟩
        · exact ⟨_,rfl,nofun⟩

end

-- Every composition that is found runs to its done component.
theorem compositionsFinish {site : Site} {s : CodeState} (fresh : home site s < s.nextRegister) {multiplier : Int}
    {composition : IntegerMultiplyComposition} (found : findDecomposition site multiplier = some composition) :
    ∃ target s', generateDecompositionInstructions site composition s = some (some target,s') := by
  obtain ⟨target,s',_,ran,_⟩ := generateSpec (le_refl 32) fresh (findDecompositionSpec found).1
  exact ⟨target,s',ran⟩

theorem multiplyDecomposed {site : Site} {s : CodeState} (range : InRange (width site) site.multiplier)
    (fresh : home site s < s.nextRegister) :
    (∃ result s', decomposeIntegerMultiplier site s = some (result,s') ∧
      ∀ target, result = some target → ∃ is, s'.instructions = s.instructions ++ is ∧
        ∀ regs : Nat → BitVec (width site),
          run regs is target = BitVec.ofInt (width site) site.multiplier * regs (home site s) ∧
          (Keeps site s → run regs is (home site s) = regs (home site s))) ∧
    ∀ multiplier composition, findDecomposition site multiplier = some composition →
      ∃ target s', generateDecompositionInstructions site composition s = some (some target,s') := by
  refine ⟨?_,fun _ _ found => compositionsFinish fresh found⟩
  obtain ⟨⟨result,s'⟩,ran,decomposed⟩ := decomposeSpec range fresh
  refine ⟨result,s',ran,fun target chosen => ?_⟩
  obtain ⟨is,emitted,computes⟩ := decomposed target chosen
  exact ⟨is,emitted,fun regs => ⟨computes.value regs,fun keeps => (computes.kept keeps).2 regs⟩⟩

-- Multiplication of register 0 by -45 with the source kept: two leas into register 1, then neg.
theorem multiplyDecomposedSample :
    let site : Site := ⟨-45,true,false,3,16,false,true,0,false⟩
    let s : CodeState := ⟨some 0,1,none,[],[]⟩
    ∃ s', decomposeIntegerMultiplier site s = some (some 1,s') ∧
      ∀ regs : Nat → BitVec 64, run regs s'.instructions 1 = BitVec.ofInt 64 (-45) * regs 0 ∧
        run regs s'.instructions 0 = regs 0 := by
  intro site s
  obtain ⟨⟨result,s',ran,computes⟩,_⟩ := @multiplyDecomposed site s (by decide) (by decide)
  have target : (decomposeIntegerMultiplier site s).map (·.1) = some (some 1) := by decide
  rw [ran,Option.map_some,Option.some.injEq] at target
  obtain rfl : result = some 1 := target
  obtain ⟨is,emitted,product⟩ := computes 1 rfl
  obtain rfl : s'.instructions = is := emitted
  exact ⟨s',ran,fun regs => ⟨(product regs).1,(product regs).2 rfl⟩⟩

end OmrCompiler.Multiply
