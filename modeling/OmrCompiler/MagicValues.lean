import OmrCompiler.ILTree
import OmrCompiler.PowerOfTwo
import OmrCompiler.Reciprocal

/-! The magic numbers of compute32BitMagicValues and compute64BitMagicValues
(OMRCodeGenerator.cpp) and the multiply sequence that uses them
(getQuotientUsingMagicNumberMultiply of OMRSimplifierHandlers.cpp). -/
namespace OmrCompiler.MagicValues
open MachineInt Constraint ILTree Reciprocal

structure MagicState where
  p : Nat
  q1 : Nat
  r1 : Nat
  q2 : Nat
  r2 : Nat
  deriving DecidableEq, Repr

-- Doubling a quotient and its remainder, in unsigned arithmetic of w bits.
def double (w divisor q r : Nat) : Nat × Nat :=
  let q := 2 * q % 2 ^ w
  let r := 2 * r % 2 ^ w
  if r ≥ divisor then ((q + 1) % 2 ^ w,r - divisor) else (q,r)

def magicStep (w anc ad : Nat) (s : MagicState) : MagicState :=
  let (q1,r1) := double w anc s.q1 s.r1
  let (q2,r2) := double w ad s.q2 s.r2
  ⟨s.p + 1,q1,r1,q2,r2⟩

def goesOn (ad : Nat) (s : MagicState) : Bool :=
  let delta := ad - s.r2
  s.q1 < delta || (s.q1 = delta && s.r1 = 0)

-- do ... while: the step comes before the test.
def magicLoop (w anc ad : Nat) : Nat → MagicState → MagicState
  | 0, s => magicStep w anc ad s
  | fuel + 1, s =>
      let s := magicStep w anc ad s
      if goesOn ad s then magicLoop w anc ad fuel s else s

def ancOf (w : Nat) (d : Int) : Nat :=
  let t := 2 ^ (w - 1) + (if d < 0 then 1 else 0)
  t - 1 - t % d.natAbs

def magicStart (w : Nat) (d : Int) : MagicState :=
  let anc := ancOf w d
  let ad := d.natAbs
  ⟨w - 1,2 ^ (w - 1) / anc,2 ^ (w - 1) - 2 ^ (w - 1) / anc * anc,2 ^ (w - 1) / ad,2 ^ (w - 1) - 2 ^ (w - 1) / ad * ad⟩

def magicEnd (w : Nat) (d : Int) : MagicState := magicLoop w (ancOf w d) d.natAbs (2 * w) (magicStart w d)

def computeValues (w : Nat) (d : Int) : Int × Int :=
  let s := magicEnd w d
  let m := wrap w (s.q2 + 1)
  (if d < 0 then wrap w (-m) else m,s.p - w)

structure CachedValue where
  denominator : Int
  magic : Int
  shift : Int
  deriving DecidableEq, Repr

-- The binary search of the cache.
def search (table : List CachedValue) (d : Int) : Nat → Int → Int → Option (Int × Int)
  | 0, _, _ => none
  | fuel + 1, first, last =>
      if first ≤ last then
        let mid := (first + last) / 2
        match table[mid.toNat]? with
        | none => none
        | some entry =>
            if entry.denominator = d then some (entry.magic,entry.shift)
            else if d > entry.denominator then search table d fuel (mid + 1) last
            else search table d fuel first (mid - 1)
      else none

def lookup (table : List CachedValue) (d : Int) : Option (Int × Int) := search table d table.length 0 (table.length - 1)

def div32BitMagicValues : List CachedValue :=
  [⟨3,0x55555556,0⟩,⟨5,0x66666667,1⟩,⟨7,0x92492493,2⟩,⟨9,0x38e38e39,1⟩,⟨10,0x66666667,2⟩,⟨12,0x2aaaaaab,1⟩,
    ⟨24,0x2aaaaaab,2⟩,⟨60,0x88888889,5⟩,⟨100,0x51eb851f,5⟩,⟨1000,0x10624dd3,6⟩,⟨3600,0x91a2b3c5,11⟩]

def div64BitMagicValues : List CachedValue :=
  [⟨3,0x5555555555555556,0⟩,⟨5,0x6666666666666667,1⟩,⟨7,0x4924924924924925,1⟩,⟨9,0x1c71c71c71c71c72,0⟩,
    ⟨10,0x6666666666666667,2⟩,⟨12,0x2aaaaaaaaaaaaaab,1⟩]

-- The 32-bit cache holds unsigned numbers, and the key is compared as one.
def compute32BitMagicValues (d : Int) : Int × Int :=
  match lookup div32BitMagicValues (toUnsigned 32 d) with
  | some (m,s) => (wrap 32 m,s)
  | none => computeValues 32 d

def compute64BitMagicValues (d : Int) : Int × Int :=
  match lookup div64BitMagicValues d with
  | some values => values
  | none => computeValues 64 d

def computeMagicValues : DataType → Int → Int × Int
  | .Int64, d => compute64BitMagicValues d
  | _, d => compute32BitMagicValues d

/- What makes m and s work as a multiplier and a shift for d: m stands for a
multiplier of w bits, negated for a negative divisor. -/
structure Magic (w : Nat) (d m s : Int) : Prop where
  shift : 0 ≤ s ∧ s < w
  values : ∃ m' e nc : Nat, Multiplier d.natAbs m' (w + s.toNat) e nc ∧ e ≤ d.natAbs ∧ m' < 2 ^ w ∧ m' ≠ 2 ^ (w - 1) ∧
    m = wrap w (if d < 0 then -m' else m') ∧
    2 ^ (w - 1) + (if d < 0 then 1 else 0) ≤ nc + d.natAbs

section Loop
variable {w anc ad : Nat}

-- The pairs of the loop are quotient and remainder of 2^p.
def Tracks (anc ad : Nat) (s : MagicState) : Prop :=
  s.q1 = 2 ^ s.p / anc ∧ s.r1 = 2 ^ s.p % anc ∧ s.q2 = 2 ^ s.p / ad ∧ s.r2 = 2 ^ s.p % ad

theorem doubleExact {divisor n : Nat} (pos : 0 < divisor) (small : divisor ≤ 2 ^ (w - 1)) (hw : 0 < w)
    (room : n / divisor < 2 ^ (w - 1)) :
    double w divisor (n / divisor) (n % divisor) = (2 * n / divisor,2 * n % divisor) := by
  have pow : 2 ^ w = 2 * 2 ^ (w - 1) := by
    obtain ⟨k,rfl⟩ : ∃ k, w = k + 1 := ⟨w - 1,by omega⟩
    rw [Nat.add_sub_cancel,Nat.pow_succ]
    omega
  have parts := Nat.div_add_mod n divisor
  have rest : n % divisor < divisor := Nat.mod_lt n pos
  have whole : 2 * n = divisor * (2 * (n / divisor)) + 2 * (n % divisor) := by
    calc 2 * n = 2 * (divisor * (n / divisor) + n % divisor) := by rw [parts]
      _ = divisor * (2 * (n / divisor)) + 2 * (n % divisor) := by ring
  unfold double
  rw [Nat.mod_eq_of_lt (show 2 * (n / divisor) < 2 ^ w by omega),Nat.mod_eq_of_lt (show 2 * (n % divisor) < 2 ^ w by omega)]
  simp only
  split
  · have next : divisor * (2 * (n / divisor) + 1) = divisor * (2 * (n / divisor)) + divisor := by ring
    obtain ⟨quotient,remainder⟩ := (Nat.div_mod_unique pos (a := 2 * n) (c := 2 * (n % divisor) - divisor)
      (d := 2 * (n / divisor) + 1)).mpr ⟨by omega,by omega⟩
    rw [Nat.mod_eq_of_lt (show 2 * (n / divisor) + 1 < 2 ^ w by omega),quotient,remainder]
  · obtain ⟨quotient,remainder⟩ := (Nat.div_mod_unique pos (a := 2 * n) (c := 2 * (n % divisor))
      (d := 2 * (n / divisor))).mpr ⟨by omega,by omega⟩
    rw [quotient,remainder]

-- The divisor is no power of two, and anc is one below a multiple of it.
structure Divisor (w anc ad : Nat) : Prop where
  wide : 3 ≤ w
  three : 3 ≤ ad
  below : ad < 2 ^ (w - 1)
  ancBelow : anc ≤ 2 ^ (w - 1)
  period : ad ∣ anc + 1
  odd : ∀ p, 2 ^ p % ad ≠ 0

-- What a state needs for the next step not to overflow.
structure Ready (w anc ad : Nat) (s : MagicState) : Prop where
  tracks : Tracks anc ad s
  early : s.p ≤ 2 * w - 2
  first : s.q1 < 2 ^ (w - 1)
  second : s.q2 < 2 ^ (w - 1)
  next : 2 * 2 ^ s.p / ad + 1 < 2 ^ w

theorem powSplit (hw : 0 < w) : 2 ^ w = 2 * 2 ^ (w - 1) := by
  obtain ⟨k,rfl⟩ : ∃ k, w = k + 1 := ⟨w - 1,by omega⟩
  rw [Nat.add_sub_cancel,Nat.pow_succ]
  omega

theorem ancPos (h : Divisor w anc ad) : 2 ≤ anc := by
  have := Nat.le_of_dvd (Nat.succ_pos anc) h.period
  have := h.three
  omega

theorem stepTracks (h : Divisor w anc ad) {s : MagicState} (ready : Ready w anc ad s) :
    Tracks anc ad (magicStep w anc ad s) ∧ (magicStep w anc ad s).p = s.p + 1 ∧ (magicStep w anc ad s).q2 + 1 < 2 ^ w := by
  obtain ⟨⟨q1,r1,q2,r2⟩,_,first,second,next⟩ := ready
  have anc2 := ancPos h
  have three := h.three
  have wide := h.wide
  have pow : 2 ^ (s.p + 1) = 2 * 2 ^ s.p := by
    rw [Nat.pow_succ]
    omega
  rw [q1] at first
  rw [q2] at second
  have one := doubleExact (by omega) h.ancBelow (by omega) first
  have two := doubleExact (by omega) (Nat.le_of_lt h.below) (by omega) second
  unfold magicStep Tracks
  simp only [q1,r1,q2,r2,one,two,pow]
  exact ⟨⟨trivial,trivial,trivial,trivial⟩,trivial,next⟩

/- While the test asks for more, 2^p is at most anc * delta. -/
theorem goesOnBound (h : Divisor w anc ad) {s : MagicState} (tracks : Tracks anc ad s) (more : goesOn ad s = true) :
    2 ^ s.p ≤ anc * (ad - s.r2) := by
  have anc2 := ancPos h
  have rest : s.r1 < anc := by
    rw [tracks.2.1]
    exact Nat.mod_lt _ (by omega)
  have parts : 2 ^ s.p = anc * s.q1 + s.r1 := by
    rw [tracks.1,tracks.2.1]
    exact (Nat.div_add_mod _ _).symm
  simp only [goesOn,Bool.or_eq_true,Bool.and_eq_true,decide_eq_true_eq] at more
  rcases more with less | ⟨same,zero⟩
  · calc 2 ^ s.p ≤ anc * (s.q1 + 1) := by rw [Nat.mul_add,Nat.mul_one]; omega
      _ ≤ anc * (ad - s.r2) := Nat.mul_le_mul_left _ less
  · rw [← same]
    omega

theorem stopsBound (h : Divisor w anc ad) {s : MagicState} (tracks : Tracks anc ad s) (stop : goesOn ad s = false) :
    anc * (ad - s.r2) < 2 ^ s.p := by
  have anc2 := ancPos h
  have parts : 2 ^ s.p = anc * s.q1 + s.r1 := by
    rw [tracks.1,tracks.2.1]
    exact (Nat.div_add_mod _ _).symm
  simp only [goesOn,Bool.or_eq_false_iff,Bool.and_eq_false_iff,decide_eq_false_iff_not] at stop
  rcases Nat.lt_or_ge (ad - s.r2) s.q1 with less | _
  · calc anc * (ad - s.r2) < anc * (ad - s.r2 + 1) := by rw [Nat.mul_add,Nat.mul_one]; omega
      _ ≤ anc * s.q1 := Nat.mul_le_mul_left _ less
      _ ≤ 2 ^ s.p := by omega
  · have same : s.q1 = ad - s.r2 := by omega
    rw [← same]
    omega

theorem readyAgain (h : Divisor w anc ad) {s : MagicState} (tracks : Tracks anc ad s) (more : goesOn ad s = true) :
    Ready w anc ad s := by
  have bound := goesOnBound h tracks more
  have three := h.three
  have below := h.below
  have wide := h.wide
  have pow := powSplit (show 0 < w by omega)
  have nonzero : s.r2 ≠ 0 := by
    rw [tracks.2.2.2]
    exact h.odd s.p
  have rest : s.r2 < ad := by
    rw [tracks.2.2.2]
    exact Nat.mod_lt _ (by omega)
  have parts : 2 ^ s.p = ad * s.q2 + s.r2 := by
    rw [tracks.2.2.1,tracks.2.2.2]
    exact (Nat.div_add_mod _ _).symm
  have long := Nat.le_of_dvd (Nat.succ_pos anc) h.period
  -- The second quotient stays below anc by at least the remainder.
  have room : s.q2 + s.r2 ≤ anc := by
    refine Nat.le_of_mul_le_mul_left (c := ad) ?_ (by omega)
    have wideRest : ad * s.r2 ≤ (anc + 1) * s.r2 := Nat.mul_le_mul_right _ long
    have spread : (anc + 1) * s.r2 = anc * s.r2 + s.r2 := by ring
    have back : anc * (ad - s.r2) + anc * s.r2 = ad * anc := by
      rw [← Nat.mul_add,Nat.sub_add_cancel (by omega),Nat.mul_comm]
    rw [Nat.mul_add]
    omega
  have ancBelow := h.ancBelow
  refine ⟨tracks,?_,?_,by omega,?_⟩
  · have : 2 ^ s.p < 2 ^ (2 * w - 2) := by
      calc 2 ^ s.p ≤ anc * (ad - s.r2) := bound
        _ ≤ 2 ^ (w - 1) * (ad - s.r2) := Nat.mul_le_mul_right _ ancBelow
        _ < 2 ^ (w - 1) * 2 ^ (w - 1) := Nat.mul_lt_mul_of_pos_left (by omega) (Nat.two_pow_pos _)
        _ = 2 ^ (2 * w - 2) := by rw [← Nat.pow_add]; congr 1; omega
    exact Nat.le_of_lt ((Nat.pow_lt_pow_iff_right (by decide)).mp this)
  · simp only [goesOn,Bool.or_eq_true,Bool.and_eq_true,decide_eq_true_eq] at more
    omega
  · have scaled : 2 * 2 ^ s.p < ad * (2 ^ w - 1) := by
      have product : ad * s.q2 ≤ ad * (2 ^ (w - 1) - s.r2) := Nat.mul_le_mul_left _ (by omega)
      have least : ad ≤ ad * s.r2 := Nat.le_mul_of_pos_right _ (by omega)
      have small : s.r2 ≤ 2 ^ (w - 1) := by omega
      have split : ad * (2 ^ (w - 1) - s.r2) + ad * s.r2 = ad * 2 ^ (w - 1) := by
        rw [← Nat.mul_add,Nat.sub_add_cancel small]
      have target : ad * (2 ^ w - 1) + ad = 2 * (ad * 2 ^ (w - 1)) := by
        rw [pow,← Nat.mul_succ,Nat.succ_eq_add_one,Nat.sub_add_cancel (by omega)]
        ring
      have excess : 2 * s.r2 + ad < 2 * (ad * s.r2) := by
        have : 3 * s.r2 ≤ ad * s.r2 := Nat.mul_le_mul_right _ three
        omega
      omega
    have := (Nat.div_lt_iff_lt_mul (by omega : 0 < ad)).mpr (Nat.mul_comm ad _ ▸ scaled)
    omega

/- The loop ends, with a power that is large enough. -/
theorem loopEnds (h : Divisor w anc ad) :
    ∀ fuel s, 2 * w ≤ s.p + fuel → Ready w anc ad s →
      Tracks anc ad (magicLoop w anc ad fuel s) ∧ goesOn ad (magicLoop w anc ad fuel s) = false ∧
      s.p < (magicLoop w anc ad fuel s).p ∧ (magicLoop w anc ad fuel s).p ≤ 2 * w - 1 ∧
      (magicLoop w anc ad fuel s).q2 + 1 < 2 ^ w := by
  intro fuel
  have wide := h.wide
  induction fuel with
  | zero =>
    intro s enough ready
    have := ready.early
    omega
  | succ fuel ih =>
    intro s enough ready
    obtain ⟨tracks,step,next⟩ := stepTracks h ready
    have early := ready.early
    simp only [magicLoop]
    split
    · rename_i more
      obtain ⟨after,stop,later,bound,small⟩ := ih _ (by omega) (readyAgain h tracks more)
      exact ⟨after,stop,by omega,bound,small⟩
    · rename_i stop
      exact ⟨tracks,by simpa using stop,by omega,by omega,next⟩

end Loop
section Values
variable {w : Nat} {d : Int}

theorem noPowerDivides {ad : Nat} (odd : ¬ ∃ k, ad = 2 ^ k) (p : Nat) : 2 ^ p % ad ≠ 0 := by
  intro zero
  obtain ⟨k,_,power⟩ := (Nat.dvd_prime_pow Nat.prime_two).mp (Nat.dvd_of_mod_eq_zero zero)
  exact odd ⟨k,power⟩

theorem ancPeriod {t ad : Nat} (pos : 0 < ad) (fits : ad ≤ t) : t - 1 - t % ad + 1 = t - t % ad ∧ ad ∣ t - t % ad := by
  have rest : t % ad < ad := Nat.mod_lt t pos
  exact ⟨by omega,Nat.dvd_sub_mod t⟩

theorem divisorOf (wide : 3 ≤ w) (inside : InRange w d) (nonzero : d ≠ 0) (odd : ¬ ∃ k, d.natAbs = 2 ^ k) :
    Divisor w (ancOf w d) d.natAbs := by
  have atMost := (PowerOfTwo.magnitudeBound (by omega) inside).2
  have half : MachineInt.half w = ((2 ^ (w - 1) : Nat) : Int) := by simp [MachineInt.half]
  have one : d.natAbs ≠ 1 := fun h => odd ⟨0,h⟩
  have two : d.natAbs ≠ 2 := fun h => odd ⟨1,h⟩
  have top : d.natAbs ≠ 2 ^ (w - 1) := fun h => odd ⟨w - 1,h⟩
  have step := ancPeriod (t := 2 ^ (w - 1) + if d < 0 then 1 else 0) (show 0 < d.natAbs by omega) (by omega)
  obtain ⟨next,period⟩ := step
  refine ⟨wide,by omega,by omega,?_,?_,noPowerDivides odd⟩
  · unfold ancOf
    simp only
    split <;> omega
  · unfold ancOf
    simp only
    rw [next]
    exact period

theorem startReady (h : Divisor w (ancOf w d) d.natAbs) : Ready w (ancOf w d) d.natAbs (magicStart w d) := by
  have anc2 := ancPos h
  have three := h.three
  have wide := h.wide
  have below := h.below
  have pow := powSplit (show 0 < w by omega)
  have room : 4 ≤ 2 ^ (w - 1) := by
    calc 4 = 2 ^ 2 := rfl
      _ ≤ 2 ^ (w - 1) := Nat.pow_le_pow_right (by decide) (by omega)
  have rest : ∀ c, 2 ^ (w - 1) - 2 ^ (w - 1) / c * c = 2 ^ (w - 1) % c := by
    intro c
    have := Nat.div_add_mod (2 ^ (w - 1)) c
    rw [Nat.mul_comm] at this
    omega
  refine ⟨⟨rfl,rest _,rfl,rest _⟩,?_,Nat.div_lt_self (by omega) (by omega),Nat.div_lt_self (by omega) (by omega),?_⟩
  · simp only [magicStart]
    omega
  · have third : 2 * 2 ^ (w - 1) / d.natAbs ≤ 2 * 2 ^ (w - 1) / 3 := Nat.div_le_div_left three (by decide)
    simp only [magicStart]
    omega

theorem computedMagic (wide : 3 ≤ w) (inside : InRange w d) (nonzero : d ≠ 0) (odd : ¬ ∃ k, d.natAbs = 2 ^ k) :
    Magic w d (computeValues w d).1 (computeValues w d).2 := by
  have h := divisorOf wide inside nonzero odd
  have three := h.three
  have below := h.below
  obtain ⟨tracks,stop,later,bound,small⟩ :=
    loopEnds h (2 * w) (magicStart w d) (by simp only [magicStart]; omega) (startReady h)
  have last := stopsBound h tracks stop
  change Tracks (ancOf w d) d.natAbs (magicEnd w d) at tracks
  change _ < (magicEnd w d).p at later
  change (magicEnd w d).p ≤ _ at bound
  change (magicEnd w d).q2 + 1 < _ at small
  change ancOf w d * (d.natAbs - (magicEnd w d).r2) < 2 ^ (magicEnd w d).p at last
  simp only [magicStart] at later
  have rest : (magicEnd w d).r2 < d.natAbs := by
    rw [tracks.2.2.2]
    exact Nat.mod_lt _ (by omega)
  have parts : 2 ^ (magicEnd w d).p = d.natAbs * (magicEnd w d).q2 + (magicEnd w d).r2 := by
    rw [tracks.2.2.1,tracks.2.2.2]
    exact (Nat.div_add_mod _ _).symm
  have power : w + (((magicEnd w d).p : Int) - w).toNat = (magicEnd w d).p := by omega
  have product : ((magicEnd w d).q2 + 1) * d.natAbs = 2 ^ (magicEnd w d).p + (d.natAbs - (magicEnd w d).r2) := by
    rw [Nat.add_mul,Nat.one_mul,Nat.mul_comm]
    omega
  refine ⟨⟨by simp only [computeValues]; omega,by simp only [computeValues]; omega⟩,
    (magicEnd w d).q2 + 1,d.natAbs - (magicEnd w d).r2,ancOf w d,?_,by omega,small,?_,?_,?_⟩
  · simp only [computeValues,power]
    exact ⟨by omega,product,by omega,h.period,last⟩
  · -- A multiplier 2^(w-1) would leave no room for the excess.
    intro same
    rw [same] at product
    have split : 2 ^ (magicEnd w d).p = 2 ^ (w - 1) * 2 ^ ((magicEnd w d).p - (w - 1)) := by
      rw [← Nat.pow_add]
      congr 1
      omega
    have divides : 2 ^ (w - 1) ∣ d.natAbs - (magicEnd w d).r2 := by
      rw [split] at product
      exact (Nat.dvd_add_right ⟨_,rfl⟩).mp ⟨_,product.symm⟩
    have := Nat.le_of_dvd (by omega) divides
    omega
  · simp only [computeValues]
    split
    · rw [wrap,wrap,Int.bmod_neg_bmod]
      congr 1
    · congr 1
  · have atMost : 0 < 2 ^ (w - 1) := Nat.two_pow_pos _
    have range := Nat.mod_lt (2 ^ (w - 1) + if d < 0 then 1 else 0) (show 0 < d.natAbs by omega)
    unfold ancOf
    simp only
    omega

-- A cached value is checked by the same properties.
def CachedValue.Fits (w : Nat) (c : CachedValue) : Prop :=
  let d := c.denominator.toNat
  let m := c.magic.toNat
  let p := w + c.shift.toNat
  (0 < c.denominator ∧ 0 ≤ c.magic ∧ 0 ≤ c.shift ∧ c.shift < w ∧ 2 ≤ d ∧ d ≤ 2 ^ (w - 1)) ∧
    2 ^ p < m * d ∧ m * d - 2 ^ p ≤ d ∧ (2 ^ (w - 1) - 1 - 2 ^ (w - 1) % d) * (m * d - 2 ^ p) < 2 ^ p ∧
    m < 2 ^ w ∧ m ≠ 2 ^ (w - 1)

instance (w : Nat) (c : CachedValue) : Decidable (c.Fits w) := by
  unfold CachedValue.Fits
  infer_instance

theorem cachedMagic {c : CachedValue} (fits : c.Fits w) : Magic w c.denominator (wrap w c.magic) c.shift := by
  obtain ⟨⟨positive,nonneg,lower,upper,two,below⟩,above,near,small,bound,ne⟩ := fits
  have magnitude : c.denominator.natAbs = c.denominator.toNat := by omega
  obtain ⟨next,period⟩ := ancPeriod (show 0 < c.denominator.toNat by omega) below
  have rest : 2 ^ (w - 1) % c.denominator.toNat < c.denominator.toNat := Nat.mod_lt _ (by omega)
  refine ⟨⟨lower,upper⟩,c.magic.toNat,c.magic.toNat * c.denominator.toNat - 2 ^ (w + c.shift.toNat),
    2 ^ (w - 1) - 1 - 2 ^ (w - 1) % c.denominator.toNat,?_,by rw [magnitude]; exact near,bound,ne,?_,?_⟩
  · rw [magnitude]
    exact ⟨two,by omega,by omega,next ▸ period,small⟩
  · rw [if_neg (by omega),Int.toNat_of_nonneg nonneg]
  · rw [if_neg (by omega),magnitude]
    omega

theorem searchMember {table : List CachedValue} :
    ∀ fuel first last {m s : Int}, search table d fuel first last = some (m,s) → ⟨d,m,s⟩ ∈ table := by
  intro fuel
  induction fuel with
  | zero =>
    intro first last m s found
    cases found
  | succ fuel ih =>
    intro first last m s found
    simp only [search] at found
    split at found
    · split at found
      · cases found
      · rename_i entry here
        split at found
        · rename_i same
          cases found
          subst same
          exact List.mem_of_getElem? here
        · split at found
          · exact ih _ _ found
          · exact ih _ _ found
    · cases found

theorem fits32 : ∀ c ∈ div32BitMagicValues, c.Fits 32 := by decide

theorem fits64 : ∀ c ∈ div64BitMagicValues, c.Fits 64 ∧ c.magic < half 64 := by decide

-- A small unsigned key is the key itself.
theorem smallKey {w : Nat} (hw : 0 < w) {d k : Int} (inside : InRange w d) (key : toUnsigned w d = k) (small : k < half w) :
    d = k := by
  have mod := modulusHalf hw
  simp only [InRange,minSigned,maxSigned] at inside
  by_cases negative : d < 0
  · have turned : toUnsigned w d = d + modulus w := by
      rw [toUnsigned,← Int.add_emod_right]
      exact Int.emod_eq_of_lt (by omega) (by omega)
    omega
  · have plain : toUnsigned w d = d := Int.emod_eq_of_lt (by omega) (by omega)
    omega

theorem magic32 (inside : InRange 32 d) (computed : Magic 32 d (computeValues 32 d).1 (computeValues 32 d).2) :
    Magic 32 d (compute32BitMagicValues d).1 (compute32BitMagicValues d).2 := by
  unfold compute32BitMagicValues
  split
  · rename_i m s found
    have member := searchMember _ _ _ found
    have fits := fits32 _ member
    have key : d = toUnsigned 32 d := by
      refine smallKey (by decide) inside rfl ?_
      have small : ∀ c ∈ div32BitMagicValues, c.denominator < half 32 := by decide
      exact small _ member
    have magic := cachedMagic fits
    rwa [← key] at magic
  · exact computed

theorem magic64 (computed : Magic 64 d (computeValues 64 d).1 (computeValues 64 d).2) :
    Magic 64 d (compute64BitMagicValues d).1 (compute64BitMagicValues d).2 := by
  unfold compute64BitMagicValues
  split
  · rename_i values found
    obtain ⟨m,s⟩ := values
    obtain ⟨fits,small⟩ := fits64 _ (searchMember _ _ _ found)
    have magic := cachedMagic fits
    have nonneg : 0 ≤ m := fits.1.2.1
    have self : wrap 64 m = m := by
      have := halfPos 64
      refine wrapSelf (by decide) ⟨?_,?_⟩
      · simp only [minSigned]
        omega
      · simp only [maxSigned] at small ⊢
        omega
    simp only at magic
    rwa [self] at magic
  · exact computed

end Values
/- The lowered tree of a division. The simplifier of idiv and ldiv always shifts;
getQuotientUsingMagicNumberMultiply leaves a shift by zero out. -/
def magicNode2 (t : DataType) (first : Tree) (divisor m : Int) : Tree :=
  let node1 := Tree.binary .mulh t first (constOf t m)
  if divisor > 0 ∧ m < 0 then .binary .add t node1 first
  else if divisor < 0 ∧ m > 0 then .binary .sub t node1 first
  else node1

def magicNode3 (t : DataType) (skipZeroShift : Bool) (first : Tree) (divisor m s : Int) : Tree :=
  if skipZeroShift ∧ s = 0 then magicNode2 t first divisor m
  else .binary .shr t (magicNode2 t first divisor m) (iconst s)

def magicTree (t : DataType) (skipZeroShift : Bool) (first : Tree) (divisor : Int) : Tree :=
  let (m,s) := computeMagicValues t divisor
  let node3 := magicNode3 t skipZeroShift first divisor m s
  let node4 := Tree.binary .ushr t (if divisor > 0 then first else node3) (iconst (t.bits - 1))
  .binary .add t node3 node4

def getQuotientUsingMagicNumberMultiply (t : DataType) (first : Tree) (divisor : Int) : Tree :=
  magicTree t true first divisor

section Sequence
variable {w : Nat}

theorem shiftBySmall {k : Int} (lower : 0 ≤ k) (upper : k < w) : shiftBy w k = k.toNat := by
  rw [shiftBy,Int.emod_eq_of_lt lower upper]

theorem halfWide (wide : 2 ≤ w) : 2 ≤ half w := by
  obtain ⟨k,rfl⟩ : ∃ k, w = k + 2 := ⟨w - 2,by omega⟩
  have := halfPos (k + 1)
  simp only [half,Nat.add_sub_cancel,show k + 2 - 1 = k + 1 by omega,Int.pow_succ] at *
  omega

-- The sign bit alone.
theorem signBit (wide : 2 ≤ w) {x : Int} (inside : InRange w x) :
    BinaryOp.ushr.eval w x (w - 1) = if x < 0 then 1 else 0 := by
  have hw : 0 < w := by omega
  have mod := modulusHalf hw
  have pos := halfWide wide
  have amount : shiftBy w ((w : Int) - 1) = w - 1 := by
    rw [shiftBySmall (by omega) (by omega)]
    omega
  have scale : (2 : Int) ^ (w - 1) = half w := rfl
  simp only [BinaryOp.eval,amount,scale]
  simp only [InRange,minSigned,maxSigned] at inside
  by_cases negative : x < 0
  · have turned : toUnsigned w x = x + modulus w := by
      rw [toUnsigned,← Int.add_emod_right]
      exact Int.emod_eq_of_lt (by omega) (by omega)
    have top : (x + modulus w) / half w = 1 :=
      Int.le_antisymm (Int.lt_add_one_iff.mp ((Int.ediv_lt_iff_lt_mul (by omega)).mpr (by omega)))
        ((Int.le_ediv_iff_mul_le (by omega)).mpr (by omega))
    rw [turned,top,if_pos negative]
    exact wrapSelf hw ⟨by simp only [minSigned]; omega,by simp only [maxSigned]; omega⟩
  · have plain : toUnsigned w x = x := Int.emod_eq_of_lt (by omega) (by omega)
    rw [plain,Int.ediv_eq_zero_of_lt (by omega) (by omega),if_neg negative]
    exact wrapSelf hw ⟨by simp only [minSigned]; omega,by simp only [maxSigned]; omega⟩

-- The corrected high product is that of the multiplier itself.
def signed (d : Int) (x : Int) : Int := if d < 0 then -x else x

theorem highProduct (wide : 2 ≤ w) {d m x : Int} {m' : Nat} (nonzero : d ≠ 0) (bound : m' < 2 ^ w) (ne : m' ≠ 2 ^ (w - 1))
    (value : m = wrap w (if d < 0 then -m' else m')) (inside : InRange w x) :
    (if d > 0 ∧ m < 0 then wrap w (x * m / modulus w + x)
      else if d < 0 ∧ m > 0 then wrap w (x * m / modulus w - x)
      else x * m / modulus w) = signed d x * m' / modulus w ∧ InRange w (signed d x * m' / modulus w) := by
  have hw : 0 < w := by omega
  have mod := modulusHalf hw
  have pos := halfPos w
  have cast : ((2 ^ w : Nat) : Int) = modulus w := by simp [modulus]
  have castHalf : ((2 ^ (w - 1) : Nat) : Int) = half w := by simp [half]
  have upper : (m' : Int) < modulus w := by rw [← cast]; exact_mod_cast bound
  have apart : (m' : Int) ≠ half w := by rw [← castHalf]; exact_mod_cast ne
  have modPos : 0 < modulus w := by omega
  simp only [InRange,minSigned,maxSigned] at inside
  have size : -half w ≤ signed d x ∧ signed d x ≤ half w := by
    unfold signed
    split <;> omega
  have range : InRange w (signed d x * m' / modulus w) := by
    refine ⟨?_,?_⟩
    · refine (Int.le_ediv_iff_mul_le modPos).mpr ?_
      simp only [minSigned]
      nlinarith
    · refine Int.lt_add_one_iff.mp ((Int.ediv_lt_iff_lt_mul modPos).mpr ?_)
      simp only [maxSigned]
      nlinarith
  refine ⟨?_,range⟩
  rcases Int.lt_or_gt_of_ne nonzero with negative | positive
  · rw [if_pos negative] at value
    rw [if_neg (by omega)]
    by_cases large : half w < m'
    · have read : m = modulus w - m' := by
        rw [value]
        exact wrapUnique hw (k := 1) ⟨by simp only [minSigned]; omega,by simp only [maxSigned]; omega⟩ (by ring)
      rw [if_pos ⟨negative,by omega⟩]
      have same : x * m / modulus w - x = signed d x * m' / modulus w := by
        rw [signed,if_pos negative,read,show x * (modulus w - m') = -x * m' + x * modulus w by ring,
          Int.add_mul_ediv_right _ _ (by omega)]
        ring
      rw [same]
      exact wrapSelf hw range
    · have read : m = -m' := by
        rw [value]
        exact wrapSelf hw ⟨by simp only [minSigned]; omega,by simp only [maxSigned]; omega⟩
      rw [if_neg (by omega),signed,if_pos negative,read]
      congr 1
      ring
  · rw [if_neg (by omega)] at value
    by_cases large : half w < m'
    · have read : m = m' - modulus w := by
        rw [value]
        exact wrapUnique hw (k := -1) ⟨by simp only [minSigned]; omega,by simp only [maxSigned]; omega⟩ (by ring)
      rw [if_pos ⟨positive,by omega⟩]
      have same : x * m / modulus w + x = signed d x * m' / modulus w := by
        rw [signed,if_neg (by omega),read,show x * (m' - modulus w) = x * m' + -x * modulus w by ring,
          Int.add_mul_ediv_right _ _ (by omega)]
        ring
      rw [same]
      exact wrapSelf hw range
    · have read : m = m' := by
        rw [value]
        exact wrapSelf hw ⟨by simp only [minSigned]; omega,by simp only [maxSigned]; omega⟩
      rw [if_neg (by omega),if_neg (by omega),signed,if_neg (by omega),read]

theorem shiftedProduct (x : Int) (m' w s : Nat) : x * m' / modulus w / 2 ^ s = x * m' / 2 ^ (w + s) := by
  rw [modulus,Int.ediv_ediv_of_nonneg (by positivity),← pow_add]

theorem truncated (d x : Int) : x.tdiv d = if signed d x < 0 then -((x.natAbs / d.natAbs : Nat) : Int)
    else ((x.natAbs / d.natAbs : Nat) : Int) := by
  unfold signed
  by_cases negative : d < 0
  · have divisor : d = -(d.natAbs : Int) := by omega
    rw [if_pos negative]
    by_cases positive : 0 < x
    · rw [if_pos (by omega)]
      conv_lhs => rw [show x = (x.natAbs : Int) by omega,divisor,Int.tdiv_neg,← Int.ofNat_tdiv]
    · rw [if_neg (by omega)]
      conv_lhs => rw [show x = -(x.natAbs : Int) by omega,divisor,Int.neg_tdiv,Int.tdiv_neg,Int.neg_neg,← Int.ofNat_tdiv]
  · have divisor : d = (d.natAbs : Int) := by omega
    rw [if_neg negative]
    by_cases below : x < 0
    · rw [if_pos below]
      conv_lhs => rw [show x = -(x.natAbs : Int) by omega,divisor,Int.neg_tdiv,← Int.ofNat_tdiv]
    · rw [if_neg below]
      conv_lhs => rw [show x = (x.natAbs : Int) by omega,divisor,← Int.ofNat_tdiv]

/- The shifted product is the quotient, one less on the negative side. -/
theorem magicFloor (wide : 2 ≤ w) {d s x : Int} {m' e nc : Nat} (mult : Multiplier d.natAbs m' (w + s.toNat) e nc) (near : e ≤ d.natAbs)
    (reach : 2 ^ (w - 1) + (if d < 0 then 1 else 0) ≤ nc + d.natAbs) (inside : InRange w x) :
    signed d x * m' / 2 ^ (w + s.toNat) = x.tdiv d - (if signed d x < 0 then 1 else 0) := by
  have castHalf : ((2 ^ (w - 1) : Nat) : Int) = half w := by simp [half]
  have two := mult.two
  simp only [InRange,minSigned,maxSigned] at inside
  rw [truncated]
  by_cases negative : signed d x < 0
  · have magnitude : signed d x = -(x.natAbs : Int) := by
      unfold signed at *
      split at * <;> omega
    have within : x.natAbs < nc + d.natAbs ∨ (x.natAbs = nc + d.natAbs ∧ x.natAbs * e ≤ 2 ^ (w + s.toNat)) := by
      unfold signed at negative
      split at negative
      · rw [if_pos ‹_›] at reach
        omega
      · rw [if_neg ‹_›] at reach
        by_cases last : x.natAbs < nc + d.natAbs
        · exact .inl last
        · -- Only the smallest value reaches the end of the period.
          have atEnd : x.natAbs = 2 ^ (w - 1) ∧ nc + d.natAbs = 2 ^ (w - 1) := by omega
          have period : d.natAbs ∣ 2 ^ (w - 1) + 1 := by
            rw [← atEnd.2,show nc + d.natAbs + 1 = nc + 1 + d.natAbs by omega]
            exact Nat.dvd_add mult.period (Nat.dvd_refl _)
          refine .inr ⟨by omega,?_⟩
          rw [atEnd.1]
          exact excessAtPower (j := s.toNat + 1) (by omega) mult.product near period
    have rounded := ceilQuotient mult (by omega) within
    rw [if_pos negative,if_pos negative,magnitude,Int.neg_mul,← rounded]
    norm_cast
  · have magnitude : signed d x = (x.natAbs : Int) := by
      unfold signed at *
      split at * <;> omega
    have within : x.natAbs < nc + d.natAbs := by
      unfold signed at negative
      split at negative
      · rw [if_pos ‹_›] at reach
        omega
      · rw [if_neg ‹_›] at reach
        omega
    rw [if_neg negative,if_neg negative,magnitude,Int.sub_zero,← floorQuotient mult within]
    norm_cast

theorem tdivRange {d x : Int} (inside : InRange w x) (large : 2 ≤ d.natAbs) : InRange w (x.tdiv d) := by
  have pos := halfPos w
  have quotient : x.natAbs / d.natAbs ≤ x.natAbs / 2 := Nat.div_le_div_left large (by decide)
  rw [truncated]
  simp only [InRange,minSigned,maxSigned] at *
  generalize x.natAbs / d.natAbs = q at *
  split <;> omega

theorem evalMagicNode2 {t : DataType} {first : Tree} {divisor m : Int} (memory : Nat → Int) :
    (magicNode2 t first divisor m).eval memory =
      if divisor > 0 ∧ m < 0 then wrap t.bits (first.eval memory * m / modulus t.bits + first.eval memory)
      else if divisor < 0 ∧ m > 0 then wrap t.bits (first.eval memory * m / modulus t.bits - first.eval memory)
      else first.eval memory * m / modulus t.bits := by
  unfold magicNode2
  split
  · rfl
  · split
    · rfl
    · rfl

theorem evalMagicNode3 {t : DataType} (skip : Bool) {first : Tree} {divisor m s : Int} (memory : Nat → Int)
    (lower : 0 ≤ s) (upper : s < t.bits) :
    (magicNode3 t skip first divisor m s).eval memory = (magicNode2 t first divisor m).eval memory / 2 ^ s.toNat := by
  unfold magicNode3
  split
  · rename_i zero
    simp [zero.2]
  · simp only [Tree.eval,iconst,BinaryOp.eval,shiftBySmall lower upper]

/- The lowered tree computes the machine quotient. -/
theorem evalMagicTree {t : DataType} (skip : Bool) {first : Tree} {divisor : Int} (memory : Nat → Int)
    (magic : Magic t.bits divisor (computeMagicValues t divisor).1 (computeMagicValues t divisor).2)
    (typed : first.Typed t) :
    (magicTree t skip first divisor).eval memory = (first.eval memory).tdiv divisor := by
  have wide : 2 ≤ t.bits := by cases t <;> decide
  have inside := evalRange memory typed
  unfold magicTree
  generalize computeMagicValues t divisor = values at *
  obtain ⟨m,s⟩ := values
  obtain ⟨⟨lower,upper⟩,m',e,nc,mult,near,bound,ne,value,reach⟩ := magic
  have large := mult.two
  have nonzero : divisor ≠ 0 := by
    intro zero
    rw [zero] at large
    simp at large
  simp only at lower upper value mult
  obtain ⟨product,range⟩ := highProduct wide nonzero bound ne value inside
  have floor := magicFloor wide mult near reach inside
  have shift := floorRange range s.toNat
  rw [shiftedProduct,floor] at shift
  have node3 : (magicNode3 t skip first divisor m s).eval memory =
      (first.eval memory).tdiv divisor - (if signed divisor (first.eval memory) < 0 then 1 else 0) := by
    rw [evalMagicNode3 skip memory lower upper,evalMagicNode2,product,shiftedProduct,floor]
  have quotient := truncated divisor (first.eval memory)
  have node4 : (Tree.binary .ushr t (if divisor > 0 then first else magicNode3 t skip first divisor m s)
      (iconst (t.bits - 1))).eval memory = if signed divisor (first.eval memory) < 0 then 1 else 0 := by
    rcases Int.lt_or_gt_of_ne nonzero with negative | positive
    · rw [if_neg (by omega),Tree.eval,node3,iconst,Tree.eval,signBit wide shift]
      -- The rounded quotient is negative exactly when the exact one is.
      have below : (first.eval memory).tdiv divisor - (if signed divisor (first.eval memory) < 0 then 1 else 0) < 0 ↔
          signed divisor (first.eval memory) < 0 := by
        rw [quotient]
        generalize (first.eval memory).natAbs / divisor.natAbs = q
        split <;> omega
      simp only [below]
    · have same : signed divisor (first.eval memory) = first.eval memory := by
        rw [signed,if_neg (by omega)]
      rw [if_pos positive,Tree.eval,iconst,Tree.eval,signBit wide inside,same]
  change wrap t.bits ((magicNode3 t skip first divisor m s).eval memory + (Tree.binary .ushr t
    (if divisor > 0 then first else magicNode3 t skip first divisor m s) (iconst (t.bits - 1))).eval memory) = _
  rw [node3,node4,Int.sub_add_cancel]
  exact wrapSelf t.bitsPos (tdivRange inside large)

theorem magicLowered {t : DataType} (wide : t ≠ .Int16) (skip : Bool) {first : Tree} {divisor : Int} (memory : Nat → Int)
    (typed : first.Typed t) (inside : InRange t.bits divisor) (nonzero : divisor ≠ 0)
    (odd : PowerOfTwo.isPowerOf2 t.bits divisor = false) :
    (magicTree t skip first divisor).eval memory = (first.eval memory).tdiv divisor := by
  have noPower : ¬ ∃ k, divisor.natAbs = 2 ^ k := by
    intro power
    rw [(PowerOfTwo.isPowerOf2Iff t.bitsPos inside nonzero).mpr power] at odd
    cases odd
  refine evalMagicTree skip memory ?_ typed
  cases t with
  | Int16 => exact absurd rfl wide
  | Int32 => exact magic32 inside (computedMagic (by decide) inside nonzero noPower)
  | Int64 => exact magic64 (computedMagic (by decide) inside nonzero noPower)

end Sequence
end OmrCompiler.MagicValues
