import OmrCompiler.MagicValues

/-! That the magic numbers divide: the multiply sequence with the signed magic numbers of any
divisor but 0, 1 and -1, and computeUnsigned64BitMagicValues of OMRCodeGenerator.cpp with its
65-bit multiplier. -/
namespace OmrCompiler.MagicDivisors
open MachineInt Reciprocal MagicValues

-- A loop that steps before it tests.
inductive Ends {σ : Type} (step : σ → σ) (goesOn : σ → Bool) : σ → σ → Prop where
  | stop {s : σ} (done : goesOn (step s) = false) : Ends step goesOn s (step s)
  | again {s last : σ} (more : goesOn (step s) = true) (rest : Ends step goesOn (step s) last) : Ends step goesOn s last

-- The fuel of the loop is enough when the last test says stop.
theorem magicLoopEnds {w anc ad : Nat} : ∀ fuel s, goesOn ad (magicLoop w anc ad fuel s) = false →
    Ends (magicStep w anc ad) (goesOn ad) s (magicLoop w anc ad fuel s) := by
  intro fuel
  induction fuel with
  | zero => exact fun s done => .stop done
  | succ fuel ih =>
      intro s done
      simp only [magicLoop] at done ⊢
      split
      · rename_i more
        rw [if_pos more] at done
        exact .again more (ih _ done)
      · rename_i more
        exact .stop (by simpa using more)

/- The sequence: the high word of the product, one dividend more or less, a shift, and one more
where the result is negative. -/
def quotientBy (w : Nat) (d m s n : Int) : Int :=
  let q := m * n / modulus w
  let q := if d > 0 ∧ m < 0 then wrap w (q + n) else if d < 0 ∧ m > 0 then wrap w (q - n) else q
  let q := q / 2 ^ s.toNat
  wrap w (if q < 0 then q + 1 else q)

structure Divides (w : Nat) (d : Int) (values : Int × Int) : Prop where
  shift : 0 ≤ values.2 ∧ values.2 < w
  quotient : ∀ n, InRange w n → quotientBy w d values.1 values.2 n = n.tdiv d

section Signed
variable {w : Nat} {d : Int}

theorem magicDivides (wide : 2 ≤ w) {m s : Int} (magic : Magic w d m s) : Divides w d (m,s) := by
  obtain ⟨⟨lower,upper⟩,m',e,nc,mult,near,bound,ne,value,reach⟩ := magic
  refine ⟨⟨lower,upper⟩,fun n inside => ?_⟩
  have large := mult.two
  have nonzero : d ≠ 0 := by
    intro zero
    rw [zero] at large
    simp at large
  obtain ⟨product,range⟩ := highProduct wide nonzero bound ne value inside
  have floor := magicFloor wide mult near reach inside
  have exact' := truncated d n
  unfold quotientBy
  simp only [Int.mul_comm m n,product,shiftedProduct,floor]
  have whole : (if n.tdiv d - (if signed d n < 0 then 1 else 0) < 0 then n.tdiv d - (if signed d n < 0 then 1 else 0) + 1
      else n.tdiv d - (if signed d n < 0 then 1 else 0)) = n.tdiv d := by
    rw [exact']
    generalize n.natAbs / d.natAbs = q
    split <;> split <;> omega
  rw [whole]
  exact wrapSelf (by omega) (tdivRange inside large)

theorem powerStep {k i : Nat} (wide : 3 ≤ w) (small : k < w) (below : i < k) :
    ∃ q1 r1, magicStep w (2 ^ (w - 1) - 1) (2 ^ k) ⟨w - 1 + i,2 ^ i,2 ^ i,2 ^ (w - 1 - k + i),0⟩ =
      ⟨w - 1 + (i + 1),q1,r1,2 ^ (w - 1 - k + (i + 1)),0⟩ ∧
      ((i + 1 < w - 1 ∧ q1 = 2 ^ (i + 1) ∧ r1 = 2 ^ (i + 1)) ∨ (i + 1 = w - 1 ∧ q1 = 2 ^ (w - 1) + 1)) := by
  have pow := powSplit (show 0 < w by omega)
  have room : 4 ≤ 2 ^ (w - 1) := by
    calc 4 = 2 ^ 2 := rfl
      _ ≤ 2 ^ (w - 1) := Nat.pow_le_pow_right (by decide) (by omega)
  have first : 2 * 2 ^ i % 2 ^ w = 2 ^ (i + 1) := by
    rw [← Nat.pow_succ']
    exact Nat.mod_eq_of_lt (Nat.pow_lt_pow_right (by decide) (by omega))
  have second : 2 * 2 ^ (w - 1 - k + i) % 2 ^ w = 2 ^ (w - 1 - k + (i + 1)) := by
    rw [← Nat.pow_succ']
    exact Nat.mod_eq_of_lt (Nat.pow_lt_pow_right (by decide) (by omega))
  have divisor : ¬ 0 ≥ 2 ^ k := Nat.not_le.mpr (Nat.two_pow_pos k)
  simp only [magicStep,double,first,second,Nat.mul_zero,Nat.zero_mod,if_neg divisor]
  by_cases last : i + 1 = w - 1
  · rw [if_pos (by rw [last]; omega),last,Nat.mod_eq_of_lt (show 2 ^ (w - 1) + 1 < 2 ^ w by omega)]
    exact ⟨_,_,by rw [← last]; rfl,.inr ⟨rfl,rfl⟩⟩
  · have grows : 2 * 2 ^ (i + 1) ≤ 2 ^ (w - 1) := by
      rw [← Nat.pow_succ']
      exact Nat.pow_le_pow_right (by decide) (by omega)
    rw [if_neg (by omega)]
    exact ⟨_,_,rfl,.inl ⟨by omega,rfl,rfl⟩⟩

-- With a power of two all four numbers are powers of two until the loop stops.
theorem powerLoop {k : Nat} (wide : 3 ≤ w) (small : k < w) : ∀ fuel i, i < k → k ≤ i + fuel →
    goesOn (2 ^ k) (magicLoop w (2 ^ (w - 1) - 1) (2 ^ k) fuel ⟨w - 1 + i,2 ^ i,2 ^ i,2 ^ (w - 1 - k + i),0⟩) = false ∧
    (magicLoop w (2 ^ (w - 1) - 1) (2 ^ k) fuel ⟨w - 1 + i,2 ^ i,2 ^ i,2 ^ (w - 1 - k + i),0⟩).p = w - 1 + k ∧
    (magicLoop w (2 ^ (w - 1) - 1) (2 ^ k) fuel ⟨w - 1 + i,2 ^ i,2 ^ i,2 ^ (w - 1 - k + i),0⟩).q2 = 2 ^ (w - 1) := by
  intro fuel
  induction fuel with
  | zero => intro i below enough; omega
  | succ fuel ih =>
      intro i below enough
      obtain ⟨q1,r1,stepped,which⟩ := powerStep wide small below
      simp only [magicLoop,stepped]
      by_cases last : i + 1 = k
      · have stop : goesOn (2 ^ k) ⟨w - 1 + (i + 1),q1,r1,2 ^ (w - 1 - k + (i + 1)),0⟩ = false := by
          rcases which with ⟨_,quotient,remainder⟩ | ⟨_,quotient⟩
          · simp [goesOn,quotient,remainder,last]
          · simp [goesOn,quotient,show k = w - 1 by omega]
        simp only [stop,Bool.false_eq_true,if_false]
        refine ⟨trivial,by omega,?_⟩
        congr 1
        omega
      · have more : goesOn (2 ^ k) ⟨w - 1 + (i + 1),q1,r1,2 ^ (w - 1 - k + (i + 1)),0⟩ = true := by
          rcases which with ⟨_,quotient,_⟩ | ⟨_,_⟩
          · have grows : 2 ^ (i + 1) < 2 ^ k := Nat.pow_lt_pow_right (by decide) (by omega)
            simp [goesOn,quotient,grows]
          · omega
        have next : q1 = 2 ^ (i + 1) ∧ r1 = 2 ^ (i + 1) := by
          rcases which with ⟨_,both⟩ | ⟨atEnd,_⟩
          · exact both
          · omega
        rw [if_pos more,next.1,next.2]
        exact ih (i + 1) (by omega) (by omega)

theorem powerAnc {k : Nat} (pos : 0 < k) (small : k < w) (power : d.natAbs = 2 ^ k) : ancOf w d = 2 ^ (w - 1) - 1 := by
  have top : 2 ^ (w - 1) = 2 ^ k * 2 ^ (w - 1 - k) := by
    rw [← Nat.pow_add]
    congr 1
    omega
  have two : 1 < 2 ^ k := Nat.one_lt_two_pow (by omega)
  have rest : (2 ^ (w - 1) + if d < 0 then 1 else 0) % 2 ^ k = if d < 0 then 1 else 0 := by
    rw [top,Nat.mul_add_mod]
    split
    · exact Nat.mod_eq_of_lt two
    · exact Nat.zero_mod _
  simp only [ancOf,power,rest]
  omega

theorem powerStart {k : Nat} (wide : 3 ≤ w) (pos : 0 < k) (small : k < w) (power : d.natAbs = 2 ^ k) :
    magicStart w d = ⟨w - 1 + 0,2 ^ 0,2 ^ 0,2 ^ (w - 1 - k + 0),0⟩ := by
  have room : 4 ≤ 2 ^ (w - 1) := by
    calc 4 = 2 ^ 2 := rfl
      _ ≤ 2 ^ (w - 1) := Nat.pow_le_pow_right (by decide) (by omega)
  have one : 2 ^ (w - 1) / (2 ^ (w - 1) - 1) = 1 := Nat.div_eq_of_lt_le (by omega) (by omega)
  have quotient : 2 ^ (w - 1) / 2 ^ k = 2 ^ (w - 1 - k) := Nat.pow_div (by omega) (by decide)
  have rest : 2 ^ (w - 1) - 1 * (2 ^ (w - 1) - 1) = 1 := by omega
  have whole : 2 ^ (w - 1 - k) * 2 ^ k = 2 ^ (w - 1) := by
    rw [← Nat.pow_add]
    congr 1
    omega
  simp only [magicStart,powerAnc pos small power,power,one,quotient,whole,rest,Nat.sub_self,Nat.add_zero,Nat.pow_zero]

-- The multiplier of a power of two is one more than half the word.
theorem powerMagic {k : Nat} (wide : 3 ≤ w) (pos : 0 < k) (small : k < w) (power : d.natAbs = 2 ^ k) :
    goesOn d.natAbs (magicEnd w d) = false ∧ Magic w d (computeValues w d).1 (computeValues w d).2 := by
  obtain ⟨stop,last,quotient⟩ := powerLoop wide small (2 * w) 0 pos (by omega)
  have ended : magicEnd w d = magicLoop w (2 ^ (w - 1) - 1) (2 ^ k) (2 * w) ⟨w - 1 + 0,2 ^ 0,2 ^ 0,2 ^ (w - 1 - k + 0),0⟩ := by
    rw [magicEnd,powerStart wide pos small power,powerAnc pos small power,power]
  rw [← ended] at stop last quotient
  have pow := powSplit (show 0 < w by omega)
  have room : 4 ≤ 2 ^ (w - 1) := by
    calc 4 = 2 ^ 2 := rfl
      _ ≤ 2 ^ (w - 1) := Nat.pow_le_pow_right (by decide) (by omega)
  have two : 2 ≤ 2 ^ k := Nat.one_lt_two_pow (by omega)
  have shift : (computeValues w d).2 = (k : Int) - 1 := by
    simp only [computeValues,last]
    omega
  have total : w + ((k : Int) - 1).toNat = w - 1 + k := by omega
  refine ⟨by rw [power]; exact stop,⟨by rw [shift]; omega,2 ^ (w - 1) + 1,2 ^ k,2 ^ (w - 1) - 1,?_,by omega,by omega,by omega,?_,?_⟩⟩
  · rw [shift,total,power]
    refine ⟨two,by rw [Nat.add_mul,Nat.one_mul,← Nat.pow_add],by omega,?_,?_⟩
    · rw [Nat.sub_add_cancel (by omega)]
      exact Nat.pow_dvd_pow 2 (by omega)
    · rw [Nat.pow_add]
      exact Nat.mul_lt_mul_of_pos_right (by omega) (by omega)
  · simp only [computeValues,quotient]
    split
    · rw [wrap,wrap,Int.bmod_neg_bmod]
      congr 1
    · congr 1
  · rw [power]
    split <;> omega

theorem computedEnds (wide : 3 ≤ w) (inside : InRange w d) (nonzero : d ≠ 0) (odd : ¬ ∃ k, d.natAbs = 2 ^ k) :
    goesOn d.natAbs (magicEnd w d) = false := by
  have h := divisorOf wide inside nonzero odd
  exact (loopEnds h (2 * w) (magicStart w d) (by simp only [magicStart]; omega) (startReady h)).2.1

theorem everyMagic (wide : 3 ≤ w) (inside : InRange w d) (large : 2 ≤ d.natAbs) :
    goesOn d.natAbs (magicEnd w d) = false ∧ Magic w d (computeValues w d).1 (computeValues w d).2 := by
  by_cases power : ∃ k, d.natAbs = 2 ^ k
  · obtain ⟨k,power⟩ := power
    have atMost := (PowerOfTwo.magnitudeBound (by omega) inside).2
    have pos : k ≠ 0 := by
      rintro rfl
      omega
    have small : k ≤ w - 1 := by
      have bound : ((2 ^ k : Nat) : Int) ≤ ((2 ^ (w - 1) : Nat) : Int) := by
        rw [← power]
        simpa [half] using atMost
      exact (Nat.pow_le_pow_iff_right (a := 2) (by decide)).mp (by exact_mod_cast bound)
    exact powerMagic wide (by omega) (by omega) power
  · exact ⟨computedEnds wide inside (by omega) power,computedMagic wide inside (by omega) power⟩

-- More fuel than there are entries finds nothing more.
theorem searchEnough {table : List CachedValue} (extra : Nat) : ∀ (fuel : Nat) (first last : Int), last + 1 - first ≤ fuel →
    search table d (fuel + extra) first last = search table d fuel first last := by
  intro fuel
  induction fuel with
  | zero =>
      intro first last enough
      cases extra with
      | zero => rfl
      | succ extra =>
          simp only [search]
          rw [if_neg (by omega)]
  | succ fuel ih =>
      intro first last enough
      have more : fuel + 1 + extra = fuel + extra + 1 := by omega
      rw [more,search,search]
      dsimp only
      split
      · split
        · rfl
        · split
          · rfl
          · split
            · exact ih _ _ (by omega)
            · exact ih _ _ (by omega)
      · rfl

end Signed

-- Subtraction of 64-bit unsigned numbers.
def sub64 (a b : Nat) : Nat := (a + (2 ^ 64 - b)) % 2 ^ 64

structure UnsignedState where
  p : Nat
  a : Nat
  q1 : Nat
  r1 : Nat
  q2 : Nat
  r2 : Nat
  deriving DecidableEq, Repr

def unsignedNc (d : Nat) : Nat := sub64 (2 ^ 64 - 1) (sub64 0 d % d)

def unsignedStart (nc d : Nat) : UnsignedState :=
  let q1 := 0x8000000000000000 / nc
  let q2 := 0x7fffffffffffffff / d
  ⟨63,0,q1,0x8000000000000000 - q1 * nc,q2,0x7fffffffffffffff - q2 * d⟩

-- The quotient and the remainder of 2^p by nc.
def updateFirst (nc q1 r1 : Nat) : Nat × Nat :=
  if r1 ≥ sub64 nc r1 then ((2 * q1 + 1) % 2 ^ 64,sub64 (2 * r1) nc) else (2 * q1 % 2 ^ 64,2 * r1 % 2 ^ 64)

def unsignedStep (nc d : Nat) (s : UnsignedState) : UnsignedState :=
  let (q1,r1) := updateFirst nc s.q1 s.r1
  if (s.r2 + 1) % 2 ^ 64 ≥ sub64 d s.r2 then
    ⟨s.p + 1,if s.q2 ≥ 0x7fffffffffffffff then 1 else s.a,q1,r1,(2 * s.q2 + 1) % 2 ^ 64,sub64 (2 * s.r2 + 1) d⟩
  else ⟨s.p + 1,if s.q2 ≥ 0x8000000000000000 then 1 else s.a,q1,r1,2 * s.q2 % 2 ^ 64,(2 * s.r2 + 1) % 2 ^ 64⟩

def unsignedGoesOn (d : Nat) (s : UnsignedState) : Bool :=
  let delta := sub64 (d - 1) s.r2
  s.p < 128 && (s.q1 < delta || (s.q1 = delta && s.r1 = 0))

def unsignedLoop (nc d : Nat) : Nat → UnsignedState → UnsignedState
  | 0,s => unsignedStep nc d s
  | fuel + 1,s =>
      let s := unsignedStep nc d s
      if unsignedGoesOn d s then unsignedLoop nc d fuel s else s

def unsignedEnd (d : Nat) : UnsignedState := unsignedLoop (unsignedNc d) d 64 (unsignedStart (unsignedNc d) d)

structure UnsignedValues where
  m : Nat
  s : Int
  a : Nat
  deriving DecidableEq, Repr

def computeUnsigned64BitMagicValues (d : Nat) : UnsignedValues :=
  let s := unsignedEnd d
  ⟨(s.q2 + 1) % 2 ^ 64,s.p - 64,s.a⟩

section Unsigned
variable {nc d : Nat} {s : UnsignedState}

structure UnsignedDivisor (nc d : Nat) : Prop where
  three : 3 ≤ d
  below : d < 2 ^ 64
  ncLow : 2 ^ 63 ≤ nc
  ncBelow : nc < 2 ^ 64
  period : d ∣ nc + 1
  reach : 2 ^ 64 ≤ nc + d
  odd : ∀ p, 2 ^ p % d ≠ 0

-- The numbers of the loop, short of what does not fit into 64 bits; a says whether the
-- multiplier does not fit.
structure UnsignedTracks (nc d : Nat) (s : UnsignedState) : Prop where
  first : s.q1 = 2 ^ s.p / nc % 2 ^ 64
  firstRest : s.r1 = 2 ^ s.p % nc
  second : s.q2 = (2 ^ s.p - 1) / d % 2 ^ 64
  secondRest : s.r2 = (2 ^ s.p - 1) % d
  carry : s.a = if 2 ^ 64 ≤ (2 ^ s.p - 1) / d + 1 then 1 else 0

structure UnsignedReady (nc d : Nat) (s : UnsignedState) : Prop where
  tracks : UnsignedTracks nc d s
  early : s.p < 128
  fits : (2 ^ s.p - 1) / d + 1 < 2 ^ 64

theorem subExact {a b : Nat} (less : b ≤ a) (fits : a - b < 2 ^ 64) (small : b ≤ 2 ^ 64) : sub64 a b = a - b := by
  unfold sub64
  omega

-- A doubled number has a doubled quotient, one more when the remainder comes round.
theorem doubledParts (pos : 0 < d) (n one : Nat) (bit : one ≤ 1) :
    ((2 * n + one) / d = if d ≤ 2 * (n % d) + one then 2 * (n / d) + 1 else 2 * (n / d)) ∧
      (2 * n + one) % d = if d ≤ 2 * (n % d) + one then 2 * (n % d) + one - d else 2 * (n % d) + one := by
  have parts := Nat.div_add_mod n d
  have rest : n % d < d := Nat.mod_lt n pos
  have whole : 2 * n + one = d * (2 * (n / d)) + (2 * (n % d) + one) := by
    calc 2 * n + one = 2 * (d * (n / d) + n % d) + one := by rw [parts]
      _ = d * (2 * (n / d)) + (2 * (n % d) + one) := by ring
  split
  · have next : d * (2 * (n / d) + 1) = d * (2 * (n / d)) + d := by ring
    exact (Nat.div_mod_unique pos).mpr ⟨by omega,by omega⟩
  · exact (Nat.div_mod_unique pos).mpr ⟨by omega,by omega⟩

theorem updateFirstExact (h : UnsignedDivisor nc d) (n : Nat) :
    updateFirst nc (n / nc % 2 ^ 64) (n % nc) = (2 * n / nc % 2 ^ 64,2 * n % nc) := by
  have low := h.ncLow
  have below := h.ncBelow
  have rest : n % nc < nc := Nat.mod_lt n (by omega)
  obtain ⟨quotient,remainder⟩ := doubledParts (d := nc) (by omega) n 0 (by omega)
  simp only [Nat.add_zero] at quotient remainder
  unfold updateFirst
  rw [quotient,remainder,subExact (by omega) (by omega) (by omega)]
  by_cases round : nc ≤ 2 * (n % nc)
  · rw [if_pos (by omega),if_pos round,if_pos round,subExact round (by omega) (by omega)]
    congr 1
    omega
  · rw [if_neg (by omega),if_neg round,if_neg round]
    congr 1
    · omega
    · omega

theorem unsignedStepTracks (h : UnsignedDivisor nc d) (ready : UnsignedReady nc d s) :
    UnsignedTracks nc d (unsignedStep nc d s) ∧ (unsignedStep nc d s).p = s.p + 1 ∧ (2 ^ (s.p + 1) - 1) / d + 1 < 2 ^ 65 := by
  obtain ⟨⟨first,firstRest,second,secondRest,carry⟩,early,fits⟩ := ready
  have three := h.three
  have below := h.below
  have pow : 2 ^ (s.p + 1) = 2 * 2 ^ s.p := Nat.pow_succ'
  have pos : 0 < 2 ^ s.p := Nat.two_pow_pos _
  have next : 2 ^ (s.p + 1) - 1 = 2 * (2 ^ s.p - 1) + 1 := by omega
  have rest : (2 ^ s.p - 1) % d < d := Nat.mod_lt _ (by omega)
  obtain ⟨quotient,remainder⟩ := doubledParts (d := d) (by omega) (2 ^ s.p - 1) 1 (by omega)
  have whole : s.q2 = (2 ^ s.p - 1) / d := by
    rw [second]
    exact Nat.mod_eq_of_lt (by omega)
  have clear : s.a = 0 := by
    rw [carry]
    exact if_neg (by omega)
  have wrapped : (s.r2 + 1) % 2 ^ 64 = s.r2 + 1 := Nat.mod_eq_of_lt (by omega)
  unfold unsignedStep
  rw [first,firstRest,updateFirstExact h,← pow,wrapped,subExact (by omega) (by omega) (by omega)]
  rw [← next,← secondRest,← whole] at quotient
  rw [← next,← secondRest] at remainder
  dsimp only
  by_cases round : d ≤ 2 * s.r2 + 1
  · rw [if_pos round] at quotient remainder
    rw [if_pos (by omega)]
    refine ⟨⟨rfl,rfl,?_,?_,?_⟩,rfl,by omega⟩
    · rw [quotient]
    · rw [remainder,subExact (by omega) (by omega) (by omega)]
    · dsimp only
      rw [quotient,clear]
      split <;> split <;> omega
  · rw [if_neg round] at quotient remainder
    rw [if_neg (by omega)]
    refine ⟨⟨rfl,rfl,?_,?_,?_⟩,rfl,by omega⟩
    · rw [quotient]
    · rw [remainder]
      exact Nat.mod_eq_of_lt (by omega)
    · dsimp only
      rw [quotient,clear]
      split <;> split <;> omega

theorem unsignedDelta (h : UnsignedDivisor nc d) (tracks : UnsignedTracks nc d s) :
    sub64 (d - 1) s.r2 = d - 1 - s.r2 ∧ s.r2 < d - 1 ∧ 2 ^ s.p = d * ((2 ^ s.p - 1) / d) + s.r2 + 1 := by
  have three := h.three
  have below := h.below
  have pos : 0 < 2 ^ s.p := Nat.two_pow_pos _
  have rest : (2 ^ s.p - 1) % d < d := Nat.mod_lt _ (by omega)
  have parts := Nat.div_add_mod (2 ^ s.p - 1) d
  rw [← tracks.secondRest] at rest parts
  have proper : s.r2 ≠ d - 1 := by
    -- A remainder d - 1 makes 2^p a multiple of d.
    intro last
    refine h.odd s.p ?_
    have whole : 2 ^ s.p = d * ((2 ^ s.p - 1) / d + 1) := by
      rw [Nat.mul_add,Nat.mul_one]
      omega
    rw [whole]
    exact Nat.mul_mod_right _ _
  exact ⟨subExact (by omega) (by omega) (by omega),by omega,by omega⟩

theorem unsignedReadyAgain (h : UnsignedDivisor nc d) (tracks : UnsignedTracks nc d s) (more : unsignedGoesOn d s = true) :
    UnsignedReady nc d s := by
  obtain ⟨delta,less,_⟩ := unsignedDelta h tracks
  have low := h.ncLow
  have below := h.ncBelow
  have pos : 0 < 2 ^ s.p := Nat.two_pow_pos _
  simp only [unsignedGoesOn,delta,Bool.and_eq_true,Bool.or_eq_true,decide_eq_true_eq] at more
  obtain ⟨early,more⟩ := more
  refine ⟨tracks,early,?_⟩
  by_cases fits : 2 ^ s.p / nc < 2 ^ 64
  · have whole : s.q1 = 2 ^ s.p / nc := by
      rw [tracks.first]
      exact Nat.mod_eq_of_lt fits
    have parts := Nat.div_add_mod (2 ^ s.p) nc
    have rest : 2 ^ s.p % nc < nc := Nat.mod_lt _ (by omega)
    rw [← whole,← tracks.firstRest] at parts
    rw [← tracks.firstRest] at rest
    have bound : 2 ^ s.p ≤ nc * (d - 1 - s.r2) := by
      rcases more with less | ⟨same,zero⟩
      · calc 2 ^ s.p ≤ nc * (s.q1 + 1) := by rw [Nat.mul_add,Nat.mul_one]; omega
          _ ≤ nc * (d - 1 - s.r2) := Nat.mul_le_mul_left _ less
      · rw [← same]
        omega
    have short : nc * (d - 1 - s.r2) ≤ nc * d := Nat.mul_le_mul_left _ (by omega)
    have quotient := (Nat.div_lt_iff_lt_mul (by omega : 0 < d)).mpr (show 2 ^ s.p - 1 < nc * d by omega)
    omega
  · -- The first quotient has wrapped: d is 2^63 + 1 and p is 127.
    have most : 2 ^ s.p ≤ 2 ^ 127 := Nat.pow_le_pow_right (by decide) (by omega)
    have least : 2 ^ 64 * nc ≤ 2 ^ s.p := (Nat.le_div_iff_mul_le (by omega)).mp (by omega)
    have reach := h.reach
    have notHalf : d ≠ 2 ^ 63 := by
      intro same
      refine h.odd 63 ?_
      rw [same]
      exact Nat.mod_self _
    have quotient := (Nat.div_lt_iff_lt_mul (by omega : 0 < d)).mpr (show 2 ^ s.p - 1 < (2 ^ 64 - 1) * d by omega)
    omega

theorem unsignedStopBound (h : UnsignedDivisor nc d) (tracks : UnsignedTracks nc d s) (last : s.p ≤ 128)
    (stop : unsignedGoesOn d s = false) : nc * (d - 1 - s.r2) < 2 ^ s.p := by
  obtain ⟨delta,less,_⟩ := unsignedDelta h tracks
  have low := h.ncLow
  have ncBelow := h.ncBelow
  have below := h.below
  simp only [unsignedGoesOn,delta,Bool.and_eq_false_iff,Bool.or_eq_false_iff,decide_eq_false_iff_not] at stop
  rcases stop with atEnd | ⟨notLess,notEqual⟩
  · have power : s.p = 128 := by omega
    rw [power]
    calc nc * (d - 1 - s.r2) ≤ nc * 2 ^ 64 := Nat.mul_le_mul_left _ (by omega)
      _ < 2 ^ 128 := by omega
  · have parts := Nat.div_add_mod (2 ^ s.p) nc
    have wrapped : s.q1 ≤ 2 ^ s.p / nc := by
      rw [tracks.first]
      exact Nat.mod_le _ _
    rw [← tracks.firstRest] at parts
    rcases Nat.lt_or_ge (d - 1 - s.r2) s.q1 with more | _
    · calc nc * (d - 1 - s.r2) < nc * (d - 1 - s.r2 + 1) := by rw [Nat.mul_add,Nat.mul_one]; omega
        _ ≤ nc * (2 ^ s.p / nc) := Nat.mul_le_mul_left _ (by omega)
        _ ≤ 2 ^ s.p := by omega
    · have same : s.q1 = d - 1 - s.r2 := by omega
      have rest : s.r1 ≠ 0 := by
        rcases notEqual with differ | some'
        · exact absurd same differ
        · exact some'
      calc nc * (d - 1 - s.r2) = nc * s.q1 := by rw [same]
        _ ≤ nc * (2 ^ s.p / nc) := Nat.mul_le_mul_left _ wrapped
        _ < 2 ^ s.p := by omega

theorem unsignedLoopEnds (h : UnsignedDivisor nc d) : ∀ fuel s, 127 ≤ s.p + fuel → UnsignedReady nc d s →
    UnsignedTracks nc d (unsignedLoop nc d fuel s) ∧ unsignedGoesOn d (unsignedLoop nc d fuel s) = false ∧
      s.p < (unsignedLoop nc d fuel s).p ∧ (unsignedLoop nc d fuel s).p ≤ 128 ∧
      (2 ^ (unsignedLoop nc d fuel s).p - 1) / d + 1 < 2 ^ 65 ∧
      Ends (unsignedStep nc d) (unsignedGoesOn d) s (unsignedLoop nc d fuel s) := by
  intro fuel
  induction fuel with
  | zero =>
      intro s enough ready
      obtain ⟨tracks,step,bound⟩ := unsignedStepTracks h ready
      have early := ready.early
      have stop : unsignedGoesOn d (unsignedStep nc d s) = false := by
        simp only [unsignedGoesOn,step,Bool.and_eq_false_iff,decide_eq_false_iff_not]
        exact .inl (by omega)
      exact ⟨tracks,stop,by simp only [unsignedLoop,step]; omega,by simp only [unsignedLoop,step]; omega,by simp only [unsignedLoop,step]; exact bound,.stop stop⟩
  | succ fuel ih =>
      intro s enough ready
      obtain ⟨tracks,step,bound⟩ := unsignedStepTracks h ready
      have early := ready.early
      simp only [unsignedLoop]
      split
      · rename_i more
        obtain ⟨after,stop,later,last,small,ends⟩ := ih _ (by omega) (unsignedReadyAgain h tracks more)
        exact ⟨after,stop,by omega,last,small,.again more ends⟩
      · rename_i more
        have stop : unsignedGoesOn d (unsignedStep nc d s) = false := by simpa using more
        exact ⟨tracks,stop,by omega,by omega,by rw [step]; exact bound,.stop stop⟩

theorem unsignedDivisorOf (two : 2 ≤ d) (below : d < 2 ^ 64) (odd : ¬ ∃ k, d = 2 ^ k) : UnsignedDivisor (unsignedNc d) d := by
  have rest : 2 ^ 64 % d < d := Nat.mod_lt _ (by omega)
  have same : sub64 0 d % d = 2 ^ 64 % d := by
    have minus : sub64 0 d = 2 ^ 64 - d := by
      unfold sub64
      omega
    rw [minus]
    conv_rhs => rw [show 2 ^ 64 = 2 ^ 64 - d + d by omega,Nat.add_mod_right]
  have value : unsignedNc d = 2 ^ 64 - 1 - 2 ^ 64 % d := by
    rw [unsignedNc,same]
    exact subExact (by omega) (by omega) (by omega)
  have notTwo : d ≠ 2 := fun h => odd ⟨1,h⟩
  have period : d ∣ 2 ^ 64 - 2 ^ 64 % d := Nat.dvd_sub_mod _
  refine ⟨by omega,below,?_,by omega,?_,by omega,noPowerDivides odd⟩
  · have folded : 2 ^ 64 % d ≤ 2 ^ 64 - d := by
      conv_lhs => rw [show 2 ^ 64 = 2 ^ 64 - d + d by omega,Nat.add_mod_right]
      exact Nat.mod_le _ _
    omega
  · rw [value,show 2 ^ 64 - 1 - 2 ^ 64 % d + 1 = 2 ^ 64 - 2 ^ 64 % d by omega]
    exact period

theorem unsignedStartReady (h : UnsignedDivisor nc d) : UnsignedReady nc d (unsignedStart nc d) := by
  have three := h.three
  have low := h.ncLow
  have first := Nat.div_add_mod 0x8000000000000000 nc
  have second := Nat.div_add_mod 0x7fffffffffffffff d
  have firstSmall := Nat.div_le_self 0x8000000000000000 nc
  have secondSmall := Nat.div_le_self 0x7fffffffffffffff d
  rw [Nat.mul_comm] at first second
  refine ⟨⟨?_,?_,?_,?_,?_⟩,(by decide : 63 < 128),?_⟩
  · change 0x8000000000000000 / nc = 0x8000000000000000 / nc % 2 ^ 64
    exact (Nat.mod_eq_of_lt (by omega)).symm
  · change 0x8000000000000000 - 0x8000000000000000 / nc * nc = 0x8000000000000000 % nc
    omega
  · change 0x7fffffffffffffff / d = 0x7fffffffffffffff / d % 2 ^ 64
    exact (Nat.mod_eq_of_lt (by omega)).symm
  · change 0x7fffffffffffffff - 0x7fffffffffffffff / d * d = 0x7fffffffffffffff % d
    omega
  · change 0 = if 2 ^ 64 ≤ 0x7fffffffffffffff / d + 1 then 1 else 0
    rw [if_neg (by omega)]
  · change 0x7fffffffffffffff / d + 1 < 2 ^ 64
    omega

end Unsigned

/- The multiplier has 65 bits, the top one apart. -/
structure UnsignedDivides (d : Nat) (values : UnsignedValues) : Prop where
  bits : values.m < 2 ^ 64 ∧ values.a ≤ 1
  shift : 0 ≤ values.s ∧ values.s ≤ 64
  quotient : ∀ n, n < 2 ^ 64 → n * (values.a * 2 ^ 64 + values.m) / 2 ^ (64 + values.s.toNat) = n / d

theorem unsignedDivides {d : Nat} (two : 2 ≤ d) (below : d < 2 ^ 64) (odd : ¬ ∃ k, d = 2 ^ k) :
    Ends (unsignedStep (unsignedNc d) d) (unsignedGoesOn d) (unsignedStart (unsignedNc d) d) (unsignedEnd d) ∧
      UnsignedDivides d (computeUnsigned64BitMagicValues d) := by
  have h := unsignedDivisorOf two below odd
  obtain ⟨tracks,stop,later,last,small,ends⟩ := unsignedLoopEnds h 64 _ (by decide : 127 ≤ 63 + 64) (unsignedStartReady h)
  change UnsignedTracks _ _ (unsignedEnd d) at tracks
  change unsignedGoesOn d (unsignedEnd d) = false at stop
  change 63 < (unsignedEnd d).p at later
  change (unsignedEnd d).p ≤ 128 at last
  change (2 ^ (unsignedEnd d).p - 1) / d + 1 < 2 ^ 65 at small
  have bound := unsignedStopBound h tracks last stop
  obtain ⟨_,less,whole⟩ := unsignedDelta h tracks
  have multiplier : (unsignedEnd d).a * 2 ^ 64 + ((unsignedEnd d).q2 + 1) % 2 ^ 64 = (2 ^ (unsignedEnd d).p - 1) / d + 1 := by
    rw [tracks.carry,tracks.second]
    generalize (2 ^ (unsignedEnd d).p - 1) / d = q at small ⊢
    split <;> omega
  have mult : Multiplier d ((2 ^ (unsignedEnd d).p - 1) / d + 1) (unsignedEnd d).p (d - 1 - (unsignedEnd d).r2) (unsignedNc d) := by
    refine ⟨two,?_,by omega,h.period,bound⟩
    rw [Nat.add_mul,Nat.one_mul,Nat.mul_comm]
    omega
  have power : 64 + (((unsignedEnd d).p : Int) - 64).toNat = (unsignedEnd d).p := by omega
  have carry : (unsignedEnd d).a ≤ 1 := by
    rw [tracks.carry]
    split <;> decide
  refine ⟨ends,⟨Nat.mod_lt _ (by decide),carry⟩,⟨by simp only [computeUnsigned64BitMagicValues]; omega,by simp only [computeUnsigned64BitMagicValues]; omega⟩,
    fun n fits => ?_⟩
  simp only [computeUnsigned64BitMagicValues,multiplier,power]
  have reach := h.reach
  exact floorQuotient mult (by omega)

-- What a computation of signed magic numbers does for d: its loop ends, and its numbers divide.
structure Computed (w : Nat) (d : Int) : Prop where
  ends : Ends (magicStep w (ancOf w d) d.natAbs) (goesOn d.natAbs) (magicStart w d) (magicEnd w d)
  divides : Divides w d (computeValues w d)

theorem computedDivides {w : Nat} (wide : 3 ≤ w) {d : Int} (inside : InRange w d) (large : 2 ≤ d.natAbs) : Computed w d := by
  obtain ⟨stop,magic⟩ := everyMagic wide inside large
  exact ⟨magicLoopEnds _ _ stop,magicDivides (by omega) magic⟩

/- Magic numbers divide, whether they are computed or cached, and the search and the loops that
find them end. -/
theorem magicDivisorsHold :
    (∀ d, InRange 32 d → 2 ≤ d.natAbs → Computed 32 d ∧ Divides 32 d (compute32BitMagicValues d) ∧
      ∀ extra, search div32BitMagicValues (toUnsigned 32 d) (11 + extra) 0 10 = lookup div32BitMagicValues (toUnsigned 32 d)) ∧
    (∀ d, InRange 64 d → 2 ≤ d.natAbs → Computed 64 d ∧ Divides 64 d (compute64BitMagicValues d) ∧
      ∀ extra, search div64BitMagicValues d (6 + extra) 0 5 = lookup div64BitMagicValues d) ∧
    (∀ d, 2 ≤ d → d < 2 ^ 64 → (¬ ∃ k, d = 2 ^ k) →
      Ends (unsignedStep (unsignedNc d) d) (unsignedGoesOn d) (unsignedStart (unsignedNc d) d) (unsignedEnd d) ∧
      UnsignedDivides d (computeUnsigned64BitMagicValues d)) :=
  ⟨fun d inside large => ⟨computedDivides (by decide) inside large,
      magicDivides (by decide) (magic32 inside (everyMagic (by decide) inside large).2),fun extra => searchEnough extra 11 0 10 (by decide)⟩,
    fun d inside large => ⟨computedDivides (by decide) inside large,
      magicDivides (by decide) (magic64 (everyMagic (by decide) inside large).2),fun extra => searchEnough extra 6 0 5 (by decide)⟩,
    fun d two below odd => unsignedDivides two below odd⟩

theorem magicDivisorsHoldSample :
    quotientBy 32 (-7) (compute32BitMagicValues (-7)).1 (compute32BitMagicValues (-7)).2 (-2147483648) = (-2147483648 : Int).tdiv (-7) ∧
    quotientBy 64 8 (compute64BitMagicValues 8).1 (compute64BitMagicValues 8).2 1000 = (1000 : Int).tdiv 8 ∧
    18446744073709551615 * ((computeUnsigned64BitMagicValues 7).a * 2 ^ 64 + (computeUnsigned64BitMagicValues 7).m) /
      2 ^ (64 + (computeUnsigned64BitMagicValues 7).s.toNat) = 18446744073709551615 / 7 :=
  ⟨(magicDivisorsHold.1 (-7) (by decide) (by decide)).2.1.quotient _ (by decide),
    (magicDivisorsHold.2.1 8 (by decide) (by decide)).2.1.quotient _ (by decide),
    (magicDivisorsHold.2.2 7 (by decide) (by decide) (by rintro ⟨_ | _ | _ | k,power⟩ <;> omega)).2.quotient _ (by decide)⟩

end OmrCompiler.MagicDivisors
