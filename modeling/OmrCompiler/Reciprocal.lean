import Mathlib.Tactic.Linarith
import Mathlib.Tactic.Ring

/-! Division by a constant through a multiplication: m is a little more than
2^p / d, and the excess does not show below a bound. -/
namespace OmrCompiler.Reciprocal

/- m * d exceeds 2^p by e; nc is a number one below a multiple of d, and the excess
of nc * m over nc * 2^p / d is below one step. -/
structure Multiplier (d m p e nc : Nat) : Prop where
  two : 2 ≤ d
  product : m * d = 2 ^ p + e
  excess : 0 < e
  period : d ∣ nc + 1
  small : nc * e < 2 ^ p

section
variable {d m p e nc k : Nat}

theorem periodPos (h : Multiplier d m p e nc) : d ≤ nc + 1 := Nat.le_of_dvd (Nat.succ_pos nc) h.period

-- Beyond nc the remainders start again at zero.
theorem remainderBeyond (h : Multiplier d m p e nc) (above : nc < k) (below : k ≤ nc + d) : k % d = k - (nc + 1) := by
  obtain ⟨c,hc⟩ := h.period
  have split : k = k - (nc + 1) + d * c := by omega
  have reduced : (k - (nc + 1) + d * c) % d = (k - (nc + 1)) % d := Nat.add_mul_mod_self_left _ _ _
  rw [← split,Nat.mod_eq_of_lt (by omega : k - (nc + 1) < d)] at reduced
  exact reduced

theorem slack (h : Multiplier d m p e nc) (below : k < nc + d) : k * e < 2 ^ p * (d - k % d) := by
  have two := h.two
  have room : k % d < d := Nat.mod_lt k (by omega)
  by_cases inside : k ≤ nc
  · calc k * e ≤ nc * e := Nat.mul_le_mul_right e inside
      _ < 2 ^ p := h.small
      _ ≤ 2 ^ p * (d - k % d) := Nat.le_mul_of_pos_right _ (by omega)
  · have beyond := remainderBeyond h (Nat.lt_of_not_le inside) (by omega)
    have long := periodPos h
    calc k * e ≤ (2 * nc) * e := Nat.mul_le_mul_right e (by omega)
      _ = 2 * (nc * e) := by ring
      _ < 2 * 2 ^ p := by have := h.small; omega
      _ = 2 ^ p * 2 := by ring
      _ ≤ 2 ^ p * (d - k % d) := Nat.mul_le_mul_left _ (by omega)

theorem scaled (h : Multiplier d m p e nc) (k : Nat) : k * m * d = 2 ^ p * k + k * e := by
  calc k * m * d = k * (m * d) := by ring
    _ = k * (2 ^ p + e) := by rw [h.product]
    _ = 2 ^ p * k + k * e := by ring

theorem aboveQuotient (h : Multiplier d m p e nc) (pos : 0 < k) : 2 ^ p * (k / d) < k * m := by
  have two := h.two
  have more : 0 < k * e := Nat.mul_pos pos h.excess
  have whole := scaled h k
  refine Nat.lt_of_mul_lt_mul_right (a := d) ?_
  calc 2 ^ p * (k / d) * d = 2 ^ p * (k / d * d) := by ring
    _ ≤ 2 ^ p * k := Nat.mul_le_mul_left _ (Nat.div_mul_le_self k d)
    _ < k * m * d := by omega

-- The next multiple of 2^p, at distance d - k % d in the scale of k.
theorem nextStep (pos : 0 < d) (k : Nat) : 2 ^ p * (k / d + 1) * d = 2 ^ p * k + 2 ^ p * (d - k % d) := by
  have parts := Nat.div_add_mod k d
  have room : k % d < d := Nat.mod_lt k pos
  have sum : (k / d + 1) * d = k + (d - k % d) := by
    rw [Nat.add_mul,Nat.mul_comm (k / d) d]
    omega
  calc 2 ^ p * (k / d + 1) * d = 2 ^ p * ((k / d + 1) * d) := by ring
    _ = 2 ^ p * (k + (d - k % d)) := by rw [sum]
    _ = 2 ^ p * k + 2 ^ p * (d - k % d) := by ring

theorem belowNext (h : Multiplier d m p e nc) (below : k < nc + d) : k * m < 2 ^ p * (k / d + 1) := by
  have two := h.two
  refine Nat.lt_of_mul_lt_mul_right (a := d) ?_
  rw [scaled h k,nextStep (by omega) k]
  have := slack h below
  omega

theorem floorQuotient (h : Multiplier d m p e nc) (below : k < nc + d) : k * m / 2 ^ p = k / d := by
  refine Nat.div_eq_of_lt_le ?_ ?_
  · by_cases zero : k = 0
    · simp [zero]
    · have := aboveQuotient h (Nat.pos_of_ne_zero zero)
      rw [Nat.mul_comm]
      omega
  · rw [Nat.mul_comm _ (2 ^ p)]
    exact belowNext h below

/- Rounding down on the negative side is one step further. At the far end
nc + d it still is when the excess there is at most one step. -/
theorem ceilQuotient (h : Multiplier d m p e nc) (pos : 0 < k) (reach : k < nc + d ∨ (k = nc + d ∧ k * e ≤ 2 ^ p)) :
    -((k * m : Nat) : Int) / 2 ^ p = -((k / d : Nat) : Int) - 1 := by
  have two := h.two
  have low := aboveQuotient h pos
  have high : k * m ≤ 2 ^ p * (k / d + 1) := by
    rcases reach with below | ⟨atEnd,near⟩
    · exact Nat.le_of_lt (belowNext h below)
    · have last := remainderBeyond h (k := k) (by omega) (by omega)
      refine Nat.le_of_mul_le_mul_right (c := d) ?_ (by omega)
      rw [scaled h k,nextStep (by omega) k,show d - k % d = 1 by omega]
      omega
  have scalePos : (0 : Int) < 2 ^ p := by positivity
  have lowCast : (2 : Int) ^ p * ((k / d : Nat) : Int) < ((k * m : Nat) : Int) := by exact_mod_cast low
  have highCast : ((k * m : Nat) : Int) ≤ 2 ^ p * (((k / d : Nat) : Int) + 1) := by exact_mod_cast high
  refine Int.le_antisymm ?_ ?_
  · refine Int.lt_add_one_iff.mp ((Int.ediv_lt_iff_lt_mul scalePos).mpr ?_)
    rw [show -((k / d : Nat) : Int) - 1 + 1 = -((k / d : Nat) : Int) by ring,Int.neg_mul,Int.mul_comm]
    omega
  · refine (Int.le_ediv_iff_mul_le scalePos).mpr ?_
    rw [show -((k / d : Nat) : Int) - 1 = -(((k / d : Nat) : Int) + 1) by ring,Int.neg_mul,Int.mul_comm]
    omega

end

/- Where the period reaches exactly one past a power of two, the excess at that
power is at most a step. -/
theorem excessAtPower {d m p e i j : Nat} (split : p = i + j) (product : m * d = 2 ^ p + e) (small : e ≤ d)
    (period : d ∣ 2 ^ i + 1) : 2 ^ i * e ≤ 2 ^ p := by
  have pow : 2 ^ p = 2 ^ i * 2 ^ j := by rw [split,pow_add]
  rw [pow]
  refine Nat.mul_le_mul_left _ ?_
  by_cases wide : d ≤ 2 ^ j
  · omega
  · have jPos : 0 < 2 ^ j := Nat.two_pow_pos j
    -- Modulo d the power 2^p is -2^j.
    have shifted : d ∣ 2 ^ p + 2 ^ j := by
      rw [pow,show 2 ^ i * 2 ^ j + 2 ^ j = (2 ^ i + 1) * 2 ^ j by ring]
      exact Dvd.dvd.mul_right period _
    have whole : d ∣ 2 ^ p + e := ⟨m,by rw [← product,Nat.mul_comm]⟩
    rcases Nat.lt_or_ge (2 ^ j) e with less | more
    · have gap : d ∣ e - 2 ^ j := by
        have := Nat.dvd_sub whole shifted
        rwa [show 2 ^ p + e - (2 ^ p + 2 ^ j) = e - 2 ^ j by omega] at this
      have := Nat.le_of_dvd (by omega) gap
      omega
    · exact more

end OmrCompiler.Reciprocal
