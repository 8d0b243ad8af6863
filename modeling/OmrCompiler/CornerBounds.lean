import Mathlib.Data.Int.Order.Basic

/-! Bounds of a two-argument function over a box from its four corners. A
function that is steady in each argument, rising or falling but not both, takes
its least and its greatest value on the box at corners. -/
namespace OmrCompiler.CornerBounds

def Rising (f : Int → Int) (low high : Int) : Prop := ∀ x y, low ≤ x → x ≤ y → y ≤ high → f x ≤ f y

def Steady (f : Int → Int) (low high : Int) : Prop :=
  Rising f low high ∨ Rising (fun x => -f x) low high

theorem Steady.least {f : Int → Int} {low high x m : Int} (steady : Steady f low high)
    (upon : low ≤ x) (under : x ≤ high) (first : m ≤ f low) (last : m ≤ f high) : m ≤ f x := by
  rcases steady with rises | falls
  · have := rises low x (Int.le_refl _) upon under
    omega
  · have := falls x high upon under (Int.le_refl _)
    dsimp only at this
    omega

theorem Steady.greatest {f : Int → Int} {low high x m : Int} (steady : Steady f low high)
    (upon : low ≤ x) (under : x ≤ high) (first : f low ≤ m) (last : f high ≤ m) : f x ≤ m := by
  rcases steady with rises | falls
  · have := rises x high upon under (Int.le_refl _)
    omega
  · have := falls low x (Int.le_refl _) upon under
    dsimp only at this
    omega

section
variable {f : Int → Int → Int} {a1 a2 b1 b2 a b m : Int} (left : Steady (fun x => f x b) a1 a2)
  (low : Steady (f a1) b1 b2) (high : Steady (f a2) b1 b2) (upon : a1 ≤ a) (under : a ≤ a2)
  (upon' : b1 ≤ b) (under' : b ≤ b2)
include left low high upon under upon' under'

theorem leastAtCorners (h1 : m ≤ f a1 b1) (h2 : m ≤ f a1 b2) (h3 : m ≤ f a2 b1) (h4 : m ≤ f a2 b2) :
    m ≤ f a b :=
  left.least upon under (low.least upon' under' h1 h2) (high.least upon' under' h3 h4)

theorem greatestAtCorners (h1 : f a1 b1 ≤ m) (h2 : f a1 b2 ≤ m) (h3 : f a2 b1 ≤ m) (h4 : f a2 b2 ≤ m) :
    f a b ≤ m :=
  left.greatest upon under (low.greatest upon' under' h1 h2) (high.greatest upon' under' h3 h4)

end

theorem steadyMulLeft (b low high : Int) : Steady (fun x => x * b) low high := by
  rcases Int.le_total 0 b with positive | negative
  · exact .inl fun x y _ less _ => Int.mul_le_mul_of_nonneg_right less positive
  · refine .inr fun x y _ less _ => ?_
    have := Int.mul_le_mul_of_nonpos_right less negative
    dsimp only
    omega

theorem steadyMulRight (a low high : Int) : Steady (fun x => a * x) low high := by
  simpa only [Int.mul_comm a] using steadyMulLeft a low high

theorem steadyDivLeft {b : Int} (nonzero : b ≠ 0) (low high : Int) :
    Steady (fun x => x.tdiv b) low high := by
  rcases Int.lt_or_gt_of_ne nonzero with negative | positive
  · refine .inr fun x y _ less _ => ?_
    have := Int.tdiv_le_tdiv (show 0 < -b by omega) less
    rw [Int.tdiv_neg,Int.tdiv_neg] at this
    exact this
  · exact .inl fun x y _ less _ => Int.tdiv_le_tdiv positive less

-- A larger positive divisor brings the quotient nearer to zero.
theorem tdivShrinks {a b c : Int} (nonneg : 0 ≤ a) (positive : 0 < b) (less : b ≤ c) : a.tdiv c ≤ a.tdiv b := by
  rw [Int.tdiv_eq_ediv_of_nonneg nonneg,Int.tdiv_eq_ediv_of_nonneg nonneg,Int.le_ediv_iff_mul_le positive]
  have quotient := Int.ediv_nonneg nonneg (show 0 ≤ c by omega)
  calc a / c * b ≤ a / c * c := Int.mul_le_mul_of_nonneg_left less quotient
    _ ≤ a := Int.ediv_mul_le a (by omega)

theorem fallingDivRight {a low high : Int} (nonneg : 0 ≤ a) (apart : 0 < low ∨ high < 0) :
    Rising (fun x => -a.tdiv x) low high := by
  intro x y upon less under
  rcases apart with positive | negative
  · have := tdivShrinks nonneg (show 0 < x by omega) less
    dsimp only
    omega
  · have := tdivShrinks nonneg (show 0 < -y by omega) (show -y ≤ -x by omega)
    rw [Int.tdiv_neg,Int.tdiv_neg] at this
    exact this

theorem steadyDivRight (a : Int) {low high : Int} (apart : 0 < low ∨ high < 0) :
    Steady (fun x => a.tdiv x) low high := by
  rcases Int.le_total 0 a with nonneg | nonpos
  · exact .inr (fallingDivRight nonneg apart)
  · refine .inl fun x y upon less under => ?_
    have := fallingDivRight (show 0 ≤ -a by omega) apart x y upon less under
    simpa only [Int.neg_tdiv,Int.neg_neg] using this

end OmrCompiler.CornerBounds
