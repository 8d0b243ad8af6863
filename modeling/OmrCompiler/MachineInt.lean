import Mathlib.Algebra.Ring.Nat
import Mathlib.Algebra.Ring.Int.Defs
import Mathlib.Data.Int.Order.Basic

/-! Two's complement integers as their signed values. A value of width `w` is
an `Int` between `minSigned w` and `maxSigned w`; `wrap` reduces an exact result
to that range. Widths are positive throughout. -/
namespace OmrCompiler.MachineInt

def half (w : Nat) : Int := 2 ^ (w - 1)

def minSigned (w : Nat) : Int := -half w

def maxSigned (w : Nat) : Int := half w - 1

def modulus (w : Nat) : Int := 2 ^ w

def InRange (w : Nat) (x : Int) : Prop := minSigned w ≤ x ∧ x ≤ maxSigned w

instance (w : Nat) (x : Int) : Decidable (InRange w x) := inferInstanceAs (Decidable (_ ∧ _))

def wrap (w : Nat) (x : Int) : Int := Int.bmod x (2 ^ w)

-- The same bits read as an unsigned number.
def toUnsigned (w : Nat) (x : Int) : Int := x % modulus w

theorem halfPos (w : Nat) : 0 < half w := Int.pow_pos (by decide)

theorem modulusHalf {w : Nat} (hw : 0 < w) : modulus w = 2 * half w := by
  obtain ⟨k,rfl⟩ : ∃ k, w = k + 1 := ⟨w - 1,by omega⟩
  simp only [modulus,half,Nat.add_sub_cancel,Int.pow_succ]
  omega

theorem wrapShift (w : Nat) (x : Int) : ∃ k, wrap w x = x + k * modulus w := by
  refine ⟨-Int.bdiv x (2 ^ w),?_⟩
  have h := Int.bmod_add_bdiv x (2 ^ w)
  have cast : ((2 ^ w : Nat) : Int) = modulus w := by simp [modulus]
  rw [cast] at h
  rw [wrap,Int.neg_mul,Int.mul_comm _ (modulus w)]
  omega

theorem wrapRange {w : Nat} (hw : 0 < w) (x : Int) : InRange w (wrap w x) := by
  have cast : ((2 ^ w : Nat) : Int) = modulus w := by simp [modulus]
  have pos : 0 < 2 ^ w := Nat.two_pow_pos w
  have low := Int.le_bmod (x := x) pos
  have high := Int.bmod_lt (x := x) pos
  rw [cast,modulusHalf hw] at low high
  simp only [InRange,minSigned,maxSigned,wrap]
  omega

theorem wrapUnique {w : Nat} (hw : 0 < w) {x y k : Int} (inside : InRange w y) (turns : y = x + k * modulus w) :
    wrap w x = y := by
  obtain ⟨m,hm⟩ := wrapShift w x
  have range := wrapRange hw x
  have mod := modulusHalf hw
  have pos := halfPos w
  simp only [InRange,minSigned,maxSigned] at range inside
  have apart : wrap w x - y = (m - k) * modulus w := by rw [hm,turns,Int.sub_mul]; omega
  rcases Int.lt_trichotomy (m - k) 0 with less | same | more
  · have := Int.mul_le_mul_of_nonneg_right (show m - k ≤ -1 by omega) (show 0 ≤ modulus w by omega)
    omega
  · rw [same] at apart
    omega
  · have := Int.mul_le_mul_of_nonneg_right (show 1 ≤ m - k by omega) (show 0 ≤ modulus w by omega)
    omega

theorem wrapSelf {w : Nat} (hw : 0 < w) {x : Int} (inside : InRange w x) : wrap w x = x :=
  wrapUnique hw (k := 0) inside (by omega)

theorem wrapAdd (w : Nat) (x y : Int) : wrap w (wrap w x + y) = wrap w (x + y) := Int.bmod_add_bmod

theorem wrapAbove {w : Nat} (hw : 0 < w) {x : Int} (inside : InRange w (x - modulus w)) :
    wrap w x = x - modulus w := wrapUnique hw (k := -1) inside (by omega)

theorem wrapBelow {w : Nat} (hw : 0 < w) {x : Int} (inside : InRange w (x + modulus w)) :
    wrap w x = x + modulus w := wrapUnique hw (k := 1) inside (by omega)

theorem wrapTurn {w : Nat} (hw : 0 < w) {x : Int} (low : minSigned w - modulus w ≤ x)
    (high : x ≤ maxSigned w + modulus w) :
    (InRange w x ∧ wrap w x = x) ∨ (x < minSigned w ∧ wrap w x = x + modulus w) ∨
      (maxSigned w < x ∧ wrap w x = x - modulus w) := by
  have mod := modulusHalf hw
  simp only [minSigned,maxSigned] at low high
  by_cases below : x < minSigned w
  · refine .inr (.inl ⟨below,wrapBelow hw ?_⟩)
    simp only [InRange,minSigned,maxSigned] at below ⊢
    omega
  · by_cases above : maxSigned w < x
    · refine .inr (.inr ⟨above,wrapAbove hw ?_⟩)
      simp only [InRange,minSigned,maxSigned] at above ⊢
      omega
    · have inside : InRange w x := ⟨by omega,by omega⟩
      exact .inl ⟨inside,wrapSelf hw inside⟩

-- The unsigned reading.
theorem toUnsignedRange {w : Nat} (hw : 0 < w) (x : Int) : 0 ≤ toUnsigned w x ∧ toUnsigned w x < modulus w := by
  have mod := modulusHalf hw
  have pos := halfPos w
  exact ⟨Int.emod_nonneg x (by omega),Int.emod_lt_of_pos x (by omega)⟩

theorem unsignedBelow {w : Nat} {v : Int} (lower : 0 ≤ v) (upper : v < modulus w) : toUnsigned w v = v :=
  Int.emod_eq_of_lt lower upper

theorem unsignedNonneg {w : Nat} (hw : 0 < w) {v : Int} (inside : InRange w v) (nonneg : 0 ≤ v) : toUnsigned w v = v := by
  have mod := modulusHalf hw
  simp only [InRange,maxSigned] at inside
  exact unsignedBelow nonneg (by omega)

theorem toUnsignedNegative {w : Nat} (hw : 0 < w) {v : Int} (inside : InRange w v) (negative : v < 0) : toUnsigned w v = v + modulus w := by
  have mod := modulusHalf hw
  simp only [InRange,minSigned] at inside
  rw [toUnsigned,← Int.add_emod_right]
  exact Int.emod_eq_of_lt (by omega) (by omega)

theorem unsignedOfSigned {w : Nat} (hw : 0 < w) {v : Int} (inside : InRange w v) :
    toUnsigned w v = if v < 0 then v + modulus w else v := by
  split
  · rename_i negative
    exact toUnsignedNegative hw inside negative
  · rename_i nonneg
    exact unsignedNonneg hw inside (by omega)

-- The sign test (a ^ b) < 0 of C code reads the sign bits only.
def xorNegative (w : Nat) (a b : Int) : Bool := (BitVec.ofInt w a ^^^ BitVec.ofInt w b).msb

theorem msbOfInt {w : Nat} (hw : 0 < w) {x : Int} (inside : InRange w x) :
    (BitVec.ofInt w x).msb = decide (x < 0) := by
  rw [BitVec.msb_eq_toInt,BitVec.toInt_ofInt]
  exact congrArg (fun y : Int => decide (y < 0)) (wrapSelf hw inside)

theorem xorNegativeSigns {w : Nat} (hw : 0 < w) {a b : Int} (left : InRange w a) (right : InRange w b) :
    xorNegative w a b = (decide (a < 0) ^^ decide (b < 0)) := by
  rw [xorNegative,BitVec.msb_xor,msbOfInt hw left,msbOfInt hw right]

def addOverflows (w : Nat) (a b : Int) : Prop := ¬ InRange w (a + b)

def subOverflows (w : Nat) (a b : Int) : Prop := ¬ InRange w (a - b)

instance (w : Nat) (a b : Int) : Decidable (addOverflows w a b) := inferInstanceAs (Decidable (¬ _))
instance (w : Nat) (a b : Int) : Decidable (subOverflows w a b) := inferInstanceAs (Decidable (¬ _))

section Widths
variable {n m : Nat} {x : Int}

theorem powMono {i j : Nat} (grows : i ≤ j) : (2 : Int) ^ i ≤ 2 ^ j := by
  exact_mod_cast Nat.pow_le_pow_right (by decide : 0 < 2) grows

theorem rangeWider (pos : 0 < n) (wider : n ≤ m) (inside : InRange n x) : InRange m x := by
  have grows : half n ≤ half m := powMono (by omega)
  simp only [InRange,minSigned,maxSigned] at inside ⊢
  omega

theorem unsignedWider (pos : 0 < n) (wider : n < m) (x : Int) : InRange m (toUnsigned n x) := by
  have grows : modulus n ≤ half m := powMono (by omega)
  have range := toUnsignedRange pos x
  have half := halfPos m
  simp only [InRange,minSigned,maxSigned]
  omega

theorem wrapUnsigned (narrower : n ≤ m) (x : Int) : wrap n (toUnsigned m x) = wrap n x := by
  obtain ⟨k,rfl⟩ : ∃ k, m = n + k := ⟨m - n,by omega⟩
  have turns : toUnsigned (n + k) x = x + (2 ^ n : Nat) * (-(2 ^ k * (x / 2 ^ (n + k)))) := by
    have split := Int.emod_add_mul_ediv x (2 ^ (n + k))
    rw [Int.pow_add,Int.mul_assoc] at split
    rw [toUnsigned,modulus,Int.mul_neg,Int.pow_add]
    push_cast
    omega
  rw [turns]
  exact Int.add_mul_bmod_self_left _ _ _

end Widths

-- The signed reading of the bits from the unsigned one.
theorem wrapRemainder {w : Nat} (hw : 0 < w) (x : Int) :
    wrap w x = if toUnsigned w x < half w then toUnsigned w x else toUnsigned w x - modulus w := by
  have range := toUnsignedRange hw x
  have whole := modulusHalf hw
  have pos := halfPos w
  rw [← wrapUnsigned (Nat.le_refl w)]
  split
  · refine wrapSelf hw ?_
    simp only [InRange,minSigned,maxSigned]
    omega
  · refine wrapAbove hw ?_
    simp only [InRange,minSigned,maxSigned]
    omega

-- A property that holds along a table holds at each of its places.
theorem tableEntry {α : Type} {p : α → Nat → Prop} {table : List α} (all : ∀ e ∈ table.zipIdx, p e.1 e.2) {k : Nat}
    (below : k < table.length) (d : α) : p (table.getD k d) k := by
  rw [List.getD_eq_getElem?_getD,List.getElem?_eq_getElem below,Option.getD_some]
  exact all (table[k],k) (List.mk_mem_zipIdx_iff_getElem?.mpr (List.getElem?_eq_getElem below))

end OmrCompiler.MachineInt
