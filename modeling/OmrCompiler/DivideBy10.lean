import OmrCompiler.ShiftArithmetic

/-! The long division by ten as shifts and additions
(transformToLongDivBy10Bitwise of OMRSimplifierHandlers.cpp). -/
namespace OmrCompiler.DivideBy10
open MachineInt Constraint ILTree ShiftArithmetic

def lshr (a : Tree) (amount : Int) : Tree := .binary .shr .Int64 a (iconst amount)

def ladd (a b : Tree) : Tree := .binary .add .Int64 a b

-- q + (q >> amount)
def addShifted (q : Tree) (amount : Int) : Tree := ladd q (lshr q amount)

-- n = n + (n >> 63 & 9)
def n1Node (first : Tree) : Tree := ladd first (.binary .and .Int64 (lshr first 63) (lconst 9))

def q2Node (first : Tree) : Tree := ladd (lshr (n1Node first) 1) (lshr (n1Node first) 2)

def q12Node (first : Tree) : Tree :=
  lshr (addShifted (addShifted (addShifted (addShifted (q2Node first) 4) 8) 16) 32) 3

-- r = n - q * 10
def r1Node (first : Tree) : Tree :=
  .binary .sub .Int64 (n1Node first) (.binary .mul .Int64 (q12Node first) (lconst 10))

def ret3Node (first : Tree) : Tree := lshr (ladd (r1Node first) (lconst 6)) 4

def transformToLongDivBy10Bitwise (first : Tree) : Tree := ladd (q12Node first) (ret3Node first)

section
variable (memory : Nat → Int)

theorem evalLshr (a : Tree) (amount : Int) (k : Nat) (same : amount = k) (small : k < 64) :
    (lshr a amount).eval memory = a.eval memory / 2 ^ k := by
  subst same
  exact shrFloor (w := 64) small

theorem evalLadd {a b : Tree} (inside : InRange 64 (a.eval memory + b.eval memory)) :
    (ladd a b).eval memory = a.eval memory + b.eval memory := wrapSelf (by decide) inside

-- One more term of the series: q + (q >> k) is (1 + 2^-k) * q, rounded down.
theorem addShiftedBounds (q : Int) {c : Int} (pos : 0 < c) :
    c * (q + q / c) ≤ (c + 1) * q ∧ (c + 1) * q ≤ c * (q + q / c) + (c - 1) := by
  have parts := Int.emod_add_mul_ediv q c
  have lower := Int.emod_nonneg q (Int.ne_of_gt pos)
  have upper := Int.emod_lt_of_pos q pos
  constructor <;> nlinarith

theorem range64 {v : Int} : InRange 64 v ↔ -9223372036854775808 ≤ v ∧ v ≤ 9223372036854775807 := by
  simp [InRange,minSigned,maxSigned,half]

-- The stages of the series for a number n of 64 bits.
structure Stages (n q1 q2 q3 q4 q5 : Int) : Prop where
  range : -9223372036854775808 ≤ n ∧ n ≤ 9223372036854775807
  first : 4 * q1 ≤ 3 * n ∧ 3 * n ≤ 4 * q1 + 5
  second : 16 * q2 ≤ 17 * q1 ∧ 17 * q1 ≤ 16 * q2 + 15
  third : 256 * q3 ≤ 257 * q2 ∧ 257 * q2 ≤ 256 * q3 + 255
  fourth : 65536 * q4 ≤ 65537 * q3 ∧ 65537 * q3 ≤ 65536 * q4 + 65535
  fifth : 4294967296 * q5 ≤ 4294967297 * q4 ∧ 4294967297 * q4 ≤ 4294967296 * q5 + 4294967295

theorem stagesRange {n q1 q2 q3 q4 q5 : Int} (h : Stages n q1 q2 q3 q4 q5) :
    InRange 64 q1 ∧ InRange 64 q2 ∧ InRange 64 q3 ∧ InRange 64 q4 ∧ InRange 64 q5 := by
  obtain ⟨⟨low,high⟩,first,second,third,fourth,fifth⟩ := h
  simp only [range64]
  refine ⟨⟨by linarith,by linarith⟩,⟨by linarith,by linarith⟩,⟨by linarith,by linarith⟩,⟨by linarith,by linarith⟩,
    by linarith,by linarith⟩

/- The series 3/4 * 17/16 * 257/256 * ... comes to 4/5 up to the last bits, so the
estimate of a tenth leaves a remainder below twenty. -/
theorem tenth {n q1 q2 q3 q4 q5 : Int} (h : Stages n q1 q2 q3 q4 q5) :
    0 ≤ n - q5 / 8 * 10 ∧ n - q5 / 8 * 10 ≤ 19 := by
  obtain ⟨⟨low,high⟩,first,second,third,fourth,fifth⟩ := h
  have last : 8 * (q5 / 8) ≤ q5 ∧ q5 ≤ 8 * (q5 / 8) + 7 := by omega
  generalize q5 / 8 = g at *
  have above : n ≤ 18446744073709551616 * (n - g * 10) := by linarith
  have below : n - g * 10 ≤ 19 := by linarith
  exact ⟨by omega,below⟩

theorem evalN1 {first : Tree} (typed : first.Typed .Int64) :
    (n1Node first).eval memory = first.eval memory + (if first.eval memory < 0 then 9 else 0) := by
  have inside := range64.mp (evalRange memory typed)
  have mask : (Tree.binary .and .Int64 (lshr first 63) (lconst 9)).eval memory =
      if first.eval memory < 0 then 9 else 0 := by
    have sign : (lshr first 63).eval memory = first.eval memory / 2 ^ 63 := evalLshr memory first 63 63 rfl (by decide)
    change BinaryOp.and.eval 64 ((lshr first 63).eval memory) 9 = _
    rw [sign]
    split
    · have negative : first.eval memory / 2 ^ 63 = -1 := by omega
      rw [negative]
      decide
    · have nonneg : first.eval memory / 2 ^ 63 = 0 := by omega
      rw [nonneg]
      decide
  unfold n1Node
  rw [evalLadd,mask]
  rw [mask,range64]
  split <;> omega

theorem evalAddShifted {q : Tree} (amount : Int) (k : Nat) (same : amount = k) (small : k < 64) {v next : Int}
    (value : q.eval memory = v) (sum : v + v / 2 ^ k = next) (inside : InRange 64 next) :
    (addShifted q amount).eval memory = next := by
  have shifted := evalLshr memory q amount k same small
  unfold addShifted
  rw [evalLadd,shifted,value,sum]
  rw [shifted,value,sum]
  exact inside

-- The nodes of the quotient, with what each of them holds.
theorem evalStages {first : Tree} (typed : first.Typed .Int64) :
    ∃ q1 q2 q3 q4 q5, Stages ((n1Node first).eval memory) q1 q2 q3 q4 q5 ∧ (q12Node first).eval memory = q5 / 8 := by
  have inside := range64.mp (evalRange memory typed)
  have n1 := evalN1 memory typed
  have range : -9223372036854775808 ≤ (n1Node first).eval memory ∧ (n1Node first).eval memory ≤ 9223372036854775807 := by
    rw [n1]
    split <;> omega
  generalize hn : (n1Node first).eval memory = n at *
  have h1 : 4 * (n / 2 + n / 4) ≤ 3 * n ∧ 3 * n ≤ 4 * (n / 2 + n / 4) + 5 := by omega
  generalize hq1 : n / 2 + n / 4 = q1 at *
  have h2 := addShiftedBounds q1 (c := 16) (by decide)
  generalize hq2 : q1 + q1 / 16 = q2 at *
  have h3 := addShiftedBounds q2 (c := 256) (by decide)
  generalize hq3 : q2 + q2 / 256 = q3 at *
  have h4 := addShiftedBounds q3 (c := 65536) (by decide)
  generalize hq4 : q3 + q3 / 65536 = q4 at *
  have h5 := addShiftedBounds q4 (c := 4294967296) (by decide)
  generalize hq5 : q4 + q4 / 4294967296 = q5 at *
  have stages : Stages n q1 q2 q3 q4 q5 := ⟨range,h1,h2,h3,h4,h5⟩
  obtain ⟨r1,r2,r3,r4,r5⟩ := stagesRange stages
  have halves : (lshr (n1Node first) 1).eval memory + (lshr (n1Node first) 2).eval memory = q1 := by
    rw [evalLshr memory (n1Node first) 1 1 rfl (by decide),evalLshr memory (n1Node first) 2 2 rfl (by decide),hn]
    exact hq1
  have e1 : (q2Node first).eval memory = q1 := by
    rw [q2Node,evalLadd,halves]
    rw [halves]
    exact r1
  have e2 := evalAddShifted memory 4 4 rfl (by decide) e1 hq2 r2
  have e3 := evalAddShifted memory 8 8 rfl (by decide) e2 hq3 r3
  have e4 := evalAddShifted memory 16 16 rfl (by decide) e3 hq4 r4
  have e5 := evalAddShifted memory 32 32 rfl (by decide) e4 hq5 r5
  refine ⟨q1,q2,q3,q4,q5,stages,?_⟩
  rw [q12Node,evalLshr memory _ 3 3 rfl (by decide),e5]
  rfl

-- The remainder is taken modulo 2^64, which it does not notice.
theorem subProduct {n q : Int} (low : 0 ≤ n - q * 10) (high : n - q * 10 ≤ 19) :
    wrap 64 (n - wrap 64 (q * 10)) = n - q * 10 := by
  obtain ⟨k,turns⟩ := wrapShift 64 (q * 10)
  refine wrapUnique (by decide) (k := k) (range64.mpr ⟨by omega,by omega⟩) ?_
  rw [turns]
  ring

/- The bitwise tree computes the machine quotient by ten. -/
theorem evalDivideBy10 {first : Tree} (typed : first.Typed .Int64) :
    (transformToLongDivBy10Bitwise first).eval memory = (first.eval memory).tdiv 10 := by
  obtain ⟨q1,q2,q3,q4,q5,stages,quotient⟩ := evalStages memory typed
  obtain ⟨lower,upper⟩ := tenth stages
  have range := stages.range
  have n1 := evalN1 memory typed
  have inside := range64.mp (evalRange memory typed)
  have r1 : (r1Node first).eval memory = (n1Node first).eval memory - q5 / 8 * 10 := by
    change wrap 64 ((n1Node first).eval memory - wrap 64 ((q12Node first).eval memory * 10)) = _
    rw [quotient]
    exact subProduct lower upper
  have ret2 : (ladd (r1Node first) (lconst 6)).eval memory = (n1Node first).eval memory - q5 / 8 * 10 + 6 := by
    have six : (lconst 6).eval memory = 6 := rfl
    rw [evalLadd,r1,six]
    rw [r1,six,range64]
    omega
  have ret3 : (ret3Node first).eval memory = ((n1Node first).eval memory - q5 / 8 * 10 + 6) / 16 := by
    rw [ret3Node,evalLshr memory _ 4 4 rfl (by decide),ret2]
    rfl
  have sum : q5 / 8 + ((n1Node first).eval memory - q5 / 8 * 10 + 6) / 16 = (n1Node first).eval memory / 10 := by omega
  have whole : (transformToLongDivBy10Bitwise first).eval memory = (n1Node first).eval memory / 10 := by
    rw [transformToLongDivBy10Bitwise,evalLadd,quotient,ret3,sum]
    rw [quotient,ret3,sum,range64]
    omega
  rw [whole,n1]
  split
  · rename_i negative
    have down : (first.eval memory).tdiv 10 = -((-first.eval memory) / 10) := by
      rw [← Int.tdiv_eq_ediv_of_nonneg (by omega),Int.neg_tdiv,Int.neg_neg]
    rw [down]
    omega
  · rw [Int.add_zero,Int.tdiv_eq_ediv_of_nonneg (by omega)]

/- Whatever tree a number of 64 bits comes from, the bitwise tree over it holds the tenth,
truncated. -/
theorem tenthExact {n : Int} (inside : InRange 64 n) :
    (∀ (memory : Nat → Int) (first : Tree), first.Typed .Int64 → first.eval memory = n →
      (transformToLongDivBy10Bitwise first).eval memory = n.tdiv 10) ∧
    (transformToLongDivBy10Bitwise (.load .Int64 0)).eval (fun _ => n) = n.tdiv 10 := by
  refine ⟨fun memory first typed value => value ▸ evalDivideBy10 memory typed,?_⟩
  have loaded : (Tree.load .Int64 0).eval (fun _ => n) = n := wrapSelf (by decide) inside
  have exact' := @evalDivideBy10 (fun _ => n) (.load .Int64 0) rfl
  rwa [loaded] at exact'

theorem tenthExactExtremes :
    (transformToLongDivBy10Bitwise (.load .Int64 0)).eval (fun _ => -9223372036854775808) = -922337203685477580 ∧
    (transformToLongDivBy10Bitwise (.load .Int64 0)).eval (fun _ => 9223372036854775807) = 922337203685477580 :=
  ⟨(@tenthExact (-9223372036854775808) (by decide)).2,(@tenthExact 9223372036854775807 (by decide)).2⟩

end
end OmrCompiler.DivideBy10
