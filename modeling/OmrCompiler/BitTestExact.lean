import OmrCompiler.BitTestWords

/-! The tests of bits that agree once their shift is removed, operator by operator. -/
namespace OmrCompiler.BitTestExact
open MachineInt CompareHandlers BitwiseBranch BitTest BitTestWords
open SimplifierTrees (BinaryOp shiftBy)
open MaskArithmetic (word wordReads wordBelow)
open PowerOfTwo (ofIntWrap toIntWrap)

def originalTruth (op : BinaryOp) (compare : CompareOp) (s n m x : Int) : Bool :=
  compare.eval (wrap compare.operand.bits (op.eval compare.operand.bits (wrap compare.operand.bits (x * 2 ^ shiftBy compare.operand.bits s)) n)) m

def rewrittenTruth (op : BinaryOp) (compare : CompareOp) (s n m x : Int) : Bool :=
  compare.eval (wrap compare.operand.bits (op.eval compare.operand.bits x (wrap compare.operand.bits (toUnsigned compare.operand.bits n / 2 ^ s.toNat))))
    (wrap compare.operand.bits (toUnsigned compare.operand.bits m / 2 ^ s.toNat))

section Truths
variable {op : BinaryOp} {compare : CompareOp} {s bits cmp : Int} {d k n m : Nat}

-- The words that the operator makes of the low bits.
def made (op : BinaryOp) (k n : Nat) (z : Int) : Prop := ∃ y < 2 ^ k, z = wordOp op y n

theorem truthSame (bitwise : isBitwise op = true) (scaled : Scaled compare.operand.bits s bits cmp d k n m) (x : Int) :
    rewrittenTruth op compare s bits cmp x = originalTruth op compare s bits cmp x ↔
      Same compare.operand.isUnsigned compare.relation (2 ^ k) (2 ^ d) m (wordOp op (word compare.operand.bits x % 2 ^ k) n)
        (if op = .and then 0 else (word compare.operand.bits x / 2 ^ k : Nat)) := by
  have pos : 0 < compare.operand.bits := by
    have := scaled.split
    have := scaled.moves
    omega
  have scale : (0 : Int) < 2 ^ d := Int.pow_pos (by decide)
  have whole : (2 : Int) ^ compare.operand.bits = 2 ^ d * 2 ^ k := by
    rw [← Int.pow_add,← scaled.split,Nat.add_comm]
  have left : word compare.operand.bits (wrap compare.operand.bits (op.eval compare.operand.bits
      (wrap compare.operand.bits (x * 2 ^ shiftBy compare.operand.bits s)) bits)) = 2 ^ d * wordOp op (word compare.operand.bits x % 2 ^ k) n := by
    rw [wordOpWord bitwise,scaled.original,scaled.words.1,wordOpScaled bitwise]
  have right : word compare.operand.bits (wrap compare.operand.bits (op.eval compare.operand.bits x
      (wrap compare.operand.bits (toUnsigned compare.operand.bits bits / 2 ^ s.toNat)))) =
      wordOp op (word compare.operand.bits x % 2 ^ k) n + 2 ^ k * if op = .and then 0 else word compare.operand.bits x / 2 ^ k := by
    rw [wordOpWord bitwise,scaled.news.1,wordOpAbove bitwise _ scaled.short.1]
  rw [rewrittenTruth,originalTruth,CompareOp.eval,CompareOp.eval,readWordReads pos,readWordReads pos,readWordReads pos,readWordReads pos,left,right,
    scaled.words.2,scaled.news.2,whole]
  push_cast
  rw [scaledRead scale,scaledRead scale,scaledHolds scale,Same]
  exact eq_comm

-- Every word with its high bits comes from an operand.
theorem truthsAgree (bitwise : isBitwise op = true) (other : op ≠ .and) (scaled : Scaled compare.operand.bits s bits cmp d k n m) :
    (∀ x, rewrittenTruth op compare s bits cmp x = originalTruth op compare s bits cmp x) ↔
      Agree (made op k n) compare.operand.isUnsigned compare.relation (2 ^ k) (2 ^ d) m := by
  simp only [truthSame bitwise scaled,if_neg other]
  refine ⟨fun every z made h low high => ?_,fun agree x => ?_⟩
  · obtain ⟨y,short,rfl⟩ := made
    obtain ⟨a,rfl⟩ := Int.eq_ofNat_of_zero_le low
    have above : a < 2 ^ d := by exact_mod_cast high
    have total : y + 2 ^ k * a < 2 ^ compare.operand.bits := by
      have step := Nat.mul_le_mul_left (2 ^ k) (show a + 1 ≤ 2 ^ d by omega)
      rw [← scaled.split,Nat.pow_add]
      rw [Nat.mul_add,Nat.mul_one] at step
      omega
    have on := every ((y + 2 ^ k * a : Nat) : Int)
    rwa [wordNat _ total,Nat.add_mul_mod_self_left,Nat.mod_eq_of_lt short,Nat.add_mul_div_left _ _ (Nat.two_pow_pos k),Nat.div_eq_of_lt short,
      Nat.zero_add] at on
  · have whole : 2 ^ compare.operand.bits = 2 ^ k * 2 ^ d := by rw [← Nat.pow_add,scaled.split]
    have above := Nat.div_lt_of_lt_mul (whole ▸ wordBelow compare.operand.bits x)
    exact agree _ ⟨_,Nat.mod_lt _ (Nat.two_pow_pos k),rfl⟩ _ (Int.natCast_nonneg _) (by exact_mod_cast above)

theorem truthsAgreeBelow (scaled : Scaled compare.operand.bits s bits cmp d k n m) :
    (∀ x, rewrittenTruth .and compare s bits cmp x = originalTruth .and compare s bits cmp x) ↔
      AgreeBelow (made .and k n) compare.operand.isUnsigned compare.relation (2 ^ k) (2 ^ d) m := by
  simp only [truthSame (show isBitwise .and = true from rfl) scaled,↓reduceIte]
  refine ⟨fun every z made => ?_,fun agree x => agree _ ⟨_,Nat.mod_lt _ (Nat.two_pow_pos k),rfl⟩⟩
  obtain ⟨y,short,rfl⟩ := made
  have less : y < 2 ^ compare.operand.bits := by
    rw [← scaled.split,Nat.pow_add]
    exact Nat.lt_of_lt_of_le short (Nat.le_mul_of_pos_right _ (Nat.two_pow_pos d))
  have on := every (y : Int)
  rwa [wordNat y less,Nat.mod_eq_of_lt short] at on

end Truths

section Table
variable {op : BinaryOp} {compare : CompareOp} {s bits cmp : Int} {d k n m w : Nat}

theorem madeOr (short : n < 2 ^ k) : Reached (made .or k n) (2 ^ k) n := by
  refine ⟨⟨0,Nat.two_pow_pos k,by simp [wordOp]⟩,⟨2 ^ k - 1,Nat.pred_lt (Nat.two_pow_pos k).ne',?_⟩,?_,Int.natCast_nonneg n⟩
  · have full : (2 ^ k - 1 ||| n) = 2 ^ k - 1 := by
      refine Nat.eq_of_testBit_eq fun i => ?_
      rw [Nat.testBit_or,Nat.testBit_two_pow_sub_one]
      by_cases below : i < k
      · simp [below]
      · rw [Nat.testBit_lt_two_pow (Nat.lt_of_lt_of_le short (Nat.pow_le_pow_right (by decide) (by omega)))]
        simp
    have := Nat.two_pow_pos k
    rw [wordOp,full]
    push_cast [Nat.cast_sub (show 1 ≤ 2 ^ k by omega)]
    rfl
  · rintro z ⟨y,below,rfl⟩
    have lower : n ≤ wordOp .or y n := Nat.right_le_or
    have upper := @wordOpBelow k .or rfl y n below short
    have cast : ((2 ^ k : Nat) : Int) = 2 ^ k := by push_cast; rfl
    omega

theorem madeXor (short : n < 2 ^ k) {z : Nat} (below : z < 2 ^ k) : made .xor k n z :=
  ⟨z ^^^ n,Nat.xor_lt_two_pow below short,by rw [wordOp,Nat.xor_assoc,Nat.xor_self,Nat.xor_zero]⟩

theorem reachedXor (short : n < 2 ^ k) : Reached (made .xor k n) (2 ^ k) 0 := by
  have pos := Nat.two_pow_pos k
  have cast : ((2 ^ k - 1 : Nat) : Int) = 2 ^ k - 1 := by
    push_cast [Nat.cast_sub (show 1 ≤ 2 ^ k by omega)]
    rfl
  refine ⟨madeXor short pos,cast ▸ madeXor short (by omega),?_,Int.le_refl 0⟩
  rintro z ⟨y,below,rfl⟩
  have upper := @wordOpBelow k .xor rfl y n below short
  omega

theorem madeAnd (short : n < 2 ^ k) : Below (made .and k n) (2 ^ k) n := by
  refine ⟨⟨0,Nat.two_pow_pos k,by simp [wordOp]⟩,fun large => ?_,?_,by exact_mod_cast short⟩
  · have double : 2 ^ k ≤ 2 * n := by exact_mod_cast large
    cases k with
    | zero => omega
    | succ k =>
        rw [Nat.pow_succ] at double short
        have bit : (2 ^ k &&& n) = 2 ^ k := by
          refine Nat.eq_of_testBit_eq fun i => ?_
          have top : n.testBit k = true := by
            have quotient : n / 2 ^ k = 1 := Nat.div_eq_of_lt_le (by omega) (by omega)
            rw [Nat.testBit_eq_decide_div_mod_eq,quotient]
            rfl
          rw [Nat.testBit_and,Nat.testBit_two_pow]
          by_cases here : k = i
          · simp [← here,top]
          · simp [here]
        refine ⟨2 ^ k,⟨2 ^ k,Nat.pow_lt_pow_right (by decide) (by omega),?_⟩,by rw [Int.pow_succ,Int.mul_comm]⟩
        rw [wordOp,bit]
        push_cast
        rfl
  · rintro z ⟨y,below,rfl⟩
    have upper : wordOp .and y n ≤ n := Nat.and_le_right
    omega

-- An or with n makes m when m has the bits of n.
theorem madeOrIff (short : m < 2 ^ k) : made .or k n m ↔ (n ||| m) = m := by
  refine ⟨fun made => ?_,fun same => ⟨m,short,?_⟩⟩
  · obtain ⟨y,_,same⟩ := made
    have same : m = (y ||| n) := by exact_mod_cast same
    rw [same,Nat.or_comm,Nat.or_assoc,Nat.or_self]
  · rw [wordOp,Nat.or_comm,same]

theorem bitsOutside (a b : BitVec w) : a &&& ~~~b ≠ 0 ↔ (a.toNat ||| b.toNat) ≠ b.toNat := by
  rw [not_iff_not,← BitVec.toNat_or,BitVec.toNat_inj]
  constructor
  · intro none
    ext i inside
    have bit := congrArg (fun v => v.getLsbD i) none
    simp [inside] at bit ⊢
    grind
  · intro same
    rw [← same]
    ext i inside
    simp
    grind

theorem orTable (scaled : Scaled compare.operand.bits s bits cmp d k n m) : BitVec.ofInt compare.operand.bits bits &&& ~~~BitVec.ofInt compare.operand.bits cmp ≠ 0 ↔
    ¬ made .or k n m := by
  have parts := wordOpScaled (show isBitwise .or = true from rfl) d n m
  have pos := Nat.two_pow_pos d
  rw [wordOp,wordOp] at parts
  rw [bitsOutside,madeOrIff scaled.short.2,← word,← word,scaled.words.1,scaled.words.2,parts]
  simp only [ne_eq,Nat.mul_right_inj pos.ne']

-- The sign of a constant is the top bit of its word.
theorem scaledSign {v : Int} (pos : 0 < w) (inside : InRange w v) (split : k + d = w) (scaled : word w v = 2 ^ d * n) : 0 ≤ v ↔ 2 * (n : Int) < 2 ^ k := by
  have reads := wordReads w v
  have mod := modulusHalf pos
  have whole : modulus w = 2 ^ d * 2 ^ k := by rw [modulus,← Int.pow_add,← split,Nat.add_comm]
  have scale : (0 : Int) < 2 ^ d := Int.pow_pos (by decide)
  have step := Int.mul_lt_mul_left (b := 2 * (n : Int)) (c := 2 ^ k) scale
  rw [← step,← whole,Int.mul_left_comm]
  rw [scaled,unsignedOfSigned pos inside] at reads
  push_cast at reads
  simp only [InRange,minSigned,maxSigned] at inside
  split at reads <;> omega

theorem scaledZero {v : Int} (pos : 0 < w) (inside : InRange w v) (scaled : word w v = 2 ^ d * n) : v = 0 ↔ n = 0 := by
  have reads := wordReads w v
  have mod := modulusHalf pos
  have scale := Nat.two_pow_pos d
  rw [unsignedOfSigned pos inside] at reads
  simp only [InRange,minSigned,maxSigned] at inside
  refine ⟨fun zero => ?_,fun zero => ?_⟩
  · have none : word w v = 0 := by split at reads <;> omega
    exact (Nat.mul_eq_zero.mp (scaled.symm.trans none)).resolve_left scale.ne'
  · rw [scaled,zero,Nat.mul_zero] at reads
    split at reads <;> omega

-- The amounts of a test, as words and as signed constants.
structure Tested (compare : CompareOp) (s bits cmp : Int) (e k n m : Nat) : Prop where
  pos : 0 < compare.operand.bits
  scaled : Scaled compare.operand.bits s bits cmp (e + 1) k n m
  insideBits : InRange compare.operand.bits bits
  insideCmp : InRange compare.operand.bits cmp
  most : (s.toNat = 1 ∧ cmp = -2 ∧ bits < 0) ↔ (2 : Int) ^ e = 1 ∧ (m : Int) = 2 ^ k - 1 ∧ (2 : Int) ^ k ≤ 2 * n
  long : (2 : Int) ^ e = 1 → (2 : Int) ≤ 2 ^ k

variable {e : Nat} (t : Tested compare s bits cmp e k n m)

theorem halfPow (e : Nat) : (1 : Int) ≤ 2 ^ e := Int.pow_pos (by decide)

theorem doublePow (e : Nat) : (2 : Int) ^ (e + 1) = 2 * 2 ^ e := by rw [Int.pow_succ,Int.mul_comm]

include t

theorem Tested.inside : (0 : Int) ≤ m ∧ (m : Int) < 2 ^ k := ⟨Int.natCast_nonneg m,by exact_mod_cast t.scaled.short.2⟩

theorem Tested.unsignedOrder : (toUnsigned compare.operand.bits cmp ≤ toUnsigned compare.operand.bits bits ↔ (m : Int) ≤ n) ∧
    (toUnsigned compare.operand.bits cmp < toUnsigned compare.operand.bits bits ↔ (m : Int) < n) := by
  have scale : (0 : Int) < 2 ^ (e + 1) := Int.pow_pos (by decide)
  rw [← wordReads,← wordReads,t.scaled.words.1,t.scaled.words.2]
  push_cast
  exact ⟨Int.mul_le_mul_left scale,Int.mul_lt_mul_left scale⟩

theorem tableAnd : agreesShifted .and compare s.toNat bits cmp = true ↔
    ∀ x, rewrittenTruth .and compare s bits cmp x = originalTruth .and compare s bits cmp x := by
  have below := madeAnd t.scaled.short.1
  rw [truthsAgreeBelow t.scaled,doublePow]
  have equal := @belowEqual _ _ _ _ _ compare.operand.isUnsigned below (halfPow e) t.inside
  have orders : ∀ r, r = Relation.lt ∨ r = .le → (compare.operand.isUnsigned = true ∨ 0 ≤ bits ∧ 0 ≤ cmp ↔
      AgreeBelow (made .and k n) compare.operand.isUnsigned r (2 ^ k) (2 * 2 ^ e) m) := by
    intro r ordered
    cases compare.operand.isUnsigned with
    | true => simp [belowUnsigned]
    | false =>
        rw [belowSigned below (halfPow e) t.inside ordered,scaledSign t.pos t.insideBits t.scaled.split t.scaled.words.1,
          scaledSign t.pos t.insideCmp t.scaled.split t.scaled.words.2]
        simp
  cases same : compare.relation with
  | eq => simp [agreesShifted,same,equal]
  | ne => simpa [agreesShifted,same,reverse] using (belowReverse .eq).mpr equal
  | lt => simpa [agreesShifted,same] using orders .lt (.inl rfl)
  | ge => simpa [agreesShifted,same,reverse] using (orders .lt (.inl rfl)).trans (belowReverse .lt).symm
  | gt => simpa [agreesShifted,same,reverse] using (orders .le (.inr rfl)).trans (belowReverse .le).symm
  | le => simpa [agreesShifted,same] using orders .le (.inr rfl)

theorem tableOr : agreesShifted .or compare s.toNat bits cmp = true ↔
    ∀ x, rewrittenTruth .or compare s bits cmp x = originalTruth .or compare s bits cmp x := by
  have reached := madeOr t.scaled.short.1
  rw [truthsAgree rfl (by decide) t.scaled,doublePow]
  have equal := @agreeEqual _ _ _ compare.operand.isUnsigned _ _ reached (halfPow e) t.inside
  rw [← orTable t.scaled] at equal
  have less : compare.operand.isUnsigned = true ∧ toUnsigned compare.operand.bits cmp ≤ toUnsigned compare.operand.bits bits ↔
      Agree (made .or k n) compare.operand.isUnsigned .lt (2 ^ k) (2 * 2 ^ e) m := by
    cases compare.operand.isUnsigned with
    | true => simp [agreeLess reached (halfPow e) t.inside,t.unsignedOrder.1]
    | false => simp [agreeSignedLess reached (halfPow e) t.inside]
  have most : (if compare.operand.isUnsigned then toUnsigned compare.operand.bits cmp < toUnsigned compare.operand.bits bits
      else s.toNat = 1 ∧ cmp = -2 ∧ bits < 0) ↔ Agree (made .or k n) compare.operand.isUnsigned .le (2 ^ k) (2 * 2 ^ e) m := by
    cases compare.operand.isUnsigned with
    | true => simp [agreeLessOrEqual reached (halfPow e) t.inside,t.unsignedOrder.2]
    | false => rw [agreeSignedLessOrEqual reached (halfPow e) t.inside t.long,if_neg (by decide),t.most]
  cases same : compare.relation with
  | eq => simp [agreesShifted,same,equal]
  | ne => simpa [agreesShifted,same,reverse] using ((agreeReverse .eq).trans equal).symm
  | lt => simpa [agreesShifted,same] using less
  | ge => simpa [agreesShifted,same,reverse] using less.trans (agreeReverse .lt).symm
  | gt => simpa [agreesShifted,same,reverse] using most.trans (agreeReverse .le).symm
  | le => simpa [agreesShifted,same] using most

theorem tableXor : agreesShifted .xor compare s.toNat bits cmp = true ↔
    ∀ x, rewrittenTruth .xor compare s bits cmp x = originalTruth .xor compare s bits cmp x := by
  have reached := reachedXor t.scaled.short.1
  rw [truthsAgree rfl (by decide) t.scaled,doublePow]
  have on : made .xor k n m := madeXor t.scaled.short.1 t.scaled.short.2
  have equal : ¬ Agree (made .xor k n) compare.operand.isUnsigned .eq (2 ^ k) (2 * 2 ^ e) m := by
    rw [agreeEqual reached (halfPow e) t.inside]
    exact fun off => off on
  have less : compare.operand.isUnsigned = true ∧ cmp = 0 ↔ Agree (made .xor k n) compare.operand.isUnsigned .lt (2 ^ k) (2 * 2 ^ e) m := by
    have zero := scaledZero t.pos t.insideCmp t.scaled.words.2
    cases compare.operand.isUnsigned with
    | true =>
        rw [agreeLess reached (halfPow e) t.inside,zero]
        simp only [true_and]
        omega
    | false => simp [agreeSignedLess reached (halfPow e) t.inside]
  have most : ¬ Agree (made .xor k n) compare.operand.isUnsigned .le (2 ^ k) (2 * 2 ^ e) m := by
    cases compare.operand.isUnsigned with
    | true =>
        rw [agreeLessOrEqual reached (halfPow e) t.inside]
        omega
    | false =>
        have wide := Int.pow_pos (n := 2) (m := k) (by decide)
        rw [agreeSignedLessOrEqual reached (halfPow e) t.inside t.long]
        omega
  cases same : compare.relation with
  | eq => simpa [agreesShifted,same] using equal
  | ne => simpa [agreesShifted,same,reverse] using mt (agreeReverse .eq).mp equal
  | lt => simpa [agreesShifted,same] using less
  | ge => simpa [agreesShifted,same,reverse] using less.trans (agreeReverse .lt).symm
  | gt => simpa [agreesShifted,same,reverse] using mt (agreeReverse .le).mp most
  | le => simpa [agreesShifted,same] using most

theorem tableExact (bitwise : isBitwise op = true) : agreesShifted op compare s.toNat bits cmp = true ↔
    ∀ x, rewrittenTruth op compare s bits cmp x = originalTruth op compare s bits cmp x := by
  rcases bitwiseCases bitwise with rfl | rfl | rfl
  · exact tableAnd t
  · exact tableOr t
  · exact tableXor t

end Table

section Exact
variable {op : BinaryOp} {compare : CompareOp} {s bits cmp : Int}

theorem testedOf (short : compare.operand.bits = 8 ∨ compare.operand.bits = 16) (insideBits : InRange compare.operand.bits bits)
    (insideCmp : InRange compare.operand.bits cmp) (lower : 0 ≤ s) (below : s < 64) (moves : s % 32 ≠ 0)
    (keepsBits : bits / 2 ^ s.toNat * 2 ^ s.toNat = bits) (keepsCmp : cmp / 2 ^ s.toNat * 2 ^ s.toNat = cmp) :
    ∃ e k n m, Tested compare s bits cmp e k n m := by
  obtain ⟨d,k,n,m,scaled⟩ := scaledOf (w := compare.operand.bits) (by omega) (by omega) insideBits insideCmp lower below moves keepsBits keepsCmp
  obtain ⟨e,rfl⟩ : ∃ e, d = e + 1 := ⟨d - 1,by have := scaled.moves; omega⟩
  have pos : 0 < compare.operand.bits := by omega
  have split := scaled.split
  have once : (2 : Int) ^ e = 1 ↔ e = 0 := by
    refine ⟨fun one => ?_,fun zero => by rw [zero,Int.pow_zero]⟩
    by_contra more
    have := powMono (show 1 ≤ e by omega)
    omega
  refine ⟨e,k,n,m,pos,scaled,insideBits,insideCmp,?_,fun one => ?_⟩
  · have sign := scaledSign pos insideBits split scaled.words.1
    have reads := wordReads compare.operand.bits cmp
    have mod := modulusHalf pos
    have whole : modulus compare.operand.bits = 2 ^ (e + 1) * 2 ^ k := by rw [modulus,← Int.pow_add,← split,Nat.add_comm]
    rw [scaled.words.2,unsignedOfSigned pos insideCmp] at reads
    push_cast at reads
    have amount := (keptConst (by omega) pos insideCmp keepsCmp).1
    have first := scaled.once
    simp only [InRange,minSigned,maxSigned] at insideCmp
    rw [once]
    constructor
    · intro source
      obtain ⟨shift,isCmp,negative⟩ := source
      have zero : e = 0 := by omega
      subst zero
      split at reads <;> omega
    · intro scaledTop
      obtain ⟨zero,top,large⟩ := scaledTop
      subst zero
      have long : (2 : Int) ≤ 2 ^ k := by
        have := powMono (show 1 ≤ k by omega)
        omega
      have isCmp : cmp = -2 := by split at reads <;> omega
      omega
  · rw [once] at one
    have := powMono (show 1 ≤ k by omega)
    omega

theorem unmoved (short : compare.operand.bits = 8 ∨ compare.operand.bits = 16) {v : Int} (inside : InRange compare.operand.bits v)
    (lower : 0 ≤ s) (below : s < 64) (still : s % 32 = 0) (keeps : v / 2 ^ s.toNat * 2 ^ s.toNat = v) :
    wrap compare.operand.bits (toUnsigned compare.operand.bits v / 2 ^ s.toNat) = v := by
  have pos : 0 < compare.operand.bits := by omega
  rcases (keptConst (by omega) pos inside keeps).1 with few | zero
  · have none : s.toNat = 0 := by omega
    rw [none,Int.pow_zero,Int.ediv_one,wrapUnsigned (Nat.le_refl _)]
    exact wrapSelf pos inside
  · have nothing : toUnsigned compare.operand.bits 0 = 0 := Int.zero_emod _
    rw [zero] at inside ⊢
    rw [nothing,Int.zero_ediv]
    exact wrapSelf pos inside

-- The table, on every pair of constants that the shift keeps.
theorem agreesExact (bitwise : isBitwise op = true) (short : compare.operand.bits = 8 ∨ compare.operand.bits = 16)
    (insideBits : InRange compare.operand.bits bits) (insideCmp : InRange compare.operand.bits cmp) (lower : 0 ≤ s) (below : s < 64)
    (keepsBits : bits / 2 ^ s.toNat * 2 ^ s.toNat = bits) (keepsCmp : cmp / 2 ^ s.toNat * 2 ^ s.toNat = cmp) :
    agrees op compare s.toNat bits cmp = true ↔ ∀ x, rewrittenTruth op compare s bits cmp x = originalTruth op compare s bits cmp x := by
  by_cases still : s % 32 = 0
  · have amount : shiftBy compare.operand.bits s = 0 := by
      rw [shiftBy,Nat.max_eq_right (by omega)]
      omega
    have same : ∀ x, rewrittenTruth op compare s bits cmp x = originalTruth op compare s bits cmp x := by
      intro x
      have left : word compare.operand.bits (wrap compare.operand.bits (op.eval compare.operand.bits x bits)) =
          word compare.operand.bits (wrap compare.operand.bits (op.eval compare.operand.bits (wrap compare.operand.bits x) bits)) := by
        rw [wordOpWord bitwise,wordOpWord bitwise,wordWrap]
      have pos : 0 < compare.operand.bits := by omega
      rw [rewrittenTruth,originalTruth,unmoved short insideBits lower below still keepsBits,unmoved short insideCmp lower below still keepsCmp,amount,
        Int.pow_zero,Int.mul_one,CompareOp.eval,CompareOp.eval,readWordReads pos,readWordReads pos (wrap compare.operand.bits _),left]
    simp [agrees,show s.toNat % 32 = 0 by omega,same]
  · obtain ⟨e,k,n,m,t⟩ := testedOf short insideBits insideCmp lower below still keepsBits keepsCmp
    rw [← tableExact t bitwise,agrees,show decide (s.toNat % 32 = 0) = false from decide_eq_false (by omega),Bool.false_or]

end Exact

end OmrCompiler.BitTestExact
