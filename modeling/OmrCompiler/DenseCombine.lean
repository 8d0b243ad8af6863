import OmrCompiler.DenseWords

/-! Dense vectors copied and combined word by word. The output may be an operand: every
word is read before it is stored to, and growth leaves the operands' words as they are. -/
namespace OmrCompiler.DenseBits
open BitManipulator

section Store
variable {wide : Bool} {vs : Vectors wide} {c : Nat}

@[simp] theorem Vectors.setSame (vs : Vectors wide) (a : Nat) (v : ABitVector wide) : vs.set a v a = v := if_pos rfl

theorem Vectors.setOther {a i : Nat} (vs : Vectors wide) (v : ABitVector wide) (other : i ≠ a) : vs.set a v i = vs i := if_neg other

-- What a loop may have read before it stores word j.
def Unread (vs vs' : Vectors wide) (j : Nat) : Prop :=
  ∀ i, (vs' i).fBitWords.length = (vs i).fBitWords.length ∧ getWord (vs' i) j = getWord (vs i) j

structure Written (vs vs' : Vectors wide) (c low high : Nat) (word : Nat → Word wide) : Prop where
  others : ∀ i, i ≠ c → vs' i = vs i
  numBits : (vs' c).fNumBits = (vs c).fNumBits
  length : (vs' c).fBitWords.length = (vs c).fBitWords.length
  getWord : ∀ j, getWord (vs' c) j = if low ≤ j ∧ j < high then word j else getWord (vs c) j

theorem Written.sized {vs' : Vectors wide} {low high : Nat} {word : Nat → Word wide} (written : Written vs vs' c low high word)
    (sized : ∀ i, Sized (vs i)) (i : Nat) : Sized (vs' i) := by
  by_cases here : i = c
  · rw [here]
    exact ⟨by rw [written.numBits,written.length,(sized c).bits],by rw [written.numBits]; exact (sized c).fits⟩
  · rw [written.others i here]
    exact sized i

theorem Written.lengths {vs' : Vectors wide} {low high : Nat} {word : Nat → Word wide} (written : Written vs vs' c low high word) (i : Nat) :
    (vs' i).fBitWords.length = (vs i).fBitWords.length := by
  by_cases here : i = c
  · rw [here,written.length]
  · rw [written.others i here]

-- Outside the stored words every vector is as it was.
theorem Written.outside {vs' : Vectors wide} {low high j : Nat} {word : Nat → Word wide} (written : Written vs vs' c low high word)
    (out : ¬ (low ≤ j ∧ j < high)) (i : Nat) : DenseBits.getWord (vs' i) j = DenseBits.getWord (vs i) j := by
  by_cases here : i = c
  · rw [here,written.getWord,if_neg out]
  · rw [written.others i here]

theorem storeWordsAll {value : Vectors wide → Nat → Option (Word wide × Bool)} {word : Nat → Word wide} {differs : Nat → Bool} (n i : Nat)
    (changed : Bool) (inside : i + n ≤ (vs c).fBitWords.length)
    (reads : ∀ vs' j, i ≤ j → j < i + n → Unread vs vs' j → value vs' j = some (word j,differs j)) :
    ∃ vs', storeWords value c n i (vs,changed) = some (vs',changed || (List.range' i n).any differs) ∧ Written vs vs' c i (i + n) word := by
  induction n generalizing vs i changed with
  | zero => exact ⟨vs,by rw [List.range'_zero,List.any_nil,Bool.or_false,storeWords],fun _ _ => rfl,rfl,rfl,fun j => by rw [if_neg (by omega)]⟩
  | succ n ih =>
      have read := reads vs i (Nat.le_refl i) (by omega) fun _ => ⟨rfl,rfl⟩
      obtain ⟨next,done,stored⟩ := setWordAtInside (by omega : i < (vs c).fBitWords.length) (word i)
      have lengths : ∀ k, ((vs.set c next) k).fBitWords.length = (vs k).fBitWords.length := fun k => by
        by_cases here : k = c
        · rw [here,Vectors.setSame,stored.length]
        · rw [Vectors.setOther vs next here]
      have words : ∀ k j, j ≠ i → getWord ((vs.set c next) k) j = getWord (vs k) j := fun k j other => by
        by_cases here : k = c
        · rw [here,Vectors.setSame,stored.getWord,if_neg other]
        · rw [Vectors.setOther vs next here]
      obtain ⟨vs',all,written⟩ := @ih (vs.set c next) (i + 1) (changed || differs i) (by rw [lengths]; omega)
        fun vs' j from' below unread => reads vs' j (by omega) (by omega) fun k =>
          ⟨(unread k).1.trans (lengths k),(unread k).2.trans (words k j (by omega))⟩
      refine ⟨vs',?_,fun k other => ?_,?_,?_,fun j => ?_⟩
      · unfold storeWords
        simp only [Option.bind_eq_bind]
        rw [read,List.range'_succ,List.any_cons,← Bool.or_assoc]
        simp only [Option.bind_some]
        rw [done]
        exact all
      · rw [written.others k other,Vectors.setOther vs next other]
      · rw [written.numBits,Vectors.setSame,stored.numBits]
      · rw [written.length,lengths]
      · rw [written.getWord,Vectors.setSame,stored.getWord]
        by_cases here : j = i
        · rw [if_neg (by omega),if_pos here,if_pos (by omega),here]
        · rw [if_neg here]
          by_cases later : i + 1 ≤ j ∧ j < i + 1 + n
          · rw [if_pos later,if_pos (by omega)]
          · rw [if_neg later,if_neg (by omega)]

-- A loop that marks nothing.
theorem storeWordsQuiet {value : Vectors wide → Nat → Option (Word wide × Bool)} {word : Nat → Word wide} (n i : Nat) (changed : Bool)
    (inside : i + n ≤ (vs c).fBitWords.length)
    (reads : ∀ vs' j, i ≤ j → j < i + n → Unread vs vs' j → value vs' j = some (word j,false)) :
    ∃ vs', storeWords value c n i (vs,changed) = some (vs',changed) ∧ Written vs vs' c i (i + n) word := by
  obtain ⟨vs',done,written⟩ := @storeWordsAll _ vs c value word (fun _ => false) n i changed inside reads
  have none : (List.range' i n).any (fun _ => false) = false := by simp
  rw [none,Bool.or_false] at done
  exact ⟨vs',done,written⟩

theorem growVectorEnough (sized : ∀ i, Sized (vs i)) {newBitSize : Nat} (fits : (vs c).fNumBits < newBitSize → Fits newBitSize) (geometric : Bool) :
    ∃ vs', growVector vs c newBitSize geometric = some vs' ∧ (∀ i, i ≠ c → vs' i = vs i) ∧ Grown (vs c) (vs' c) newBitSize ∧
      growTo (vs c) newBitSize geometric false = some (vs' c) := by
  obtain ⟨v,done,grown⟩ := @growToEnough _ _ (sized c) newBitSize geometric false fits nofun
  refine ⟨vs.set c v,?_,fun i other => Vectors.setOther vs v other,by rw [Vectors.setSame]; exact grown,by rw [Vectors.setSame]; exact done⟩
  unfold growVector
  rw [done]
  rfl

-- Growth leaves all words as they are.
theorem grownWords {vs' : Vectors wide} {n : Nat} (sized : ∀ i, Sized (vs i)) (others : ∀ i, i ≠ c → vs' i = vs i) (grown : Grown (vs c) (vs' c) n) (i : Nat) :
    Sized (vs' i) ∧ ∀ j, getWord (vs' i) j = getWord (vs i) j := by
  by_cases here : i = c
  · rw [here]
    exact ⟨grown.sized,grown.getWord⟩
  · rw [others i here]
    exact ⟨sized i,fun _ => rfl⟩

end Store

section Combine
variable {wide : Bool} {vs : Vectors wide} {a b c : Nat}

-- How an operation treats words that only one operand has.
structure Tails (f : Word wide → Word wide → Word wide) (keepsThis keepsInput : Bool) : Prop where
  this : ∀ x, f x 0 = if keepsThis then x else 0
  input : ∀ y, f 0 y = if keepsInput then y else 0

-- The sizes of the operands fit, or the output is large enough.
def Combines (vs : Vectors wide) (a b c : Nat) : Prop :=
  (vs c).fNumBits < max (vs a).fNumBits (vs b).fNumBits → Fits (max (vs a).fNumBits (vs b).fNumBits)

-- The words of one vector are kept or cleared.
theorem storeRest {keeps : Bool} {word : Nat → Word wide} (n i : Nat) (changed : Bool) (inside : i + n ≤ (vs c).fBitWords.length)
    (inside' : i + n ≤ (vs a).fBitWords.length) (words : ∀ j, i ≤ j → j < i + n → word j = if keeps then getWord (vs a) j else 0) :
    ∃ vs', storeWords (if keeps then copied a else zeroed) c n i (vs,changed) = some (vs',changed) ∧ Written vs vs' c i (i + n) word := by
  refine storeWordsQuiet n i changed inside fun vs' j from' below unread => ?_
  rw [words j from' below]
  cases keeps with
  | true =>
      change (wordAt (vs' a) j).bind _ = _
      rw [wordAtInside (by rw [(unread a).1]; omega),(unread a).2]
      rfl
  | false => rfl

-- Where one operand has ended, the other's words are kept or cleared.
theorem storeTailAll {f : Word wide → Word wide → Word wide} {keepsThis keepsInput : Bool} (tails : Tails f keepsThis keepsInput) (changed : Bool)
    (this input : Nat) (inside : max this input ≤ (vs c).fBitWords.length) (insideA : this ≤ (vs a).fBitWords.length)
    (insideB : input ≤ (vs b).fBitWords.length) (zeroA : ∀ j, min this input ≤ j → this ≤ j → getWord (vs a) j = 0)
    (zeroB : ∀ j, min this input ≤ j → input ≤ j → getWord (vs b) j = 0) :
    ∃ vs', storeTail keepsThis keepsInput a b c this input (vs,changed) = some (vs',changed) ∧
      Written vs vs' c (min this input) (max this input) fun j => f (getWord (vs a) j) (getWord (vs b) j) := by
  unfold storeTail
  dsimp only
  split
  · rename_i longer
    have ends : min this input + (this - min this input) = max this input := by omega
    rw [← ends]
    exact storeRest (this - min this input) (min this input) changed (by omega) (by omega) fun j from' below => by rw [zeroB j from' (by omega),tails.this]
  · rename_i shorter
    have ends : min this input + (input - min this input) = max this input := by omega
    rw [← ends]
    exact storeRest (input - min this input) (min this input) changed (by omega) (by omega) fun j from' below => by rw [zeroA j from' (by omega),tails.input]

-- By how much an output may outgrow the vectors there are.
def Modest (vs vs' : Vectors wide) (c extra : Nat) : Prop :=
  ∀ limit, 2 ^ 31 ≤ limit → (∀ i, (vs i).fNumBits ≤ limit) → (vs' c).fNumBits ≤ limit + extra

structure Combined (vs vs' : Vectors wide) (c : Nat) (word : Nat → Word wide) : Prop where
  others : ∀ i, i ≠ c → vs' i = vs i
  sized : Sized (vs' c)
  modest : Modest vs vs' c chunk
  getWord : ∀ j, getWord (vs' c) j = word j

-- A common word changes, or one operand is longer.
def marked (f : Word wide → Word wide → Word wide) (v w : ABitVector wide) : Bool :=
  (List.range' 0 (min v.fBitWords.length w.fBitWords.length)).any (fun j => f (getWord v j) (getWord w j) != getWord v j) ||
    decide (min v.fBitWords.length w.fBitWords.length < max v.fBitWords.length w.fBitWords.length)

theorem combineIntoAll (sized : ∀ i, Sized (vs i)) {f : Word wide → Word wide → Word wide} {keepsThis keepsInput : Bool}
    (tails : Tails f keepsThis keepsInput) (fits : Combines vs a b c) :
    ∃ vs', combineInto f keepsThis keepsInput vs a b c = some (vs',marked f (vs a) (vs b)) ∧
      Combined vs vs' c fun j => f (getWord (vs a) j) (getWord (vs b) j) := by
  have sizeA := (sized a).words
  have sizeB := (sized b).words
  have larger : max (sizeInWords wide (vs a).fNumBits) (sizeInWords wide (vs b).fNumBits) * kBitWordSize wide % 2 ^ 32 =
      max (vs a).fNumBits (vs b).fNumBits := by
    have fitsA := (sized a).fits
    have fitsB := (sized b).fits
    unfold chunk at fitsA fitsB
    rw [sizeA,sizeB,← Nat.mul_max_mul_right,← (sized a).bits,← (sized b).bits]
    exact Nat.mod_eq_of_lt (by omega)
  obtain ⟨vs1,grows,others1,grown,-⟩ := growVectorEnough sized fits false
  have words1 : ∀ i j, getWord (vs1 i) j = getWord (vs i) j := fun i => (grownWords sized others1 grown i).2
  have sized1 : ∀ i, Sized (vs1 i) := fun i => (grownWords sized others1 grown i).1
  have longer : ∀ i, (vs i).fBitWords.length ≤ (vs1 i).fBitWords.length := fun i => by
    by_cases here : i = c
    · rw [here]
      exact ((sized c).lengths grown.sized).mp grown.longer
    · rw [others1 i here]
  have output : max (vs a).fBitWords.length (vs b).fBitWords.length ≤ (vs1 c).fBitWords.length := by
    have enough := Nat.max_le.mp grown.enough
    exact Nat.max_le.mpr ⟨((sized a).lengths grown.sized).mp enough.1,((sized b).lengths grown.sized).mp enough.2⟩
  obtain ⟨vs2,loop2,written2⟩ := @storeWordsAll _ vs1 c (combined f a b) (fun j => f (getWord (vs1 a) j) (getWord (vs1 b) j))
    (fun j => f (getWord (vs1 a) j) (getWord (vs1 b) j) != getWord (vs1 a) j)
    (min (vs a).fBitWords.length (vs b).fBitWords.length) 0 false (by omega) fun vs' j _ below unread => by
      have insideA := longer a
      have insideB := longer b
      unfold combined
      rw [wordAtInside (by rw [(unread a).1]; omega),wordAtInside (by rw [(unread b).1]; omega),(unread a).2,(unread b).2]
      rfl
  simp only [words1,Bool.false_or] at loop2
  obtain ⟨vs3,loop3,written3⟩ := @storeTailAll _ vs2 a b c f keepsThis keepsInput tails (marked f (vs a) (vs b)) (vs a).fBitWords.length (vs b).fBitWords.length
    (by rw [written2.length]; exact output) (by rw [written2.lengths]; exact longer a) (by rw [written2.lengths]; exact longer b)
    (fun j from' beyond => by rw [written2.outside (by omega),words1]; exact getWordBeyond beyond)
    (fun j from' beyond => by rw [written2.outside (by omega),words1]; exact getWordBeyond beyond)
  obtain ⟨vs4,loop4,written4⟩ := @storeWordsQuiet _ vs3 c zeroed (fun _ => 0)
    ((vs1 c).fBitWords.length - max (vs a).fBitWords.length (vs b).fBitWords.length) (max (vs a).fBitWords.length (vs b).fBitWords.length)
    (marked f (vs a) (vs b)) (by rw [written3.length,written2.length]; omega) fun _ _ _ _ _ => rfl
  refine ⟨vs4,?_,fun i other => ?_,?_,?_,fun j => ?_⟩
  · unfold combineInto
    simp only [Option.bind_eq_bind]
    rw [larger,grows]
    simp only [Option.bind_some]
    rw [sizeA,sizeB,grown.sized.words,loop2]
    simp only [Option.bind_some]
    change (storeTail keepsThis keepsInput a b c _ _ (vs2,marked f (vs a) (vs b))).bind _ = _
    rw [loop3]
    exact loop4
  · rw [written4.others i other,written3.others i other,written2.others i other,others1 i other]
  · exact written4.sized (written3.sized (written2.sized sized1)) c
  · intro limit large all
    have bound := grown.bound
    have := all a
    have := all b
    have := all c
    rw [written4.numBits,written3.numBits,written2.numBits]
    omega
  · rw [written4.getWord]
    by_cases rest : max (vs a).fBitWords.length (vs b).fBitWords.length ≤ j
    · have zeroA : getWord (vs a) j = 0 := getWordBeyond (by omega)
      have zeroB : getWord (vs b) j = 0 := getWordBeyond (by omega)
      have zero : f 0 0 = 0 := by
        rw [tails.this]
        cases keepsThis <;> rfl
      rw [zeroA,zeroB,zero]
      split
      · rfl
      · rename_i out
        rw [written3.outside (by omega),written2.outside (by omega)]
        exact getWordBeyond (by omega)
    · rw [if_neg (by omega),written3.getWord]
      split
      · rw [written2.outside (by omega),written2.outside (by omega),words1,words1]
      · rw [written2.getWord,if_pos (by omega),words1,words1]

end Combine

section Operators
variable {wide : Bool} {vs : Vectors wide} {a b c : Nat}

def Operator.bit : Operator → Bool → Bool → Bool
  | and,x,y => x && y
  | andc,x,y => x && !y
  | or,x,y => x || y
  | xor,x,y => x != y

theorem Operator.wordBits (op : Operator) (x y : Word wide) {k : Nat} (inside : k < kBitWordSize wide) :
    (op.word x y).getMsbD k = op.bit (x.getMsbD k) (y.getMsbD k) := by
  cases op with
  | and => exact BitVec.getMsbD_and
  | andc =>
      change (x &&& ~~~y).getMsbD k = _
      rw [BitVec.getMsbD_and,BitVec.getMsbD_not,decide_eq_true inside,Bool.true_and]
      rfl
  | or => exact BitVec.getMsbD_or
  | xor => exact BitVec.getMsbD_xor

structure Result (vs vs' : Vectors wide) (c extra : Nat) (bit : Nat → Bool) : Prop where
  others : ∀ i, i ≠ c → vs' i = vs i
  sized : Sized (vs' c)
  modest : Modest vs vs' c extra
  bits : ∀ j, bitOf (vs' c) j = bit j

theorem Combined.result {vs' : Vectors wide} {op : Operator} (combined : Combined vs vs' c fun j => op.word (DenseBits.getWord (vs a) j) (DenseBits.getWord (vs b) j)) :
    Result vs vs' c chunk fun j => op.bit (bitOf (vs a) j) (bitOf (vs b) j) := by
  refine ⟨combined.others,combined.sized,combined.modest,fun j => ?_⟩
  unfold bitOf
  rw [combined.getWord,op.wordBits _ _ (Nat.mod_lt j (wordSizePos wide))]

theorem Operator.combines (op : Operator) {keepsThis keepsInput : Bool} (tails : @Tails wide op.word keepsThis keepsInput) (sized : ∀ i, Sized (vs i))
    (fits : Combines vs a b c) : ∃ vs', combineInto op.word keepsThis keepsInput vs a b c = some (vs',marked op.word (vs a) (vs b)) ∧
      Result vs vs' c chunk fun j => op.bit (bitOf (vs a) j) (bitOf (vs b) j) := by
  obtain ⟨vs',done,combined⟩ := combineIntoAll sized tails fits
  exact ⟨vs',done,combined.result⟩

theorem Operator.intoBits (op : Operator) (sized : ∀ i, Sized (vs i)) (fits : Combines vs a b c) :
    ∃ vs', op.into vs a b c = some (vs',marked op.word (vs a) (vs b)) ∧ Result vs vs' c chunk fun j => op.bit (bitOf (vs a) j) (bitOf (vs b) j) := by
  cases op with
  | and => exact Operator.and.combines ⟨fun _ => BitVec.and_zero,fun _ => BitVec.zero_and⟩ sized fits
  | andc => exact Operator.andc.combines ⟨andcZero,fun _ => BitVec.zero_and⟩ sized fits
  | or => exact Operator.or.combines ⟨fun _ => BitVec.or_zero,fun _ => BitVec.zero_or⟩ sized fits
  | xor => exact Operator.xor.combines ⟨fun _ => BitVec.xor_zero,fun _ => BitVec.zero_xor⟩ sized fits

theorem Result.less {vs' : Vectors wide} {extra extra' : Nat} {bit : Nat → Bool} (result : Result vs vs' c extra bit) (less : extra ≤ extra') :
    Result vs vs' c extra' bit :=
  ⟨result.others,result.sized,fun limit large all => Nat.le_trans (result.modest limit large all) (Nat.add_le_add_left less limit),result.bits⟩

-- Two vectors with the words of two others, of one size exactly if these are.
structure Alike (v w u x : ABitVector wide) : Prop where
  sized : Sized u
  sized' : Sized x
  getWord : ∀ j, getWord u j = getWord v j
  getWord' : ∀ j, DenseBits.getWord x j = DenseBits.getWord w j
  size : u.fNumBits = x.fNumBits ↔ v.fNumBits = w.fNumBits

theorem growFirst (op : Operator) (sized : ∀ i, Sized (vs i)) (fits : Combines vs a b a) :
    ∃ vs' u w, (do op.into (← growVector vs a (vs b).fNumBits false) a b a) = some (vs',marked op.word u w) ∧ Alike (vs a) (vs b) u w ∧
      Result vs vs' a (2 * chunk) fun j => op.bit (bitOf (vs a) j) (bitOf (vs b) j) := by
  have fitsB : (vs a).fNumBits < (vs b).fNumBits → Fits (vs b).fNumBits := fun less => by
    have larger : max (vs a).fNumBits (vs b).fNumBits = (vs b).fNumBits := Nat.max_eq_right (Nat.le_of_lt less)
    have fit := fits (by rw [larger]; exact less)
    rwa [larger] at fit
  obtain ⟨vs1,grows,others1,grown,equation⟩ := @growVectorEnough _ vs a sized (vs b).fNumBits fitsB false
  have sized1 : ∀ i, Sized (vs1 i) := fun i => (grownWords sized others1 grown i).1
  have words1 : ∀ i j, getWord (vs1 i) j = getWord (vs i) j := fun i => (grownWords sized others1 grown i).2
  have bits1 : ∀ i j, bitOf (vs1 i) j = bitOf (vs i) j := fun i j => by rw [bitOf,words1,bitOf]
  have enough : Combines vs1 a b a := fun less => by
    have reached : (vs1 b).fNumBits ≤ (vs1 a).fNumBits := by
      by_cases here : b = a
      · rw [here]
      · rw [others1 b here]
        exact grown.enough
    rw [Nat.max_eq_left reached] at less
    exact absurd less (Nat.lt_irrefl _)
  have size : (vs1 a).fNumBits = (vs1 b).fNumBits ↔ (vs a).fNumBits = (vs b).fNumBits := by
    by_cases here : b = a
    · rw [here]
      exact ⟨fun _ => rfl,fun _ => rfl⟩
    · rw [others1 b here]
      rcases Nat.lt_or_ge (vs a).fNumBits (vs b).fNumBits with less | more
      · have beyond := growToBeyond less (fitsB less) equation
        exact ⟨fun same => absurd same (Nat.ne_of_gt beyond),fun same => absurd same (Nat.ne_of_lt less)⟩
      · rw [grown.kept more]
  have bound1 : ∀ limit, 2 ^ 31 ≤ limit → (∀ i, (vs i).fNumBits ≤ limit) → ∀ i, (vs1 i).fNumBits ≤ limit + chunk := by
    intro limit large all i
    have bound := grown.bound
    have := all a
    have := all b
    by_cases here : i = a
    · rw [here]
      omega
    · rw [others1 i here]
      exact Nat.le_trans (all i) (Nat.le_add_right _ _)
  obtain ⟨vs',done,others',sized',modest',bits'⟩ := op.intoBits sized1 enough
  refine ⟨vs',_,_,?_,⟨sized1 a,sized1 b,words1 a,words1 b,size⟩,fun i other => (others' i other).trans (others1 i other),sized',?_,fun j => ?_⟩
  · rw [grows]
    exact done
  · intro limit large all
    have := modest' (limit + chunk) (by omega) (bound1 limit large all)
    omega
  · rw [bits',bits1,bits1]

theorem Operator.inPlaceBits (op : Operator) (sized : ∀ i, Sized (vs i)) (fits : Combines vs a b a) :
    ∃ vs' u w, op.inPlace vs a b = some (vs',marked op.word u w) ∧ Alike (vs a) (vs b) u w ∧
      Result vs vs' a (2 * chunk) fun j => op.bit (bitOf (vs a) j) (bitOf (vs b) j) := by
  have itself : Alike (vs a) (vs b) (vs a) (vs b) := ⟨sized a,sized b,fun _ => rfl,fun _ => rfl,Iff.rfl⟩
  cases op with
  | and =>
      obtain ⟨vs',done,result⟩ := Operator.and.intoBits sized fits
      exact ⟨vs',_,_,done,itself,result.less (by omega)⟩
  | andc =>
      obtain ⟨vs',done,result⟩ := Operator.andc.intoBits sized fits
      exact ⟨vs',_,_,done,itself,result.less (by omega)⟩
  | or => exact growFirst .or sized fits
  | xor => exact growFirst .xor sized fits

end Operators

section Adopt
variable {wide : Bool}

theorem copyWordsAll {v w : ABitVector wide} (sized : Sized v) (sized' : Sized w) (longer : w.fNumBits ≤ v.fNumBits) :
    ∃ v', copyWords v w = some v' ∧ Sized v' ∧ v'.fNumBits = v.fNumBits ∧ ∀ j, getWord v' j = getWord w j := by
  have lengths := (sized'.lengths sized).mp longer
  unfold copyWords
  dsimp only
  rw [Nat.min_eq_left longer,sized'.words,sized.words,if_pos ⟨lengths,Nat.le_refl _,Nat.le_refl _⟩,Nat.max_eq_right lengths,List.take_length,
    List.drop_length,List.append_nil]
  refine ⟨_,rfl,⟨?_,sized.fits⟩,rfl,fun j => ?_⟩
  · rw [List.length_append,List.length_replicate,Nat.add_sub_cancel' lengths]
    exact sized.bits
  · unfold getWord
    rw [List.getD_eq_getElem?_getD,List.getD_eq_getElem?_getD]
    by_cases inside : j < w.fBitWords.length
    · rw [List.getElem?_append_left inside]
    · rw [List.getElem?_append_right (Nat.le_of_not_lt inside),List.getElem?_eq_none (Nat.le_of_not_lt inside),List.getElem?_replicate]
      split <;> rfl

theorem emptySized (isNull : Bool) : Sized (⟨0,[],isNull⟩ : ABitVector wide) := ⟨(Nat.zero_mul _).symm,by simp [chunk]⟩

theorem emptyBits (isNull : Bool) (j : Nat) : bitOf (⟨0,[],isNull⟩ : ABitVector wide) j = false := bitOfBeyond (emptySized isNull) (Nat.zero_le j)

theorem adoptBits {vs : Vectors wide} (sized : ∀ i, Sized (vs i)) {a b : Nat} (fits : (vs a).fNumBits < (vs b).fNumBits → Fits (vs b).fNumBits) :
    ∃ vs', adopt vs a b = some vs' ∧ Result vs vs' a (2 * chunk) fun j => bitOf (vs b) j := by
  unfold adopt
  split
  · rename_i null
    refine ⟨_,rfl,fun i other => Vectors.setOther vs _ other,?_,fun limit _ _ => ?_,fun j => ?_⟩
    · rw [Vectors.setSame]
      exact emptySized true
    · rw [Vectors.setSame]
      exact Nat.zero_le _
    · rw [Vectors.setSame,bitOfBeyond (sized b) (by rw [null.1]; exact Nat.zero_le j)]
      exact emptyBits true j
  · obtain ⟨vs1,grows,others1,grown,-⟩ := growVectorEnough sized fits false
    have source : Sized (vs1 b) ∧ (vs1 b).fNumBits ≤ (vs1 a).fNumBits ∧ ∀ j, getWord (vs1 b) j = getWord (vs b) j := by
      by_cases here : b = a
      · rw [here]
        exact ⟨grown.sized,Nat.le_refl _,grown.getWord⟩
      · rw [others1 b here]
        exact ⟨sized b,grown.enough,fun _ => rfl⟩
    obtain ⟨v,copies,sized',size,words⟩ := copyWordsAll grown.sized source.1 source.2.1
    rw [grows]
    simp only [Option.bind_eq_bind,Option.bind_some]
    rw [copies]
    refine ⟨_,rfl,fun i other => (Vectors.setOther vs1 v other).trans (others1 i other),?_,fun limit large all => ?_,fun j => ?_⟩
    · rw [Vectors.setSame]
      exact sized'
    · have bound := grown.bound
      have := all a
      have := all b
      rw [Vectors.setSame,size]
      omega
    · rw [Vectors.setSame]
      unfold bitOf
      rw [words,source.2.2]

end Adopt

end OmrCompiler.DenseBits
