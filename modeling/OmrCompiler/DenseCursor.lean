import Mathlib.Data.Finset.Sort
import OmrCompiler.DenseSearch

/-! A dense vector visited by its cursor: the members in increasing order, each once. -/
namespace OmrCompiler.DenseBits
open BitManipulator

section Next
variable {wide : Bool} {v : ABitVector wide} {S : Finset Nat} {c : Cursor wide} {n : Nat}

-- A cursor at an index, with what is left of its word.
structure At (v : ABitVector wide) (c : Cursor wide) (n : Nat) : Prop where
  index : c.fIndex = n
  count : c.fWordCount = v.fBitWords.length
  inside : n / kBitWordSize wide < v.fBitWords.length
  word : c.fWord = getWord v (n / kBitWordSize wide) <<< (n % kBitWordSize wide)

theorem At.valid (at' : At v c n) : c.valid = true := by
  rw [Cursor.valid,at'.index,at'.count,decide_eq_true_eq]
  exact (Nat.div_lt_iff_lt_mul (wordSizePos wide)).mp at'.inside

-- The first bit from an index on within its word.
theorem At.atBit (h : Represents v S) {word : Word wide} {from' : Nat} (some : word ≠ 0) (inside : from' / kBitWordSize wide < v.fBitWords.length)
    (count : c.fWordCount = v.fBitWords.length) (left : word = getWord v (from' / kBitWordSize wide) <<< (from' % kBitWordSize wide)) :
    ∃ m, from' ≤ m ∧ m ∈ S ∧ (∀ j ∈ S, from' ≤ j → m ≤ j) ∧ At v (c.atBit word from') m := by
  obtain ⟨one,zeroes⟩ := leadingBits some
  have pos := wordSizePos wide
  have whole := Nat.div_add_mod from' (kBitWordSize wide)
  have shifted : ∀ k, word.getMsbD k = (getWord v (from' / kBitWordSize wide)).getMsbD (from' % kBitWordSize wide + k) := fun k => by
    rw [left,BitVec.getMsbD_shiftLeft,Nat.add_comm]
  rw [Nat.mul_comm] at whole
  rw [shifted] at one
  have short := getBit one
  have index : from' + leadingZeroes wide word =
      from' / kBitWordSize wide * kBitWordSize wide + (from' % kBitWordSize wide + leadingZeroes wide word) := by omega
  have sameWord : (from' + leadingZeroes wide word) / kBitWordSize wide = from' / kBitWordSize wide :=
    Nat.div_eq_of_lt_le (by omega) (by rw [Nat.succ_mul]; omega)
  have offset : (from' + leadingZeroes wide word) % kBitWordSize wide = from' % kBitWordSize wide + leadingZeroes wide word := by
    have := Nat.div_add_mod (from' + leadingZeroes wide word) (kBitWordSize wide)
    rw [sameWord,Nat.mul_comm] at this
    omega
  refine ⟨_,Nat.le_add_right _ (leadingZeroes wide word),?_,fun j on after => Nat.le_of_not_lt fun before => ?_,rfl,count,?_,?_⟩
  · rw [index]
    exact (h.bit short).mp one
  · obtain ⟨k,here⟩ := Nat.exists_eq_add_of_le after
    have none := zeroes k (by omega)
    rw [shifted] at none
    rw [here,show from' + k = from' / kBitWordSize wide * kBitWordSize wide + (from' % kBitWordSize wide + k) by omega] at on
    rw [(h.bit (by omega)).mpr on] at none
    cases none
  · rw [sameWord]
    exact inside
  · rw [sameWord,offset]
    change word <<< leadingZeroes wide word = _
    rw [left,← BitVec.shiftLeft_add]

theorem nextWordFound (k wordIndex : Nat) (inside : wordIndex + k = v.fBitWords.length) :
    (nextWord v k wordIndex = some (v.fBitWords.length,none) ∧ ∀ i, wordIndex ≤ i → getWord v i = 0) ∨
      ∃ i, nextWord v k wordIndex = some (i,some (getWord v i)) ∧ wordIndex ≤ i ∧ i < v.fBitWords.length ∧ getWord v i ≠ 0 ∧
        ∀ j, wordIndex ≤ j → j < i → getWord v j = 0 := by
  induction k generalizing wordIndex with
  | zero => exact .inl ⟨by rw [nextWord,← inside,Nat.add_zero],fun i beyond => getWordBeyond (by omega)⟩
  | succ k ih =>
      rw [nextWord,wordAtInside (by omega)]
      simp only [Option.bind_eq_bind,Option.bind_some]
      split
      · rename_i some'
        exact .inr ⟨wordIndex,rfl,Nat.le_refl _,by omega,some',fun j from' below => by omega⟩
      · rename_i zero
        have here : ∀ j, wordIndex ≤ j → (wordIndex + 1 ≤ j → getWord v j = 0) → getWord v j = 0 := fun j from' later => by
          by_cases same : j = wordIndex
          · rw [same]
            exact not_not.mp zero
          · exact later (by omega)
        rcases ih (wordIndex + 1) (by omega) with ⟨none,all⟩ | ⟨i,found,after,within,some',before⟩
        · exact .inl ⟨none,fun j from' => here j from' (all j)⟩
        · exact .inr ⟨i,found,by omega,within,some',fun j from' below => here j from' fun later => before j later below⟩

-- The next member, or none and a cursor that is no longer valid.
def Next (v : ABitVector wide) (S : Finset Nat) (n : Nat) (next : Cursor wide × Bool) : Prop :=
  (∃ m, n < m ∧ m ∈ S ∧ (∀ j ∈ S, n < j → m ≤ j) ∧ At v next.1 m ∧ next.2 = true) ∨
    (∀ j ∈ S, j ≤ n) ∧ next.1.valid = false ∧ next.2 = false

theorem setToNextOneNext (h : Represents v S) (at' : At v c n) : ∃ next, setToNextOne v c = some next ∧ Next v S n next := by
  have pos := wordSizePos wide
  have inWord := Nat.mod_lt n pos
  have whole := Nat.div_add_mod n (kBitWordSize wide)
  have inside := at'.inside
  rw [Nat.mul_comm] at whole
  unfold setToNextOne
  dsimp only
  rw [at'.index,at'.word,at'.count,← BitVec.shiftLeft_add]
  have following : (n + 1 + kBitWordSize wide - 1) / kBitWordSize wide = n / kBitWordSize wide + 1 := by
    rw [show n + 1 + kBitWordSize wide - 1 = n + kBitWordSize wide by omega,Nat.add_div_right n pos]
  rw [following]
  split
  · rename_i zero
    -- no later bit in this word
    have later : ∀ j ∈ S, n < j → n / kBitWordSize wide + 1 ≤ j / kBitWordSize wide := fun j on after => by
      by_contra short
      have same : j / kBitWordSize wide = n / kBitWordSize wide :=
        Nat.le_antisymm (by omega) (Nat.div_le_div_right (Nat.le_of_lt after))
      have bit := h.inWord on same
      have offset := Nat.div_add_mod j (kBitWordSize wide)
      rw [same,Nat.mul_comm] at offset
      have none := @zeroBit wide (j % kBitWordSize wide - (n % kBitWordSize wide + 1))
      have within := getBit bit
      rw [← zero,BitVec.getMsbD_shiftLeft,show j % kBitWordSize wide - (n % kBitWordSize wide + 1) + (n % kBitWordSize wide + 1) = j % kBitWordSize wide by omega,bit] at none
      cases none
    rcases @nextWordFound _ v (v.fBitWords.length - (n / kBitWordSize wide + 1)) (n / kBitWordSize wide + 1) (by omega) with
      ⟨none,all⟩ | ⟨i,found,after,within,some',before⟩
    · rw [none]
      refine ⟨_,rfl,.inr ⟨fun j on => Nat.le_of_not_lt fun after => ?_,?_,rfl⟩⟩
      · exact h.noBits (all _ (later j on after)) j on rfl
      · exact decide_eq_false (Nat.lt_irrefl _)
    · rw [found]
      have first : i * kBitWordSize wide / kBitWordSize wide = i := Nat.mul_div_left i pos
      obtain ⟨m,from',on,least,there⟩ := At.atBit (c := ⟨_,n + 1,v.fBitWords.length⟩) h some' (by rw [first]; exact within) rfl
        (show getWord v i = _ by rw [first,Nat.mul_mod_left,BitVec.shiftLeft_zero])
      have more := Nat.mul_le_mul_right (kBitWordSize wide) after
      rw [Nat.succ_mul] at more
      refine ⟨_,rfl,.inl ⟨m,by omega,on,fun j on after => least j on ?_,there,rfl⟩⟩
      have word : i ≤ j / kBitWordSize wide := Nat.le_of_not_lt fun less => h.noBits (before _ (later j on after) less) j on rfl
      exact (Nat.le_div_iff_mul_le pos).mp word
  · rename_i some'
    have short : n % kBitWordSize wide + 1 < kBitWordSize wide := Nat.lt_of_not_le fun last => some' (by
      refine wordZero.mpr fun k within => ?_
      rw [BitVec.getMsbD_shiftLeft]
      exact BitVec.getMsbD_of_ge _ _ (by omega))
    have word : (n + 1) / kBitWordSize wide = n / kBitWordSize wide := Nat.div_eq_of_lt_le (by omega) (by rw [Nat.succ_mul]; omega)
    have offset : (n + 1) % kBitWordSize wide = n % kBitWordSize wide + 1 := by
      have := Nat.div_add_mod (n + 1) (kBitWordSize wide)
      rw [word,Nat.mul_comm] at this
      omega
    obtain ⟨m,from',on,least,there⟩ := At.atBit (c := ⟨_,n + 1,v.fBitWords.length⟩) h some' (by rw [word]; exact inside) rfl (by rw [word,offset])
    exact ⟨_,rfl,.inl ⟨m,by omega,on,fun j on after => least j on after,there,rfl⟩⟩

end Next

section Visit
variable {wide : Bool} {v : ABitVector wide} {S : Finset Nat} {c : Cursor wide}

theorem highBitSet (word : Word wide) : word &&& kHighBit wide ≠ 0 ↔ word.getMsbD 0 = true := by
  rw [ne_eq,wordZero]
  simp only [BitVec.getMsbD_and,highBit]
  constructor
  · intro some'
    by_contra none
    refine some' fun k _ => ?_
    by_cases first : k = 0
    · simpa [first] using none
    · simp [first]
  · intro one none
    simpa [one] using none 0 (wordSizePos wide)

-- From an index on: the least member that is not before it.
theorem setToNextOneAfterNext (h : Represents v S) (n : Nat) : ∃ next, setToNextOneAfter v c n = some next ∧
    ((∃ m, n ≤ m ∧ m ∈ S ∧ (∀ j ∈ S, n ≤ j → m ≤ j) ∧ At v next.1 m ∧ next.2 = true) ∨
      (∀ j ∈ S, j < n) ∧ next.1.valid = false ∧ next.2 = false) := by
  have pos := wordSizePos wide
  unfold setToNextOneAfter
  dsimp only
  rw [h.sized.words]
  split
  · rename_i beyond
    have past : ¬ n < v.fBitWords.length * kBitWordSize wide := by simpa [Cursor.valid] using beyond
    refine ⟨_,rfl,.inr ⟨fun j on => ?_,decide_eq_false (Nat.lt_irrefl _),rfl⟩⟩
    have within := (Nat.div_lt_iff_lt_mul pos).mp (h.inside on)
    omega
  · rename_i within
    have inside : n < v.fBitWords.length * kBitWordSize wide := by simpa [Cursor.valid] using within
    have at' : At v ⟨getWord v (n / kBitWordSize wide) <<< (n % kBitWordSize wide),n,v.fBitWords.length⟩ n :=
      ⟨rfl,rfl,(Nat.div_lt_iff_lt_mul pos).mpr inside,rfl⟩
    have here := h.bit (i := n / kBitWordSize wide) (Nat.mod_lt n pos)
    rw [Nat.mul_comm,Nat.div_add_mod] at here
    rw [wordAtInside at'.inside]
    simp only [Option.bind_eq_bind,Option.bind_some]
    have top := highBitSet (getWord v (n / kBitWordSize wide) <<< (n % kBitWordSize wide))
    rw [BitVec.getMsbD_shiftLeft,Nat.zero_add,here] at top
    split
    · rename_i set
      have on := top.mp set
      exact ⟨_,rfl,.inl ⟨n,Nat.le_refl n,on,fun j _ from' => from',at',rfl⟩⟩
    · rename_i clear'
      have off := mt top.mpr clear'
      obtain ⟨next,done,⟨m,after,on,least,there,found⟩ | ⟨all,ended,none⟩⟩ := setToNextOneNext h at'
      · exact ⟨next,done,.inl ⟨m,Nat.le_of_lt after,on,fun j on' from' =>
          least j on' (Nat.lt_of_le_of_ne from' fun same => off (same ▸ on')),there,found⟩⟩
      · exact ⟨next,done,.inr ⟨fun j on => Nat.lt_of_le_of_ne (all j on) fun same => off (same ▸ on),ended,none⟩⟩

theorem sortFrom {n : Nat} (on : n ∈ S) : (S.filter (n ≤ ·)).sort (· ≤ ·) = n::(S.filter (n < ·)).sort (· ≤ ·) := by
  have parts : S.filter (n ≤ ·) = Finset.cons n (S.filter (n < ·)) (by simp) := by
    ext j
    simp only [Finset.mem_filter,Finset.mem_cons]
    constructor
    · rintro ⟨member,from'⟩
      rcases Nat.eq_or_lt_of_le from' with same | after
      · exact .inl same.symm
      · exact .inr ⟨member,after⟩
    · rintro (same | ⟨member,after⟩)
      · exact ⟨same ▸ on,same ▸ Nat.le_refl _⟩
      · exact ⟨member,Nat.le_of_lt after⟩
  rw [parts,Finset.sort_cons]
  exact fun j member => Nat.le_of_lt (Finset.mem_filter.mp member).2

theorem visitedFrom (h : Represents v S) (fuel : Nat) {n : Nat} (at' : At v c n) (on : n ∈ S) (enough : (S.filter (n ≤ ·)).card < fuel) :
    visited v fuel c = some ((S.filter (n ≤ ·)).sort (· ≤ ·)) := by
  have count := congrArg List.length (sortFrom on)
  rw [Finset.length_sort,List.length_cons,Finset.length_sort] at count
  induction fuel generalizing c n with
  | zero => exact absurd enough (Nat.not_lt_zero _)
  | succ fuel ih =>
      obtain ⟨next,done,⟨m,after,on',least,there,_⟩ | ⟨all,ended,_⟩⟩ := setToNextOneNext h at'
      · have rest : S.filter (n < ·) = S.filter (m ≤ ·) := Finset.filter_congr fun j member =>
          ⟨least j member,fun from' => Nat.lt_of_lt_of_le after from'⟩
        have count' := congrArg List.length (sortFrom on')
        rw [Finset.length_sort,List.length_cons,Finset.length_sort] at count'
        rw [visited,if_pos at'.valid,done]
        simp only [Option.bind_eq_bind,Option.bind_some]
        rw [ih there on' (by rw [← rest]; omega) count',sortFrom on,rest,at'.index]
        rfl
      · have rest : S.filter (n < ·) = ∅ := Finset.filter_eq_empty_iff.mpr fun j member => Nat.not_lt.mpr (all j member)
        cases fuel with
        | zero => omega
        | succ fuel =>
            rw [visited,if_pos at'.valid,done]
            simp only [Option.bind_eq_bind,Option.bind_some]
            rw [visited,ended,sortFrom on,rest,at'.index,Finset.sort_empty]
            rfl

-- A loop over a cursor that was set to the first member.
theorem visitedAll (h : Represents v S) (fuel : Nat) (enough : S.card < fuel) :
    (do visited v fuel (← setToFirstOne v (newCursor v)).1) = some (S.sort (· ≤ ·)) := by
  obtain ⟨next,done,⟨m,_,on,least,there,_⟩ | ⟨none,ended,_⟩⟩ := setToNextOneAfterNext (c := newCursor v) h 0
  · have all : S.filter (m ≤ ·) = S := Finset.filter_true_of_mem fun j member => least j member (Nat.zero_le j)
    rw [setToFirstOne,done]
    simp only [Option.bind_eq_bind,Option.bind_some]
    rw [visitedFrom h fuel there on (by rw [all]; exact enough),all]
  · have empty : S = ∅ := Finset.eq_empty_of_forall_notMem fun j on => Nat.not_lt_zero j (none j on)
    rw [setToFirstOne,done]
    simp only [Option.bind_eq_bind,Option.bind_some]
    cases fuel with
    | zero => omega
    | succ fuel =>
        rw [visited,ended,empty,Finset.sort_empty]
        rfl

end Visit

end OmrCompiler.DenseBits
