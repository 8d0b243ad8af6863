import OmrCompiler.DenseBits

/-! The bits of a dense vector: which growth leaves as they are, and what a store to a word
and an assignment to a bit do to them. -/
namespace OmrCompiler.DenseBits
open BitManipulator

section Words
variable {wide : Bool} {v : ABitVector wide} {i n : Nat}

theorem wordSizeCases (wide : Bool) : kBitWordSize wide = 32 ∨ kBitWordSize wide = 64 := by
  cases wide
  · exact .inl rfl
  · exact .inr rfl

theorem wordSizePos (wide : Bool) : 0 < kBitWordSize wide := by
  cases wide <;> decide

theorem highBit (wide : Bool) (k : Nat) : (kHighBit wide).getMsbD k = decide (k = 0) := by
  have power : kHighBit wide = BitVec.twoPow _ (kBitWordSize wide - 1) := by cases wide <;> rfl
  have pos := wordSizePos wide
  rw [power,BitVec.getMsbD_eq_getLsbD,BitVec.getLsbD_twoPow,Bool.eq_iff_iff]
  simp only [Bool.and_eq_true,decide_eq_true_eq]
  omega

theorem wordZero {word : Word wide} : word = 0 ↔ ∀ k < kBitWordSize wide, word.getMsbD k = false := by
  constructor
  · rintro rfl k _
    exact BitVec.getMsbD_zero
  · intro none
    refine BitVec.eq_of_getMsbD_eq fun k inside => ?_
    rw [none k inside]
    exact BitVec.getMsbD_zero.symm

theorem andcZero (word : Word wide) : word &&& ~~~0 = word := by
  change word &&& ~~~0#_ = word
  rw [BitVec.not_zero,BitVec.and_allOnes]

def getWord (v : ABitVector wide) (i : Nat) : Word wide := v.fBitWords.getD i 0

def bitOf (v : ABitVector wide) (i : Nat) : Bool := (getWord v (i / kBitWordSize wide)).getMsbD (i % kBitWordSize wide)

-- Every bit of a word by its own index.
theorem bitOfWord {k : Nat} (inside : k < kBitWordSize wide) : bitOf v (i * kBitWordSize wide + k) = (getWord v i).getMsbD k := by
  have pos := wordSizePos wide
  have quotient : (i * kBitWordSize wide + k) / kBitWordSize wide = i := by
    rw [Nat.mul_comm,Nat.mul_add_div pos,Nat.div_eq_of_lt inside,Nat.add_zero]
  have remainder : (i * kBitWordSize wide + k) % kBitWordSize wide = k := by
    rw [Nat.mul_comm,Nat.mul_add_mod,Nat.mod_eq_of_lt inside]
  rw [bitOf,quotient,remainder]

structure Sized (v : ABitVector wide) : Prop where
  bits : v.fNumBits = v.fBitWords.length * kBitWordSize wide
  fits : v.fNumBits + chunk ≤ 2 ^ 32

theorem sizeWhole (small : n + chunk ≤ 2 ^ 32) : sizeInWords wide n = (n + kBitWordSize wide - 1) / kBitWordSize wide := by
  unfold sizeInWords
  unfold chunk at small
  rcases wordSizeCases wide with size | size <;> rw [size,Nat.mod_eq_of_lt (by omega)]

theorem sizeMultiple (small : n * kBitWordSize wide + chunk ≤ 2 ^ 32) : sizeInWords wide (n * kBitWordSize wide) = n := by
  rw [sizeWhole small]
  rcases wordSizeCases wide with size | size <;> rw [size] <;> omega

theorem Sized.words (sized : Sized v) : sizeInWords wide v.fNumBits = v.fBitWords.length := by
  have fits := sized.fits
  rw [sized.bits] at fits ⊢
  exact sizeMultiple fits

theorem Sized.lengths {w : ABitVector wide} (sized : Sized v) (sized' : Sized w) : v.fNumBits ≤ w.fNumBits ↔ v.fBitWords.length ≤ w.fBitWords.length := by
  rw [sized.bits,sized'.bits]
  exact Nat.mul_le_mul_right_iff (wordSizePos wide)

theorem wordAtInside (inside : i < v.fBitWords.length) : wordAt v i = some (getWord v i) := by
  unfold wordAt getWord
  rw [List.getD_eq_getElem?_getD,List.getElem?_eq_getElem inside]
  rfl

theorem getWordBeyond (beyond : v.fBitWords.length ≤ i) : getWord v i = 0 := by
  unfold getWord
  rw [List.getD_eq_getElem?_getD,List.getElem?_eq_none beyond]
  rfl

theorem bitOfBeyond (sized : Sized v) (beyond : v.fNumBits ≤ i) : bitOf v i = false := by
  have outside : v.fBitWords.length ≤ i / kBitWordSize wide := by
    rw [Nat.le_div_iff_mul_le (wordSizePos wide),← sized.bits]
    exact beyond
  rw [bitOf,getWordBeyond outside]
  exact BitVec.getMsbD_zero

theorem insideWords (sized : Sized v) (inside : i < v.fNumBits) : i / kBitWordSize wide < v.fBitWords.length := by
  rw [Nat.div_lt_iff_lt_mul (wordSizePos wide),← sized.bits]
  exact inside

structure Stored (v v' : ABitVector wide) (i : Nat) (word : Word wide) : Prop where
  numBits : v'.fNumBits = v.fNumBits
  length : v'.fBitWords.length = v.fBitWords.length
  getWord : ∀ j, getWord v' j = if j = i then word else getWord v j

theorem setWordAtInside (inside : i < v.fBitWords.length) (word : Word wide) : ∃ v', setWordAt v i word = some v' ∧ Stored v v' i word := by
  refine ⟨_,if_pos inside,rfl,List.length_set,fun j => ?_⟩
  unfold getWord
  simp only [List.getD_eq_getElem?_getD,List.getElem?_set]
  by_cases here : j = i
  · rw [if_pos here,if_pos here.symm,if_pos inside]
    rfl
  · rw [if_neg here,if_neg (Ne.symm here)]

theorem Stored.sized {v' : ABitVector wide} {word : Word wide} (stored : Stored v v' i word) (sized : Sized v) : Sized v' :=
  ⟨by rw [stored.numBits,stored.length,sized.bits],by rw [stored.numBits]; exact sized.fits⟩

end Words

section Grow
variable {wide : Bool} {v : ABitVector wide}

-- Which requests for more bits do not wrap around.
def Fits (newBitSize : Nat) : Prop := newBitSize + chunk < 2 ^ 32

structure Grown (v v' : ABitVector wide) (newBitSize : Nat) : Prop where
  sized : Sized v'
  enough : newBitSize ≤ v'.fNumBits
  longer : v.fNumBits ≤ v'.fNumBits
  kept : newBitSize ≤ v.fNumBits → v'.fNumBits = v.fNumBits
  bound : v'.fNumBits ≤ max v.fNumBits (max (2 ^ 31) (newBitSize + chunk))
  getWord : ∀ i, getWord v' i = getWord v i

theorem doubledAbove {newBitSize : Nat} (small : newBitSize ≤ 2 ^ 31) {fuel k : Nat} (within : k ≤ 31) (enough : 31 < fuel + k) :
    ∃ size, doubled newBitSize fuel (2 ^ k) = some size ∧ newBitSize ≤ size ∧ size ≤ 2 ^ 31 := by
  induction fuel generalizing k with
  | zero => omega
  | succ fuel ih =>
      unfold doubled
      split
      · rename_i less
        have power : 2 ^ k < 2 ^ 31 := Nat.lt_of_lt_of_le less small
        have next : k + 1 ≤ 31 := (Nat.pow_lt_pow_iff_right (by decide)).mp power
        have twice : 2 ^ k * 2 % 2 ^ 32 = 2 ^ (k + 1) := by
          rw [Nat.pow_succ]
          exact Nat.mod_eq_of_lt (by omega)
        rw [twice]
        exact ih next (by omega)
      · rename_i reached
        exact ⟨_,rfl,Nat.le_of_not_lt reached,Nat.pow_le_pow_right (by decide) within⟩

theorem newSizeEnough {newBitSize : Nat} {geometric forceGeometric : Bool} (fits : Fits newBitSize) (force : forceGeometric = true → newBitSize ≤ 2 ^ 31) :
    ∃ size, newSize newBitSize geometric forceGeometric = some size ∧ newBitSize ≤ size ∧ size + chunk ≤ 2 ^ 32 ∧
      (size ≤ 2 ^ 31 ∨ size % chunk = 0 ∧ size ≤ newBitSize + chunk) := by
  unfold Fits chunk at fits
  unfold newSize chunk
  split
  · rename_i power
    have small : newBitSize ≤ 2 ^ 31 := by
      cases forced : forceGeometric with
      | true => exact force forced
      | false =>
          rw [forced] at power
          have less : newBitSize < 1024 := by simpa using (Bool.and_eq_true_iff.mp power).2
          omega
    obtain ⟨size,found,above,below⟩ := @doubledAbove newBitSize small 33 0 (by decide) (by decide)
    exact ⟨size,found,above,by omega,.inl below⟩
  · rw [Nat.mod_eq_of_lt (by omega)]
    exact ⟨_,rfl,by omega,by omega,.inr ⟨by omega,by omega⟩⟩

theorem growToEnough (sized : Sized v) {newBitSize : Nat} {geometric forceGeometric : Bool} (fits : v.fNumBits < newBitSize → Fits newBitSize)
    (force : forceGeometric = true → newBitSize ≤ 2 ^ 31) :
    ∃ v', growTo v newBitSize geometric forceGeometric = some v' ∧ Grown v v' newBitSize := by
  unfold growTo
  split
  · rename_i less
    refine ⟨_,rfl,?_⟩
    split
    · rename_i empty
      have none : v.fBitWords = [] := by
        have bits := sized.bits
        rw [empty] at bits
        have pos := wordSizePos wide
        exact List.length_eq_zero_iff.mp ((Nat.mul_eq_zero.mp bits.symm).resolve_right (Nat.ne_of_gt pos))
      refine ⟨⟨by simp [clear],by simp [clear,chunk]⟩,?_,?_,fun _ => empty.symm,Nat.zero_le _,fun i => ?_⟩
      · simp only [clear]
        omega
      · simp [clear,empty]
      · simp [getWord,clear,none]
    · exact ⟨sized,less,Nat.le_refl _,fun _ => rfl,Nat.le_max_left _ _,fun _ => rfl⟩
  · rename_i more
    obtain ⟨size,found,above,below,tight⟩ := @newSizeEnough newBitSize geometric forceGeometric (fits (Nat.lt_of_not_le more)) force
    rw [found]
    simp only [Option.bind_eq_bind,Option.bind_some]
    have words : sizeInWords wide size * kBitWordSize wide % 2 ^ 32 = sizeInWords wide size * kBitWordSize wide ∧
        size ≤ sizeInWords wide size * kBitWordSize wide ∧ sizeInWords wide size * kBitWordSize wide + chunk ≤ 2 ^ 32 := by
      rw [sizeWhole below]
      unfold chunk at below ⊢
      rcases wordSizeCases wide with size' | size' <;> rw [size'] <;> omega
    have bound : sizeInWords wide size * kBitWordSize wide ≤ max (2 ^ 31) (newBitSize + chunk) := by
      rw [sizeWhole below]
      unfold chunk at tight ⊢
      rcases wordSizeCases wide with size' | size' <;> rw [size'] <;> omega
    rw [words.1,sizeMultiple words.2.2]
    split
    · rename_i empty
      refine ⟨_,rfl,⟨by simp,words.2.2⟩,Nat.le_trans above words.2.1,by rw [empty]; exact Nat.zero_le _,
        fun less => absurd less more,Nat.le_trans bound (Nat.le_max_right _ _),fun i => ?_⟩
      have none : getWord v i = 0 := by
        refine getWordBeyond ?_
        have bits := sized.bits
        rw [empty] at bits
        have zero := (Nat.mul_eq_zero.mp bits.symm).resolve_right (Nat.ne_of_gt (wordSizePos wide))
        omega
      rw [none]
      unfold getWord
      simp only [List.getD_eq_getElem?_getD,List.getElem?_replicate]
      split <;> rfl
    · rw [if_neg (by omega)]
      refine ⟨_,rfl,⟨?_,words.2.2⟩,Nat.le_trans above words.2.1,?_,fun less => absurd less more,Nat.le_trans bound (Nat.le_max_right _ _),fun i => ?_⟩
      · have wider : v.fBitWords.length ≤ sizeInWords wide size := by
          refine Nat.le_of_mul_le_mul_right ?_ (wordSizePos wide)
          rw [← sized.bits]
          omega
        rw [List.length_append,List.length_replicate,sized.words,Nat.add_sub_cancel' wider]
      · change v.fNumBits ≤ sizeInWords wide size * kBitWordSize wide
        omega
      · unfold getWord
        rw [List.getD_eq_getElem?_getD,List.getD_eq_getElem?_getD]
        by_cases inside : i < v.fBitWords.length
        · rw [List.getElem?_append_left inside]
        · rw [List.getElem?_append_right (Nat.le_of_not_lt inside),List.getElem?_eq_none (Nat.le_of_not_lt inside),List.getElem?_replicate]
          split <;> rfl

-- A request that is not geometric gets more than it asked for.
theorem growToBeyond {v' : ABitVector wide} {newBitSize : Nat} {forceGeometric : Bool} (more : v.fNumBits < newBitSize) (fits : Fits newBitSize)
    (done : growTo v newBitSize false forceGeometric = some v') : newBitSize < v'.fNumBits := by
  unfold Fits chunk at fits
  have size : newSize newBitSize false forceGeometric = some (newBitSize + 1024 - newBitSize % 1024) := by
    rw [newSize,Bool.false_and,if_neg Bool.false_ne_true,chunk,Nat.mod_eq_of_lt (by omega)]
  have words : newBitSize < sizeInWords wide (newBitSize + 1024 - newBitSize % 1024) * kBitWordSize wide % 2 ^ 32 := by
    unfold sizeInWords
    rcases wordSizeCases wide with size | size <;> rw [size] <;> omega
  rw [growTo,if_neg (by omega),size] at done
  simp only [Option.bind_eq_bind,Option.bind_some] at done
  split at done
  · cases done
    exact words
  · split at done
    · cases done
    · cases done
      exact words

end Grow

section Assign
variable {wide : Bool} {v : ABitVector wide}

theorem Stored.bitOf {v' : ABitVector wide} {i : Nat} {word : Word wide} (stored : Stored v v' i word) (j : Nat) :
    bitOf v' j = if j / kBitWordSize wide = i then word.getMsbD (j % kBitWordSize wide) else bitOf v j := by
  unfold DenseBits.bitOf
  rw [stored.getWord]
  split <;> rfl

theorem Grown.bitOf {v' : ABitVector wide} {newBitSize : Nat} (grown : Grown v v' newBitSize) (j : Nat) : bitOf v' j = bitOf v j := by
  unfold DenseBits.bitOf
  rw [grown.getWord]

theorem oneBit {shift k : Nat} (inside : shift < kBitWordSize wide) :
    ((1 : Word wide) <<< shift).getMsbD k = decide (k = kBitWordSize wide - 1 - shift) := by
  have power : (1 : Word wide) <<< shift = BitVec.twoPow _ shift := (BitVec.twoPow_eq _ _).symm
  rw [power,BitVec.getMsbD_eq_getLsbD,BitVec.getLsbD_twoPow,Bool.eq_iff_iff]
  simp only [Bool.and_eq_true,decide_eq_true_eq]
  omega

theorem assignedWord (word : Word wide) (bitValue : Bool) {b k : Nat} (inside : b < kBitWordSize wide) (within : k < kBitWordSize wide) :
    (word &&& ~~~((1 : Word wide) <<< (kBitWordSize wide - b - 1)) |||
      ((if bitValue then 1 else 0 : Word wide) <<< (kBitWordSize wide - b - 1))).getMsbD k = if k = b then bitValue else word.getMsbD k := by
  have shift : kBitWordSize wide - b - 1 < kBitWordSize wide := by omega
  have back : kBitWordSize wide - 1 - (kBitWordSize wide - b - 1) = b := by omega
  rw [BitVec.getMsbD_or,BitVec.getMsbD_and,BitVec.getMsbD_not,oneBit shift,back]
  cases bitValue with
  | false => by_cases here : k = b <;> simp [here,within]
  | true =>
      simp only [if_true]
      rw [oneBit shift,back]
      by_cases here : k = b <;> simp [here,within]

-- A vector after an operation whose indices are below 2^31.
structure Becomes (v v' : ABitVector wide) (bit : Nat → Bool) : Prop where
  sized : Sized v'
  bound : v'.fNumBits ≤ max v.fNumBits (2 ^ 31 + chunk)
  bits : ∀ j, bitOf v' j = bit j

theorem assignBit (sized : Sized v) {n : Nat} (small : n < 2 ^ 31) (bitValue : Bool) :
    ∃ v', assign v n bitValue = some v' ∧ Becomes v v' fun j => if j = n then bitValue else bitOf v j := by
  unfold assign
  split
  · rename_i beyond
    refine ⟨v,rfl,sized,Nat.le_max_left _ _,fun j => ?_⟩
    split
    · rename_i here
      rw [here,beyond.1,bitOfBeyond sized (Nat.le_of_lt beyond.2)]
    · rfl
  · obtain ⟨grownTo,found,grown⟩ := @growToEnough _ v sized (n + 1) true false (fun _ => by unfold Fits chunk; omega) nofun
    have inside := insideWords grown.sized (Nat.lt_of_lt_of_le (Nat.lt_succ_self n) grown.enough)
    have bit := Nat.mod_lt n (wordSizePos wide)
    rw [found]
    simp only [Option.bind_eq_bind,Option.bind_some]
    rw [wordAtInside inside]
    simp only [Option.bind_some]
    obtain ⟨v',done,stored⟩ := setWordAtInside inside (getWord grownTo (n / kBitWordSize wide) &&&
      ~~~((1 : Word wide) <<< (kBitWordSize wide - n % kBitWordSize wide - 1)) |||
        ((if bitValue then 1 else 0 : Word wide) <<< (kBitWordSize wide - n % kBitWordSize wide - 1)))
    have bound := grown.bound
    refine ⟨v',done,stored.sized grown.sized,by rw [stored.numBits]; omega,fun j => ?_⟩
    rw [stored.bitOf,← grown.bitOf]
    by_cases word : j / kBitWordSize wide = n / kBitWordSize wide
    · rw [if_pos word,assignedWord _ _ bit (Nat.mod_lt j (wordSizePos wide))]
      have same : j % kBitWordSize wide = n % kBitWordSize wide ↔ j = n := by
        constructor
        · intro remainder
          rw [← Nat.div_add_mod j (kBitWordSize wide),word,remainder,Nat.div_add_mod]
        · rintro rfl
          rfl
      simp only [same]
      rw [← word]
      rfl
    · have other : j ≠ n := fun same => word (by rw [same])
      rw [if_neg word,if_neg other]

theorem setWordsAll (word : Word wide) (sized : Sized v) (n i : Nat) (inside : i + n ≤ v.fBitWords.length) :
    ∃ v', setWords v word n i = some v' ∧ Sized v' ∧ v'.fNumBits = v.fNumBits ∧ v'.fBitWords.length = v.fBitWords.length ∧
      ∀ j, getWord v' j = if i ≤ j ∧ j < i + n then word else getWord v j := by
  induction n generalizing v i with
  | zero => exact ⟨v,rfl,sized,rfl,rfl,fun j => by rw [if_neg (by omega)]⟩
  | succ n ih =>
      obtain ⟨next,done,stored⟩ := setWordAtInside (show i < v.fBitWords.length by omega) word
      obtain ⟨v',all,sized',numBits,length,words⟩ := ih (stored.sized sized) (i + 1) (by rw [stored.length]; omega)
      refine ⟨v',?_,sized',numBits.trans stored.numBits,length.trans stored.length,fun j => ?_⟩
      · unfold setWords
        rw [done]
        exact all
      · rw [words,stored.getWord]
        by_cases here : j = i
        · rw [if_neg (by omega),if_pos here,if_pos (by omega)]
        · rw [if_neg here]
          by_cases later : i + 1 ≤ j ∧ j < i + 1 + n
          · rw [if_pos later,if_pos (by omega)]
          · rw [if_neg later,if_neg (by omega)]

theorem setBitsAll (sized : Sized v) (n i : Nat) (small : i + n ≤ 2 ^ 31) :
    ∃ v', setBits v n i = some v' ∧ Becomes v v' fun j => decide (i ≤ j ∧ j < i + n) || bitOf v j := by
  induction n generalizing v i with
  | zero =>
      refine ⟨v,rfl,sized,Nat.le_max_left _ _,fun j => ?_⟩
      rw [decide_eq_false (by omega),Bool.false_or]
  | succ n ih =>
      obtain ⟨next,done,sized',bound,bits⟩ := assignBit sized (show i < 2 ^ 31 by omega) true
      obtain ⟨v',all,sized'',bound',bits'⟩ := ih sized' (i + 1) (by omega)
      refine ⟨v',?_,sized'',by omega,fun j => ?_⟩
      · unfold setBits
        rw [done]
        exact all
      · rw [bits',bits,Bool.eq_iff_iff]
        by_cases here : j = i
        · simp [here]
        · simp only [if_neg here,Bool.or_eq_true,decide_eq_true_eq]
          have shift : (i + 1 ≤ j ∧ j < i + 1 + n) ↔ (i ≤ j ∧ j < i + (n + 1)) := by omega
          rw [shift]

theorem setAllBits (sized : Sized v) {numBits : Nat} (small : numBits ≤ 2 ^ 31) :
    ∃ v', setAll v numBits = some v' ∧ Becomes v v' fun j => decide (j < numBits) || bitOf v j := by
  unfold setAll
  split
  · rename_i none
    exact ⟨v,rfl,sized,Nat.le_max_left _ _,fun j => by simp [none]⟩
  · rename_i some'
    obtain ⟨grownTo,found,grown⟩ := @growToEnough _ v sized numBits true false (fun _ => by unfold Fits chunk; omega) nofun
    have whole : sizeInWords wide numBits = (numBits + kBitWordSize wide - 1) / kBitWordSize wide := sizeWhole (by unfold chunk; omega)
    have pos := wordSizePos wide
    have last : (sizeInWords wide numBits - 1) * kBitWordSize wide ≤ numBits ∧
        sizeInWords wide numBits - 1 < grownTo.fBitWords.length := by
      have bits := grown.sized.bits
      have enough := grown.enough
      rw [whole]
      rcases wordSizeCases wide with size | size <;> rw [size] at bits ⊢ <;> omega
    rw [found]
    simp only [Option.bind_eq_bind,Option.bind_some]
    obtain ⟨words,stored,sized',size,_,all⟩ := setWordsAll (BitVec.allOnes _) grown.sized (sizeInWords wide numBits - 1) 0 (by omega)
    rw [stored]
    simp only [Option.bind_some]
    obtain ⟨v',done,sized'',bound,bits⟩ := setBitsAll sized' (numBits - (sizeInWords wide numBits - 1) * kBitWordSize wide)
      ((sizeInWords wide numBits - 1) * kBitWordSize wide) (by omega)
    have bound' := grown.bound
    refine ⟨v',done,sized'',by omega,fun j => ?_⟩
    have word : bitOf words j = (decide (j < (sizeInWords wide numBits - 1) * kBitWordSize wide) || bitOf v j) := by
      rw [← grown.bitOf]
      unfold bitOf
      rw [all]
      have before : j / kBitWordSize wide < sizeInWords wide numBits - 1 ↔ j < (sizeInWords wide numBits - 1) * kBitWordSize wide :=
        Nat.div_lt_iff_lt_mul pos
      by_cases full : j < (sizeInWords wide numBits - 1) * kBitWordSize wide
      · rw [if_pos ⟨Nat.zero_le _,by rw [Nat.zero_add]; exact before.mpr full⟩,BitVec.getMsbD_allOnes,decide_eq_true (Nat.mod_lt j pos),
          decide_eq_true full]
        rfl
      · rw [if_neg fun both => full (before.mp (by rw [← Nat.zero_add (sizeInWords wide numBits - 1)]; exact both.2)),decide_eq_false full,
          Bool.false_or]
    rw [bits,word,Bool.eq_iff_iff]
    simp only [Bool.or_eq_true,decide_eq_true_eq]
    have split : (j < numBits) ↔ ((sizeInWords wide numBits - 1) * kBitWordSize wide ≤ j ∧
        j < (sizeInWords wide numBits - 1) * kBitWordSize wide + (numBits - (sizeInWords wide numBits - 1) * kBitWordSize wide)) ∨
        j < (sizeInWords wide numBits - 1) * kBitWordSize wide := by omega
    rw [split,or_assoc]

end Assign

end OmrCompiler.DenseBits
