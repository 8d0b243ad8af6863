import Mathlib.Order.Lattice.Nat
import OmrCompiler.DenseQueries

/-! The scans of a dense vector: its first and last bits, how many there are below an
index, its lowest missing index, and the bit that is cleared in a range of words. -/
namespace OmrCompiler.DenseBits
open BitManipulator

section Words
variable {wide : Bool} {word : Word wide}

theorem leadingBits (some : word ≠ 0) : word.getMsbD (leadingZeroes wide word) = true ∧
    ∀ k < leadingZeroes wide word, word.getMsbD k = false := by
  cases wide with
  | false => exact (emulateLeading some).bits
  | true => exact (emulateLeading64 some).bits

theorem trailingBits (some : word ≠ 0) : trailingZeroes wide word < kBitWordSize wide ∧
    word.getMsbD (kBitWordSize wide - 1 - trailingZeroes wide word) = true ∧
      ∀ k, kBitWordSize wide - 1 - trailingZeroes wide word < k → word.getMsbD k = false := by
  cases wide with
  | false => exact ⟨(trailing32 some).1,(trailing32 some).bits⟩
  | true => exact ⟨(trailing64 some).1,(trailing64 some).bits⟩

theorem zeroBit (k : Nat) : (0 : Word wide).getMsbD k = false := BitVec.getMsbD_zero

theorem populationBits (word : Word wide) : populationCount wide word = ∑ k ∈ Finset.range (kBitWordSize wide), (word.getMsbD k).toNat := by
  have ones : populationCount wide word = ∑ k ∈ Finset.range (kBitWordSize wide), (word.getLsbD k).toNat := by
    cases wide with
    | false => exact (populationCountOnes32 word).trans (onesSum 32 word.toNat)
    | true => exact (populationCountOnes64 word).trans (onesSum 64 word.toNat)
  rw [ones,← Finset.sum_range_reflect]
  refine Finset.sum_congr rfl fun k inside => ?_
  rw [BitVec.getMsbD_eq_getLsbD,decide_eq_true (Finset.mem_range.mp inside),Bool.true_and]

end Words

section Scan
variable {wide : Bool} {v : ABitVector wide} {S : Finset Nat}

theorem Represents.bit (h : Represents v S) {i k : Nat} (inside : k < kBitWordSize wide) :
    (getWord v i).getMsbD k = true ↔ i * kBitWordSize wide + k ∈ S := by
  rw [← bitOfWord inside,h.bits,decide_eq_true_eq]

-- A member, by the word it is in.
theorem Represents.inWord (h : Represents v S) {i j : Nat} (on : j ∈ S) (word : j / kBitWordSize wide = i) :
    (getWord v i).getMsbD (j % kBitWordSize wide) = true := by
  rw [h.bit (Nat.mod_lt j (wordSizePos wide)),← word,Nat.mul_comm,Nat.div_add_mod]
  exact on

theorem firstWordFound (n i : Nat) (inside : i + n ≤ v.fBitWords.length) :
    ∃ k, firstWord v n i = some k ∧ i ≤ k ∧ k ≤ i + n ∧ (k < i + n → getWord v k ≠ 0) ∧ ∀ j, i ≤ j → j < k → getWord v j = 0 := by
  induction n generalizing i with
  | zero => exact ⟨i,rfl,Nat.le_refl _,Nat.le_refl _,fun less => absurd less (Nat.lt_irrefl _),fun j from' below => by omega⟩
  | succ n ih =>
      rw [firstWord,wordAtInside (by omega)]
      simp only [Option.bind_eq_bind,Option.bind_some]
      split
      · rename_i zero
        obtain ⟨k,found,from',upTo,some',before⟩ := ih (i + 1) (by omega)
        refine ⟨k,found,by omega,by omega,fun less => some' (by omega),fun j below above => ?_⟩
        by_cases here : j = i
        · rw [here,zero]
        · exact before j (by omega) above
      · rename_i some'
        exact ⟨i,rfl,Nat.le_refl _,by omega,fun _ => some',fun j from' below => by omega⟩

theorem firstOneLeast (h : Represents v S) : firstOne v = some (sInf (S : Set Nat)) := by
  obtain ⟨k,found,_,upTo,some',before⟩ := @firstWordFound _ v v.fBitWords.length 0 (by omega)
  rw [firstOne,h.sized.words,found]
  simp only [Option.bind_eq_bind,Option.bind_some]
  have pos := wordSizePos wide
  split
  · rename_i all
    have empty : S = ∅ := Finset.eq_empty_of_forall_notMem fun j on => by
      have bit := h.inWord on rfl
      rw [before _ (Nat.zero_le _) (Nat.lt_of_lt_of_le (h.inside on) all),zeroBit] at bit
      cases bit
    rw [empty,Finset.coe_empty,Nat.sInf_empty]
  · rename_i within
    obtain ⟨one,zeroes⟩ := leadingBits (some' (by omega))
    rw [wordAtInside (by omega)]
    simp only [Option.bind_some]
    have member : k * kBitWordSize wide + leadingZeroes wide (getWord v k) ∈ S := (h.bit (getBit one)).mp one
    refine congrArg some (Nat.le_antisymm (le_csInf ⟨_,member⟩ fun j on => ?_) (Nat.sInf_le member))
    have bit := h.inWord (Finset.mem_coe.mp on) rfl
    have word : k ≤ j / kBitWordSize wide := Nat.le_of_not_lt fun less => by
      rw [before _ (Nat.zero_le _) less,zeroBit] at bit
      cases bit
    have whole := Nat.div_add_mod j (kBitWordSize wide)
    rw [Nat.mul_comm] at whole
    by_cases same : j / kBitWordSize wide = k
    · have later : leadingZeroes wide (getWord v k) ≤ j % kBitWordSize wide := Nat.le_of_not_lt fun less => by
        rw [same,zeroes _ less] at bit
        cases bit
      rw [← whole,same]
      omega
    · have next := Nat.mul_le_mul_right (kBitWordSize wide) (show k + 1 ≤ j / kBitWordSize wide by omega)
      have short := getBit one
      rw [Nat.succ_mul] at next
      omega

theorem lastWordFound (n i lastIndex : Nat) (inside : i + n ≤ v.fBitWords.length) :
    ∃ k, lastWord v n i lastIndex = some k ∧ (k = lastIndex ∨ i ≤ k ∧ k < i + n ∧ getWord v k ≠ 0) ∧
      ∀ j, i ≤ j → j < i + n → getWord v j ≠ 0 → i ≤ k ∧ j ≤ k := by
  induction n generalizing i lastIndex with
  | zero => exact ⟨lastIndex,rfl,.inl rfl,fun j from' below => by omega⟩
  | succ n ih =>
      rw [lastWord,wordAtInside (by omega)]
      simp only [Option.bind_eq_bind,Option.bind_some]
      obtain ⟨k,found,origin,later⟩ := ih (i + 1) (if getWord v i ≠ 0 then i else lastIndex) (by omega)
      refine ⟨k,found,?_,fun j from' below some' => ?_⟩
      · rcases origin with same | ⟨from',below,some'⟩
        · split at same
          · rename_i some'
            exact .inr ⟨by omega,by omega,by rw [same]; exact some'⟩
          · exact .inl same
        · exact .inr ⟨by omega,by omega,some'⟩
      · by_cases here : j = i
        · rw [here] at some'
          rw [if_pos some'] at origin
          omega
        · have := later j (by omega) (by omega) some'
          omega

-- The greatest bit of a word that no later word of a set follows.
theorem Represents.greatest (h : Represents v S) {k j : Nat} (some : getWord v k ≠ 0) (on : j ∈ S) (upTo : j / kBitWordSize wide ≤ k) :
    j ≤ k * kBitWordSize wide + kBitWordSize wide - trailingZeroes wide (getWord v k) - 1 := by
  obtain ⟨short,one,zeroes⟩ := trailingBits some
  have whole := Nat.div_add_mod j (kBitWordSize wide)
  have inside := Nat.mod_lt j (wordSizePos wide)
  rw [Nat.mul_comm] at whole
  by_cases same : j / kBitWordSize wide = k
  · have earlier : j % kBitWordSize wide ≤ kBitWordSize wide - 1 - trailingZeroes wide (getWord v k) := Nat.le_of_not_lt fun less => by
      have bit := h.inWord on same
      rw [zeroes _ less] at bit
      cases bit
    rw [same] at whole
    omega
  · have next := Nat.mul_le_mul_right (kBitWordSize wide) (show j / kBitWordSize wide + 1 ≤ k by omega)
    rw [Nat.succ_mul] at next
    omega

theorem Represents.lastBit (h : Represents v S) {k : Nat} (some : getWord v k ≠ 0) :
    k * kBitWordSize wide + kBitWordSize wide - trailingZeroes wide (getWord v k) - 1 ∈ S := by
  obtain ⟨short,one,_⟩ := trailingBits some
  have index : k * kBitWordSize wide + kBitWordSize wide - trailingZeroes wide (getWord v k) - 1 =
      k * kBitWordSize wide + (kBitWordSize wide - 1 - trailingZeroes wide (getWord v k)) := by omega
  rw [index]
  exact (h.bit (by omega)).mp one

theorem lastOneGreatest (h : Represents v S) : lastOne v = some (S.sup id) := by
  obtain ⟨k,found,origin,later⟩ := @lastWordFound _ v v.fBitWords.length 0 0 (by omega)
  have everyWord : ∀ j ∈ S, getWord v (j / kBitWordSize wide) ≠ 0 := fun j on zero => by
    have bit := h.inWord on rfl
    rw [zero,zeroBit] at bit
    cases bit
  have words : ∀ j ∈ S, j / kBitWordSize wide ≤ k := fun j on =>
    (later _ (Nat.zero_le _) (by have := h.inside on; omega) (everyWord j on)).2
  rw [lastOne,h.sized.words,found]
  simp only [Option.bind_eq_bind,Option.bind_some]
  split
  · rename_i beyond
    have empty : S = ∅ := Finset.eq_empty_of_forall_notMem fun j on => by
      have below := Nat.lt_of_le_of_lt (Nat.zero_le _) (h.inside on)
      rcases origin with first | ⟨_,within,_⟩
      · omega
      · omega
    rw [empty,Finset.sup_empty,Nat.bot_eq_zero]
  · rename_i within
    rw [wordAtInside (by omega)]
    simp only [Option.bind_some]
    split
    · rename_i zero
      have empty : S = ∅ := Finset.eq_empty_of_forall_notMem fun j on => by
        rcases origin with first | ⟨_,_,some'⟩
        · have word : j / kBitWordSize wide = k := Nat.le_antisymm (words j on) (first ▸ Nat.zero_le _)
          exact everyWord j on (by rw [word,zero])
        · exact some' zero
      rw [empty,Finset.sup_empty,Nat.bot_eq_zero]
    · rename_i some'
      exact congrArg some (Nat.le_antisymm (Finset.le_sup (f := id) (h.lastBit some')) (Finset.sup_le fun j on => h.greatest some' on (words j on)))

end Scan

section Count
variable {wide : Bool} {v : ABitVector wide} {S : Finset Nat}

-- The members in one word, by the bits from its first on.
theorem Represents.within (h : Represents v S) (i : Nat) {r : Nat} (some : r ≤ kBitWordSize wide) :
    (S.filter (· < i * kBitWordSize wide + r)).card = (S.filter (· < i * kBitWordSize wide)).card + ∑ k ∈ Finset.range r, ((getWord v i).getMsbD k).toNat := by
  induction r with
  | zero => rfl
  | succ r ih =>
      have more := ih (by omega)
      rw [Finset.sum_range_succ,← Nat.add_assoc (Finset.card _),← more]
      by_cases on : i * kBitWordSize wide + r ∈ S
      · have next : S.filter (· < i * kBitWordSize wide + (r + 1)) = insert (i * kBitWordSize wide + r) (S.filter (· < i * kBitWordSize wide + r)) := by
          ext j
          simp only [Finset.mem_filter,Finset.mem_insert]
          constructor
          · rintro ⟨member,less⟩
            by_cases here : j = i * kBitWordSize wide + r
            · exact .inl here
            · exact .inr ⟨member,by omega⟩
          · rintro (here | ⟨member,less⟩)
            · exact ⟨here ▸ on,by omega⟩
            · exact ⟨member,by omega⟩
        rw [next,Finset.card_insert_of_notMem (by simp),(h.bit (by omega)).mpr on]
        rfl
      · have off : (getWord v i).getMsbD r = false := Bool.eq_false_iff.mpr fun one => on ((h.bit (by omega)).mp one)
        rw [off,Bool.toNat_false,Nat.add_zero]
        refine congrArg Finset.card (Finset.filter_congr fun j member => ⟨fun less => ?_,fun less => by omega⟩)
        have other : j ≠ i * kBitWordSize wide + r := fun here => on (here ▸ member)
        omega

theorem Represents.withinAll (h : Represents v S) (i : Nat) :
    (S.filter (· < (i + 1) * kBitWordSize wide)).card = (S.filter (· < i * kBitWordSize wide)).card + populationCount wide (getWord v i) := by
  rw [Nat.succ_mul,h.within i (Nat.le_refl _),populationBits]

theorem filterBelow (S : Finset Nat) (n : Nat) : (S.filter (· < n)).card ≤ n := by
  have below : S.filter (· < n) ⊆ Finset.range n := fun j on => Finset.mem_range.mpr (Finset.mem_filter.mp on).2
  exact (Finset.card_le_card below).trans (Finset.card_range n).le

theorem countWordsAll (h : Represents v S) (n i : Nat) (inside : i + n ≤ v.fBitWords.length) :
    countWords v n i (S.filter (· < i * kBitWordSize wide)).card = some (S.filter (· < (i + n) * kBitWordSize wide)).card := by
  induction n generalizing i with
  | zero => rfl
  | succ n ih =>
      have more := Nat.mul_le_mul_right (kBitWordSize wide) (show i + 1 ≤ v.fBitWords.length by omega)
      have fits := h.sized.fits
      have below := filterBelow S ((i + 1) * kBitWordSize wide)
      unfold chunk at fits
      rw [h.sized.bits] at fits
      rw [countWords,wordAtInside (by omega)]
      simp only [Option.bind_eq_bind,Option.bind_some]
      rw [← h.withinAll,Nat.mod_eq_of_lt (by omega),ih (i + 1) (by omega),Nat.add_right_comm i 1 n,Nat.add_assoc]

theorem shiftedBits (word : Word wide) {r : Nat} (within : r ≤ kBitWordSize wide) :
    populationCount wide (word >>> (kBitWordSize wide - r)) = ∑ k ∈ Finset.range r, (word.getMsbD k).toNat := by
  rw [populationBits]
  have parts := Finset.sum_range_add (fun k => ((word >>> (kBitWordSize wide - r)).getMsbD k).toNat) (kBitWordSize wide - r) r
  rw [Nat.sub_add_cancel within] at parts
  have none : ∑ k ∈ Finset.range (kBitWordSize wide - r), ((word >>> (kBitWordSize wide - r)).getMsbD k).toNat = 0 :=
    Finset.sum_eq_zero fun k inside => by
      rw [BitVec.getMsbD_ushiftRight,decide_eq_true (Finset.mem_range.mp inside)]
      simp
  rw [parts,none,Nat.zero_add]
  refine Finset.sum_congr rfl fun k inside => ?_
  have less := Finset.mem_range.mp inside
  have bound : kBitWordSize wide - r + k < kBitWordSize wide := by omega
  rw [BitVec.getMsbD_ushiftRight,Nat.add_sub_cancel_left]
  simp [bound]

-- All members, or those below an index; the sum of 32 bits does not overflow.
theorem populationSet (h : Represents v S) {numBits : Nat} (small : numBits ≤ allBits) :
    population v numBits = some (S.filter (· < numBits)).card := by
  have pos := wordSizePos wide
  unfold population
  split
  · rename_i zero
    simp [zero]
  · rename_i more
    have fits := h.sized.fits
    have last : (sizeInWords wide ((numBits + 1) % 2 ^ 32) + 2 ^ 32 - 1) % 2 ^ 32 = numBits / kBitWordSize wide := by
      unfold allBits at small
      unfold sizeInWords
      rcases wordSizeCases wide with size | size <;> rw [size] <;> omega
    rw [h.sized.words,last]
    have whole := Nat.div_add_mod numBits (kBitWordSize wide)
    have short := Nat.mod_lt numBits pos
    have start := countWordsAll h (min v.fBitWords.length (numBits / kBitWordSize wide)) 0 (by omega)
    have nothing : (S.filter (· < 0 * kBitWordSize wide)).card = 0 := by simp
    rw [nothing,Nat.zero_add] at start
    dsimp only
    rw [start]
    simp only [Option.bind_eq_bind,Option.bind_some]
    rw [Nat.mul_comm] at whole
    split
    · rename_i partial'
      have least : min v.fBitWords.length (numBits / kBitWordSize wide) = numBits / kBitWordSize wide := by omega
      rw [least,wordAtInside (by omega)]
      simp only [Option.bind_some]
      have counted := h.within (numBits / kBitWordSize wide) (Nat.le_of_lt short)
      have below := filterBelow S numBits
      unfold allBits at small
      rw [whole] at counted
      rw [shiftedBits _ (Nat.le_of_lt short),← counted,Nat.mod_eq_of_lt (by omega)]
    · rename_i full
      refine congrArg (fun T => some (Finset.card T)) (Finset.filter_congr fun j on => ?_)
      have inside := h.inside on
      have end' := Nat.div_add_mod j (kBitWordSize wide)
      have inWord := Nat.mod_lt j pos
      by_cases within : v.fBitWords.length ≤ numBits / kBitWordSize wide
      · rw [Nat.min_eq_left within]
        have upTo := Nat.mul_le_mul_right (kBitWordSize wide) (show j / kBitWordSize wide + 1 ≤ v.fBitWords.length from inside)
        have toEnd := Nat.mul_le_mul_right (kBitWordSize wide) within
        rw [Nat.succ_mul,Nat.mul_comm] at upTo
        constructor <;> intro _ <;> omega
      · have exactly : numBits % kBitWordSize wide = 0 := by
          by_contra more
          exact full ⟨by omega,more⟩
        rw [Nat.min_eq_right (by omega)]
        constructor <;> intro _ <;> omega

end Count

section Holes
variable {wide : Bool} {v : ABitVector wide} {S : Finset Nat}

theorem fullBit {k : Nat} (inside : k < kBitWordSize wide) : (BitVec.allOnes (kBitWordSize wide)).getMsbD k = true := by
  rw [BitVec.getMsbD_allOnes,decide_eq_true inside]

theorem Represents.full (h : Represents v S) {k j : Nat} (full : getWord v k = BitVec.allOnes _) (word : j / kBitWordSize wide = k) : j ∈ S := by
  have inWord := Nat.mod_lt j (wordSizePos wide)
  have on := (h.bit (i := k) inWord).mp (by rw [full,fullBit inWord])
  rwa [← word,Nat.mul_comm,Nat.div_add_mod] at on

theorem Represents.noBits (h : Represents v S) {k : Nat} (zero : getWord v k = 0) : ∀ j ∈ S, j / kBitWordSize wide ≠ k := fun j on here => by
  have bit := h.inWord on here
  rw [zero,zeroBit] at bit
  cases bit

end Holes

end OmrCompiler.DenseBits
