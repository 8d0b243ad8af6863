import OmrCompiler.BitChunk
import OmrCompiler.DenseWords

/-! The questions a dense vector answers about the set of its bits. -/
namespace OmrCompiler.DenseBits
open BitManipulator

section Scan
variable {wide : Bool} {v w : ABitVector wide} {S T : Finset Nat}

structure Represents (v : ABitVector wide) (S : Finset Nat) : Prop where
  sized : Sized v
  bits : ∀ i, bitOf v i = decide (i ∈ S)

theorem Represents.inside (h : Represents v S) {i : Nat} (on : i ∈ S) : i / kBitWordSize wide < v.fBitWords.length := by
  refine insideWords h.sized (Nat.lt_of_not_le fun beyond => ?_)
  have none := bitOfBeyond h.sized beyond
  rw [h.bits,decide_eq_false_iff_not] at none
  exact none on

theorem topBit (word : Word wide) (b : Nat) :
    (word <<< b >>> (kBitWordSize wide - 1) != 0) = word.getMsbD b := by
  have last : ∀ k < kBitWordSize wide, (word <<< b >>> (kBitWordSize wide - 1)).getMsbD k = (decide (k = kBitWordSize wide - 1) && word.getMsbD b) :=
    fun k within => by
      rw [BitVec.getMsbD_ushiftRight]
      by_cases here : k = kBitWordSize wide - 1
      · rw [here,Nat.sub_self,BitVec.getMsbD_shiftLeft,Nat.zero_add]
        simp [wordSizePos wide]
      · have before : k < kBitWordSize wide - 1 := by omega
        simp [here,before]
  have pos := wordSizePos wide
  rw [Bool.eq_iff_iff,bne_iff_ne,ne_eq,wordZero]
  constructor
  · intro some'
    by_contra none
    have off : word.getMsbD b = false := by simpa using none
    refine some' fun k within => ?_
    rw [last k within,off,Bool.and_false]
  · intro one none
    have zero := none (kBitWordSize wide - 1) (by omega)
    rw [last _ (by omega),one] at zero
    simp at zero

theorem valueAtBit (sized : Sized v) (i : Nat) : valueAt v i = some (bitOf v i) := by
  unfold valueAt
  split
  · rename_i beyond
    rw [bitOfBeyond sized beyond]
  · rename_i within
    rw [wordAtInside (insideWords sized (Nat.lt_of_not_le within))]
    exact congrArg some (topBit _ _)

theorem allWordsTrue {test : Nat → Option Bool} {holds : Nat → Bool} (n i : Nat) (each : ∀ j, i ≤ j → j < i + n → test j = some (holds j)) :
    ∃ result, allWords test n i = some result ∧ (result = true ↔ ∀ j, i ≤ j → j < i + n → holds j = true) := by
  induction n generalizing i with
  | zero => exact ⟨true,rfl,fun _ j from' below => by omega,fun _ => rfl⟩
  | succ n ih =>
      unfold allWords
      simp only [Option.bind_eq_bind]
      rw [each i (Nat.le_refl i) (by omega)]
      simp only [Option.bind_some]
      cases first : holds i with
      | false =>
          refine ⟨false,rfl,nofun,fun all => ?_⟩
          rw [all i (Nat.le_refl i) (by omega)] at first
          cases first
      | true =>
          obtain ⟨result,done,every⟩ := ih (i + 1) fun j from' below => each j (by omega) (by omega)
          refine ⟨result,done,every.trans ⟨fun all j from' below => ?_,fun all j from' below => all j (by omega) (by omega)⟩⟩
          rcases Nat.eq_or_lt_of_le from' with rfl | later
          · exact first
          · exact all j later (by omega)

theorem wordsOf (P : Nat → Nat → Prop) : (∀ i k, k < kBitWordSize wide → P i k) ↔ ∀ j, P (j / kBitWordSize wide) (j % kBitWordSize wide) := by
  have pos := wordSizePos wide
  constructor
  · exact fun all j => all _ _ (Nat.mod_lt j pos)
  · intro all i k inside
    have here := all (i * kBitWordSize wide + k)
    rwa [Nat.mul_comm,Nat.mul_add_div pos,Nat.div_eq_of_lt inside,Nat.add_zero,Nat.mul_add_mod,Nat.mod_eq_of_lt inside] at here

-- A relation of the words of two vectors, and the same relation of their bits.
theorem allBits' {P : Word wide → Word wide → Prop} {Q : Bool → Bool → Prop}
    (byBits : ∀ x y, P x y ↔ ∀ k < kBitWordSize wide, Q (x.getMsbD k) (y.getMsbD k)) :
    (∀ i, P (getWord v i) (getWord w i)) ↔ ∀ j, Q (bitOf v j) (bitOf w j) := by
  unfold bitOf
  rw [← wordsOf fun i k => Q ((getWord v i).getMsbD k) ((getWord w i).getMsbD k)]
  exact forall_congr' fun i => byBits _ _

end Scan


section Comparisons
variable {wide : Bool} {v w : ABitVector wide} {S T : Finset Nat}

theorem getBit {word : Word wide} {k : Nat} (one : word.getMsbD k = true) : k < kBitWordSize wide :=
  Nat.lt_of_not_le fun beyond => by
    rw [BitVec.getMsbD_of_ge _ _ beyond] at one
    cases one

theorem zeroBits (word : Word wide) : (word == 0) = true ↔ ∀ k < kBitWordSize wide, word.getMsbD k = false := by
  rw [beq_iff_eq,wordZero]

theorem zeroWordAt {i : Nat} (inside : i < v.fBitWords.length) : zeroWord v i = some (getWord v i == 0) := by
  unfold zeroWord
  rw [wordAtInside inside]
  rfl

theorem andWordAt {i : Nat} (inside : i < v.fBitWords.length) (inside' : i < w.fBitWords.length) (f : Word wide → Word wide → Bool) :
    (do some (f (← wordAt v i) (← wordAt w i))) = some (f (getWord v i) (getWord w i)) := by
  rw [wordAtInside inside,wordAtInside inside']
  rfl

-- A condition on every allocated word that unallocated ones meet.
theorem everyWord {P : Nat → Prop} {n : Nat} (beyond : ∀ i, n ≤ i → P i) : (∀ i, 0 ≤ i → i < 0 + n → P i) ↔ ∀ i, P i :=
  ⟨fun all i => if inside : i < n then all i (Nat.zero_le i) (by omega) else beyond i (Nat.le_of_not_lt inside),fun all i _ _ => all i⟩

theorem someDecide {P : Prop} [Decidable P] {result : Bool} (same : result = true ↔ P) : some result = some (decide P) := by
  rw [Option.some_inj,Bool.eq_iff_iff,decide_eq_true_eq]
  exact same

theorem isZeroSet (h : Represents v S) : isZero v = some (decide (S = ∅)) := by
  have bits := @allBits' _ v v (fun x _ => (x == 0) = true) (fun x _ => x = false) fun x _ => zeroBits x
  obtain ⟨result,done,every⟩ := @allWordsTrue (zeroWord v) (fun i => getWord v i == 0) v.fBitWords.length 0 fun i _ inside => zeroWordAt (by omega)
  unfold isZero
  rw [h.sized.words,done]
  refine someDecide (every.trans ?_)
  rw [everyWord fun i beyond => by rw [getWordBeyond beyond]; exact beq_self_eq_true _,bits,Finset.eq_empty_iff_forall_notMem]
  exact forall_congr' fun i => by rw [h.bits,decide_eq_false_iff_not]

theorem intersectsSet (h : Represents v S) (h' : Represents w T) : intersects v w = some (decide (S ∩ T).Nonempty) := by
  have bits := @allBits' _ v w (fun x y => (x &&& y == 0) = true) (fun x y => (x && y) = false) fun x y => by
    rw [zeroBits]
    exact forall₂_congr fun k _ => by rw [BitVec.getMsbD_and]
  obtain ⟨result,done,every⟩ := @allWordsTrue (fun i => do some ((← wordAt v i) &&& (← wordAt w i) == 0)) (fun i => getWord v i &&& getWord w i == 0)
    (min v.fBitWords.length w.fBitWords.length) 0 fun i _ inside => andWordAt (by omega) (by omega) fun x y => x &&& y == 0
  have beyond : ∀ i, min v.fBitWords.length w.fBitWords.length ≤ i → (getWord v i &&& getWord w i == 0) = true := fun i beyond => by
    rw [beq_iff_eq]
    rcases Nat.le_total v.fBitWords.length w.fBitWords.length with less | less
    · rw [getWordBeyond (show v.fBitWords.length ≤ i by omega)]
      exact BitVec.zero_and
    · rw [getWordBeyond (show w.fBitWords.length ≤ i by omega)]
      exact BitVec.and_zero
  unfold intersects
  dsimp only
  rw [h.sized.words,h'.sized.words,done]
  refine someDecide ?_
  rw [Bool.not_eq_true',← Bool.not_eq_true,every,everyWord beyond,bits,not_forall]
  refine exists_congr fun i => ?_
  rw [h.bits,h'.bits,Finset.mem_inter]
  simp

-- Words that hold only what the other vector's words hold.
theorem subsetWords (h : Represents v S) (h' : Represents w T) : S ⊆ T ↔ ∀ i, (getWord v i &&& ~~~getWord w i == 0) = true := by
  have bits := @allBits' _ v w (fun x y => (x &&& ~~~y == 0) = true) (fun x y => (x && !y) = false) fun x y => by
    rw [zeroBits]
    exact forall₂_congr fun k inside => by rw [BitVec.getMsbD_and,BitVec.getMsbD_not,decide_eq_true inside,Bool.true_and]
  rw [bits,Finset.subset_iff]
  exact forall_congr' fun i => by rw [h.bits,h'.bits]; simp

theorem isSubsetSet (h : Represents v S) (h' : Represents w T) : isSubset v w = some (decide (S ⊆ T)) := by
  have alone : ∀ i, w.fBitWords.length ≤ i → ((getWord v i &&& ~~~getWord w i == 0) = true ↔ (getWord v i == 0) = true) := fun i beyond => by
    rw [getWordBeyond beyond,andcZero]
  obtain ⟨result,done,every⟩ := @allWordsTrue (fun i => do some ((← wordAt v i) &&& ~~~(← wordAt w i) == 0))
    (fun i => getWord v i &&& ~~~getWord w i == 0) (min v.fBitWords.length w.fBitWords.length) 0 fun i _ inside =>
      andWordAt (by omega) (by omega) fun x y => x &&& ~~~y == 0
  unfold isSubset
  dsimp only
  rw [h.sized.words,h'.sized.words,done]
  simp only [Option.bind_eq_bind,Option.bind_some]
  split
  · rename_i common
    obtain ⟨result',tail,rest⟩ := @allWordsTrue (zeroWord v) (fun i => getWord v i == 0)
      (v.fBitWords.length - min v.fBitWords.length w.fBitWords.length) (min v.fBitWords.length w.fBitWords.length) fun i _ inside =>
        zeroWordAt (by omega)
    rw [tail]
    refine someDecide (rest.trans ?_)
    rw [subsetWords h h']
    constructor
    · intro tail i
      by_cases shared : i < min v.fBitWords.length w.fBitWords.length
      · exact every.mp common i (Nat.zero_le i) (by omega)
      · by_cases inside : i < v.fBitWords.length
        · exact (alone i (by omega)).mpr (tail i (by omega) (by omega))
        · rw [getWordBeyond (Nat.le_of_not_lt inside),beq_iff_eq]
          exact BitVec.zero_and
    · exact fun all i above below => (alone i (by omega)).mp (all i)
  · rename_i differs
    refine someDecide ⟨nofun,fun subset => absurd (every.mpr fun i _ _ => (subsetWords h h').mp subset i) differs⟩

theorem equalWords (h : Represents v S) (h' : Represents w T) : S = T ↔ ∀ i, (getWord v i == getWord w i) = true := by
  have bits := @allBits' _ v w (fun x y => (x == y) = true) (fun x y => x = y) fun x y => by
    rw [beq_iff_eq]
    exact ⟨fun same k _ => by rw [same],fun same => BitVec.eq_of_getMsbD_eq same⟩
  rw [bits,Finset.ext_iff]
  exact forall_congr' fun i => by rw [h.bits,h'.bits,decide_eq_decide]

-- The words of the longer vector that the shorter one does not have.
theorem tailZero (h : Represents v S) (h' : Represents w T) (longer : w.fBitWords.length ≤ v.fBitWords.length)
    (common : ∀ i, i < w.fBitWords.length → (getWord v i == getWord w i) = true) :
    allWords (zeroWord v) (v.fBitWords.length - w.fBitWords.length) w.fBitWords.length = some (decide (S = T)) := by
  obtain ⟨result,tail,rest⟩ := @allWordsTrue (zeroWord v) (fun i => getWord v i == 0) (v.fBitWords.length - w.fBitWords.length) w.fBitWords.length
    fun i _ inside => zeroWordAt (by omega)
  rw [tail]
  refine someDecide (rest.trans ?_)
  rw [equalWords h h']
  constructor
  · intro tail i
    by_cases shared : i < w.fBitWords.length
    · exact common i shared
    · rw [getWordBeyond (Nat.le_of_not_lt shared)]
      by_cases inside : i < v.fBitWords.length
      · exact tail i (Nat.le_of_not_lt shared) (by omega)
      · rw [getWordBeyond (Nat.le_of_not_lt inside)]
        exact beq_self_eq_true _
  · intro all i above _
    have same := all i
    rwa [getWordBeyond above] at same

theorem equalSet (h : Represents v S) (h' : Represents w T) : equal v w = some (decide (S = T)) := by
  have pos := wordSizePos wide
  have common : sizeInWords wide (min v.fNumBits w.fNumBits) = min v.fBitWords.length w.fBitWords.length := by
    rcases Nat.le_total v.fNumBits w.fNumBits with less | less
    · rw [Nat.min_eq_left less,h.sized.words]
      exact (Nat.min_eq_left ((h.sized.lengths h'.sized).mp less)).symm
    · rw [Nat.min_eq_right less,h'.sized.words]
      exact (Nat.min_eq_right ((h'.sized.lengths h.sized).mp less)).symm
  obtain ⟨result,done,every⟩ := @allWordsTrue (fun i => do some ((← wordAt v i) == (← wordAt w i))) (fun i => getWord v i == getWord w i)
    (min v.fBitWords.length w.fBitWords.length) 0 fun i _ inside => andWordAt (by omega) (by omega) fun x y => x == y
  unfold equal
  dsimp only
  rw [common,h.sized.words,h'.sized.words,done]
  simp only [Option.bind_eq_bind,Option.bind_some]
  split
  · rename_i shared
    rw [every] at shared
    rw [h.sized.bits,h'.sized.bits]
    simp only [Nat.mul_lt_mul_right pos]
    split
    · rename_i longer
      have shorter : min v.fBitWords.length w.fBitWords.length = w.fBitWords.length := by omega
      rw [shorter] at shared ⊢
      exact tailZero h h' (by omega) fun i inside => shared i (Nat.zero_le i) (by omega)
    · split
      · rename_i longer
        have shorter : min v.fBitWords.length w.fBitWords.length = v.fBitWords.length := by omega
        rw [shorter] at shared ⊢
        rw [tailZero h' h (by omega) fun i inside => by
          rw [beq_iff_eq]
          exact (beq_iff_eq.mp (shared i (Nat.zero_le i) (by omega))).symm]
        exact someDecide (by rw [decide_eq_true_eq]; exact eq_comm)
      · refine someDecide ⟨fun _ => (equalWords h h').mpr fun i => ?_,fun _ => rfl⟩
        by_cases inside : i < v.fBitWords.length
        · exact shared i (Nat.zero_le i) (by omega)
        · rw [getWordBeyond (Nat.le_of_not_lt inside),getWordBeyond (show w.fBitWords.length ≤ i by omega)]
          exact beq_self_eq_true _
  · rename_i differs
    refine someDecide ⟨nofun,fun same => absurd (every.mpr fun i _ _ => (equalWords h h').mp same i) differs⟩

end Comparisons

end OmrCompiler.DenseBits
