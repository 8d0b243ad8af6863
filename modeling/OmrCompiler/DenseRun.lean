import OmrCompiler.DenseCombine
import OmrCompiler.DenseCursor

/-! Runs of operations over any number of dense vectors, any of which may be the output
and both operands of one operation, against the same operations on finite sets. -/
namespace OmrCompiler.DenseBits
open BitManipulator

inductive Op where
  | assign (a fIndex : Nat) (bitValue : Bool)
  | growTo (a newBitSize : Nat) (geometric forceGeometric : Bool)
  | setAll (a numBits : Nat)
  | clear (a : Nat)
  | clearToNull (a : Nat)
  | adopt (a b : Nat)
  | swap (a b : Nat)
  | into (op : Operator) (a b c : Nat)
  | inPlace (op : Operator) (a b : Nat)
  deriving DecidableEq, Repr

section Steps
variable {wide : Bool}

def swap (vs : Vectors wide) (a b : Nat) : Vectors wide := (vs.set a (vs b)).set b (vs a)

def step (vs : Vectors wide) : Op → Option (Vectors wide)
  | .assign a fIndex bitValue => do some (vs.set a (← assign (vs a) fIndex bitValue))
  | .growTo a newBitSize geometric forceGeometric => do some (vs.set a (← growTo (vs a) newBitSize geometric forceGeometric))
  | .setAll a numBits => do some (vs.set a (← setAll (vs a) numBits))
  | .clear a => some (vs.set a (clear (vs a)))
  | .clearToNull a => some (vs.set a (clearToNull (vs a)))
  | .adopt a b => adopt vs a b
  | .swap a b => some (swap vs a b)
  | .into op a b c => do some (← op.into vs a b c).1
  | .inPlace op a b => do some (← op.inPlace vs a b).1

def run (vs : Vectors wide) (ops : List Op) : Option (Vectors wide) := ops.foldlM step vs

end Steps

def Operator.sets : Operator → Finset Nat → Finset Nat → Finset Nat
  | and,S,T => S ∩ T
  | andc,S,T => S \ T
  | or,S,T => S ∪ T
  | xor,S,T => (S \ T) ∪ (T \ S)

def stepSets (sets : Nat → Finset Nat) : Op → Nat → Finset Nat
  | .assign a fIndex bitValue => Function.update sets a (if bitValue then insert fIndex (sets a) else (sets a).erase fIndex)
  | .growTo _ _ _ _ => sets
  | .setAll a numBits => Function.update sets a (sets a ∪ Finset.range numBits)
  | .clear a => Function.update sets a ∅
  | .clearToNull a => Function.update sets a ∅
  | .adopt a b => Function.update sets a (sets b)
  | .swap a b => Function.update (Function.update sets a (sets b)) b (sets a)
  | .into op a b c => Function.update sets c (op.sets (sets a) (sets b))
  | .inPlace op a b => Function.update sets a (op.sets (sets a) (sets b))

def runSets (sets : Nat → Finset Nat) (ops : List Op) : Nat → Finset Nat := ops.foldl stepSets sets

-- The indices an operation names.
def Op.Below : Op → Prop
  | assign _ fIndex _ => fIndex < 2 ^ 31
  | growTo _ newBitSize _ _ => newBitSize ≤ 2 ^ 31
  | setAll _ numBits => numBits ≤ 2 ^ 31
  | _ => True

section Preserved
variable {wide : Bool} {vs vs' : Vectors wide} {sets : Nat → Finset Nat} {n : Nat}

theorem Operator.inSets (op : Operator) (S T : Finset Nat) (j : Nat) : op.bit (decide (j ∈ S)) (decide (j ∈ T)) = decide (j ∈ op.sets S T) := by
  rw [Bool.eq_iff_iff,decide_eq_true_eq]
  cases op with
  | and => simp [Operator.bit,Operator.sets]
  | andc => simp [Operator.bit,Operator.sets]
  | or => simp [Operator.bit,Operator.sets]
  | xor =>
      by_cases on : j ∈ S
      · by_cases on' : j ∈ T <;> simp [Operator.bit,Operator.sets,on,on']
      · by_cases on' : j ∈ T <;> simp [Operator.bit,Operator.sets,on,on']

/- After n operations no vector has more bits than this: each may outgrow the largest
one by two chunks. -/
def capacity (n : Nat) : Nat := 2 ^ 31 + 2 * chunk * n

structure Holds (n : Nat) (vs : Vectors wide) (sets : Nat → Finset Nat) : Prop where
  represents : ∀ i, Represents (vs i) (sets i)
  within : ∀ i, (vs i).fNumBits ≤ capacity n

theorem Holds.sized (h : Holds n vs sets) (i : Nat) : Sized (vs i) := (h.represents i).sized

theorem Holds.fits (h : Holds n vs sets) (few : n < 2 ^ 19) {size : Nat} (among : ∃ i, size ≤ (vs i).fNumBits) : Fits size := by
  obtain ⟨i,less⟩ := among
  have within := h.within i
  unfold Fits
  unfold capacity chunk at *
  omega

theorem Holds.combines (h : Holds n vs sets) (few : n < 2 ^ 19) (a b c : Nat) : Combines vs a b c := fun _ => by
  rcases Nat.le_total (vs a).fNumBits (vs b).fNumBits with less | less
  · exact h.fits few ⟨b,Nat.max_le.mpr ⟨less,Nat.le_refl _⟩⟩
  · exact h.fits few ⟨a,Nat.max_le.mpr ⟨Nat.le_refl _,less⟩⟩

-- One vector is replaced.
theorem Holds.replaced (h : Holds n vs sets) {a : Nat} {T : Finset Nat} (others : ∀ i, i ≠ a → vs' i = vs i) (here : Represents (vs' a) T)
    (within : (vs' a).fNumBits ≤ capacity (n + 1)) : Holds (n + 1) vs' (Function.update sets a T) := by
  refine ⟨fun i => ?_,fun i => ?_⟩
  · by_cases same : i = a
    · rw [same,Function.update_self]
      exact here
    · rw [others i same,Function.update_of_ne same]
      exact h.represents i
  · by_cases same : i = a
    · rw [same]
      exact within
    · have before := h.within i
      rw [others i same]
      unfold capacity chunk at *
      omega

theorem Holds.result (h : Holds n vs sets) {c : Nat} {bit : Nat → Bool} (result : Result vs vs' c (2 * chunk) bit) {T : Finset Nat}
    (bits : ∀ j, bit j = decide (j ∈ T)) : Holds (n + 1) vs' (Function.update sets c T) := by
  refine h.replaced result.others ⟨result.sized,fun j => (result.bits j).trans (bits j)⟩ ?_
  refine Nat.le_trans (result.modest (capacity n) (Nat.le_add_right _ _) h.within) ?_
  unfold capacity chunk
  omega

theorem Holds.becomes (h : Holds n vs sets) {a : Nat} {v : ABitVector wide} {bit : Nat → Bool} (becomes : Becomes (vs a) v bit) {T : Finset Nat}
    (bits : ∀ j, bit j = decide (j ∈ T)) : Holds (n + 1) (vs.set a v) (Function.update sets a T) := by
  have bound := becomes.bound
  have before := h.within a
  refine h.replaced (fun i other => Vectors.setOther vs v other) ?_ ?_
  · rw [Vectors.setSame]
    exact ⟨becomes.sized,fun j => (becomes.bits j).trans (bits j)⟩
  · rw [Vectors.setSame]
    unfold capacity chunk at *
    omega

theorem Holds.next (h : Holds n vs sets) : Holds (n + 1) vs sets :=
  ⟨h.represents,fun i => Nat.le_trans (h.within i) (Nat.add_le_add_left (Nat.mul_le_mul_left _ (Nat.le_succ n)) _)⟩

theorem swapped (vs : Vectors wide) (sets : Nat → Finset Nat) (a b i : Nat) : ∃ k, swap vs a b i = vs k ∧ stepSets sets (.swap a b) i = sets k := by
  unfold swap Vectors.set
  by_cases second : i = b
  · exact ⟨a,by simp [second],by simp [stepSets,second]⟩
  · by_cases first : i = a
    · rw [first] at second ⊢
      exact ⟨b,by simp [second],by simp [stepSets,second]⟩
    · exact ⟨i,by simp [second,first],by simp [stepSets,second,first]⟩

theorem stepHolds (h : Holds n vs sets) (few : n < 2 ^ 19) {op : Op} (below : op.Below) :
    ∃ vs', step vs op = some vs' ∧ Holds (n + 1) vs' (stepSets sets op) := by
  cases op with
  | assign a fIndex bitValue =>
      obtain ⟨v,done,becomes⟩ := assignBit (h.sized a) below bitValue
      refine ⟨vs.set a v,by rw [step,done]; rfl,h.becomes becomes fun j => ?_⟩
      rw [(h.represents a).bits]
      by_cases here : j = fIndex
      · cases bitValue <;> simp [here]
      · cases bitValue <;> simp [here]
  | growTo a newBitSize geometric forceGeometric =>
      have small : newBitSize ≤ 2 ^ 31 := below
      obtain ⟨v,done,grown⟩ := @growToEnough _ _ (h.sized a) newBitSize geometric forceGeometric (fun _ => by unfold Fits chunk; omega) fun _ => small
      have bound := grown.bound
      have became : Becomes (vs a) v (bitOf (vs a)) := ⟨grown.sized,by unfold chunk at *; omega,grown.bitOf⟩
      refine ⟨vs.set a v,by rw [step,done]; rfl,?_⟩
      have same := h.becomes became (h.represents a).bits
      rwa [Function.update_eq_self] at same
  | setAll a numBits =>
      obtain ⟨v,done,becomes⟩ := setAllBits (h.sized a) (show numBits ≤ 2 ^ 31 from below)
      refine ⟨vs.set a v,by rw [step,done]; rfl,h.becomes becomes fun j => ?_⟩
      rw [(h.represents a).bits,Bool.eq_iff_iff]
      simp only [Bool.or_eq_true,decide_eq_true_eq,Finset.mem_union,Finset.mem_range]
      exact or_comm
  | clear a => exact ⟨_,rfl,h.becomes ⟨emptySized false,Nat.zero_le _,emptyBits false⟩ fun j => by simp⟩
  | clearToNull a => exact ⟨_,rfl,h.becomes ⟨emptySized true,Nat.zero_le _,emptyBits true⟩ fun j => by simp⟩
  | adopt a b =>
      obtain ⟨vs',done,result⟩ := adoptBits h.sized (fun _ => h.fits few ⟨b,Nat.le_refl _⟩)
      exact ⟨vs',done,h.result result (h.represents b).bits⟩
  | swap a b =>
      refine ⟨_,rfl,fun i => ?_,fun i => ?_⟩
      · obtain ⟨k,vector,set⟩ := swapped vs sets a b i
        rw [vector,set]
        exact h.represents k
      · obtain ⟨k,vector,_⟩ := swapped vs sets a b i
        rw [vector]
        exact h.next.within k
  | into op a b c =>
      obtain ⟨vs',done,result⟩ := op.intoBits h.sized (h.combines few a b c)
      refine ⟨vs',by rw [step,done]; rfl,h.result (result.less (Nat.le_mul_of_pos_left _ (by decide))) fun j => ?_⟩
      rw [(h.represents a).bits,(h.represents b).bits,op.inSets]
  | inPlace op a b =>
      obtain ⟨vs',_,_,done,_,result⟩ := op.inPlaceBits h.sized (h.combines few a b a)
      refine ⟨vs',by rw [step,done]; rfl,h.result result fun j => ?_⟩
      rw [(h.represents a).bits,(h.represents b).bits,op.inSets]

theorem runHolds (h : Holds n vs sets) {ops : List Op} (few : n + ops.length ≤ 2 ^ 19) (below : ∀ op ∈ ops, op.Below) :
    ∃ vs', run vs ops = some vs' ∧ Holds (n + ops.length) vs' (runSets sets ops) := by
  induction ops generalizing vs sets n with
  | nil => exact ⟨vs,rfl,h⟩
  | cons op ops ih =>
      rw [List.length_cons] at few
      obtain ⟨next,done,holds⟩ := stepHolds h (by omega) (below op List.mem_cons_self)
      obtain ⟨vs',rest,final⟩ := ih holds (by omega) fun op' later => below op' (List.mem_cons_of_mem op later)
      refine ⟨vs',?_,by rwa [Nat.add_assoc,Nat.add_comm 1] at final⟩
      rw [run,List.foldlM_cons,done]
      exact rest

end Preserved

section Answers
variable {wide : Bool} {vs : Vectors wide} {sets : Nat → Finset Nat}

-- Everything a caller can ask of the vectors is what the sets give.
structure Answers (vs : Vectors wide) (sets : Nat → Finset Nat) : Prop where
  valueAt : ∀ i j, valueAt (vs i) j = some (decide (j ∈ sets i))
  isZero : ∀ i, isZero (vs i) = some (decide (sets i = ∅))
  equal : ∀ i j, equal (vs i) (vs j) = some (decide (sets i = sets j))
  intersects : ∀ i j, intersects (vs i) (vs j) = some (decide (sets i ∩ sets j).Nonempty)
  isSubset : ∀ i j, isSubset (vs i) (vs j) = some (decide (sets i ⊆ sets j))
  firstOne : ∀ i, firstOne (vs i) = some (sInf (sets i : Set Nat))
  lastOne : ∀ i, lastOne (vs i) = some ((sets i).sup id)
  population : ∀ i numBits, numBits ≤ allBits → population (vs i) numBits = some ((sets i).filter (· < numBits)).card
  visited : ∀ i fuel, (sets i).card < fuel → (do visited (vs i) fuel (← setToFirstOne (vs i) (newCursor (vs i))).1) = some ((sets i).sort (· ≤ ·))

theorem representsAnswers (h : ∀ i, Represents (vs i) (sets i)) : Answers vs sets := by
  constructor
  · intro i j
    rw [valueAtBit (h i).sized,(h i).bits]
  · exact fun i => isZeroSet (h i)
  · exact fun i j => equalSet (h i) (h j)
  · exact fun i j => intersectsSet (h i) (h j)
  · exact fun i j => isSubsetSet (h i) (h j)
  · exact fun i => firstOneLeast (h i)
  · exact fun i => lastOneGreatest (h i)
  · exact fun i _ small => populationSet (h i) small
  · exact fun i fuel enough => visitedAll (h i) fuel enough

theorem startRepresents (i : Nat) : Represents ((fun _ => start : Vectors wide) i) ∅ := ⟨emptySized true,fun j => by rw [start,emptyBits]; simp⟩

/- From new vectors on no operation reaches outside the allocated words, whatever vectors
it is about, and afterwards every question has the answer of the sets. -/
theorem runAnswers {ops : List Op} (few : ops.length ≤ 2 ^ 19) (below : ∀ op ∈ ops, op.Below) :
    ∃ vs : Vectors wide, run (fun _ => start) ops = some vs ∧ Answers vs (runSets (fun _ => ∅) ops) := by
  obtain ⟨vs,done,holds⟩ := runHolds (n := 0) ⟨startRepresents,fun _ => Nat.zero_le _⟩ (by omega) below
  exact ⟨vs,done,representsAnswers holds.represents⟩

theorem runAnswersShared : ∃ vs : Vectors true, run (fun _ => start) [.assign 0 70 true,.setAll 1 3,.inPlace .xor 0 1,.into .andc 0 1 1,.adopt 0 1] = some vs ∧
    Answers vs (runSets (fun _ => ∅) [.assign 0 70 true,.setAll 1 3,.inPlace .xor 0 1,.into .andc 0 1 1,.adopt 0 1]) :=
  runAnswers (by decide) (by simp [Op.Below])

end Answers

section Changes
variable {wide : Bool} {vs : Vectors wide} {n : Nat} {sets : Nat → Finset Nat}

theorem Alike.represents {v w u x : ABitVector wide} (alike : Alike v w u x) {S T : Finset Nat} (h : Represents v S) (h' : Represents w T) :
    Represents u S ∧ Represents x T := by
  refine ⟨⟨alike.sized,fun j => ?_⟩,⟨alike.sized',fun j => ?_⟩⟩
  · rw [← h.bits]
    unfold bitOf
    rw [alike.getWord]
  · rw [← h'.bits]
    unfold bitOf
    rw [alike.getWord']

theorem markedExact (op : Operator) {v w : ABitVector wide} {S T : Finset Nat} (h : Represents v S) (h' : Represents w T) :
    marked op.word v w = decide (op.sets S T ≠ S ∨ v.fNumBits ≠ w.fNumBits) := by
  have keeps : op.sets S T = S ↔ ∀ i, op.word (getWord v i) (getWord w i) = getWord v i := by
    have byBits : ∀ x y : Word wide, op.word x y = x ↔ ∀ k < kBitWordSize wide, op.bit (x.getMsbD k) (y.getMsbD k) = x.getMsbD k := fun x y => by
      constructor
      · intro same k inside
        rw [← op.wordBits x y inside,same]
      · intro same
        refine BitVec.eq_of_getMsbD_eq fun k inside => ?_
        rw [op.wordBits x y inside,same k inside]
    rw [allBits' (P := fun x y => op.word x y = x) (Q := fun p q => op.bit p q = p) byBits]
    simp only [h.bits,h'.bits,op.inSets,decide_eq_decide]
    exact Finset.ext_iff
  have lengths : v.fNumBits = w.fNumBits ↔ v.fBitWords.length = w.fBitWords.length := by
    rw [h.sized.bits,h'.sized.bits]
    exact Nat.mul_left_inj (Nat.ne_of_gt (wordSizePos wide))
  have beyond : ∀ i, v.fBitWords.length ≤ i → w.fBitWords.length ≤ i → op.word (getWord v i) (getWord w i) = getWord v i := fun i out out' => by
    rw [getWordBeyond out,getWordBeyond out']
    cases op with
    | and => exact BitVec.and_zero
    | andc => exact BitVec.zero_and
    | or => exact BitVec.or_zero
    | xor => exact BitVec.xor_zero
  rw [Bool.eq_iff_iff,decide_eq_true_eq,marked,Bool.or_eq_true,decide_eq_true_eq,List.any_eq_true,ne_eq,ne_eq,keeps,lengths]
  by_cases same : v.fBitWords.length = w.fBitWords.length
  · rw [same,Nat.min_self,Nat.max_self]
    simp only [List.mem_range'_1,bne_iff_ne,Nat.lt_irrefl,or_false,not_true,not_forall]
    constructor
    · rintro ⟨i,_,differs⟩
      exact ⟨i,differs⟩
    · rintro ⟨i,differs⟩
      refine ⟨i,⟨Nat.zero_le i,?_⟩,differs⟩
      by_contra out
      exact differs (beyond i (by omega) (by omega))
  · exact ⟨fun _ => .inr same,fun _ => .inr (by omega)⟩

theorem inPlaceFlag (op : Operator) (h : Holds n vs sets) (few : n < 2 ^ 19) (a b : Nat) :
    ∃ vs', op.inPlace vs a b = some (vs',decide (op.sets (sets a) (sets b) ≠ sets a ∨ (vs a).fNumBits ≠ (vs b).fNumBits)) := by
  obtain ⟨vs',u,x,done,alike,_⟩ := op.inPlaceBits h.sized (h.combines few a b a)
  obtain ⟨same,same'⟩ := alike.represents (h.represents a) (h.represents b)
  rw [markedExact op same same'] at done
  simp only [ne_eq,alike.size] at done
  exact ⟨vs',done⟩

/- The flag of an operation in place after any run: the members changed, or the two vectors
have not the same number of bits allocated. -/
theorem runFlags {ops : List Op} (few : ops.length < 2 ^ 19) (below : ∀ op ∈ ops, op.Below) :
    ∃ vs : Vectors wide, run (fun _ => start) ops = some vs ∧ ∀ (op : Operator) (a b : Nat), ∃ vs', op.inPlace vs a b = some (vs',
      decide (op.sets (runSets (fun _ => ∅) ops a) (runSets (fun _ => ∅) ops b) ≠ runSets (fun _ => ∅) ops a ∨ (vs a).fNumBits ≠ (vs b).fNumBits)) := by
  obtain ⟨vs,done,holds⟩ := runHolds (n := 0) ⟨startRepresents,fun _ => Nat.zero_le _⟩ (by omega) below
  rw [Nat.zero_add] at holds
  exact ⟨vs,done,fun op a b => inPlaceFlag op holds few a b⟩

theorem runFlagsSubset : ∃ vs : Vectors false, run (fun _ => start) [.assign 0 5 true,.assign 1 5 true,.assign 1 9 true] = some vs ∧
    ∀ (op : Operator) (a b : Nat), ∃ vs', op.inPlace vs a b = some (vs',
      decide (op.sets (runSets (fun _ => ∅) [.assign 0 5 true,.assign 1 5 true,.assign 1 9 true] a)
          (runSets (fun _ => ∅) [.assign 0 5 true,.assign 1 5 true,.assign 1 9 true] b) ≠
            runSets (fun _ => ∅) [.assign 0 5 true,.assign 1 5 true,.assign 1 9 true] a ∨ (vs a).fNumBits ≠ (vs b).fNumBits)) :=
  runFlags (by decide) (by simp [Op.Below])

end Changes

section Searches
variable {wide : Bool}

end Searches

end OmrCompiler.DenseBits
