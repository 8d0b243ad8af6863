import Mathlib.Data.List.TakeWhile
import OmrCompiler.SparseUnion

/-! Intersection and difference of two segments, in place and into another segment, and
the union with an intersection. -/
namespace OmrCompiler.SparseBits

section
variable {s a b input memory : List Nat} {i ii v oi n limit fuel : Nat} {seg other mask output : Segment}

/- The scan of the input up to a value. -/

structure Scanned (input : List Nat) (v ii : Nat) : Prop where
  bound : ii ≤ input.length
  before : ∀ y ∈ input.take ii, y < v
  ended : input[ii]? = none → v ∉ input
  here : ∀ w, input[ii]? = some w → (v ∈ input ↔ w = v)

theorem scan (asc : Ascending input) (bound : ii ≤ input.length) (before : ∀ y ∈ input.take ii, y < v) :
    Scanned input v (ii + ((input.drop ii).takeWhile (· < v)).length) := by
  have early : ∀ y ∈ (input.drop ii).takeWhile (· < v), y < v := fun y on => by simpa using List.mem_takeWhile_imp on
  have tail : Ascending ((input.drop ii).dropWhile (· < v)) := asc.sublist ((List.dropWhile_sublist _).trans (List.drop_sublist _ _))
  have upon : ∀ w rest, (input.drop ii).dropWhile (· < v) = w::rest → ¬ w < v := by
    intro w rest shape
    have first := List.head_dropWhile_not (· < v) (l := input.drop ii) (by rw [shape]; simp)
    simpa [shape] using first
  have split : (input.drop ii).takeWhile (· < v) ++ (input.drop ii).dropWhile (· < v) = input.drop ii := List.takeWhile_append_dropWhile
  generalize (input.drop ii).takeWhile (· < v) = lower at early split ⊢
  generalize (input.drop ii).dropWhile (· < v) = upper at tail upon split
  have low : (input.take ii).length = ii := List.length_take_of_le bound
  have whole : input = input.take ii ++ lower ++ upper := by rw [List.append_assoc,split,List.take_append_drop]
  have passed : input.take (ii + lower.length) = input.take ii ++ lower := by
    rw [List.take_add,← split,List.take_left]
  have under : ∀ y ∈ input.take ii ++ lower, y < v := by
    intro y on
    rcases List.mem_append.mp on with first | second
    · exact before y first
    · exact early y second
  have among : v ∈ input ↔ v ∈ upper := by
    constructor
    · intro on
      rw [whole,List.mem_append] at on
      rcases on with first | second
      · exact absurd (under v first) (Nat.lt_irrefl v)
      · exact second
    · intro on
      rw [whole]
      exact List.mem_append_right _ on
  have at' : input[ii + lower.length]? = upper.head? := by
    have drop : input.drop (ii + lower.length) = upper := by
      rw [← List.drop_drop,← split,List.drop_left]
    rw [← drop,List.head?_drop]
  refine ⟨?_,fun y on => under y (passed ▸ on),fun none' => ?_,fun w some' => ?_⟩
  · have length := congrArg List.length whole
    rw [List.length_append,List.length_append,low] at length
    omega
  · rw [at',List.head?_eq_none_iff] at none'
    rw [among,none']
    exact List.not_mem_nil
  · rw [at'] at some'
    obtain ⟨rest,rfl⟩ := List.head?_eq_some_iff.mp some'
    have above := upon w rest rfl
    rw [among,List.mem_cons]
    constructor
    · rintro (rfl | later)
      · rfl
      · have less := (List.pairwise_cons.mp tail).1 v later
        omega
    · rintro rfl
      exact .inl rfl

theorem keepCommonFilter (asc : Ascending s) (asc' : Ascending input) (bound : ii ≤ input.length) (before : ∀ v ∈ s, ∀ y ∈ input.take ii, y < v) :
    keepCommon input s ii = (s.filter (· ∈ input),s.any (· ∉ input)) := by
  induction s generalizing ii with
  | nil => rfl
  | cons v rest ih =>
      obtain ⟨least,tail⟩ := List.pairwise_cons.mp asc
      have scanned := scan asc' bound (before v List.mem_cons_self)
      rw [keepCommon]
      simp only
      split
      · rename_i none'
        have missing : v ∉ input := scanned.ended none'
        have past := List.getElem?_eq_none_iff.mp none'
        have beyond : ∀ u ∈ rest, u ∉ input := by
          intro u on inInput
          have all := scanned.before u (by rwa [List.take_of_length_le past])
          exact Nat.lt_asymm all (least u on)
        rw [List.filter_cons_of_neg (by simpa using missing),List.any_cons]
        simp only [missing,not_false_eq_true,decide_true,Bool.true_or,Prod.mk.injEq,and_true]
        refine (List.filter_eq_nil_iff.mpr fun u on => ?_).symm
        simpa using beyond u on
      · rename_i w some'
        have means := scanned.here w some'
        have rest' := ih tail scanned.bound fun u on y low => Nat.lt_trans (scanned.before y low) (least u on)
        rw [rest']
        by_cases same : w = v
        · have on := means.mpr same
          rw [if_pos same,List.filter_cons_of_pos (by simpa using on),List.any_cons]
          simp [on]
        · have off : v ∉ input := fun on => same (means.mp on)
          rw [if_neg same,List.filter_cons_of_neg (by simpa using off),List.any_cons]
          simp [off]

theorem andLoopFilter (asc : Ascending a) (asc' : Ascending b) : andLoop a b = (a.filter (· ∈ b),a.any (· ∉ b)) := by
  induction a, b using andLoop.induct with
  | case1 rest v others kept changed ran ih =>
      obtain ⟨least,tail⟩ := List.pairwise_cons.mp asc
      obtain ⟨least',tail'⟩ := List.pairwise_cons.mp asc'
      have same : ∀ u ∈ rest, u ∈ v::others ↔ u ∈ others := by
        intro u on
        have more := least u on
        rw [List.mem_cons]
        exact ⟨fun either => either.elim (fun equal => by omega) id,.inr⟩
      rw [andLoop,if_pos rfl,ih tail tail',List.filter_cons_of_pos (by simp),List.any_cons]
      simp only [List.mem_cons,true_or,not_true_eq_false,decide_false,Bool.false_or,Prod.mk.injEq,List.cons.injEq,true_and]
      constructor
      · refine List.filter_congr fun u on => ?_
        rw [decide_eq_decide,← List.mem_cons,same u on]
      · rw [Bool.eq_iff_iff]
        simp only [List.any_eq_true,decide_eq_true_eq]
        refine exists_congr fun u => and_congr_right fun on => ?_
        rw [← List.mem_cons,same u on]
  | case2 v rest w others differ less ih =>
      obtain ⟨least,tail⟩ := List.pairwise_cons.mp asc
      have off : v ∉ w::others := by
        intro on
        rcases List.mem_cons.mp on with same | later
        · exact differ same
        · have more := (List.pairwise_cons.mp asc').1 v later
          omega
      rw [andLoop,if_neg differ,if_pos less,ih tail asc',List.filter_cons_of_neg (by simpa using off),List.any_cons]
      simp only [off,not_false_eq_true,decide_true,Bool.true_or]
  | case3 v rest w others differ notLess ih =>
      obtain ⟨least,tail⟩ := List.pairwise_cons.mp asc
      have above : ∀ u ∈ v::rest, w < u := by
        intro u on
        rcases List.mem_cons.mp on with rfl | later
        · omega
        · have more := least u later
          omega
      have same : ∀ u ∈ v::rest, u ∈ w::others ↔ u ∈ others := by
        intro u on
        have more := above u on
        rw [List.mem_cons]
        exact ⟨fun either => either.elim (fun equal => by omega) id,.inr⟩
      rw [andLoop,if_neg differ,if_neg notLess,ih asc (List.pairwise_cons.mp asc').2,Prod.mk.injEq]
      constructor
      · refine List.filter_congr fun u on => ?_
        rw [decide_eq_decide,same u on]
      · rw [Bool.eq_iff_iff]
        simp only [List.any_eq_true,decide_eq_true_eq]
        refine exists_congr fun u => and_congr_right fun on => ?_
        rw [same u on]
  | case4 a b ended =>
      cases a with
      | nil => simp [andLoop]
      | cons v rest =>
          cases b with
          | nil => simp [andLoop]
          | cons w others => exact (ended v rest w others rfl rfl).elim

/- The intersection in place. -/

-- What is left of a segment: the values of P, with a flag that tells whether one is gone.
structure Kept (limit : Nat) (seg : Segment) (P : Nat → Prop) (changed : Bool) (s' : Segment) : Prop where
  flag : changed = true ↔ ∃ y ∈ seg.indices, ¬ P y
  carries : Carries limit s' seg.highBits (fun y => y ∈ seg.indices ∧ P y)

theorem Formed.filtered {p : Nat → Bool} {room : Nat} (formed : Formed limit seg) (fits : (seg.indices.filter p).length ≤ room) (bounded : room ≤ limit) :
    Carries limit ⟨seg.highBits,room % halfWord,room,seg.indices.filter p⟩ seg.highBits (fun y => y ∈ seg.indices ∧ p y = true) :=
  ⟨rfl,fun some' => ⟨some',formed.ascending.sublist List.filter_sublist,fun y on => formed.small y (List.mem_of_mem_filter on),fits,rfl,bounded,formed.high⟩,
    fun _ => List.mem_filter⟩

theorem Carries.congr {s' : Segment} {high : Nat} {P Q : Nat → Prop} (carries : Carries limit s' high P) (same : ∀ y, P y ↔ Q y) : Carries limit s' high Q :=
  ⟨carries.high,carries.formed,fun y => (carries.members y).trans (same y)⟩

theorem carriesNone {s' : Segment} {high : Nat} {P : Nat → Prop} (here : s'.highBits = high) (empty : s'.indices = []) (none' : ∀ y, ¬ P y) : Carries limit s' high P :=
  ⟨here,fun some' => absurd empty some',fun y => by rw [empty]; exact ⟨fun on => absurd on List.not_mem_nil,fun on => absurd on (none' y)⟩⟩

theorem Formed.itself {P : Nat → Prop} (formed : Formed limit seg) (all : ∀ y ∈ seg.indices, P y) : Carries limit seg seg.highBits (fun y => y ∈ seg.indices ∧ P y) :=
  ⟨rfl,fun _ => formed,fun y => ⟨fun on => ⟨on,all y on⟩,And.left⟩⟩

theorem andSegmentKept (formed : Formed limit seg) (formed' : Formed limit other) :
    ∃ changed s', andSegment seg other = some (changed,s') ∧ Kept limit seg (· ∈ other.indices) changed s' := by
  have anyGone : seg.indices.any (· ∉ other.indices) = true ↔ ∃ y ∈ seg.indices, y ∉ other.indices := by simp
  have length := List.length_filter_le (· ∈ other.indices) seg.indices
  have fits := formed.fits
  have fits' := formed'.fits
  have bounded := formed.bounded
  have bounded' := formed'.bounded
  unfold andSegment
  rw [if_neg formed.nonempty,if_neg formed'.nonempty,andLoopFilter formed.ascending formed'.ascending]
  have roomy : (seg.indices.filter (· ∈ other.indices)).length ≤ max seg.indices.length other.indices.length := by omega
  show ∃ changed s', (if (seg.indices.filter (· ∈ other.indices)).length ≤ max seg.indices.length other.indices.length then _ else none) = some (changed,s') ∧ _
  rw [if_pos roomy]
  split
  · rename_i same
    refine ⟨_,_,rfl,by rw [← anyGone,same],formed.itself fun y on => ?_⟩
    by_contra off
    have gone := anyGone.mpr ⟨y,on,off⟩
    rw [same] at gone
    cases gone
  · rename_i gone
    have gone' := anyGone.mp (by simpa using gone)
    split
    · rename_i empty
      refine ⟨_,_,rfl,⟨fun _ => gone',fun _ => rfl⟩,carriesNone rfl rfl fun y both => ?_⟩
      exact (List.filter_eq_nil_iff.mp empty) y both.1 (by simpa using both.2)
    · exact ⟨_,_,rfl,⟨fun _ => gone',fun _ => rfl⟩,(formed.filtered (by omega) (by omega)).congr fun y => by simp⟩

/- The difference in place. -/

-- Up to i the memory has been sorted out, its values are the first oi.
structure Chunking (s input memory : List Nat) (i oi : Nat) : Prop where
  length : memory.length = s.length
  order : oi ≤ i
  bound : i ≤ s.length
  kept : memory.take oi = (s.take i).filter (· ∉ input)
  later : memory.drop i = s.drop i

theorem Chunking.next {i' : Nat} (chunking : Chunking s input memory i oi) (at' : s[i]? = some v) (common : v ∈ input) (order : i + 1 ≤ i') (bound : i' ≤ s.length)
    (apart : ∀ y ∈ slice s (i + 1) i', y ∉ input) : Chunking s input (memmove memory oi (i + 1) (i' - (i + 1))) i' (oi + (i' - (i + 1))) := by
  have order0 := chunking.order
  have length := chunking.length
  have more := (List.getElem?_eq_some_iff.mp at').1
  have later : memory.drop (i + 1) = s.drop (i + 1) := by
    rw [← List.drop_drop,← List.drop_drop,chunking.later]
  have low : (memory.take oi).length = oi := List.length_take_of_le (by omega)
  have mid : (slice s (i + 1) i').length = i' - (i + 1) := by
    rw [slice,List.length_take,List.length_drop]
    omega
  have front : (memory.take oi ++ slice s (i + 1) i').length = oi + (i' - (i + 1)) := by
    rw [List.length_append,low,mid]
  have moved : memmove memory oi (i + 1) (i' - (i + 1)) = memory.take oi ++ slice s (i + 1) i' ++ memory.drop (oi + (i' - (i + 1))) := by
    rw [memmove,later,slice]
  rw [moved]
  refine ⟨?_,by omega,bound,?_,?_⟩
  · rw [List.length_append,front,List.length_drop]
    omega
  · rw [List.take_append_of_le_length (Nat.le_of_eq front.symm),List.take_of_length_le (Nat.le_of_eq front),chunking.kept]
    have split : s.take i' = s.take i ++ (v::slice s (i + 1) i') := by
      rw [slice,show i' = i + (1 + (i' - (i + 1))) by omega,List.take_add,List.drop_eq_getElem_cons more,(List.getElem?_eq_some_iff.mp at').2,
        Nat.add_comm 1,List.take_succ_cons,show i + (i' - (i + 1) + 1) - (i + 1) = i' - (i + 1) by omega]
    have none' : (slice s (i + 1) i').filter (· ∉ input) = slice s (i + 1) i' := List.filter_eq_self.mpr fun y on => by simpa using apart y on
    rw [split,List.filter_append,List.filter_cons_of_neg (by simpa using common),none']
  · rw [List.drop_append,front,List.drop_eq_nil_of_le (by omega),List.nil_append,List.drop_drop,
      show oi + (i' - (i + 1)) + (i' - (oi + (i' - (i + 1)))) = i + (i' - i) by omega,← List.drop_drop,chunking.later,List.drop_drop]
    congr 1
    omega

theorem AscendingFrom.shared {list' : List Nat} (asc : AscendingFrom s i) (same : list'.drop i = s.drop i) : AscendingFrom list' i := by
  intro j k u w from' less atJ atK
  have share : ∀ m, i ≤ m → list'[m]? = s[m]? := by
    intro m after
    have here := congrArg (·[m - i]?) same
    simpa only [List.getElem?_drop,show i + (m - i) = m by omega] using here
  exact asc j k u w from' less (share j from' ▸ atJ) (share k (by omega) ▸ atK)

end

end OmrCompiler.SparseBits
