import OmrCompiler.SparseCombine

/-! Sparse vectors as lists of segments in the order of their high bits: the segment
that is looked up, put, added or removed, and the bits that a vector has. -/
namespace OmrCompiler.SparseBits

section
variable {v l r rest : List Segment} {m m' : Option Segment} {s t new : Segment} {h index count limit b : Nat}

structure WellFormed (limit : Nat) (v : List Segment) : Prop where
  ascending : v.Pairwise (fun s t => s.highBits < t.highBits)
  formed : ∀ s ∈ v, Formed limit s

def Segment.Has (s : Segment) (b : Nat) : Prop := s.highBits = b / halfWord ∧ b % halfWord ∈ s.indices

def Member (v : List Segment) (b : Nat) : Prop := ∃ s ∈ v, s.Has b

@[simp] theorem memberNil : ¬ Member [] b := by
  rintro ⟨s,on,-⟩
  cases on

@[simp] theorem memberCons : Member (s::v) b ↔ s.Has b ∨ Member v b := by
  simp only [Member,List.mem_cons,exists_eq_or_imp]

@[simp] theorem memberAppend : Member (l ++ r) b ↔ Member l b ∨ Member r b := by
  simp only [Member,List.mem_append,or_and_right,exists_or]

theorem indexHigh (s : Segment) : s.index / halfWord = s.highBits := Nat.mul_div_cancel _ (by decide)

-- A vector of one segment with memory for four values.
theorem fourWellFormed {list : List Nat} (some' : list ≠ []) (asc : Ascending list) (small : ∀ y ∈ list, y < halfWord) (short : list.length ≤ 4) :
    WellFormed halfWord [⟨0,4,4,list⟩] := by
  refine ⟨List.pairwise_singleton _ _,fun s on => ?_⟩
  rw [List.mem_singleton.mp on]
  exact ⟨some',asc,small,short,rfl,show 4 ≤ halfWord by decide,show 0 < halfWord by decide⟩

/- The place of a segment. -/

structure Parted (v : List Segment) (h : Nat) (l : List Segment) (m : Option Segment) (r : List Segment) : Prop where
  shape : v = l ++ (m.toList ++ r)
  below : ∀ t ∈ l, t.highBits < h
  here : ∀ s ∈ m, s.highBits = h
  above : ∀ t ∈ r, h < t.highBits

theorem parted (asc : v.Pairwise (fun s t => s.highBits < t.highBits)) (h : Nat) : ∃ l m r, Parted v h l m r := by
  induction v with
  | nil => exact ⟨[],none,[],rfl,by simp,by simp,by simp⟩
  | cons s rest ih =>
      obtain ⟨least,tail⟩ := List.pairwise_cons.mp asc
      rcases Nat.lt_trichotomy s.highBits h with less | same | more
      · obtain ⟨l,m,r,parts⟩ := ih tail
        refine ⟨s::l,m,r,by rw [List.cons_append,← parts.shape],fun t on => ?_,parts.here,parts.above⟩
        rcases List.mem_cons.mp on with rfl | later
        · exact less
        · exact parts.below t later
      · refine ⟨[],some s,rest,rfl,by simp,by simpa using same,fun t on => same ▸ least t on⟩
      · refine ⟨[],none,s::rest,rfl,by simp,by simp,fun t on => ?_⟩
        rcases List.mem_cons.mp on with rfl | later
        · exact more
        · exact Nat.lt_trans more (least t later)

theorem Parted.find (parts : Parted v (index / halfWord) l m r) : findSegment index v = m := by
  obtain ⟨rfl,below,here,above⟩ := parts
  induction l with
  | nil =>
      cases m with
      | some s =>
          have same := here s rfl
          simp only [Option.toList_some,List.nil_append,List.singleton_append]
          rw [findSegment,if_pos (by omega),if_pos same]
      | none =>
          cases r with
          | nil => rfl
          | cons t r =>
              have more := above t List.mem_cons_self
              simp only [Option.toList_none,List.nil_append]
              rw [findSegment,if_pos (by omega),if_neg (by omega)]
  | cons t l ih =>
      have less := below t List.mem_cons_self
      rw [List.cons_append,findSegment,if_neg (by omega)]
      exact ih fun u on => below u (List.mem_cons_of_mem _ on)

theorem Parted.put (parts : Parted v (index / halfWord) l (some s) r) (new : Segment) : putSegment index new v = l ++ new::r := by
  obtain ⟨rfl,below,here,above⟩ := parts
  induction l with
  | nil =>
      have same := here s rfl
      simp only [Option.toList_some,List.nil_append,List.singleton_append]
      rw [putSegment,if_pos (by omega),if_pos same]
  | cons t l ih =>
      have less := below t List.mem_cons_self
      rw [List.cons_append,putSegment,if_neg (by omega),ih fun u on => below u (List.mem_cons_of_mem _ on),List.cons_append]

theorem Parted.remove (parts : Parted v (index / halfWord) l m r) : removeSegment index v = l ++ r := by
  obtain ⟨rfl,below,here,above⟩ := parts
  induction l with
  | nil =>
      cases m with
      | some s =>
          have same := here s rfl
          simp only [Option.toList_some,List.nil_append,List.singleton_append]
          rw [removeSegment,if_pos (by omega),if_pos same]
      | none =>
          cases r with
          | nil => rfl
          | cons t r =>
              have more := above t List.mem_cons_self
              simp only [Option.toList_none,List.nil_append]
              rw [removeSegment,if_pos (by omega),if_neg (by omega)]
  | cons t l ih =>
      have less := below t List.mem_cons_self
      rw [List.cons_append,removeSegment,if_neg (by omega),ih fun u on => below u (List.mem_cons_of_mem _ on),List.cons_append]

-- The segment that AddSegment finds or makes.
def added (index count : Nat) (m : Option Segment) : Segment :=
  match m with
  | some s => growSegment count 0 s
  | none => allocate count ⟨index / halfWord,0,0,[]⟩

theorem Parted.add (parts : Parted v (index / halfWord) l m r) (count : Nat) : addSegment index count v = l ++ added index count m::r := by
  obtain ⟨rfl,below,here,above⟩ := parts
  induction l with
  | nil =>
      cases m with
      | some s =>
          have same := here s rfl
          simp only [Option.toList_some,List.nil_append,List.singleton_append]
          rw [addSegment,if_pos (by omega),if_pos same]
          rfl
      | none =>
          cases r with
          | nil => rfl
          | cons t r =>
              have more := above t List.mem_cons_self
              simp only [Option.toList_none,List.nil_append]
              rw [addSegment,if_pos (by omega),if_neg (by omega)]
              rfl
  | cons t l ih =>
      have less := below t List.mem_cons_self
      rw [List.cons_append,addSegment,if_neg (by omega),ih fun u on => below u (List.mem_cons_of_mem _ on),List.cons_append]

theorem Parted.replace (parts : Parted v h l m r) (here' : ∀ s ∈ m', s.highBits = h) : Parted (l ++ (m'.toList ++ r)) h l m' r :=
  ⟨rfl,parts.below,here',parts.above⟩

theorem growHigh (size n : Nat) (s : Segment) : (growSegment size n s).highBits = s.highBits := by
  simp only [growSegment]
  split
  · rfl
  · split
    · rfl
    · rfl

theorem addedHigh (here : ∀ s ∈ m, s.highBits = index / halfWord) (count : Nat) : (added index count m).highBits = index / halfWord := by
  cases m with
  | none => rfl
  | some s => rw [added,growHigh,here s rfl]

theorem Parted.added (parts : Parted v (index / halfWord) l m r) (count : Nat) :
    Parted (addSegment index count v) (index / halfWord) l (some (added index count m)) r := by
  refine ⟨parts.add count,parts.below,fun s on => ?_,parts.above⟩
  cases on
  exact addedHigh parts.here count

theorem Parted.addBits (parts : Parted v (index / halfWord) l m r) (bits : List Nat) :
    addSegmentBits index bits v = l ++ { SparseBits.added index bits.length m with indices := bits }::r := by
  have parts' := parts.added bits.length
  rw [addSegmentBits,parts'.find]
  exact parts'.put _

/- Bits and well-formedness with one segment in another's place. -/

theorem wholeBit (b : Nat) : b / halfWord * halfWord + b % halfWord = b := by
  rw [Nat.mul_comm]
  exact Nat.div_add_mod b halfWord

theorem Parted.member (parts : Parted v h l m r) (same : b / halfWord = h) : Member v b ↔ ∃ s ∈ m, b % halfWord ∈ s.indices := by
  obtain ⟨rfl,below,here,above⟩ := parts
  rw [memberAppend,memberAppend]
  constructor
  · rintro (⟨t,on,has⟩ | ⟨s,on,has⟩ | ⟨t,on,has⟩)
    · exact absurd has.1 (by have less := below t on; omega)
    · exact ⟨s,by simpa using on,has.2⟩
    · exact absurd has.1 (by have more := above t on; omega)
  · rintro ⟨s,on,has⟩
    exact .inr (.inl ⟨s,by simpa using on,by rw [same]; exact here s on,has⟩)

-- Elsewhere nothing changes.
theorem Parted.elsewhere (parts : Parted v h l m r) (here' : ∀ s ∈ m', s.highBits = h) (differ : b / halfWord ≠ h) :
    Member (l ++ (m'.toList ++ r)) b ↔ Member v b := by
  have none' : ∀ {o : Option Segment}, (∀ s ∈ o, s.highBits = h) → ¬ Member o.toList b := by
    rintro o all ⟨s,on,has⟩
    exact differ (has.1 ▸ all s (by simpa using on))
  rw [parts.shape,memberAppend,memberAppend,memberAppend,memberAppend]
  simp only [none' here',none' parts.here,false_or]

theorem Parted.ordered (parts : Parted v h l m r) (asc : v.Pairwise (fun s t => s.highBits < t.highBits)) (here' : ∀ s ∈ m', s.highBits = h) :
    (l ++ (m'.toList ++ r)).Pairwise (fun s t => s.highBits < t.highBits) := by
  rw [parts.shape,List.pairwise_append,List.pairwise_append] at asc
  have under : ∀ s ∈ l, ∀ t ∈ r, s.highBits < t.highBits := fun s on t on' => Nat.lt_trans (parts.below s on) (parts.above t on')
  rw [List.pairwise_append,List.pairwise_append]
  refine ⟨asc.1,⟨?_,asc.2.1.2.1,fun s on t on' => ?_⟩,fun s on t on' => ?_⟩
  · cases m' <;> simp
  · rw [here' s (by simpa using on)]
    exact parts.above t on'
  · rcases List.mem_append.mp on' with first | second
    · rw [here' t (by simpa using first)]
      exact parts.below s on
    · exact under s on t second

theorem Parted.wellFormed (parts : Parted v h l m r) (well : WellFormed limit v) (here' : ∀ s ∈ m', s.highBits = h ∧ Formed limit s) :
    WellFormed limit (l ++ (m'.toList ++ r)) := by
  refine ⟨parts.ordered well.ascending fun s on => (here' s on).1,fun s on => ?_⟩
  rcases List.mem_append.mp on with first | second
  · exact well.formed s (parts.shape ▸ List.mem_append_left _ first)
  · rcases List.mem_append.mp second with second | third
    · exact (here' s (by simpa using second)).2
    · exact well.formed s (parts.shape ▸ List.mem_append_right _ (List.mem_append_right _ third))

theorem findSome (asc : v.Pairwise (fun s t => s.highBits < t.highBits)) (found : findSegment index v = some s) : s ∈ v ∧ s.highBits = index / halfWord := by
  obtain ⟨l,m,r,parts⟩ := parted asc (index / halfWord)
  have same := parts.find.symm.trans found
  subst same
  exact ⟨parts.shape ▸ List.mem_append_right _ (List.mem_append_left _ (by simp)),parts.here s rfl⟩

theorem findMember (asc : v.Pairwise (fun s t => s.highBits < t.highBits)) (same : b / halfWord = index / halfWord) :
    Member v b ↔ ∃ s, findSegment index v = some s ∧ b % halfWord ∈ s.indices := by
  obtain ⟨l,m,r,parts⟩ := parted asc (index / halfWord)
  rw [parts.member same,parts.find]
  rfl

theorem findOf (asc : v.Pairwise (fun s t => s.highBits < t.highBits)) (on : s ∈ v) (same : s.highBits = index / halfWord) : findSegment index v = some s := by
  obtain ⟨l,m,r,parts⟩ := parted asc (index / halfWord)
  rw [parts.find]
  rw [parts.shape,List.mem_append,List.mem_append] at on
  rcases on with first | second | third
  · exact absurd same (Nat.ne_of_lt (parts.below s first))
  · simpa using second
  · exact absurd same (Nat.ne_of_gt (parts.above s third))

theorem findThere (asc : v.Pairwise (fun s t => s.highBits < t.highBits)) (on : t ∈ v) (same : s.highBits = t.highBits) : findSegment s.index v = some t :=
  findOf asc on (by rw [indexHigh,same])

/- One operation on all segments of a vector, whose results are put behind each other. -/

def eachOutput (f : Segment → Option (Bool × List Segment)) : List Segment → Option (Bool × List Segment)
  | [] => some (false,[])
  | s::rest => do
      let first ← f s
      let others ← eachOutput f rest
      some (first.1 || others.1,first.2 ++ others.2)

-- What the operation makes of one segment: one at most, with the same high bits.
structure Piece (limit h : Nat) (changed : Prop) (bits : Nat → Prop) (result : Bool × List Segment) : Prop where
  atMost : result.2.length ≤ 1
  formed : ∀ t ∈ result.2, t.highBits = h ∧ Formed limit t
  flag : result.1 = true ↔ changed
  members : ∀ b, Member result.2 b ↔ bits b

theorem eachOutputSome {f : Segment → Option (Bool × List Segment)} (each : ∀ s ∈ rest, ∃ result, f s = some result) : ∃ result, eachOutput f rest = some result := by
  induction rest with
  | nil => exact ⟨_,rfl⟩
  | cons s rest ih =>
      obtain ⟨first,ran⟩ := each s List.mem_cons_self
      obtain ⟨others,ran'⟩ := ih fun t on => each t (List.mem_cons_of_mem _ on)
      rw [eachOutput,ran,ran']
      exact ⟨_,rfl⟩

structure Gathered (f : Segment → Option (Bool × List Segment)) (rest : List Segment) (result : Bool × List Segment) : Prop where
  ascending : result.2.Pairwise (fun s t => s.highBits < t.highBits)
  high : ∀ t ∈ result.2, ∃ s ∈ rest, t.highBits = s.highBits
  each : ∀ s ∈ rest, ∃ r, f s = some r
  flag : result.1 = true ↔ ∃ s ∈ rest, ∃ r, f s = some r ∧ r.1 = true
  segments : ∀ t, t ∈ result.2 ↔ ∃ s ∈ rest, ∃ r, f s = some r ∧ t ∈ r.2

theorem eachOutputGathered {f : Segment → Option (Bool × List Segment)} {result : Bool × List Segment} (asc : rest.Pairwise (fun s t => s.highBits < t.highBits))
    (single : ∀ s ∈ rest, ∀ r, f s = some r → r.2.length ≤ 1 ∧ ∀ t ∈ r.2, t.highBits = s.highBits) (ran : eachOutput f rest = some result) : Gathered f rest result := by
  induction rest generalizing result with
  | nil =>
      cases ran
      exact ⟨.nil,by simp,by simp,by simp,by simp⟩
  | cons s rest ih =>
      obtain ⟨least,tail⟩ := List.pairwise_cons.mp asc
      rw [eachOutput,Option.bind_eq_bind,Option.bind_eq_some_iff] at ran
      obtain ⟨first,one,ran⟩ := ran
      rw [Option.bind_eq_some_iff] at ran
      obtain ⟨others,many,last⟩ := ran
      cases last
      have gathered := ih tail (fun t on => single t (List.mem_cons_of_mem _ on)) many
      obtain ⟨short,high⟩ := single s List.mem_cons_self first one
      refine ⟨?_,fun t on => ?_,fun t on => ?_,?_,fun t => ?_⟩
      · rw [List.pairwise_append]
        refine ⟨?_,gathered.ascending,fun t on u on' => ?_⟩
        · match first.2, short with
          | [],_ => exact .nil
          | [t],_ => exact List.pairwise_singleton _ _
        · obtain ⟨w,inRest,same⟩ := gathered.high u on'
          rw [high t on,same]
          exact least w inRest
      · rcases List.mem_append.mp on with here | later
        · exact ⟨s,List.mem_cons_self,high t here⟩
        · obtain ⟨w,inRest,same⟩ := gathered.high t later
          exact ⟨w,List.mem_cons_of_mem _ inRest,same⟩
      · rcases List.mem_cons.mp on with rfl | later
        · exact ⟨first,one⟩
        · exact gathered.each t later
      · simp only [Bool.or_eq_true,gathered.flag,List.mem_cons,exists_eq_or_imp,one,Option.some.injEq,exists_eq_left']
      · simp only [List.mem_append,gathered.segments t,List.mem_cons,exists_eq_or_imp,one,Option.some.injEq,exists_eq_left']

theorem eachOutputPieces {f : Segment → Option (Bool × List Segment)} {changed : Segment → Prop} {bits : Segment → Nat → Prop}
    (asc : rest.Pairwise (fun s t => s.highBits < t.highBits)) (each : ∀ s ∈ rest, ∃ result, f s = some result ∧ Piece limit s.highBits (changed s) (bits s) result) :
    ∃ result, eachOutput f rest = some result ∧ WellFormed limit result.2 ∧ (∀ t ∈ result.2, ∃ s ∈ rest, t.highBits = s.highBits) ∧
      (result.1 = true ↔ ∃ s ∈ rest, changed s) ∧ ∀ b, Member result.2 b ↔ ∃ s ∈ rest, bits s b := by
  obtain ⟨result,ran⟩ := eachOutputSome fun s on => (each s on).imp fun _ => And.left
  have pieces : ∀ s ∈ rest, ∀ r, f s = some r → Piece limit s.highBits (changed s) (bits s) r := by
    intro s on r here
    obtain ⟨r',here',piece⟩ := each s on
    rw [here] at here'
    cases here'
    exact piece
  have gathered := eachOutputGathered asc (fun s on r here => ⟨(pieces s on r here).atMost,fun t on' => ((pieces s on r here).formed t on').1⟩) ran
  refine ⟨result,ran,⟨gathered.ascending,fun t on => ?_⟩,gathered.high,?_,fun b => ?_⟩
  · obtain ⟨s,inRest,r,here,on'⟩ := (gathered.segments t).mp on
    exact ((pieces s inRest r here).formed t on').2
  · rw [gathered.flag]
    constructor
    · rintro ⟨s,on,r,here,flag⟩
      exact ⟨s,on,(pieces s on r here).flag.mp flag⟩
    · rintro ⟨s,on,flag⟩
      obtain ⟨r,here⟩ := gathered.each s on
      exact ⟨s,on,r,here,(pieces s on r here).flag.mpr flag⟩
  · constructor
    · rintro ⟨t,on,has⟩
      obtain ⟨s,inRest,r,here,on'⟩ := (gathered.segments t).mp on
      exact ⟨s,inRest,((pieces s inRest r here).members b).mp ⟨t,on',has⟩⟩
    · rintro ⟨s,on,bit⟩
      obtain ⟨r,here⟩ := gathered.each s on
      obtain ⟨t,on',has⟩ := ((pieces s on r here).members b).mpr bit
      exact ⟨t,(gathered.segments t).mpr ⟨s,on,r,here,on'⟩,has⟩

/- Members of a vector in the segments of another. -/

variable {other : Segment} {changed : Bool} {y high : Nat}

theorem Formed.copied (formed : Formed limit s) : Formed limit ⟨s.highBits,s.indices.length % halfWord,s.indices.length,s.indices⟩ :=
  ⟨formed.nonempty,formed.ascending,formed.small,Nat.le_refl _,rfl,Nat.le_trans formed.fits formed.bounded,formed.high⟩

theorem assignWellFormed (well : WellFormed limit v) (outputVector : List Segment) :
    WellFormed limit (assign outputVector v) ∧ ∀ x, Member (assign outputVector v) x ↔ Member v x := by
  refine ⟨⟨List.pairwise_map.mpr (well.ascending.imp id),fun t on => ?_⟩,fun x => ?_⟩
  · obtain ⟨s,inV,rfl⟩ := List.mem_map.mp on
    exact (well.formed s inV).copied
  · simp only [Member,assign,List.mem_map,exists_exists_and_eq_and]
    rfl

theorem bitHalves (s : Segment) (small : y < halfWord) : (s.index + y) / halfWord = s.highBits ∧ (s.index + y) % halfWord = y := by
  have positive : 0 < halfWord := by decide
  rw [Segment.index,Nat.mul_comm]
  exact ⟨by rw [Nat.mul_add_div positive,Nat.div_eq_of_lt small,Nat.add_zero],by rw [Nat.mul_add_mod,Nat.mod_eq_of_lt small]⟩

theorem hasBit (small : y < halfWord) : s.Has (s.index + y) ↔ y ∈ s.indices := by
  obtain ⟨high,low⟩ := bitHalves s small
  rw [Segment.Has,high,low]
  exact and_iff_right rfl

theorem Segment.Has.whole (has : s.Has b) : s.index + b % halfWord = b := by
  rw [Segment.index,has.1,wholeBit]

theorem hasFound (well : WellFormed limit v) (found : findSegment s.index v = some t) (has : s.Has b) : Member v b ↔ b % halfWord ∈ t.indices := by
  rw [findMember well.ascending (has.1.symm.trans (indexHigh s).symm),found]
  simp

theorem hasMissing (well : WellFormed limit v) (none' : findSegment s.index v = none) (has : s.Has b) : ¬ Member v b := by
  rw [findMember well.ascending (has.1.symm.trans (indexHigh s).symm),none']
  simp

-- The values of a segment for which something holds as bits.
theorem existsBit {P : Nat → Prop} (formed : Formed limit s) (Q : Nat → Prop) (same : ∀ x, s.Has x → (P (x % halfWord) ↔ Q x)) :
    (∃ y ∈ s.indices, P y) ↔ ∃ x, s.Has x ∧ Q x := by
  constructor
  · rintro ⟨y,on,holds⟩
    have small := formed.small y on
    have has := (hasBit small).mpr on
    exact ⟨s.index + y,has,(same _ has).mp (by rwa [(bitHalves s small).2])⟩
  · rintro ⟨x,has,holds⟩
    exact ⟨x % halfWord,has.2,(same x has).mpr holds⟩

theorem Carries.member {s' : Segment} {P : Nat → Prop} (carries : Carries limit s' high P) : Member [s'] b ↔ high = b / halfWord ∧ P (b % halfWord) := by
  simp only [memberCons,memberNil,or_false,Segment.Has,carries.high,carries.members]

-- An empty segment is taken out again.
theorem Kept.piece {P : Nat → Prop} {s' : Segment} (kept : Kept limit s P changed s') :
    Piece limit s.highBits (∃ y ∈ s.indices, ¬ P y) (fun x => s.Has x ∧ P (x % halfWord)) (changed,if s'.indices = [] then [] else [s']) := by
  have means : ∀ x, Member [s'] x ↔ s.Has x ∧ P (x % halfWord) := fun x => by rw [kept.carries.member,Segment.Has,and_assoc]
  by_cases empty : s'.indices = []
  · rw [if_pos empty]
    refine ⟨by simp,by simp,kept.flag,fun x => ?_⟩
    rw [← means x]
    simp [Segment.Has,empty]
  · rw [if_neg empty]
    refine ⟨by simp,fun t on => ?_,kept.flag,means⟩
    rw [List.mem_singleton.mp on]
    exact ⟨kept.carries.high,kept.carries.formed empty⟩

end

end OmrCompiler.SparseBits
