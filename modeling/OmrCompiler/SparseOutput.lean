import OmrCompiler.SparseVectors

/-! The operations that leave their result in another vector. -/
namespace OmrCompiler.SparseBits

-- The values of the segment that are not in the other from ii on, and whether one is gone.
def dropCommon (input : List Nat) : List Nat → Nat → List Nat × Bool
  | [],_ => ([],false)
  | v::rest,ii =>
      let ii := ii + ((input.drop ii).takeWhile (· < v)).length
      let (kept,changed) := dropCommon input rest ii
      if input[ii]? = some v then (kept,true) else (v::kept,changed)

def andcSegmentInto (s input output : Segment) : Option (Bool × Segment) :=
  if s.indices = [] ∨ input.indices = [] then some (false,copySegment output s)
  else
    let output := growSegment s.indices.length 0 output
    let (kept,changed) := dropCommon input.indices s.indices 0
    if kept.length ≤ output.room then
      some (changed,if kept = [] then truncateSegment output else compactSegment { output with indices := kept })
    else none

def orSegmentInto (s input output : Segment) : Option (Bool × Segment) :=
  if input.indices = [] then some (false,copySegment output s)
  else if s.indices = [] then some (true,copySegment output input)
  else do
    let (i0,tmp) ← orLoop s input (input.indices.length + 1) 0 0 0 noSegment
    if tmp.indices = [] then some (false,copySegment output s)
    else do
      let tmp ← append s.indices i0 s.indices.length tmp
      some (true,tmp)

def andOutput (v inputVector outputVector : List Segment) : Option (Bool × List Segment) :=
  if v = [] then some (false,clear outputVector) else andIntoEach inputVector (clear outputVector) false v

/- The loop over the segments, into an output that has those before: one that the input
lacks is copied or not, and one that comes out empty is removed again or not. -/
def outputEach (copies removes : Bool) (op : Segment → Segment → Segment → Option (Bool × Segment)) (inputVector : List Segment) (output : List Segment) (changed : Bool) :
    List Segment → Option (Bool × List Segment)
  | [] => some (changed,output)
  | s::rest =>
      match findSegment s.index inputVector with
      | none => outputEach copies removes op inputVector (if copies then addSegmentBits s.index s.indices output else output) changed rest
      | some input => do
          let output := addSegment s.index s.indices.length output
          let new ← findSegment s.index output
          let (hit,new) ← op s input new
          let output := putSegment s.index new output
          outputEach copies removes op inputVector (if removes && decide (new.indices = []) then removeSegment s.index output else output) (hit || changed) rest

def andcOutput (v inputVector outputVector : List Segment) : Option (Bool × List Segment) :=
  if v = [] ∨ inputVector = [] then some (false,assign outputVector v)
  else outputEach true true andcSegmentInto inputVector (clear outputVector) false v

-- The segments of the input that the vector does not have.
def addMissing (v : List Segment) (output : List Segment) (changed : Bool) : List Segment → Bool × List Segment
  | [] => (changed,output)
  | input::rest =>
      match findSegment input.index v with
      | some _ => addMissing v output changed rest
      | none => addMissing v (addSegmentBits input.index input.indices output) true rest

def orOutput (v inputVector outputVector : List Segment) : Option (Bool × List Segment) :=
  if inputVector = [] then some (false,assign outputVector v)
  else if v = [] then some (true,assign outputVector inputVector)
  else do
    let (changed,output) ← outputEach true false orSegmentInto inputVector (clear outputVector) false v
    some (addMissing v output changed inputVector)

section
variable {v inputVector outputVector output rest : List Segment} {s input : List Nat} {seg other t blank : Segment} {changed : Bool} {ii high limit n b : Nat}

/- The segments. -/

-- A segment that has been allocated and is still empty.
structure Blank (limit high : Nat) (blank : Segment) : Prop where
  empty : blank.indices = []
  sized : blank.size ≤ blank.room
  narrow : blank.size < halfWord
  bounded : blank.room ≤ limit
  high : blank.highBits = high

theorem Blank.grow (isBlank : Blank limit high blank) (large : kSegmentMask ≤ limit) (n : Nat) :
    Blank limit high (growSegment n 0 blank) ∧ min n kSegmentMask ≤ (growSegment n 0 blank).room ∧ (n = halfWord → (growSegment n 0 blank).room = kSegmentMask) := by
  have mask : kSegmentMask + 1 = halfWord := rfl
  have sized := isBlank.sized
  have narrow := isBlank.narrow
  have bounded := isBlank.bounded
  have same : growSize n 0 = n := rfl
  have mod : ∀ k : Nat, k % halfWord < halfWord := fun k => Nat.mod_lt _ (by decide)
  simp only [growSegment,same]
  split
  · exact ⟨isBlank,by omega,fun whole => by omega⟩
  · generalize size : (if n > kSegmentMask then kSegmentMask else n) = k
    have small : k ≤ kSegmentMask ∧ min n kSegmentMask ≤ k ∧ (n = halfWord → k = kSegmentMask) := by
      rw [← size]
      split <;> omega
    have bounded' : k ≤ limit := by omega
    split
    · exact ⟨⟨rfl,Nat.mod_le _ _,mod k,bounded',isBlank.high⟩,small.2⟩
    · refine ⟨⟨?_,Nat.mod_le _ _,mod k,bounded',isBlank.high⟩,small.2⟩
      show blank.indices.take k = []
      rw [isBlank.empty,List.take_nil]

theorem freshBlank (bounded : n ≤ limit) : Blank limit high (allocate n ⟨high,0,0,[]⟩) :=
  ⟨rfl,Nat.mod_le _ _,Nat.mod_lt _ (by decide),bounded,rfl⟩

theorem dropCommonFilter (asc : Ascending s) (asc' : Ascending input) (bound : ii ≤ input.length) (before : ∀ v ∈ s, ∀ y ∈ input.take ii, y < v) :
    dropCommon input s ii = (s.filter (· ∉ input),s.any (· ∈ input)) := by
  induction s generalizing ii with
  | nil => rfl
  | cons v rest ih =>
      obtain ⟨least,tail⟩ := List.pairwise_cons.mp asc
      have scanned := scan asc' bound (before v List.mem_cons_self)
      rw [dropCommon]
      simp only
      rw [ih tail scanned.bound fun u on y low => Nat.lt_trans (scanned.before y low) (least u on)]
      by_cases on : v ∈ input
      · have here : input[ii + ((input.drop ii).takeWhile (· < v)).length]? = some v := by
          rcases some' : input[ii + ((input.drop ii).takeWhile (· < v)).length]? with - | w
          · exact absurd on (scanned.ended some')
          · rw [(scanned.here w some').mp on]
        rw [if_pos here,List.filter_cons_of_neg (by simpa using on),List.any_cons]
        simp [on]
      · rw [if_neg (fun here => on (List.mem_of_getElem? here)),List.filter_cons_of_pos (by simpa using on),List.any_cons]
        simp [on]

-- What a filter of the segment, written into the memory of an empty one, comes to.
theorem Formed.written {p : Nat → Bool} {gone : Bool} {P : Nat → Prop} (formed : Formed limit seg) (isBlank : Blank limit seg.highBits blank)
    (means : ∀ y, p y = true ↔ P y) (flag : gone = true ↔ ∃ y ∈ seg.indices, ¬ P y) :
    Kept limit seg P gone (if seg.indices.filter p = [] then truncateSegment blank else compactSegment { blank with indices := seg.indices.filter p }) := by
  refine ⟨flag,?_⟩
  split
  · rename_i empty
    refine carriesNone isBlank.high rfl fun y both => ?_
    exact List.filter_eq_nil_iff.mp empty y both.1 ((means y).mpr both.2)
  · have length := List.length_filter_le p seg.indices
    have fits := formed.fits
    have bounded := formed.bounded
    have whole : (seg.indices.filter p).take (seg.indices.filter p).length = seg.indices.filter p := List.take_length
    simp only [compactSegment,reallocate]
    rw [whole,isBlank.high]
    exact (formed.filtered (Nat.le_refl _) (by omega)).congr fun y => and_congr_right fun _ => means y

-- The intersection of two segments that have all 65536 values finds no room.
theorem andSegmentIntoKept (formed : Formed limit seg) (formed' : Formed limit other) (isBlank : Blank limit seg.highBits blank) (large : kSegmentMask ≤ limit) :
    (andSegmentInto seg other blank = none ∧ ∀ k, k < halfWord → k ∈ seg.indices ∧ k ∈ other.indices) ∨
      ∃ changed s', andSegmentInto seg other blank = some (changed,s') ∧ Kept limit seg (· ∈ other.indices) changed s' ∧
        ¬ ∀ k, k < halfWord → k ∈ seg.indices ∧ k ∈ other.indices := by
  obtain ⟨isBlank',room,whole⟩ := isBlank.grow large seg.indices.length
  have mask : kSegmentMask + 1 = halfWord := rfl
  have short := formed.ascending.short formed.small
  have length := List.length_filter_le (· ∈ other.indices) seg.indices
  have asc : Ascending (seg.indices.filter (· ∈ other.indices)) := formed.ascending.sublist List.filter_sublist
  have among : ∀ k, k ∈ seg.indices.filter (· ∈ other.indices) ↔ k ∈ seg.indices ∧ k ∈ other.indices := by simp
  unfold andSegmentInto
  rw [if_neg formed.nonempty,if_neg formed'.nonempty,keepCommonFilter formed.ascending formed'.ascending (Nat.zero_le _) (by simp)]
  by_cases full : ∀ k, k < halfWord → k ∈ seg.indices ∧ k ∈ other.indices
  · have all : Full (seg.indices.filter (· ∈ other.indices)) (fun _ => False) := fun k inRange => .inl ((among k).mpr (full k inRange))
    have long := all.long fun k either => either.resolve_right id
    exact .inl ⟨if_neg (by have room' := whole (by omega); omega),full⟩
  · have fits : (seg.indices.filter (· ∈ other.indices)).length < halfWord := by
      rw [not_forall] at full
      obtain ⟨k,here⟩ := full
      rw [Classical.not_imp] at here
      exact asc.length (fun y on => formed.small y ((among y).mp on).1) (fun on => here.2 ((among k).mp on)) here.1
    exact .inr ⟨_,_,if_pos (by omega),formed.written isBlank' (fun y => by simp) (by simp),full⟩

theorem andcSegmentIntoKept (formed : Formed limit seg) (formed' : Formed limit other) (isBlank : Blank limit seg.highBits blank) (large : kSegmentMask ≤ limit) :
    ∃ changed s', andcSegmentInto seg other blank = some (changed,s') ∧ Kept limit seg (· ∉ other.indices) changed s' := by
  obtain ⟨isBlank',room,-⟩ := isBlank.grow large seg.indices.length
  have mask : kSegmentMask + 1 = halfWord := rfl
  have length := List.length_filter_le (· ∉ other.indices) seg.indices
  have asc : Ascending (seg.indices.filter (· ∉ other.indices)) := formed.ascending.sublist List.filter_sublist
  -- The other segment has a value, so that not all 65536 are left.
  obtain ⟨k,on⟩ := List.exists_mem_of_ne_nil _ formed'.nonempty
  have fits : (seg.indices.filter (· ∉ other.indices)).length < halfWord := by
    refine asc.length (fun y on' => formed.small y (List.mem_of_mem_filter on')) (fun on' => ?_) (formed'.small k on)
    simpa [on] using List.of_mem_filter on'
  unfold andcSegmentInto
  rw [if_neg (by simp [formed.nonempty,formed'.nonempty]),dropCommonFilter formed.ascending formed'.ascending (Nat.zero_le _) (by simp)]
  exact ⟨_,_,if_pos (by omega),formed.written isBlank' (fun y => by simp) (by simp)⟩

-- A segment to which nothing is added is copied, but not how many values it has.
theorem orSegmentIntoUnion (formed : Formed limit seg) (formed' : Formed limit other) (isBlank : Blank limit seg.highBits blank) (large : kSegmentMask ≤ limit) :
    (orSegmentInto seg other blank = none ∧ Full seg.indices (· ∈ other.indices) ∧ ∃ y, y ∈ other.indices ∧ y ∉ seg.indices) ∨
      (∃ s', orSegmentInto seg other blank = some (false,s') ∧ s'.indices = [] ∧ s'.highBits = seg.highBits ∧ ∀ y ∈ other.indices, y ∈ seg.indices) ∨
      ∃ s', orSegmentInto seg other blank = some (true,s') ∧ ¬ Full seg.indices (· ∈ other.indices) ∧ (∃ y, y ∈ other.indices ∧ y ∉ seg.indices) ∧
        Carries limit s' seg.highBits (fun y => y ∈ seg.indices ∨ y ∈ other.indices) := by
  unfold orSegmentInto
  rw [if_neg formed'.nonempty,if_neg formed.nonempty]
  rcases orLoopUnion formed formed' large with ⟨ran,failed⟩ | ⟨i0,tmp,ran,⟨zero,within⟩ | ⟨some',new,⟨none',full⟩ | ⟨s',appended,room,carries⟩⟩⟩
  · rw [ran]
    exact .inl ⟨rfl,failed⟩
  · rw [ran]
    simp only [Option.bind_eq_bind,Option.bind_some]
    rw [if_pos zero]
    refine .inr (.inl ⟨_,rfl,?_,isBlank.high,within⟩)
    show blank.indices.take _ = []
    rw [isBlank.empty,List.take_nil]
  · rw [ran]
    simp only [Option.bind_eq_bind,Option.bind_some]
    rw [if_neg some',none']
    exact .inl ⟨rfl,full,new⟩
  · rw [ran]
    simp only [Option.bind_eq_bind,Option.bind_some]
    rw [if_neg some',appended]
    exact .inr (.inr ⟨s',rfl,room,new,carries⟩)

/- The loops. -/

theorem andIntoOutput : andIntoEach inputVector output changed rest = outputEach false true andSegmentInto inputVector output changed rest := by
  induction rest generalizing output changed with
  | nil => rfl
  | cons s rest ih =>
      rw [andIntoEach,outputEach]
      cases findSegment s.index inputVector with
      | none => exact ih
      | some input => simp only [ih,Bool.true_and,decide_eq_true_eq]

-- What becomes of one segment.
def outputPiece (copies removes : Bool) (op : Segment → Segment → Segment → Option (Bool × Segment)) (inputVector : List Segment) (s : Segment) : Option (Bool × List Segment) :=
  match findSegment s.index inputVector with
  | none => some (false,if copies then [{ added s.index s.indices.length none with indices := s.indices }] else [])
  | some input => do
      let r ← op s input (added s.index s.indices.length none)
      some (r.1,if removes && decide (r.2.indices = []) then [] else [r.2])

theorem lastParted (lower : ∀ t ∈ output, t.highBits < high) : Parted output high output none [] := ⟨by simp,lower,by simp,by simp⟩

theorem outputEachPieces {copies removes : Bool} {op : Segment → Segment → Segment → Option (Bool × Segment)} (asc : rest.Pairwise (fun s t => s.highBits < t.highBits))
    (lower : ∀ t ∈ output, ∀ s ∈ rest, t.highBits < s.highBits)
    (keeps : ∀ s ∈ rest, ∀ input r, findSegment s.index inputVector = some input → op s input (added s.index s.indices.length none) = some r → r.2.highBits = s.highBits) :
    outputEach copies removes op inputVector output changed rest =
      (eachOutput (outputPiece copies removes op inputVector) rest).map fun r => (r.1 || changed,output ++ r.2) := by
  induction rest generalizing output changed with
  | nil => simp [outputEach,eachOutput]
  | cons s rest ih =>
      obtain ⟨least,tail⟩ := List.pairwise_cons.mp asc
      have parts : Parted output (s.index / halfWord) output none [] := lastParted fun t on => by rw [indexHigh]; exact lower t on s List.mem_cons_self
      have keeps' : ∀ t ∈ rest, ∀ input r, findSegment t.index inputVector = some input → op t input (added t.index t.indices.length none) = some r → r.2.highBits = t.highBits :=
        fun t on => keeps t (List.mem_cons_of_mem _ on)
      have lower' : ∀ t ∈ output, ∀ u ∈ rest, t.highBits < u.highBits := fun t on u on' => lower t on u (List.mem_cons_of_mem _ on')
      have next : ∀ new : Segment, new.highBits = s.highBits → ∀ t ∈ output ++ [new], ∀ u ∈ rest, t.highBits < u.highBits := by
        intro new same t on u on'
        rcases List.mem_append.mp on with before | here
        · exact lower' t before u on'
        · rw [List.mem_singleton.mp here,same]
          exact least u on'
      rw [outputEach,eachOutput,outputPiece]
      cases here : findSegment s.index inputVector with
      | none =>
          simp only [Option.bind_eq_bind,Option.bind_some]
          cases copies with
          | false =>
              simp only [if_false,Bool.false_eq_true]
              rw [ih tail lower' keeps']
              cases eachOutput (outputPiece false removes op inputVector) rest <;> simp
          | true =>
              simp only [if_true,parts.addBits]
              rw [ih tail (next _ (indexHigh s)) keeps']
              cases eachOutput (outputPiece true removes op inputVector) rest <;> simp
      | some input =>
          have found : findSegment s.index (addSegment s.index s.indices.length output) = some (added s.index s.indices.length none) := (parts.added _).find
          simp only [found,Option.bind_eq_bind,Option.bind_some]
          rcases ran : op s input (added s.index s.indices.length none) with - | r
          · rfl
          · have same := keeps s List.mem_cons_self input r here ran
            have put : putSegment s.index r.2 (addSegment s.index s.indices.length output) = output ++ [r.2] := (parts.added _).put _
            have parts' : Parted (output ++ [r.2]) (s.index / halfWord) output (some r.2) [] := by
              refine ⟨rfl,parts.below,fun t on => ?_,by simp⟩
              cases on
              rw [same,indexHigh]
            have removed : removeSegment s.index (output ++ [r.2]) = output := by rw [parts'.remove,List.append_nil]
            simp only [Option.bind_some,put]
            split
            · rw [removed,ih tail lower' keeps']
              cases eachOutput (outputPiece copies removes op inputVector) rest
              · rfl
              · simp [Bool.or_assoc,Bool.or_left_comm]
            · rw [ih tail (next _ same) keeps']
              cases eachOutput (outputPiece copies removes op inputVector) rest
              · rfl
              · simp [Bool.or_assoc,Bool.or_left_comm]

/- The results. -/

theorem Formed.fresh (formed : Formed limit seg) : Blank limit seg.highBits (added seg.index seg.indices.length none) := by
  have isBlank := @freshBlank seg.highBits limit seg.indices.length (Nat.le_trans formed.fits formed.bounded)
  rwa [← indexHigh seg] at isBlank ⊢

theorem andIntoHigh (well : WellFormed limit v) (well' : WellFormed limit inputVector) (large : kSegmentMask ≤ limit) :
    ∀ s ∈ v, ∀ input r, findSegment s.index inputVector = some input → andSegmentInto s input (added s.index s.indices.length none) = some r → r.2.highBits = s.highBits := by
  intro s on input r found ran
  obtain ⟨inInput,-⟩ := findSome well'.ascending found
  rcases andSegmentIntoKept (well.formed s on) (well'.formed input inInput) (well.formed s on).fresh large with ⟨none',-⟩ | ⟨c,s',ran',kept,-⟩
  · rw [none'] at ran
    cases ran
  · rw [ran'] at ran
    cases ran
    exact kept.carries.high

-- The intersection of two vectors that do not both have all values of a segment.
theorem andOutputMembers (well : WellFormed limit v) (well' : WellFormed limit inputVector) (large : kSegmentMask ≤ limit)
    (room : ∀ s ∈ v, ∀ t ∈ inputVector, s.highBits = t.highBits → ¬ ∀ k, k < halfWord → k ∈ s.indices ∧ k ∈ t.indices) :
    ∃ changed o, andOutput v inputVector outputVector = some (changed,o) ∧ WellFormed limit o ∧ (∀ x, Member o x ↔ Member v x ∧ Member inputVector x) ∧
      (changed = true ↔ ∃ s ∈ v, ∃ t ∈ inputVector, s.highBits = t.highBits ∧ ∃ y ∈ s.indices, y ∉ t.indices) := by
  have pieces : ∀ s ∈ v, ∃ result, outputPiece false true andSegmentInto inputVector s = some result ∧
      Piece limit s.highBits (∃ t ∈ inputVector, s.highBits = t.highBits ∧ ∃ y ∈ s.indices, y ∉ t.indices) (fun x => s.Has x ∧ Member inputVector x) result := by
    intro s on
    rw [outputPiece]
    cases found : findSegment s.index inputVector with
    | none =>
        refine ⟨_,rfl,by simp,by simp,⟨fun no => Bool.noConfusion no,?_⟩,fun x => ⟨fun no => absurd no memberNil,fun both => absurd both.2 (hasMissing well' found both.1)⟩⟩
        rintro ⟨t,inInput,same,-⟩
        have there := findThere well'.ascending inInput same
        rw [found] at there
        cases there
    | some t =>
        obtain ⟨inInput,same⟩ := findSome well'.ascending found
        rw [indexHigh] at same
        rcases andSegmentIntoKept (well.formed s on) (well'.formed t inInput) (well.formed s on).fresh large with ⟨-,full⟩ | ⟨c,s',ran,kept,-⟩
        · exact absurd full (room s on t inInput same.symm)
        · simp only [ran,Option.bind_eq_bind,Option.bind_some,Bool.true_and,decide_eq_true_eq]
          have piece := kept.piece
          refine ⟨_,rfl,piece.atMost,piece.formed,piece.flag.trans ?_,fun x => (piece.members x).trans (and_congr_right fun has => (hasFound well' found has).symm)⟩
          constructor
          · exact fun gone => ⟨t,inInput,same.symm,gone⟩
          · rintro ⟨u,inInput',same',gone⟩
            have there := findThere well'.ascending inInput' same'
            rw [found] at there
            cases there
            exact gone
  unfold andOutput
  split
  · rename_i empty
    subst empty
    exact ⟨_,_,rfl,⟨.nil,by simp [clear]⟩,by simp [clear],by simp⟩
  · obtain ⟨result,ran,wellO,-,flag,members⟩ := eachOutputPieces well.ascending pieces
    rw [andIntoOutput,outputEachPieces well.ascending (by simp [clear]) (andIntoHigh well well' large),ran]
    refine ⟨_,_,rfl,?_,fun x => ?_,?_⟩
    · simpa [clear] using wellO
    · simp only [clear,List.nil_append,members]
      exact ⟨fun ⟨s,on,has,both⟩ => ⟨⟨s,on,has⟩,both⟩,fun ⟨⟨s,on,has⟩,both⟩ => ⟨s,on,has,both⟩⟩
    · simpa using flag

theorem copiedPiece (formed : Formed limit seg) (P : Nat → Prop) (all : ∀ x, seg.Has x → P x) :
    Piece limit seg.highBits False (fun x => seg.Has x ∧ P x) (false,[{ added seg.index seg.indices.length none with indices := seg.indices }]) := by
  have shape : { added seg.index seg.indices.length none with indices := seg.indices } = Segment.mk seg.highBits (seg.indices.length % halfWord) seg.indices.length seg.indices := by
    simp only [added,allocate,indexHigh]
  rw [shape]
  refine ⟨by simp,fun t on => ?_,by simp,fun x => ?_⟩
  · rw [List.mem_singleton.mp on]
    exact ⟨rfl,formed.copied⟩
  · simp only [memberCons,memberNil,or_false]
    exact ⟨fun has => ⟨has,all x has⟩,And.left⟩

theorem andcOutputMembers (well : WellFormed limit v) (well' : WellFormed limit inputVector) (large : kSegmentMask ≤ limit) :
    ∃ changed o, andcOutput v inputVector outputVector = some (changed,o) ∧ WellFormed limit o ∧ ∀ x, Member o x ↔ Member v x ∧ ¬ Member inputVector x := by
  have into : ∀ s ∈ v, ∀ t, findSegment s.index inputVector = some t →
      ∃ changed s', andcSegmentInto s t (added s.index s.indices.length none) = some (changed,s') ∧ Kept limit s (· ∉ t.indices) changed s' :=
    fun s on t found => andcSegmentIntoKept (well.formed s on) (well'.formed t (findSome well'.ascending found).1) (well.formed s on).fresh large
  have pieces : ∀ s ∈ v, ∃ result, outputPiece true true andcSegmentInto inputVector s = some result ∧
      Piece limit s.highBits (result.1 = true) (fun x => s.Has x ∧ ¬ Member inputVector x) result := by
    intro s on
    rw [outputPiece]
    cases found : findSegment s.index inputVector with
    | none =>
        have piece := copiedPiece (well.formed s on) (fun x => ¬ Member inputVector x) fun x has => hasMissing well' found has
        exact ⟨_,rfl,piece.atMost,piece.formed,Iff.rfl,piece.members⟩
    | some t =>
        obtain ⟨c,s',ran,kept⟩ := into s on t found
        have piece := kept.piece
        simp only [ran,Option.bind_eq_bind,Option.bind_some,Bool.true_and,decide_eq_true_eq]
        exact ⟨_,rfl,piece.atMost,piece.formed,Iff.rfl,fun x => (piece.members x).trans (and_congr_right fun has => not_congr (hasFound well' found has).symm)⟩
  have pieces' : ∀ s ∈ v, ∃ result, outputPiece true true andcSegmentInto inputVector s = some result ∧
      Piece limit s.highBits (∃ r, outputPiece true true andcSegmentInto inputVector s = some r ∧ r.1 = true) (fun x => s.Has x ∧ ¬ Member inputVector x) result := by
    intro s on
    obtain ⟨result,ran,piece⟩ := pieces s on
    exact ⟨result,ran,piece.atMost,piece.formed,by simp [ran],piece.members⟩
  unfold andcOutput
  split
  · rename_i empty
    obtain ⟨wellO,members⟩ := assignWellFormed well outputVector
    refine ⟨_,_,rfl,wellO,fun x => (members x).trans ?_⟩
    rcases empty with rfl | rfl
    · simp
    · simp
  · have keeps : ∀ s ∈ v, ∀ input r, findSegment s.index inputVector = some input → andcSegmentInto s input (added s.index s.indices.length none) = some r →
        r.2.highBits = s.highBits := by
      intro s on input r found ran
      obtain ⟨c,s',ran',kept⟩ := into s on input found
      rw [ran'] at ran
      cases ran
      exact kept.carries.high
    obtain ⟨result,ran,wellO,-,-,members⟩ := eachOutputPieces well.ascending pieces'
    rw [outputEachPieces well.ascending (by simp [clear]) keeps,ran]
    refine ⟨_,_,rfl,?_,fun x => ?_⟩
    · simpa [clear] using wellO
    · simp only [clear,List.nil_append,members]
      exact ⟨fun ⟨s,on,has,both⟩ => ⟨⟨s,on,has⟩,both⟩,fun ⟨⟨s,on,has⟩,both⟩ => ⟨s,on,has,both⟩⟩

/- The second loop of the union. -/

-- No segment of the output is in the place of one that is added.
def Free (v output rest : List Segment) : Prop := ∀ t ∈ output, ∀ input ∈ rest, t.highBits = input.highBits → ∃ s ∈ v, s.highBits = t.highBits

theorem Free.next {input : Segment} (free : Free v output (input::rest)) (least : ∀ u ∈ rest, input.highBits < u.highBits) {l r : List Segment} {new : Segment}
    (parts : Parted output input.highBits l none r) (same : new.highBits = input.highBits) : Free v (l ++ new::r) rest := by
  intro t on u on' equal
  have old : t ∈ output → ∃ s ∈ v, s.highBits = t.highBits := fun there => free t there u (List.mem_cons_of_mem _ on') equal
  rcases List.mem_append.mp on with first | second
  · exact old (parts.shape ▸ List.mem_append_left _ first)
  · rcases List.mem_cons.mp second with rfl | third
    · have more := least u on'
      omega
    · exact old (parts.shape ▸ List.mem_append_right _ (by simpa using third))

theorem Free.place {input : Segment} (free : Free v output (input::rest)) (wellV : WellFormed limit v) (none' : findSegment input.index v = none)
    (asc : output.Pairwise (fun s t => s.highBits < t.highBits)) : ∃ l r, Parted output (input.index / halfWord) l none r := by
  obtain ⟨l,m,r,parts⟩ := parted asc (input.index / halfWord)
  cases m with
  | none => exact ⟨l,r,parts⟩
  | some t =>
      have same := parts.here t rfl
      rw [indexHigh] at same
      obtain ⟨s,on,equal⟩ := free t (parts.shape ▸ List.mem_append_right _ (List.mem_append_left _ (by simp))) input List.mem_cons_self same
      have there := findThere wellV.ascending on (same.symm.trans equal.symm)
      rw [none'] at there
      cases there

theorem addMissingMembers (wellV : WellFormed limit v) (asc : rest.Pairwise (fun s t => s.highBits < t.highBits)) (formed : ∀ s ∈ rest, Formed limit s)
    (well : WellFormed limit output) (free : Free v output rest) :
    WellFormed limit (addMissing v output changed rest).2 ∧
      ∀ x, Member (addMissing v output changed rest).2 x ↔ Member output x ∨ ∃ s ∈ rest, s.Has x ∧ findSegment s.index v = none := by
  induction rest generalizing output changed with
  | nil => exact ⟨well,fun x => by simp [addMissing]⟩
  | cons input rest ih =>
      obtain ⟨least,tail⟩ := List.pairwise_cons.mp asc
      have formed' : ∀ s ∈ rest, Formed limit s := fun s on => formed s (List.mem_cons_of_mem _ on)
      rw [addMissing]
      cases none' : findSegment input.index v with
      | some s =>
          obtain ⟨wellO,members⟩ := @ih output changed tail formed' well fun t on u on' => free t on u (List.mem_cons_of_mem _ on')
          refine ⟨wellO,fun x => (members x).trans ?_⟩
          simp [none']
      | none =>
          obtain ⟨l,r,parts⟩ := free.place wellV none' well.ascending
          rw [parts.addBits]
          have shape : { added input.index input.indices.length none with indices := input.indices } =
              Segment.mk input.highBits (input.indices.length % halfWord) input.indices.length input.indices := by
            simp only [added,allocate,indexHigh]
          simp only [shape]
          rw [indexHigh] at parts
          have copied := (formed input List.mem_cons_self).copied
          have here' : ∀ s ∈ some (Segment.mk input.highBits (input.indices.length % halfWord) input.indices.length input.indices), s.highBits = input.highBits ∧ Formed limit s := by
            intro s on
            cases on
            exact ⟨rfl,copied⟩
          have well' : WellFormed limit (l ++ Segment.mk input.highBits (input.indices.length % halfWord) input.indices.length input.indices::r) := parts.wellFormed well here'
          obtain ⟨wellO,members⟩ := @ih _ true tail formed' well' (free.next least parts rfl)
          refine ⟨wellO,fun x => (members x).trans ?_⟩
          simp only [List.mem_cons,exists_eq_or_imp,none',and_true]
          rw [← or_assoc]
          refine or_congr_left ?_
          rw [parts.shape]
          simp only [memberAppend,memberCons,Option.toList_none,memberNil,false_or,Segment.Has]
          rw [or_left_comm,or_comm]

-- What is in the output stays there.
theorem addMissingStays (wellV : WellFormed limit v) (asc : rest.Pairwise (fun s t => s.highBits < t.highBits))
    (ascO : output.Pairwise (fun s t => s.highBits < t.highBits)) (free : Free v output rest) (on : t ∈ output) : t ∈ (addMissing v output changed rest).2 := by
  induction rest generalizing output changed with
  | nil => exact on
  | cons input rest ih =>
      obtain ⟨least,tail⟩ := List.pairwise_cons.mp asc
      rw [addMissing]
      cases none' : findSegment input.index v with
      | some s => exact ih tail ascO (fun t on u on' => free t on u (List.mem_cons_of_mem _ on')) on
      | none =>
          obtain ⟨l,r,parts⟩ := free.place wellV none' ascO
          rw [parts.addBits]
          have high : ({ added input.index input.indices.length none with indices := input.indices } : Segment).highBits = input.highBits := indexHigh input
          rw [indexHigh] at parts
          refine ih tail ?_ (free.next least parts high) ?_
          · have here' : ∀ s ∈ some { added input.index input.indices.length none with indices := input.indices }, s.highBits = input.highBits := by
              intro s on'
              cases on'
              exact high
            exact parts.ordered ascO here'
          · rw [parts.shape] at on
            simp only [Option.toList_none,List.nil_append,List.mem_append] at on
            exact List.mem_append.mpr (on.imp id (List.mem_cons_of_mem _))

-- Both vectors have the segment, and the union of the two is neither the first one nor all 65536 values.
def Mixes (v inputVector : List Segment) : Prop :=
  ∀ s ∈ v, ∀ t ∈ inputVector, s.highBits = t.highBits → (∃ y, y ∈ t.indices ∧ y ∉ s.indices) ∧ ¬ Full s.indices (· ∈ t.indices)

theorem orIntoHigh (well : WellFormed limit v) (well' : WellFormed limit inputVector) (large : kSegmentMask ≤ limit) :
    ∀ s ∈ v, ∀ input r, findSegment s.index inputVector = some input → orSegmentInto s input (added s.index s.indices.length none) = some r → r.2.highBits = s.highBits := by
  intro s on input r found ran
  obtain ⟨inInput,-⟩ := findSome well'.ascending found
  rcases orSegmentIntoUnion (well.formed s on) (well'.formed input inInput) (well.formed s on).fresh large with ⟨none',-⟩ | ⟨s',ran',-,high,-⟩ | ⟨s',ran',-,-,carries⟩
  · rw [none'] at ran
    cases ran
  · rw [ran'] at ran
    cases ran
    exact high
  · rw [ran'] at ran
    cases ran
    exact carries.high

theorem orOutputMembers (well : WellFormed limit v) (well' : WellFormed limit inputVector) (large : kSegmentMask ≤ limit) (mixes : Mixes v inputVector) :
    ∃ changed o, orOutput v inputVector outputVector = some (changed,o) ∧ WellFormed limit o ∧ ∀ x, Member o x ↔ Member v x ∨ Member inputVector x := by
  have pieces : ∀ s ∈ v, ∃ result, outputPiece true false orSegmentInto inputVector s = some result ∧
      Piece limit s.highBits (∃ r, outputPiece true false orSegmentInto inputVector s = some r ∧ r.1 = true)
        (fun x => s.highBits = x / halfWord ∧ (x % halfWord ∈ s.indices ∨ Member inputVector x)) result := by
    intro s on
    rw [outputPiece]
    cases found : findSegment s.index inputVector with
    | none =>
        have piece := copiedPiece (well.formed s on) (fun x => ¬ Member inputVector x) fun x has => hasMissing well' found has
        refine ⟨_,rfl,piece.atMost,piece.formed,by simp,fun x => (piece.members x).trans ?_⟩
        constructor
        · exact fun both => ⟨both.1.1,.inl both.1.2⟩
        · rintro ⟨same,has | other⟩
          · exact ⟨⟨same,has⟩,hasMissing well' found ⟨same,has⟩⟩
          · rw [findMember well'.ascending (same.symm.trans (indexHigh s).symm),found] at other
            simp at other
    | some t =>
        obtain ⟨inInput,same⟩ := findSome well'.ascending found
        rw [indexHigh] at same
        obtain ⟨new,room⟩ := mixes s on t inInput same.symm
        rcases orSegmentIntoUnion (well.formed s on) (well'.formed t inInput) (well.formed s on).fresh large with ⟨-,full,-⟩ | ⟨s',-,-,-,within⟩ | ⟨s',ran,-,-,carries⟩
        · exact absurd full room
        · obtain ⟨y,there,missing⟩ := new
          exact absurd (within y there) missing
        · simp only [ran,Option.bind_eq_bind,Option.bind_some,Bool.false_and,Bool.false_eq_true,if_false]
          refine ⟨_,rfl,by simp,fun u on' => ?_,by simp,fun x => carries.member.trans (and_congr_right fun here => or_congr_right ?_)⟩
          · rw [List.mem_singleton.mp on']
            obtain ⟨y,there⟩ := List.exists_mem_of_ne_nil _ (well.formed s on).nonempty
            exact ⟨carries.high,carries.formed (List.ne_nil_of_mem ((carries.members y).mpr (.inl there)))⟩
          · rw [findMember well'.ascending (here.symm.trans (indexHigh s).symm),found]
            simp
  unfold orOutput
  split
  · rename_i empty
    obtain ⟨wellO,members⟩ := assignWellFormed well outputVector
    exact ⟨_,_,rfl,wellO,fun x => by rw [members x,empty]; simp⟩
  · split
    · rename_i empty
      obtain ⟨wellO,members⟩ := assignWellFormed well' outputVector
      exact ⟨_,_,rfl,wellO,fun x => by rw [members x,empty]; simp⟩
    · obtain ⟨result,ran,wellO,high,-,members⟩ := eachOutputPieces well.ascending pieces
      rw [outputEachPieces well.ascending (by simp [clear]) (orIntoHigh well well' large),ran]
      simp only [clear,List.nil_append,Option.map_some,Option.bind_eq_bind,Option.bind_some]
      have free : Free v result.2 inputVector := fun t on u _ _ => (high t on).imp fun s both => ⟨both.1,both.2.symm⟩
      obtain ⟨wellO',members'⟩ := @addMissingMembers v result.2 inputVector (result.1 || false) limit well well'.ascending well'.formed wellO free
      refine ⟨_,_,rfl,wellO',fun x => (members' x).trans ?_⟩
      rw [members]
      constructor
      · rintro (⟨s,on,same,has | other⟩ | ⟨t,on,has,-⟩)
        · exact .inl ⟨s,on,same,has⟩
        · exact .inr other
        · exact .inr ⟨t,on,has⟩
      · rintro (⟨s,on,has⟩ | ⟨t,on,has⟩)
        · exact .inl ⟨s,on,has.1,.inl has.2⟩
        · cases found : findSegment t.index v with
          | none => exact .inr ⟨t,on,has,found⟩
          | some s =>
              obtain ⟨inV,same⟩ := findSome well.ascending found
              rw [indexHigh] at same
              exact .inl ⟨s,inV,same.trans has.1,.inr ⟨t,on,has⟩⟩

-- Where the union adds nothing to a segment of the vector an empty one comes out; where it has all values there is no room.
theorem orOutputUnmixed (well : WellFormed limit v) (well' : WellFormed limit inputVector) (large : kSegmentMask ≤ limit) (unmixed : ¬ Mixes v inputVector) :
    orOutput v inputVector outputVector = none ∨ ∃ changed o, orOutput v inputVector outputVector = some (changed,o) ∧ ∃ t ∈ o, t.indices = [] := by
  obtain ⟨s,on,t,inInput,same,bad⟩ : ∃ s ∈ v, ∃ t ∈ inputVector, s.highBits = t.highBits ∧ ((∃ y, y ∈ t.indices ∧ y ∉ s.indices) → Full s.indices (· ∈ t.indices)) := by
    simp only [Mixes,not_forall,not_and,not_not] at unmixed
    obtain ⟨s,on,t,inInput,same,bad⟩ := unmixed
    exact ⟨s,on,t,inInput,same,bad⟩
  have found : findSegment s.index inputVector = some t := findThere well'.ascending inInput same
  unfold orOutput
  rw [if_neg (List.ne_nil_of_mem inInput),if_neg (List.ne_nil_of_mem on),outputEachPieces well.ascending (by simp [clear]) (orIntoHigh well well' large)]
  have single : ∀ s ∈ v, ∀ r, outputPiece true false orSegmentInto inputVector s = some r → r.2.length ≤ 1 ∧ ∀ t ∈ r.2, t.highBits = s.highBits := by
    intro s on r ran
    rw [outputPiece] at ran
    cases found : findSegment s.index inputVector with
    | none =>
        rw [found] at ran
        cases ran
        exact ⟨by simp,fun t on' => by rw [List.mem_singleton.mp on']; exact indexHigh s⟩
    | some input =>
        simp only [found,Option.bind_eq_bind,Option.bind_eq_some_iff,Bool.false_and,Bool.false_eq_true,if_false] at ran
        obtain ⟨r',ran',last⟩ := ran
        cases last
        exact ⟨by simp,fun t on' => by rw [List.mem_singleton.mp on']; exact orIntoHigh well well' large s on input r' found ran'⟩
  cases ran : eachOutput (outputPiece true false orSegmentInto inputVector) v with
  | none => exact .inl rfl
  | some result =>
      have gathered := eachOutputGathered well.ascending single ran
      refine .inr ⟨_,_,rfl,?_⟩
      have free : Free v result.2 inputVector := fun t on u _ _ => (gathered.high t on).imp fun s both => ⟨both.1,both.2.symm⟩
      obtain ⟨r,made⟩ := gathered.each s on
      have made' := made
      rw [outputPiece] at made
      simp only [found,Option.bind_eq_bind,Option.bind_eq_some_iff,Bool.false_and,Bool.false_eq_true,if_false] at made
      obtain ⟨r',ran',last⟩ := made
      cases last
      rcases orSegmentIntoUnion (well.formed s on) (well'.formed t inInput) (well.formed s on).fresh large with ⟨none',-⟩ | ⟨s',ran'',empty,-⟩ | ⟨s',-,room,new,-⟩
      · rw [none'] at ran'
        cases ran'
      · rw [ran''] at ran'
        cases ran'
        refine ⟨s',?_,empty⟩
        simp only [clear,List.nil_append]
        exact addMissingStays well well'.ascending gathered.ascending free ((gathered.segments s').mpr ⟨s,on,_,made',by simp⟩)
      · exact absurd (bad new) room

/- The operation ran, and its result has the bits of P and no empty segment. -/
def Leaves (limit : Nat) (ran : Option (Bool × List Segment)) (P : Nat → Prop) : Prop :=
  ∃ changed o, ran = some (changed,o) ∧ WellFormed limit o ∧ ∀ x, Member o x ↔ P x

def ThreeOperandsAgree (limit : Nat) (a b o : List Segment) : Prop :=
  Leaves limit (orOutput a b o) (fun x => Member a x ∨ Member b x) ∧
  Leaves limit (andOutput a b o) (fun x => Member a x ∧ Member b x) ∧
  Leaves limit (andcOutput a b o) (fun x => Member a x ∧ ¬ Member b x)

theorem threeOperands {a b : List Segment} (wellA : WellFormed halfWord a) (wellB : WellFormed halfWord b) (o : List Segment) :
    ThreeOperandsAgree halfWord a b o ↔ Mixes a b := by
  have large : kSegmentMask ≤ halfWord := Nat.le_succ _
  constructor
  · rintro ⟨⟨changed,output,ran,well,-⟩,-,-⟩
    by_contra unmixed
    rcases @orOutputUnmixed a b o halfWord wellA wellB large unmixed with none' | ⟨changed',output',ran',t,on,empty⟩
    · rw [none'] at ran
      cases ran
    · rw [ran'] at ran
      cases ran
      exact (well.formed t on).nonempty empty
  · intro mixes
    obtain ⟨changed,output,ran,well,members⟩ := @orOutputMembers a b o halfWord wellA wellB large mixes
    -- A segment that is full in both would add nothing.
    have room : ∀ s ∈ a, ∀ t ∈ b, s.highBits = t.highBits → ¬ ∀ k, k < halfWord → k ∈ s.indices ∧ k ∈ t.indices := by
      intro s on t on' same both
      obtain ⟨⟨y,there,missing⟩,-⟩ := mixes s on t on' same
      exact missing (both y ((wellB.formed t on').small y there)).1
    obtain ⟨changed',output',ran',well',members',-⟩ := @andOutputMembers a b o halfWord wellA wellB large room
    exact ⟨⟨changed,output,ran,well,members⟩,⟨changed',output',ran',well',members'⟩,andcOutputMembers wellA wellB large⟩

theorem threeOperandsSample : ThreeOperandsAgree halfWord [⟨0,4,4,[1,3]⟩] [⟨0,4,4,[2,3]⟩] [] := by
  refine (threeOperands (fourWellFormed (by decide) (by unfold Ascending; decide) (by decide) (by decide))
    (fourWellFormed (by decide) (by unfold Ascending; decide) (by decide) (by decide)) []).mpr fun s on t on' _ => ?_
  rw [List.mem_singleton.mp on,List.mem_singleton.mp on']
  refine ⟨⟨2,by decide,by decide⟩,fun full => ?_⟩
  have zero := full 0 (by decide)
  revert zero
  decide

theorem containedUnionEmpty : WellFormed halfWord [⟨0,4,4,[1,2]⟩] ∧ WellFormed halfWord [⟨0,4,4,[1]⟩] ∧
    orOutput [⟨0,4,4,[1,2]⟩] [⟨0,4,4,[1]⟩] [] = some (false,[⟨0,2,2,[]⟩]) ∧ ¬ ThreeOperandsAgree halfWord [⟨0,4,4,[1,2]⟩] [⟨0,4,4,[1]⟩] [] := by
  have ran : orOutput [⟨0,4,4,[1,2]⟩] [⟨0,4,4,[1]⟩] [] = some (false,[⟨0,2,2,[]⟩]) := by decide
  refine ⟨fourWellFormed (by decide) (by unfold Ascending; decide) (by decide) (by decide),
    fourWellFormed (by decide) (by unfold Ascending; decide) (by decide) (by decide),ran,?_⟩
  rintro ⟨⟨changed,output,ran',well,-⟩,-⟩
  rw [ran] at ran'
  cases ran'
  exact (well.formed _ List.mem_cons_self).nonempty rfl

end

end OmrCompiler.SparseBits
