import OmrCompiler.SparseJoin
import OmrCompiler.SparseCursor

/-! Sparse vectors combined with another representation, of which only the cursor and
the lookup are known. -/
namespace OmrCompiler.SparseBits

/- The cursor goes over the bits in their order; what is left of them is its state, and
a cursor behind the last one stays there. -/
structure Foreign where
  elements : List Nat
  hasFastRandomLookup : Bool
  ascending : elements.Pairwise (· < ·)
  small : ∀ x ∈ elements, x < word
  deriving Repr

def Foreign.isZero (vector : Foreign) : Bool := vector.elements.isEmpty

def Foreign.valueAt (vector : Foreign) (index : Nat) : Bool := decide (index ∈ vector.elements)

def Foreign.lastOne (vector : Foreign) : Nat := vector.elements.getLast?.getD 0

-- The cursor moves on to the first bit after k, where k + 1 has 32 bits.
def setToNextOneAfter (k : Nat) (left : List Nat) : List Nat := left.dropWhile fun x => decide (x < (k + 1) % word)

def sameHigh (b x : Nat) : Bool := decide (x / halfWord = b / halfWord)

-- A segment that uses the memory of others.
def adopt (index : Nat) (bits : List Nat) : Segment := ⟨index / halfWord,bits.length % halfWord,bits.length,bits⟩

-- The first cursor counts the bits of a segment, the second one reads them.
def assignLoop : Nat → List Nat → List Nat → List Segment → Option (List Segment)
  | 0,_,_,_ => none
  | fuel + 1,c1,c2,v =>
      match c1 with
      | [] => some v
      | b::c =>
          let count := 1 + (c.takeWhile (sameHigh b)).length
          let bits := (c2.take count).map (· % halfWord)
          assignLoop fuel (c.dropWhile (sameHigh b)) (c2.drop count) (addSegmentBits (b / halfWord * halfWord) bits v)

def assignForeign (v : List Segment) (vector : Foreign) : Option (List Segment) :=
  assignLoop (vector.elements.length + 1) vector.elements vector.elements (clear v)

-- The loop of And over what is left of the segments.
def andForeignLoop : Nat → List Nat → List Nat → Bool → List Segment → Option (Bool × List Segment)
  | 0,_,_,_,_ => none
  | fuel + 1,c1,c2,changed,rest =>
      match c1,rest with
      | b::c,_::_ =>
          let count := 1 + (c.takeWhile (sameHigh b)).length
          let c1 := c.dropWhile (sameHigh b)
          let below := rest.takeWhile fun s => decide (s.highBits < b / halfWord)
          let changed := !below.isEmpty || changed
          match rest.drop below.length with
          | [] => andForeignLoop fuel c1 (c2.drop count) changed []
          | s::others =>
              if s.highBits > b / halfWord then andForeignLoop fuel c1 (c2.drop count) changed (s::others)
              else do
                let (hit,s) ← andSegment s (adopt b ((c2.take count).map (· % halfWord)))
                let (changed,others) ← andForeignLoop fuel c1 (c2.drop count) (hit || changed) others
                some (changed,if s.indices = [] then others else s::others)
      | _,_ => some (!rest.isEmpty || changed,[])

def andForeign (v : List Segment) (vector : Foreign) : Option (Bool × List Segment) :=
  if v = [] then some (false,v)
  else if vector.elements = [] then some (true,clear v)
  else andForeignLoop (vector.elements.length + 1) vector.elements vector.elements false v

def orSegmentBits (index : Nat) (bits : List Nat) (v : List Segment) : Option (List Segment) :=
  match findSegment index v with
  | some s => do
      let (_,s) ← orSegment s (adopt index bits)
      some (putSegment index s v)
  | none => some (addSegmentBits index bits v)

def bufferSize : Nat := 1024

-- The buffer takes bits of one segment.
def orCursor : Nat → List Nat → List Segment → Option (List Segment)
  | 0,_,_ => none
  | fuel + 1,c,v =>
      match c with
      | [] => some v
      | b::c => do
          let more := (c.take (bufferSize - 1)).takeWhile (sameHigh b)
          let v ← orSegmentBits (b / halfWord * halfWord) ((b::more).map (· % halfWord)) v
          orCursor fuel (c.drop more.length) v

def orForeign (v : List Segment) (vector : Foreign) : Option (List Segment) := orCursor (vector.elements.length + 1) vector.elements v

section
variable {v rest : List Segment} {s t : Segment} {c c' more later list : List Nat} {changed : Bool} {b fuel limit x : Nat}

/- The bits of one segment. -/

theorem takeDropWhile (p : Nat → Bool) (list : List Nat) : list.drop (list.takeWhile p).length = list.dropWhile p := by
  have split := List.prefix_iff_eq_append.mp (List.takeWhile_prefix p (l := list))
  exact List.append_cancel_left (split.trans List.takeWhile_append_dropWhile.symm)

-- Bits with the high bits of b.
structure Run (b : Nat) (more : List Nat) : Prop where
  ascending : Ascending (b::more)
  same : ∀ x ∈ b::more, x / halfWord = b / halfWord
  small : b < word

def runBits (b : Nat) (more : List Nat) : List Nat := (b::more).map (· % halfWord)

theorem Run.formed (run : Run b more) : Formed halfWord (adopt b (runBits b more)) := by
  have asc : Ascending (runBits b more) := by
    rw [runBits,Ascending,List.pairwise_map]
    refine List.Pairwise.imp_of_mem (fun {x y} on on' less => ?_) run.ascending
    have high := run.same x on
    have high' := run.same y on'
    have whole := Nat.div_add_mod x halfWord
    have whole' := Nat.div_add_mod y halfWord
    rw [high] at whole
    rw [high'] at whole'
    omega
  have small : ∀ y ∈ runBits b more, y < halfWord := by
    intro y on
    obtain ⟨x,-,rfl⟩ := List.mem_map.mp on
    exact Nat.mod_lt _ (by decide)
  have high : b / halfWord < halfWord := by
    have less := run.small
    exact Nat.div_lt_of_lt_mul less
  exact ⟨by simp [adopt,runBits],asc,small,Nat.le_refl _,rfl,asc.short small,high⟩

theorem Run.has (run : Run b more) : (adopt b (runBits b more)).Has x ↔ x ∈ b::more := by
  constructor
  · rintro ⟨high,on⟩
    obtain ⟨z,there,equal⟩ := List.mem_map.mp on
    have same : z = x := by
      rw [← wholeBit z,← wholeBit x,run.same z there,equal,← high]
      rfl
    exact same ▸ there
  · exact fun on => ⟨(run.same x on).symm,List.mem_map.mpr ⟨x,on,rfl⟩⟩

-- The segment has the high bits, whatever the low ones of the index.
theorem adoptHigh (b : Nat) (bits : List Nat) : adopt (b / halfWord * halfWord) bits = adopt b bits := by
  rw [adopt,adopt,Nat.mul_div_cancel _ (by decide)]

-- All bits that the first one shares its high bits with.
theorem wholeRun (asc : Ascending (b::c)) (small : ∀ x ∈ b::c, x < word) :
    Run b (c.takeWhile (sameHigh b)) ∧ (b::c).take (1 + (c.takeWhile (sameHigh b)).length) = b::c.takeWhile (sameHigh b) ∧
      (b::c).drop (1 + (c.takeWhile (sameHigh b)).length) = c.dropWhile (sameHigh b) ∧ (∀ x ∈ c.dropWhile (sameHigh b), b / halfWord < x / halfWord) ∧
      ∀ x, x ∈ b::c ↔ x ∈ b::c.takeWhile (sameHigh b) ∨ x ∈ c.dropWhile (sameHigh b) := by
  have split : c.takeWhile (sameHigh b) ++ c.dropWhile (sameHigh b) = c := List.takeWhile_append_dropWhile
  have first := List.takeWhile_prefix (sameHigh b) (l := c)
  have dropped := takeDropWhile (sameHigh b) c
  have short := first.length_le
  obtain ⟨least,tail⟩ := List.pairwise_cons.mp asc
  refine ⟨⟨asc.sublist (first.sublist.cons_cons b),fun x on => ?_,small b List.mem_cons_self⟩,?_,?_,fun x on => ?_,fun x => ?_⟩
  · rcases List.mem_cons.mp on with rfl | there
    · rfl
    · have holds : sameHigh b x = true := List.mem_takeWhile_imp there
      exact of_decide_eq_true holds
  · rw [Nat.add_comm,List.take_succ_cons,List.prefix_iff_eq_take.mp first]
    simp
  · rw [Nat.add_comm,List.drop_succ_cons,dropped]
  · cases later : c.dropWhile (sameHigh b) with
    | nil =>
        rw [later] at on
        cases on
    | cons z others =>
        have differ : sameHigh b z = false := by
          have head := List.head_dropWhile_not (sameHigh b) (by rw [later]; simp : c.dropWhile (sameHigh b) ≠ [])
          simpa [later] using head
        have there : ∀ y ∈ z::others, y ∈ c := fun y on' => (List.dropWhile_sublist (sameHigh b)).subset (later ▸ on')
        have more := Nat.div_le_div_right (c := halfWord) (Nat.le_of_lt (least z (there z List.mem_cons_self)))
        have above : z ≤ x := by
          rw [later] at on
          rcases List.mem_cons.mp on with rfl | behind
          · exact Nat.le_refl _
          · have sorted : Ascending (z::others) := later ▸ tail.sublist (List.dropWhile_sublist _)
            exact Nat.le_of_lt ((List.pairwise_cons.mp sorted).1 x behind)
        have higher := Nat.div_le_div_right (c := halfWord) above
        have apart := of_decide_eq_false differ
        omega
  · conv => lhs; rw [← split]
    rw [List.mem_cons,List.mem_append,List.mem_cons,or_assoc]

/- The copy. -/

theorem assignLoopMembers (asc : Ascending c) (small : ∀ x ∈ c, x < word) (well : WellFormed halfWord v) (lower : ∀ x, Member v x → ∀ y ∈ c, x / halfWord < y / halfWord)
    (enough : c.length < fuel) : ∃ o, assignLoop fuel c c v = some o ∧ WellFormed halfWord o ∧ ∀ x, Member o x ↔ Member v x ∨ x ∈ c := by
  induction fuel generalizing c v with
  | zero => omega
  | succ fuel ih =>
      cases c with
      | nil => exact ⟨v,rfl,well,by simp⟩
      | cons b c =>
          obtain ⟨run,taken,dropped,beyond,split⟩ := wholeRun asc small
          have formed := run.formed
          rw [assignLoop]
          rw [taken,dropped]
          -- No segment has the high bits yet.
          have none' : findSegment (adopt b (runBits b (c.takeWhile (sameHigh b)))).index v = none := by
            cases found : findSegment (adopt b (runBits b (c.takeWhile (sameHigh b)))).index v with
            | none => rfl
            | some s =>
                obtain ⟨on,same⟩ := findSome well.ascending found
                obtain ⟨y,there⟩ := List.exists_mem_of_ne_nil _ (well.formed s on).nonempty
                have less := (well.formed s on).small y there
                have below := lower _ ⟨s,on,(hasBit less).mpr there⟩ b List.mem_cons_self
                rw [(bitHalves s less).1,same,indexHigh] at below
                exact absurd below (Nat.lt_irrefl _)
          have joined : joinSegment (adopt b (runBits b (c.takeWhile (sameHigh b)))) v =
              some (true,addSegmentBits (b / halfWord * halfWord) ((b::c.takeWhile (sameHigh b)).map (· % halfWord)) v) := by
            rw [joinSegment,none']
            rfl
          rcases joinSegmentMembers well formed (Nat.le_succ _) with ⟨failed,-⟩ | ⟨hit,o,ran,-,wellO,members,-⟩
          · rw [joined] at failed
            cases failed
          · rw [joined] at ran
            cases ran
            have lower' : ∀ x, Member (addSegmentBits (b / halfWord * halfWord) ((b::c.takeWhile (sameHigh b)).map (· % halfWord)) v) x →
                ∀ y ∈ c.dropWhile (sameHigh b), x / halfWord < y / halfWord := by
              intro x on y later
              rcases (members x).mp on with old | has
              · exact lower x old y ((split y).mpr (.inr later))
              · rw [run.same x (run.has.mp has)]
                exact beyond y later
            have length := (List.dropWhile_sublist (sameHigh b) (l := c)).length_le
            have inside : ∀ x ∈ c.dropWhile (sameHigh b), x ∈ b::c := fun x on => (split x).mpr (.inr on)
            obtain ⟨o,ran',wellO',members'⟩ := @ih _ (c.dropWhile (sameHigh b)) ((List.pairwise_cons.mp asc).2.sublist (List.dropWhile_sublist _))
              (fun x on => small x (inside x on)) wellO lower' (by simp only [List.length_cons] at enough; omega)
            refine ⟨o,ran',wellO',fun x => (members' x).trans ?_⟩
            rw [members x,run.has,or_assoc,← split x]

theorem assignForeignMembers (v : List Segment) (vector : Foreign) :
    ∃ o, assignForeign v vector = some o ∧ WellFormed halfWord o ∧ ∀ x, Member o x ↔ x ∈ vector.elements := by
  obtain ⟨o,ran,well,members⟩ := @assignLoopMembers (clear v) vector.elements (vector.elements.length + 1) vector.ascending vector.small
    ⟨.nil,by simp [clear]⟩ (by simp [clear]) (Nat.lt_succ_self _)
  exact ⟨o,ran,well,fun x => (members x).trans (by simp [clear])⟩

/- The union. -/

theorem orSegmentBitsJoin (b : Nat) (bits : List Nat) (v : List Segment) :
    orSegmentBits (b / halfWord * halfWord) bits v = (joinSegment (adopt b bits) v).map (·.2) := by
  rw [orSegmentBits,joinSegment,adoptHigh]
  show (match findSegment (adopt b bits).index v with
    | some s => _
    | none => _) = _
  cases findSegment (adopt b bits).index v with
  | none => rfl
  | some s =>
      simp only [Option.bind_eq_bind]
      cases orSegment s (adopt b bits) <;> rfl

-- The segments that the buffers stand for.
def buffers : Nat → List Nat → List Segment
  | 0,_ => []
  | fuel + 1,c =>
      match c with
      | [] => []
      | b::c =>
          let more := (c.take (bufferSize - 1)).takeWhile (sameHigh b)
          adopt b (runBits b more)::buffers fuel (c.drop more.length)

theorem orCursorBuffers (enough : c.length < fuel) : orCursor fuel c v = (orEach v changed (buffers fuel c)).map (·.2) := by
  induction fuel generalizing c v changed with
  | zero => omega
  | succ fuel ih =>
      cases c with
      | nil => rfl
      | cons b c =>
          rw [orCursor,buffers]
          simp only [List.length_cons] at enough
          have length := List.length_drop (l := c) (i := ((c.take (bufferSize - 1)).takeWhile (sameHigh b)).length)
          rw [orEachStep,Option.bind_eq_bind,orSegmentBitsJoin]
          show ((joinSegment (adopt b (runBits b _)) v).map (·.2)).bind _ = _
          cases joinSegment (adopt b (runBits b ((c.take (bufferSize - 1)).takeWhile (sameHigh b)))) v with
          | none => rfl
          | some r => exact ih (by omega)

theorem buffersFormed (asc : Ascending c) (small : ∀ x ∈ c, x < word) (enough : c.length < fuel) :
    (∀ t ∈ buffers fuel c, Formed halfWord t ∧ t.indices.length < halfWord) ∧ ∀ x, Member (buffers fuel c) x ↔ x ∈ c := by
  induction fuel generalizing c with
  | zero => omega
  | succ fuel ih =>
      cases c with
      | nil => exact ⟨by simp [buffers],by simp [buffers]⟩
      | cons b c =>
          rw [buffers]
          simp only [List.length_cons] at enough
          generalize taken : (c.take (bufferSize - 1)).takeWhile (sameHigh b) = more
          have first : more <+: c := by
            rw [← taken]
            exact (List.takeWhile_prefix _).trans (List.take_prefix _ _)
          have split : more ++ c.drop more.length = c := List.prefix_iff_eq_append.mp first
          have run : Run b more := by
            refine ⟨asc.sublist (first.sublist.cons_cons b),fun x on => ?_,small b List.mem_cons_self⟩
            rcases List.mem_cons.mp on with rfl | there
            · rfl
            · rw [← taken] at there
              have holds : sameHigh b x = true := List.mem_takeWhile_imp there
              exact of_decide_eq_true holds
          have room : more.length ≤ bufferSize - 1 := by
            rw [← taken]
            exact (List.takeWhile_prefix _).length_le.trans (List.length_take_le _ _)
          have length := List.length_drop (l := c) (i := more.length)
          obtain ⟨formed,members⟩ := @ih (c.drop more.length) ((List.pairwise_cons.mp asc).2.sublist (List.drop_sublist _ _))
            (fun x on => small x (List.mem_cons_of_mem _ (List.mem_of_mem_drop on))) (by omega)
          refine ⟨fun t on => ?_,fun x => ?_⟩
          · rcases List.mem_cons.mp on with rfl | later
            · have buffer : bufferSize < halfWord := by decide
              refine ⟨run.formed,?_⟩
              simp only [adopt,runBits,List.length_map,List.length_cons]
              have one : 1 ≤ bufferSize := by decide
              omega
            · exact formed t later
          · rw [memberCons,run.has,members]
            conv => rhs; rw [← split]
            simp only [List.mem_cons,List.mem_append,or_assoc]

-- A segment gets all its values together with bits it has already.
def Fills (v : List Segment) (vector : Foreign) : Prop := ∃ h, ¬ Whole (Member v) h ∧ Whole (fun x => Member v x ∨ x ∈ vector.elements) h

theorem orForeignMembers (well : WellFormed halfWord v) (vector : Foreign) :
    (orForeign v vector = none ∧ Fills v vector) ∨
      ∃ o, orForeign v vector = some o ∧ ¬ Fills v vector ∧ WellFormed halfWord o ∧ ∀ x, Member o x ↔ Member v x ∨ x ∈ vector.elements := by
  obtain ⟨formed,members⟩ := @buffersFormed vector.elements (vector.elements.length + 1) vector.ascending vector.small (Nat.lt_succ_self _)
  have fills : Overflows (Member v) (buffers (vector.elements.length + 1) vector.elements) ↔ Fills v vector := by
    rw [overflowsShort (fun t on => (formed t on).1) fun t on => (formed t on).2]
    simp only [members,Fills]
  rw [orForeign,@orCursorBuffers v vector.elements false _ (Nat.lt_succ_self _)]
  rcases @orEachMembers v false halfWord _ well (fun t on => (formed t on).1) (Nat.le_succ _) with ⟨none',overflows⟩ | ⟨c,o,ran,room,wellO,union,-⟩
  · rw [none']
    exact .inl ⟨rfl,fills.mp overflows⟩
  · rw [ran]
    exact .inr ⟨o,rfl,fun some' => room (fills.mpr some'),wellO,fun x => by rw [union,members]⟩

/- The intersection. -/

theorem Parted.takeBelow {l r : List Segment} {m : Option Segment} {h : Nat} (parts : Parted v h l m r) : v.takeWhile (fun s => decide (s.highBits < h)) = l := by
  obtain ⟨rfl,below,here,above⟩ := parts
  rw [List.takeWhile_append_of_pos (by simpa using below)]
  have stops : (m.toList ++ r).takeWhile (fun s => decide (s.highBits < h)) = [] := by
    cases m with
    | some s =>
        have same := here s rfl
        simp [same]
    | none =>
        cases r with
        | nil => rfl
        | cons s r =>
            have more := above s List.mem_cons_self
            simp [Nat.le_of_lt more]
  rw [stops,List.append_nil]

-- Every vector that has a segment has a bit.
theorem someMember (well : WellFormed limit v) : v ≠ [] ↔ ∃ x, Member v x := by
  constructor
  · intro some'
    obtain ⟨s,rest,rfl⟩ := List.exists_cons_of_ne_nil some'
    obtain ⟨y,on⟩ := List.exists_mem_of_ne_nil _ (well.formed s List.mem_cons_self).nonempty
    exact ⟨s.index + y,s,List.mem_cons_self,(hasBit ((well.formed s List.mem_cons_self).small y on)).mpr on⟩
  · rintro ⟨x,s,on,-⟩
    exact List.ne_nil_of_mem on

theorem WellFormed.sublist {part : List Segment} (well : WellFormed limit v) (sub : part.Sublist v) : WellFormed limit part :=
  ⟨well.ascending.sublist sub,fun s on => well.formed s (sub.subset on)⟩

theorem andForeignStep (some' : rest ≠ []) (c c2 : List Nat) : andForeignLoop (fuel + 1) (b::c) c2 changed rest =
    match rest.drop (rest.takeWhile fun s => decide (s.highBits < b / halfWord)).length with
    | [] => andForeignLoop fuel (c.dropWhile (sameHigh b)) (c2.drop (1 + (c.takeWhile (sameHigh b)).length))
        (!(rest.takeWhile fun s => decide (s.highBits < b / halfWord)).isEmpty || changed) []
    | s::others =>
        if s.highBits > b / halfWord then andForeignLoop fuel (c.dropWhile (sameHigh b)) (c2.drop (1 + (c.takeWhile (sameHigh b)).length))
          (!(rest.takeWhile fun s => decide (s.highBits < b / halfWord)).isEmpty || changed) (s::others)
        else (do
          let (hit,s) ← andSegment s (adopt b ((c2.take (1 + (c.takeWhile (sameHigh b)).length)).map (· % halfWord)))
          let (changed,others) ← andForeignLoop fuel (c.dropWhile (sameHigh b)) (c2.drop (1 + (c.takeWhile (sameHigh b)).length))
            (hit || (!(rest.takeWhile fun s => decide (s.highBits < b / halfWord)).isEmpty || changed)) others
          some (changed,if s.indices = [] then others else s::others)) := by
  obtain ⟨s,others,rfl⟩ := List.exists_cons_of_ne_nil some'
  rfl

theorem andForeignLoopMembers (asc : Ascending c) (small : ∀ x ∈ c, x < word) (well : WellFormed halfWord rest) (enough : c.length < fuel) :
    ∃ changed' o, andForeignLoop fuel c c changed rest = some (changed',o) ∧ WellFormed halfWord o ∧ (∀ t ∈ o, ∃ s ∈ rest, t.highBits = s.highBits) ∧
      (∀ x, Member o x ↔ Member rest x ∧ x ∈ c) ∧ (changed' = true ↔ changed = true ∨ ∃ x, Member rest x ∧ x ∉ c) := by
  induction fuel generalizing c rest changed with
  | zero => omega
  | succ fuel ih =>
      cases c with
      | nil =>
          refine ⟨_,[],rfl,⟨.nil,by simp⟩,by simp,by simp,?_⟩
          have some' := someMember well
          cases rest with
          | nil => simp
          | cons s rest => exact ⟨fun _ => .inr ((some'.mp (List.cons_ne_nil s rest)).imp fun x on => ⟨on,List.not_mem_nil⟩),fun _ => rfl⟩
      | cons b c =>
          obtain ⟨run,taken,dropped,beyond,split⟩ := wholeRun asc small
          have formed := run.formed
          have length := (List.dropWhile_sublist (sameHigh b) (l := c)).length_le
          simp only [List.length_cons] at enough
          have next := fun (changed : Bool) {rest : List Segment} (well : WellFormed halfWord rest) =>
            @ih rest (c.dropWhile (sameHigh b)) changed ((List.pairwise_cons.mp asc).2.sublist (List.dropWhile_sublist _))
              (fun x on => small x ((split x).mpr (.inr on))) well (by omega)
          obtain ⟨l,m,r,parts⟩ := parted well.ascending (b / halfWord)
          have least : ∀ x ∈ b::c, b / halfWord ≤ x / halfWord := fun x on => Nat.div_le_div_right (Ascending.headLeast asc x on)
          have outside : ∀ x, Member l x → x ∉ b::c := by
            rintro x ⟨t,on,has⟩ there
            have under := parts.below t on
            have atLeast := least x there
            have high := has.1
            omega
          have behind : ∀ x, Member r x → (x ∈ b::c ↔ x ∈ c.dropWhile (sameHigh b)) := by
            rintro x ⟨t,on,has⟩
            have upper := parts.above t on
            have high := has.1
            refine (split x).trans (or_iff_right fun there => ?_)
            have equal := run.same x there
            omega
          have part : ∀ x, Member rest x ↔ Member l x ∨ Member m.toList x ∨ Member r x := by
            intro x
            rw [parts.shape,memberAppend,memberAppend]
          have wellL : WellFormed halfWord l := well.sublist (parts.shape ▸ List.sublist_append_left _ _)
          have wellR : WellFormed halfWord r := well.sublist (parts.shape ▸ (List.sublist_append_right _ _).trans (List.sublist_append_right _ _))
          -- The rest of the loop, after what becomes of the segment with these high bits.
          have finish : ∀ (hit : Bool) (m' : Option Segment), (∀ s ∈ m', s.highBits = b / halfWord ∧ Formed halfWord s) → (∀ s ∈ m', ∃ s ∈ m, True) →
              (∀ x, Member m'.toList x ↔ Member m.toList x ∧ x ∈ b::c) → (hit = true ↔ ∃ x, Member m.toList x ∧ x ∉ b::c) →
              ∃ changed' o, andForeignLoop fuel (c.dropWhile (sameHigh b)) (c.dropWhile (sameHigh b)) (hit || (!l.isEmpty || changed)) r = some (changed',o) ∧
                WellFormed halfWord (m'.toList ++ o) ∧ (∀ t ∈ m'.toList ++ o, ∃ s ∈ rest, t.highBits = s.highBits) ∧
                (∀ x, Member (m'.toList ++ o) x ↔ Member rest x ∧ x ∈ b::c) ∧ (changed' = true ↔ changed = true ∨ ∃ x, Member rest x ∧ x ∉ b::c) := by
            intro hit m' here among bits flag
            obtain ⟨changed',o,ran,wellO,high,members,flag'⟩ := next (hit || (!l.isEmpty || changed)) wellR
            have above : ∀ t ∈ o, b / halfWord < t.highBits := by
              intro t on
              obtain ⟨s,inR,same⟩ := high t on
              exact same ▸ parts.above s inR
            have placed : Parted o (b / halfWord) [] none o := ⟨rfl,by simp,by simp,above⟩
            refine ⟨changed',o,ran,placed.wellFormed wellO here,fun t on => ?_,fun x => ?_,?_⟩
            · rcases List.mem_append.mp on with first | second
              · obtain ⟨s,on',-⟩ := among t (by simpa using first)
                exact ⟨s,parts.shape ▸ List.mem_append_right _ (List.mem_append_left _ (by simpa using on')),
                  (here t (by simpa using first)).1.trans (parts.here s on').symm⟩
              · obtain ⟨s,inR,same⟩ := high t second
                exact ⟨s,parts.shape ▸ List.mem_append_right _ (List.mem_append_right _ inR),same⟩
            · rw [memberAppend,bits,members,part]
              constructor
              · rintro (⟨on,there⟩ | ⟨on,there⟩)
                · exact ⟨.inr (.inl on),there⟩
                · exact ⟨.inr (.inr on),(behind x on).mpr there⟩
              · rintro ⟨first | second | third,there⟩
                · exact absurd there (outside x first)
                · exact .inl ⟨second,there⟩
                · exact .inr ⟨third,(behind x third).mp there⟩
            · have some' := someMember wellL
              rw [flag',Bool.or_eq_true,Bool.or_eq_true,flag,Bool.not_eq_true',List.isEmpty_eq_false_iff,some']
              constructor
              · rintro ((⟨x,on,off⟩ | ⟨x,on⟩ | old) | ⟨x,on,off⟩)
                · exact .inr ⟨x,(part x).mpr (.inr (.inl on)),off⟩
                · exact .inr ⟨x,(part x).mpr (.inl on),outside x on⟩
                · exact .inl old
                · exact .inr ⟨x,(part x).mpr (.inr (.inr on)),fun there => off ((behind x on).mp there)⟩
              · rintro (old | ⟨x,on,off⟩)
                · exact .inl (.inr (.inr old))
                · rcases (part x).mp on with first | second | third
                  · exact .inl (.inr (.inl ⟨x,first⟩))
                  · exact .inl (.inl ⟨x,second,off⟩)
                  · exact .inr ⟨x,third,fun there => off ((behind x third).mpr there)⟩
          by_cases empty : rest = []
          · subst empty
            exact ⟨_,[],rfl,⟨.nil,by simp⟩,by simp,by simp,by simp⟩
          rw [andForeignStep empty,parts.takeBelow,taken,dropped]
          have cut : rest.drop l.length = m.toList ++ r := by rw [parts.shape,List.drop_left]
          rw [cut]
          cases m with
          | none =>
              obtain ⟨changed',o,ran,facts⟩ := finish false none (by simp) (by simp) (by simp) (by simp)
              refine ⟨changed',o,?_,facts⟩
              cases r with
              | nil => exact ran
              | cons s others =>
                  simp only [Option.toList_none,List.nil_append]
                  rw [if_pos (parts.above s List.mem_cons_self)]
                  exact ran
          | some s =>
              have same := parts.here s rfl
              have on : s ∈ rest := parts.shape ▸ List.mem_append_right _ (by simp)
              obtain ⟨hit,s',ran,kept⟩ := andSegmentKept (well.formed s on) formed
              have means : ∀ x, s.Has x → (x % halfWord ∈ (adopt b (runBits b (c.takeWhile (sameHigh b)))).indices ↔ x ∈ b::c) := by
                intro x has
                have high : b / halfWord = x / halfWord := same.symm.trans has.1
                rw [split x,← run.has]
                refine ⟨fun there => .inl ⟨high,there⟩,?_⟩
                rintro (there | later)
                · exact there.2
                · have more := beyond x later
                  omega
              have piece := kept.piece
              have single : ∀ x, Member [s] x ↔ s.Has x := fun x => by simp
              have here : ∀ t ∈ (if s'.indices = [] then none else some s'), t.highBits = b / halfWord ∧ Formed halfWord t := by
                intro t on'
                split at on'
                · cases on'
                · rename_i some'
                  cases on'
                  exact ⟨kept.carries.high.trans same,kept.carries.formed some'⟩
              have bits : ∀ x, Member (if s'.indices = [] then none else some s').toList x ↔ Member (some s).toList x ∧ x ∈ b::c := by
                intro x
                have put : (if s'.indices = [] then none else some s').toList = if s'.indices = [] then [] else [s'] := by split <;> rfl
                rw [put]
                refine (piece.members x).trans ?_
                simp only [Option.toList_some,single]
                exact and_congr_right (means x)
              have gone : (∃ y ∈ s.indices, y ∉ (adopt b (runBits b (c.takeWhile (sameHigh b)))).indices) ↔ ∃ x, Member (some s).toList x ∧ x ∉ b::c := by
                simp only [Option.toList_some,single]
                exact existsBit (well.formed s on) (fun x => x ∉ b::c) fun x has => not_congr (means x has)
              obtain ⟨changed',o,ran',facts⟩ := finish hit _ here (fun _ _ => ⟨s,rfl,trivial⟩) bits (kept.flag.trans gone)
              refine ⟨changed',_,?_,facts⟩
              simp only [Option.toList_some,List.singleton_append]
              rw [if_neg (by omega),Option.bind_eq_bind]
              show (andSegment s (adopt b (runBits b (c.takeWhile (sameHigh b))))).bind _ = _
              rw [ran,Option.bind_some,Option.bind_eq_bind,ran',Option.bind_some]
              split <;> rfl

theorem andForeignMembers (well : WellFormed halfWord v) (vector : Foreign) :
    ∃ changed o, andForeign v vector = some (changed,o) ∧ WellFormed halfWord o ∧ (∀ x, Member o x ↔ Member v x ∧ x ∈ vector.elements) ∧
      (changed = true ↔ ∃ x, Member v x ∧ x ∉ vector.elements) := by
  unfold andForeign
  split
  · rename_i empty
    subst empty
    exact ⟨_,_,rfl,well,by simp,by simp⟩
  · rename_i some'
    split
    · rename_i zero
      obtain ⟨x,on⟩ := (someMember well).mp some'
      exact ⟨_,_,rfl,⟨.nil,by simp [clear]⟩,by simp [clear,zero],⟨fun _ => ⟨x,on,by simp [zero]⟩,fun _ => rfl⟩⟩
    · obtain ⟨changed,o,ran,wellO,-,members,flag⟩ := @andForeignLoopMembers v vector.elements false (vector.elements.length + 1) vector.ascending vector.small well (Nat.lt_succ_self _)
      exact ⟨changed,o,ran,wellO,members,flag.trans (by simp)⟩

end

end OmrCompiler.SparseBits
