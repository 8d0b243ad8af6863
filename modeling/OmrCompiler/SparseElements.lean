import OmrCompiler.SparseCursor

/-! The cursor of a sparse vector moves along the ascending list of its bits. -/
namespace OmrCompiler.SparseBits

section
variable {v l r : List Segment} {s : Segment} {c c' : Cursor} {before after left js ks : List Nat} {x y k n next limit fuel : Nat}

def Segment.bits (s : Segment) (list : List Nat) : List Nat := list.map (s.index + ·)

def elements (v : List Segment) : List Nat := v.flatMap fun s => s.bits s.indices

@[simp] theorem elementsNil : elements [] = [] := rfl

@[simp] theorem elementsCons : elements (s::v) = s.bits s.indices ++ elements v := rfl

@[simp] theorem elementsAppend : elements (l ++ r) = elements l ++ elements r := List.flatMap_append

@[simp] theorem bitsNil : s.bits [] = [] := rfl

@[simp] theorem bitsCons : s.bits (y::ks) = (s.index + y)::s.bits ks := rfl

@[simp] theorem bitsAppend : s.bits (js ++ ks) = s.bits js ++ s.bits ks := List.map_append

theorem memBits (small : ∀ y ∈ js, y < halfWord) : x ∈ s.bits js ↔ s.highBits = x / halfWord ∧ x % halfWord ∈ js := by
  rw [Segment.bits,List.mem_map]
  constructor
  · rintro ⟨y,on,rfl⟩
    obtain ⟨high,low⟩ := bitHalves s (small y on)
    exact ⟨high.symm,by rw [low]; exact on⟩
  · rintro ⟨high,on⟩
    exact ⟨x % halfWord,on,by rw [Segment.index,high,wholeBit]⟩

theorem memElements (well : WellFormed limit v) : x ∈ elements v ↔ Member v x := by
  rw [elements,List.mem_flatMap]
  exact exists_congr fun s => and_congr_right fun on => memBits (well.formed s on).small

theorem elementsAscending (well : WellFormed limit v) : Ascending (elements v) := by
  induction v with
  | nil => exact .nil
  | cons s rest ih =>
      obtain ⟨least,tail⟩ := List.pairwise_cons.mp well.ascending
      have formed := well.formed s List.mem_cons_self
      have well' : WellFormed limit rest := ⟨tail,fun t on => well.formed t (List.mem_cons_of_mem _ on)⟩
      rw [elementsCons,Ascending,List.pairwise_append]
      refine ⟨List.pairwise_map.mpr (formed.ascending.imp fun less => Nat.add_lt_add_left less _),ih well',fun x on y on' => ?_⟩
      obtain ⟨high,-⟩ := (memBits formed.small).mp on
      obtain ⟨t,inRest,high',-⟩ := (memElements well').mp on'
      have less := least t inRest
      by_contra not
      have order := Nat.div_le_div_right (c := halfWord) (Nat.le_of_not_lt not)
      omega

theorem WellFormed.short (well : WellFormed limit v) : v.length ≤ halfWord := by
  have asc : Ascending (v.map (·.highBits)) := List.pairwise_map.mpr well.ascending
  have short := asc.short fun y on => by
    obtain ⟨s,inV,rfl⟩ := List.mem_map.mp on
    exact (well.formed s inV).high
  rwa [List.length_map] at short

theorem Formed.below (formed : Formed limit s) (small : y < halfWord) : s.index + y < word := by
  have high := formed.high
  have whole : halfWord * halfWord = word := rfl
  have more : (s.highBits + 1) * halfWord ≤ halfWord * halfWord := Nat.mul_le_mul_right _ high
  rw [Nat.add_mul,Nat.one_mul,whole] at more
  rw [Segment.index]
  omega

/- Where a cursor is: at the bit x, with those before and after it. -/
def Stands (v : List Segment) (c : Cursor) (before : List Nat) (x : Nat) (after : List Nat) : Prop :=
  ∃ l s r js y ks, v = l ++ s::r ∧ s.indices = js ++ y::ks ∧ c = ⟨l.length,js.length + ks.length,s.index,js.length,s.indices⟩ ∧
    before = elements l ++ s.bits js ∧ x = s.index + y ∧ after = s.bits ks ++ elements r

theorem Stands.elements (stands : Stands v c before x after) : SparseBits.elements v = before ++ x::after := by
  obtain ⟨l,s,r,js,y,ks,rfl,split,-,rfl,rfl,rfl⟩ := stands
  rw [elementsAppend,elementsCons,split,bitsAppend,bitsCons]
  simp

theorem Stands.valid (stands : Stands v c before x after) : c.valid v = true := by
  obtain ⟨l,s,r,js,y,ks,rfl,-,rfl,-⟩ := stands
  simp [Cursor.valid]

theorem Stands.value (stands : Stands v c before x after) : c.value = some x := by
  obtain ⟨l,s,r,js,y,ks,-,split,rfl,-,rfl,-⟩ := stands
  simp [Cursor.value,split]

-- The fields that enter sets.
theorem enterAt (well : WellFormed limit v) (shape : v = l ++ s::r) (split : s.indices = js ++ y::ks) (here : c.segmentIndex = l.length) :
    c.enter v = some ⟨l.length,js.length + ks.length,s.index,c.offset,s.indices⟩ := by
  have on : s ∈ v := shape ▸ List.mem_append_right _ List.mem_cons_self
  have short := (well.formed s on).ascending.short (well.formed s on).small
  have count : previous s.indices.length = js.length + ks.length := by
    rw [split,List.length_append,List.length_cons] at short ⊢
    have small : halfWord < word := by decide
    rw [previous,show js.length + (ks.length + 1) + (word - 1) = js.length + ks.length + word by omega,Nat.add_mod_right,Nat.mod_eq_of_lt (by omega)]
  have at' : v[c.segmentIndex]? = some s := by rw [here,shape,List.getElem?_append_right (Nat.le_refl _),Nat.sub_self]; rfl
  rw [Cursor.enter,at']
  simp only [Option.bind_eq_bind,Option.bind_some,count,here]

theorem Formed.head (formed : Formed limit s) : ∃ y ks, s.indices = y::ks := List.exists_cons_of_ne_nil formed.nonempty

def Past (v : List Segment) (c : Cursor) : Prop := c.valid v = false

/- A cursor with the bits that it has still to visit. -/
def Ahead (v : List Segment) (c : Cursor) : List Nat → Prop
  | [] => Past v c
  | x::after => ∃ before, Stands v c before x after

theorem Ahead.valid (ahead : Ahead v c left) : c.valid v = !left.isEmpty := by
  cases left with
  | nil => exact ahead
  | cons x after =>
      obtain ⟨before,stands⟩ := ahead
      exact stands.valid

theorem Ahead.sub (ahead : Ahead v c left) : left <:+ SparseBits.elements v := by
  cases left with
  | nil => exact List.nil_suffix
  | cons x after =>
      obtain ⟨before,stands⟩ := ahead
      rw [stands.elements]
      exact List.suffix_append _ _

-- The first bit of the segments in r.
theorem nextSegmentAhead (well : WellFormed limit v) (shape : v = l ++ s::r) (here : c.segmentIndex = l.length) :
    ∃ c', c.nextSegment v = some (!(SparseBits.elements r).isEmpty,c') ∧ Ahead v c' (SparseBits.elements r) := by
  have short := well.short
  have small : halfWord < word := by decide
  have length := congrArg List.length shape
  rw [List.length_append,List.length_cons] at length
  have step : (c.segmentIndex + 1) % word = l.length + 1 := by rw [here,Nat.mod_eq_of_lt (by omega)]
  unfold Cursor.nextSegment
  simp only [step]
  cases r with
  | nil =>
      have past : Cursor.valid v { c with segmentIndex := l.length + 1 } = false := by
        simp only [Cursor.valid,decide_eq_false_iff_not]
        simp only [List.length_nil] at length
        omega
      rw [past]
      exact ⟨_,rfl,past⟩
  | cons t r =>
      have there : t ∈ v := by rw [shape]; simp
      obtain ⟨y,ks,split⟩ := (well.formed t there).head
      have valid : Cursor.valid v { c with segmentIndex := l.length + 1 } = true := by
        simp only [Cursor.valid,decide_eq_true_eq]
        simp only [List.length_cons] at length
        omega
      have shape' : v = (l ++ [s]) ++ t::r := by rw [shape]; simp
      have entered := @enterAt v (l ++ [s]) r t { c with segmentIndex := l.length + 1, offset := 0 } [] ks y limit well shape' split (by simp)
      rw [if_pos valid,entered]
      simp only [Option.bind_eq_bind,Option.bind_some,elementsCons,split,bitsCons]
      exact ⟨_,rfl,_,l ++ [s],t,r,[],y,ks,shape',split,by simp [split],rfl,rfl,rfl⟩

theorem nextAhead (well : WellFormed limit v) (ahead : Ahead v c (x::after)) :
    ∃ c', c.setToNextOne v = some (!after.isEmpty,c') ∧ Ahead v c' after := by
  obtain ⟨before,l,s,r,js,y,ks,shape,split,rfl,-,-,rfl⟩ := ahead
  unfold Cursor.setToNextOne
  cases ks with
  | nil =>
      rw [if_neg (by simp)]
      exact nextSegmentAhead well shape rfl
  | cons k ks =>
      rw [if_pos (by simp)]
      refine ⟨_,rfl,_,l,s,r,js ++ [y],k,ks,shape,by rw [split]; simp,?_,rfl,rfl,rfl⟩
      simp only [List.length_append,List.length_cons,List.length_nil,Cursor.mk.injEq,true_and,and_true]
      omega

theorem firstAhead (well : WellFormed limit v) (c : Cursor) : ∃ c', c.setToFirstOne v = some c' ∧ Ahead v c' (SparseBits.elements v) := by
  unfold Cursor.setToFirstOne
  cases v with
  | nil => exact ⟨_,rfl,rfl⟩
  | cons s r =>
      obtain ⟨y,ks,split⟩ := (well.formed s List.mem_cons_self).head
      have entered := @enterAt (s::r) [] r s { c with segmentIndex := 0, offset := 0 } [] ks y limit well rfl split rfl
      simp only
      rw [if_pos (by simp [Cursor.valid]),entered,elementsCons,split,bitsCons]
      exact ⟨_,rfl,_,[],s,r,[],y,ks,rfl,split,by simp [split],rfl,rfl,rfl⟩

/- To the first bit that is not below a bound. -/

theorem dropWhileSplit {low high : List Nat} (below : ∀ z ∈ low, z < next) (above : ∀ z ∈ high, next ≤ z) : (low ++ high).dropWhile (· < next) = high := by
  rw [List.dropWhile_append,List.dropWhile_eq_nil_iff.mpr fun z on => by simpa using below z on]
  simp only [List.isEmpty_nil,if_true]
  rw [List.dropWhile_eq_self_iff]
  intro more
  have upon := above high[0] (List.getElem_mem more)
  simpa using upon

-- The cursor has the fields of a segment, with any offset.
structure Within (v : List Segment) (c : Cursor) (l : List Segment) (s : Segment) (r : List Segment) : Prop where
  shape : v = l ++ s::r
  here : c.segmentIndex = l.length
  count : c.popCount = s.indices.length - 1
  high : c.highBits = s.index
  memory : c.indices = s.indices

theorem Within.lands (within : Within v c l s r) (inside : n < s.indices.length) :
    Ahead v { c with offset := n } (s.bits (s.indices.drop n) ++ SparseBits.elements r) := by
  rw [List.drop_eq_getElem_cons inside,bitsCons,List.cons_append]
  have length : (s.indices.take n).length = n := List.length_take_of_le (Nat.le_of_lt inside)
  refine ⟨_,l,s,r,s.indices.take n,s.indices[n],s.indices.drop (n + 1),within.shape,?_,?_,rfl,rfl,rfl⟩
  · rw [← List.drop_eq_getElem_cons inside,List.take_append_drop]
  · rw [within.here,within.count,within.high,within.memory,length,List.length_drop]
    simp only [Cursor.mk.injEq,true_and,and_true]
    omega

theorem enterWithin (well : WellFormed limit v) (shape : v = l ++ s::r) (here : c.segmentIndex = l.length) :
    ∃ c', c.enter v = some c' ∧ Within v c' l s r ∧ c'.offset = c.offset := by
  obtain ⟨y,ks,split⟩ := (well.formed s (shape ▸ List.mem_append_right _ List.mem_cons_self)).head
  exact ⟨_,@enterAt v l r s c [] ks y limit well shape split here,⟨shape,rfl,by simp [split],rfl,rfl⟩,rfl⟩

-- The segments that are skipped, from the one of the cursor on, and the one where it stops.
theorem skipSegmentsStops {h index : Nat} (well : WellFormed limit v) (within : Within v c l s r) (enough : r.length < fuel) :
    (∃ index' c', c.skipSegments v (h * halfWord) fuel index = some (false,index',c') ∧ Past v c' ∧ ∀ t ∈ s::r, t.highBits < h) ∨
      (c.skipSegments v (h * halfWord) fuel index = some (true,index,c) ∧ h ≤ s.highBits) ∨
      ∃ c' l' t r' mid, c.skipSegments v (h * halfWord) fuel index = some (true,0,c') ∧ Within v c' l' t r' ∧ h ≤ t.highBits ∧ r = mid ++ t::r' ∧
        ∀ u ∈ s::mid, u.highBits < h := by
  induction fuel generalizing c l s r index with
  | zero => omega
  | succ fuel ih =>
      have positive : 0 < halfWord := by decide
      have short := well.short
      have small : halfWord < word := by decide
      have length := congrArg List.length within.shape
      rw [List.length_append,List.length_cons] at length
      rw [Cursor.skipSegments]
      by_cases less : s.highBits < h
      · have less' : c.highBits < h * halfWord := within.high ▸ Nat.mul_lt_mul_of_pos_right less positive
        rw [if_pos less']
        have step : (c.segmentIndex + 1) % word = l.length + 1 := by rw [within.here,Nat.mod_eq_of_lt (by omega)]
        simp only [step]
        cases r with
        | nil =>
            have past : Cursor.valid v { c with segmentIndex := l.length + 1 } = false := by
              simp only [Cursor.valid,decide_eq_false_iff_not]
              simp only [List.length_nil] at length
              omega
            rw [past]
            exact .inl ⟨index,_,rfl,past,by simpa using less⟩
        | cons t r =>
            have valid : Cursor.valid v { c with segmentIndex := l.length + 1 } = true := by
              simp only [Cursor.valid,decide_eq_true_eq]
              simp only [List.length_cons] at length
              omega
            have shape' : v = (l ++ [s]) ++ t::r := by rw [within.shape]; simp
            obtain ⟨c',entered,within',-⟩ := @enterWithin v (l ++ [s]) r t { c with segmentIndex := l.length + 1 } limit well shape' (by simp)
            rw [if_pos valid,entered]
            simp only [Option.bind_eq_bind,Option.bind_some]
            rcases @ih (l ++ [s]) r t c' 0 within' (by simpa using enough) with ⟨index',c'',ran,past,all⟩ | ⟨ran,upon⟩ | ⟨c'',l',u,r',mid,ran,within'',upon,rfl,all⟩
            · refine .inl ⟨index',c'',ran,past,fun u on => ?_⟩
              rcases List.mem_cons.mp on with rfl | later
              · exact less
              · exact all u later
            · exact .inr (.inr ⟨c',l ++ [s],t,r,[],ran,within',upon,rfl,by simpa using less⟩)
            · refine .inr (.inr ⟨c'',l',u,r',t::mid,ran,within'',upon,rfl,fun w on => ?_⟩)
              rcases List.mem_cons.mp on with rfl | later
              · exact less
              · exact all w later
      · have notLess : ¬ c.highBits < h * halfWord := fun less' => less (Nat.lt_of_mul_lt_mul_right (within.high ▸ less'))
        rw [if_neg notLess]
        exact .inr (.inl ⟨rfl,Nat.le_of_not_lt less⟩)

-- All bits of a segment are below those of a later one.
theorem lowBits (formed : Formed limit s) (less : s.highBits < next / halfWord) : ∀ z ∈ s.bits s.indices, z < next := by
  intro z on
  obtain ⟨high,-⟩ := (memBits formed.small).mp on
  by_contra not
  have order := Nat.div_le_div_right (c := halfWord) (Nat.le_of_not_lt not)
  omega

theorem lowElements {mid : List Segment} (formed : ∀ u ∈ mid, Formed limit u) (less : ∀ u ∈ mid, u.highBits < next / halfWord) : ∀ z ∈ SparseBits.elements mid, z < next := by
  intro z on
  obtain ⟨u,inMid,bit⟩ := List.mem_flatMap.mp on
  exact lowBits (formed u inMid) (less u inMid) z bit

theorem highElements {later : List Segment} (formed : ∀ u ∈ later, Formed limit u) (more : ∀ u ∈ later, next / halfWord < u.highBits) : ∀ z ∈ SparseBits.elements later, next ≤ z := by
  intro z on
  obtain ⟨u,inLater,bit⟩ := List.mem_flatMap.mp on
  obtain ⟨high,-⟩ := (memBits (formed u inLater).small).mp bit
  have more' := more u inLater
  by_contra not
  have order := Nat.div_le_div_right (c := halfWord) (Nat.le_of_lt (Nat.lt_of_not_le not))
  omega

-- In the segment that the bound belongs to, from an index on.
theorem searchAhead {index : Nat} (well : WellFormed limit v) (within : Within v c l s r) (same : s.highBits = next / halfWord) (inside : index < s.indices.length) :
    ∃ c', (do
        let t ← v[c.segmentIndex]?
        let i ← advanceIndex t.indices (next % halfWord) index
        if i > c.popCount then c.nextSegment v else some (true,{ c with offset := i })) =
      some (!((s.bits (s.indices.drop index) ++ SparseBits.elements r).dropWhile (· < next)).isEmpty,c') ∧
      Ahead v c' ((s.bits (s.indices.drop index) ++ SparseBits.elements r).dropWhile (· < next)) := by
  have on : s ∈ v := within.shape ▸ List.mem_append_right _ List.mem_cons_self
  have formed := well.formed s on
  have asc := well.ascending
  rw [within.shape,List.pairwise_append,List.pairwise_cons] at asc
  have later : ∀ z ∈ SparseBits.elements r, next ≤ z :=
    highElements (fun u inR => well.formed u (within.shape ▸ List.mem_append_right _ (List.mem_cons_of_mem _ inR))) fun u inR => same ▸ asc.2.1.1 u inR
  have at' : v[c.segmentIndex]? = some s := by rw [within.here,within.shape,List.getElem?_append_right (Nat.le_refl _),Nat.sub_self]; rfl
  obtain ⟨t,ran,spot⟩ := @advanceIndexSpot s.indices index (next % halfWord) (formed.ascending.from index) formed.nonempty (Nat.le_of_lt inside) (by omega)
  have low := spot.low
  have high := spot.high
  have split : s.indices.drop index = slice s.indices index t ++ s.indices.drop t := dropSlice low
  have whole : next / halfWord * halfWord + next % halfWord = next := wholeBit next
  have below : ∀ z ∈ s.bits (slice s.indices index t), z < next := by
    intro z on'
    obtain ⟨y,inSlice,rfl⟩ := List.mem_map.mp on'
    obtain ⟨j,less,there⟩ := memTake.mp inSlice
    rw [List.getElem?_drop] at there
    have under := spot.before (index + j) y (by omega) (by omega) there
    rw [Segment.index,same]
    omega
  have above : ∀ z ∈ s.bits (s.indices.drop t) ++ SparseBits.elements r, next ≤ z := by
    intro z on'
    rcases List.mem_append.mp on' with first | second
    · obtain ⟨y,inDrop,rfl⟩ := List.mem_map.mp first
      have upon := spot.above y inDrop
      rw [Segment.index,same]
      omega
    · exact later z second
  rw [split,bitsAppend,List.append_assoc,dropWhileSplit below above,at']
  simp only [Option.bind_eq_bind,Option.bind_some,ran]
  have positive := List.length_pos_iff.mpr formed.nonempty
  have count := within.count
  by_cases ended : t = s.indices.length
  · rw [if_pos (by omega),ended,List.drop_length,bitsNil,List.nil_append]
    exact nextSegmentAhead well within.shape within.here
  · rw [if_neg (by omega)]
    have some' : s.bits (s.indices.drop t) ++ SparseBits.elements r ≠ [] := by
      rw [List.drop_eq_getElem_cons (by omega),bitsCons,List.cons_append]
      exact List.cons_ne_nil _ _
    rw [List.isEmpty_eq_false_iff.mpr some']
    exact ⟨_,rfl,within.lands (by omega)⟩

theorem afterSkipped {ok : Bool} {c' : Cursor} (wrap : (k + 1) % word = next)
    (ran : c.skipSegments v (next / halfWord * halfWord) (v.length + 1) c.offset = some (ok,index,c')) :
    c.setToNextOneAfter v k =
      if ok = false then some (false,c')
      else if c'.highBits = next / halfWord * halfWord then do
        let s ← v[c'.segmentIndex]?
        let index ← advanceIndex s.indices (next % halfWord) index
        if index > c'.popCount then c'.nextSegment v
        else some (true,{ c' with offset := index })
      else some (true,{ c' with offset := 0 }) := by
  simp only [Cursor.setToNextOneAfter,wrap,ran,Option.bind_eq_bind,Option.bind_some]

theorem afterAhead (well : WellFormed limit v) (ahead : Ahead v c (x::after)) (reach : x ≤ next) (wrap : (k + 1) % word = next) :
    ∃ c', c.setToNextOneAfter v k = some (!((x::after).dropWhile (· < next)).isEmpty,c') ∧ Ahead v c' ((x::after).dropWhile (· < next)) := by
  obtain ⟨before,l,s,r,js,y,ks,shape,split,rfl,-,rfl,rfl⟩ := ahead
  have on : s ∈ v := shape ▸ List.mem_append_right _ List.mem_cons_self
  have formed := well.formed s on
  have onR : ∀ u ∈ r, Formed limit u := fun u inR => well.formed u (shape ▸ List.mem_append_right _ (List.mem_cons_of_mem _ inR))
  have asc := well.ascending
  rw [shape,List.pairwise_append,List.pairwise_cons] at asc
  have halves := bitHalves s (formed.small y (by rw [split]; simp))
  have within : Within v ⟨l.length,js.length + ks.length,s.index,js.length,s.indices⟩ l s r :=
    ⟨shape,rfl,by rw [split,List.length_append,List.length_cons]; simp only; omega,rfl,rfl⟩
  have drop : s.indices.drop js.length = y::ks := by rw [split,List.drop_left]
  have reached : s.highBits ≤ next / halfWord := by
    have order := Nat.div_le_div_right (c := halfWord) reach
    omega
  have length := congrArg List.length shape
  rw [List.length_append,List.length_cons] at length
  have inside : ∀ z ∈ s.bits (y::ks), z ∈ s.bits s.indices := fun z inside => by
    rw [split,bitsAppend]
    exact List.mem_append_right _ inside
  rw [show (s.index + y)::(s.bits ks ++ SparseBits.elements r) = s.bits (y::ks) ++ SparseBits.elements r from rfl]
  rcases @skipSegmentsStops v l r s _ limit (v.length + 1) (next / halfWord) js.length well within (by omega) with
    ⟨index,c',ran,past,all⟩ | ⟨ran,upon⟩ | ⟨c',l',t,r',mid,ran,within',upon,rfl,all⟩
  · rw [afterSkipped wrap ran,if_pos rfl]
    have none' : (s.bits (y::ks) ++ SparseBits.elements r).dropWhile (· < next) = [] := by
      rw [List.dropWhile_eq_nil_iff]
      intro z inAll
      rcases List.mem_append.mp inAll with first | second
      · simpa using lowBits formed (all s List.mem_cons_self) z (inside z first)
      · simpa using lowElements onR (fun u inR => all u (List.mem_cons_of_mem _ inR)) z second
    rw [none']
    exact ⟨c',rfl,past⟩
  · have same : s.highBits = next / halfWord := by omega
    obtain ⟨c',search,ahead⟩ := searchAhead well within same (show js.length < s.indices.length by rw [split]; simp)
    rw [drop] at search ahead
    rw [afterSkipped wrap ran,if_neg Bool.noConfusion,if_pos (by rw [Segment.index,same])]
    exact ⟨c',search,ahead⟩
  · rw [afterSkipped wrap ran,if_neg Bool.noConfusion]
    have passed : ∀ z ∈ s.bits (y::ks) ++ SparseBits.elements mid, z < next := by
      intro z inAll
      rcases List.mem_append.mp inAll with first | second
      · exact lowBits formed (all s List.mem_cons_self) z (inside z first)
      · exact lowElements (fun u inMid => onR u (List.mem_append_left _ inMid)) (fun u inMid => all u (List.mem_cons_of_mem _ inMid)) z second
    have formedT := onR t (List.mem_append_right _ List.mem_cons_self)
    have positive := List.length_pos_iff.mpr formedT.nonempty
    have skipped : (s.bits (y::ks) ++ SparseBits.elements (mid ++ t::r')).dropWhile (· < next) = (t.bits (t.indices.drop 0) ++ SparseBits.elements r').dropWhile (· < next) := by
      rw [elementsAppend,elementsCons,← List.append_assoc,List.dropWhile_append,List.dropWhile_eq_nil_iff.mpr fun z inAll => by simpa using passed z inAll]
      rfl
    rw [skipped]
    by_cases same : t.highBits = next / halfWord
    · obtain ⟨c'',search,ahead⟩ := searchAhead well within' same positive
      rw [if_pos (by rw [within'.high,Segment.index,same])]
      exact ⟨c'',search,ahead⟩
    · have differ : ¬ c'.highBits = next / halfWord * halfWord := by
        rw [within'.high,Segment.index]
        exact fun equal => same (Nat.eq_of_mul_eq_mul_right (by decide) equal)
      have order := List.pairwise_append.mp asc.2.1.2
      have above : ∀ z ∈ t.bits (t.indices.drop 0) ++ SparseBits.elements r', next ≤ z := by
        rw [List.drop_zero,← elementsCons]
        refine highElements (fun u inT => onR u (List.mem_append_right _ inT)) fun u inT => ?_
        rcases List.mem_cons.mp inT with rfl | later
        · omega
        · have more := (List.pairwise_cons.mp order.2.1).1 u later
          omega
      have stays := @dropWhileSplit next [] _ (by simp) above
      rw [List.nil_append] at stays
      rw [if_neg differ,stays]
      have lands := within'.lands positive
      refine ⟨_,?_,lands⟩
      rw [List.isEmpty_eq_false_iff.mpr]
      · rfl
      · rw [List.drop_zero]
        intro empty
        have bits := (List.append_eq_nil_iff.mp empty).1
        exact formedT.nonempty (List.map_eq_nil_iff.mp bits)

end

end OmrCompiler.SparseBits
