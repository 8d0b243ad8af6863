import OmrCompiler.SparseForeign

/-! The difference with another representation, by lookup or by the cursor's walk over
the low bits of each segment. -/
namespace OmrCompiler.SparseBits

-- From j2 on, the first value that the vector has; past its last bit the end.
def lookupStop (vector : Foreign) (index : Nat) (memory : List Nat) : Nat → Nat → Option Nat
  | 0,_ => none
  | fuel + 1,j2 => do
      let value ← memory[j2]?
      if vector.valueAt (index + value) then some j2
      else if j2 + 1 = memory.length then some (j2 + 1)
      else do
        let next ← memory[j2 + 1]?
        if next > vector.lastOne then some memory.length else lookupStop vector index memory fuel (j2 + 1)

-- The first value that is the low half of the cursor's bit; values and cursor move up in turn.
def cursorStop (memory : List Nat) : Nat → Nat → List Nat → Option (Nat × List Nat)
  | 0,_,_ => none
  | fuel + 1,j2,ic => do
      let value ← memory[j2]?
      let bit ← ic.head?
      if value = bit % halfWord then some (j2,ic)
      else if value < bit % halfWord then if j2 + 1 = memory.length then some (j2 + 1,ic) else cursorStop memory fuel (j2 + 1) ic
      else if ic.tail = [] then some (memory.length,[]) else cursorStop memory fuel j2 ic.tail

-- The values between two stops move down to j0.
def andcValues (stop : List Nat → Nat → List Nat → Option (Nat × List Nat)) : Nat → List Nat → Nat → Nat → List Nat → Option (List Nat × Nat × List Nat)
  | 0,_,_,_,_ => none
  | fuel + 1,memory,j,j0,ic =>
      if j < memory.length then do
        let (j2,ic) ← stop memory j ic
        andcValues stop fuel (memmove memory j0 j (j2 - j)) (j2 + 1) (j0 + (j2 - j)) ic
      else some (memory,j0,ic)

def lookupValues (vector : Foreign) (s : Segment) (ic : List Nat) : Option (List Nat × Nat × List Nat) :=
  andcValues (fun memory j ic => (lookupStop vector s.index memory (memory.length + 1) j).map (·,ic)) (s.indices.length + 1) s.indices 0 0 ic

def cursorValues (s : Segment) (ic : List Nat) : Option (List Nat × Nat × List Nat) :=
  andcValues (fun memory j ic => cursorStop memory (memory.length + ic.length + 1) j ic) (s.indices.length + 1) s.indices 0 0 ic

-- The segment with its first j0 values, taken out if there is none.
def putValues (s : Segment) (memory : List Nat) (j0 : Nat) (others : List Segment) : List Segment :=
  if j0 = 0 then others else { s with indices := memory.take j0 }::others

def andcForeignEach (vector : Foreign) : List Nat → List Segment → Option (List Segment)
  | _,[] => some []
  | ic,s::rest =>
      if vector.hasFastRandomLookup then
        if s.index > vector.lastOne then some (s::rest)
        else do
          let (memory,j0,ic) ← lookupValues vector s ic
          let others ← andcForeignEach vector ic rest
          some (putValues s memory j0 others)
      else
        match ic.dropWhile fun x => decide (x / halfWord < s.highBits) with
        | [] => some (s::rest)
        | x::ic =>
            if x / halfWord = s.highBits then do
              let (memory,j0,ic) ← cursorValues s (x::ic)
              let others ← andcForeignEach vector ic rest
              some (putValues s memory j0 others)
            else do
              let others ← andcForeignEach vector (x::ic) rest
              some (s::others)

-- The flag is never set.
def andcForeign (v : List Segment) (vector : Foreign) : Option (Bool × List Segment) :=
  if v = [] then some (false,v)
  else if vector.isZero then some (true,v)
  else do
    let o ← andcForeignEach vector vector.elements v
    some (false,o)

-- Whether the walk finds the low half y.
def lowBelow (y x : Nat) : Bool := decide (x % halfWord < y)

def hits (y : Nat) (ic : List Nat) : Bool := decide ((ic.dropWhile (lowBelow y)).head?.map (· % halfWord) = some y)

def lastValue (s : Segment) : Nat := s.indices.getLast?.getD 0

def highBelow (s : Segment) (x : Nat) : Bool := decide (x / halfWord < s.highBits)

/- With its bits left, the cursor comes to bits that begin in segment t of those given;
later are the segments after it. -/
inductive Walks : List Nat → List Segment → Segment → List Nat → List Segment → Prop
  | here {ic s rest x left} : ic.dropWhile (highBelow s) = x::left → x / halfWord = s.highBits → Walks ic (s::rest) s (x::left) rest
  | past {ic s rest x left t jc later} : ic.dropWhile (highBelow s) = x::left → x / halfWord = s.highBits →
      Walks ((x::left).dropWhile (lowBelow (lastValue s))) rest t jc later → Walks ic (s::rest) t jc later
  | skip {ic s rest x left t jc later} : ic.dropWhile (highBelow s) = x::left → x / halfWord ≠ s.highBits →
      Walks (x::left) rest t jc later → Walks ic (s::rest) t jc later

/- Wherever the walk comes to a segment, it takes no bit of a later one for a bit of this
one, and it passes no bit that a later segment has. -/
def Steady (ic : List Nat) (v : List Segment) : Prop :=
  ∀ t jc later, Walks ic v t jc later → (∀ y ∈ t.indices, hits y jc = true → t.index + y ∈ jc) ∧
    ∀ x ∈ jc.takeWhile (lowBelow (lastValue t)), ¬ Member later x

-- The walk finds no value of a segment.
def Idle (ic : List Nat) (v : List Segment) : Prop := ∀ t jc later, Walks ic v t jc later → ∀ y ∈ t.indices, hits y jc = false

section
variable {v rest : List Segment} {s t : Segment} {a b ic memory : List Nat} {stop : List Nat → Nat → List Nat → Option (Nat × List Nat)} {keep : Nat → Bool}
  {inv : Nat → List Nat → Prop} {j j0 j2 k x y fuel limit : Nat}

/- The values that stay. -/

theorem memmoveParts (order : j0 ≤ j) (order' : j ≤ j2) (bound : j2 ≤ memory.length) :
    (memmove memory j0 j (j2 - j)).length = memory.length ∧ (memmove memory j0 j (j2 - j)).take (j0 + (j2 - j)) = memory.take j0 ++ slice memory j j2 ∧
      (memmove memory j0 j (j2 - j)).drop (j2 + 1) = memory.drop (j2 + 1) := by
  have low : (memory.take j0).length = j0 := List.length_take_of_le (by omega)
  have mid : (slice memory j j2).length = j2 - j := by
    rw [slice,List.length_take,List.length_drop]
    omega
  have front : (memory.take j0 ++ slice memory j j2).length = j0 + (j2 - j) := by rw [List.length_append,low,mid]
  have moved : memmove memory j0 j (j2 - j) = memory.take j0 ++ slice memory j j2 ++ memory.drop (j0 + (j2 - j)) := rfl
  rw [moved]
  refine ⟨?_,?_,?_⟩
  · rw [List.length_append,front,List.length_drop]
    omega
  · rw [List.take_append_of_le_length (Nat.le_of_eq front.symm),List.take_of_length_le (Nat.le_of_eq front)]
  · rw [List.drop_append,front,List.drop_eq_nil_of_le (by omega),List.nil_append,List.drop_drop]
    congr 1
    omega

-- Up to j the values have been sorted out, those that stay are the first j0.
structure Sifting (keep : Nat → Bool) (a memory : List Nat) (j j0 : Nat) : Prop where
  length : memory.length = a.length
  order : j0 ≤ j
  kept : memory.take j0 = (a.take j).filter keep
  later : memory.drop j = a.drop j

/- What a stop is: up to it everything stays, and the value there goes. -/
structure Stop (keep : Nat → Bool) (a : List Nat) (j j2 : Nat) : Prop where
  order : j ≤ j2
  bound : j2 ≤ a.length
  stay : ∀ y ∈ slice a j j2, keep y = true
  goes : ∀ y, a[j2]? = some y → keep y = false

theorem Sifting.next (sifting : Sifting keep a memory j j0) (stop : Stop keep a j j2) : Sifting keep a (memmove memory j0 j (j2 - j)) (j2 + 1) (j0 + (j2 - j)) := by
  have order := stop.order
  have order' := sifting.order
  obtain ⟨length,taken,dropped⟩ := @memmoveParts memory j j0 j2 sifting.order stop.order (sifting.length ▸ stop.bound)
  have slices : slice memory j j2 = slice a j j2 := by rw [slice,slice,sifting.later]
  refine ⟨length.trans sifting.length,by omega,?_,?_⟩
  · have split : a.take (j2 + 1) = a.take j ++ (slice a j j2 ++ (a.drop j2).take 1) := by
      rw [slice,show j2 + 1 = j + ((j2 - j) + 1) by omega,List.take_add,List.take_add,List.drop_drop,show j + (j2 - j) = j2 by omega]
    have none' : ((a.drop j2).take 1).filter keep = [] := by
      refine List.filter_eq_nil_iff.mpr fun y on => ?_
      obtain ⟨i,less,here⟩ := memTake.mp on
      rw [List.getElem?_drop,show j2 + i = j2 by omega] at here
      simp [stop.goes y here]
    have all : (slice a j j2).filter keep = slice a j j2 := List.filter_eq_self.mpr stop.stay
    rw [taken,split,List.filter_append,List.filter_append,none',all,List.append_nil,sifting.kept,slices]
  · rw [dropped,show j2 + 1 = j + (j2 + 1 - j) by omega,← List.drop_drop,sifting.later,List.drop_drop]

-- Every stop is one, and its cursor keeps what the next stops need.
def Sifts (stop : List Nat → Nat → List Nat → Option (Nat × List Nat)) (keep : Nat → Bool) (a : List Nat) (inv : Nat → List Nat → Prop) : Prop :=
  ∀ memory j ic, memory.length = a.length → memory.drop j = a.drop j → j < a.length → inv j ic →
    ∃ j2 ic', stop memory j ic = some (j2,ic') ∧ Stop keep a j j2 ∧ inv (j2 + 1) ic'

theorem andcValuesFilter (sifts : Sifts stop keep a inv) (sifting : Sifting keep a memory j j0) (holds : inv j ic) (some' : a ≠ [])
    (enough : a.length - j < fuel) :
    ∃ memory' j0' ic' j', andcValues stop fuel memory j j0 ic = some (memory',j0',ic') ∧ memory'.take j0' = a.filter keep ∧ (j0' = 0 ↔ a.filter keep = []) ∧
      a.length ≤ j' ∧ inv j' ic' := by
  induction fuel generalizing memory j j0 ic with
  | zero => omega
  | succ fuel ih =>
      rw [andcValues]
      split
      · rename_i more
        rw [sifting.length] at more
        obtain ⟨j2,ic',ran,stop,next⟩ := sifts memory j ic sifting.length sifting.later more holds
        rw [ran]
        have order := stop.order
        exact ih (sifting.next stop) next (by omega)
      · rename_i ended
        rw [sifting.length] at ended
        have kept := sifting.kept
        rw [List.take_of_length_le (l := a) (by omega)] at kept
        refine ⟨memory,j0,ic,j,rfl,kept,?_,by omega,holds⟩
        rw [← kept,List.take_eq_nil_iff]
        constructor
        · exact .inl
        · rintro (zero | empty)
          · exact zero
          · rw [empty] at sifting
            have length := sifting.length
            simp only [List.length_nil] at length
            exact absurd some' (by rw [List.eq_nil_of_length_eq_zero length.symm]; simp)

/- The stops. -/

theorem memSlice : y ∈ slice a j j2 ↔ ∃ k, j ≤ k ∧ k < j2 ∧ a[k]? = some y := by
  rw [slice,memTake]
  constructor
  · rintro ⟨k,less,at'⟩
    rw [List.getElem?_drop] at at'
    exact ⟨j + k,Nat.le_add_right _ _,by omega,at'⟩
  · rintro ⟨k,from',less,at'⟩
    refine ⟨k - j,by omega,?_⟩
    rw [List.getElem?_drop,show j + (k - j) = k by omega]
    exact at'

theorem sharedAfter (same : memory.drop j = a.drop j) (after : j ≤ k) : memory[k]? = a[k]? := by
  have here := congrArg (·[k - j]?) same
  simpa only [List.getElem?_drop,show j + (k - j) = k by omega] using here

-- One more value stays.
theorem staysUp (stay : ∀ y ∈ slice a j j2, keep y = true) (at' : a[j2]? = some x) (here : keep x = true) : ∀ y ∈ slice a j (j2 + 1), keep y = true := by
  intro y on
  obtain ⟨k,from',less,there⟩ := memSlice.mp on
  rcases Nat.lt_or_ge k j2 with before | after
  · exact stay y (memSlice.mpr ⟨k,from',before,there⟩)
  · have same : k = j2 := by omega
    rw [same,at'] at there
    cases there
    exact here

theorem lookupStopStops (vector : Foreign) (asc : Ascending a) (length : memory.length = a.length) (later : memory.drop j = a.drop j) (order : j ≤ j2) (less : j2 < a.length)
    (stay : ∀ y ∈ slice a j j2, (!vector.valueAt (k + y)) = true) (enough : a.length - j2 < fuel) :
    ∃ j2', lookupStop vector k memory fuel j2 = some j2' ∧ Stop (fun y => !vector.valueAt (k + y)) a j j2' := by
  induction fuel generalizing j2 with
  | zero => omega
  | succ fuel ih =>
      have value : memory[j2]? = some a[j2] := (sharedAfter later order).trans (List.getElem?_eq_getElem less)
      have at' : a[j2]? = some a[j2] := List.getElem?_eq_getElem less
      rw [lookupStop,value]
      simp only [Option.bind_eq_bind,Option.bind_some]
      by_cases here : vector.valueAt (k + a[j2]) = true
      · rw [if_pos here]
        refine ⟨j2,rfl,order,Nat.le_of_lt less,stay,fun y there => ?_⟩
        rw [at'] at there
        cases there
        simp [here]
      · rw [if_neg here,length]
        have stay' := @staysUp a (fun y => !vector.valueAt (k + y)) j j2 _ stay at' (by simpa using here)
        split
        · rename_i ended
          exact ⟨j2 + 1,rfl,by omega,by omega,stay',fun y there => by rw [ended,List.getElem?_eq_none (Nat.le_refl _)] at there; cases there⟩
        · rename_i more
          have less' : j2 + 1 < a.length := by omega
          have next : memory[j2 + 1]? = some a[j2 + 1] := (sharedAfter later (by omega)).trans (List.getElem?_eq_getElem less')
          rw [next,Option.bind_some]
          split
          · -- Past the last bit of the vector.
            rename_i past
            refine ⟨a.length,rfl,by omega,Nat.le_refl _,fun y on => ?_,fun y there => by rw [List.getElem?_eq_none (Nat.le_refl _)] at there; cases there⟩
            obtain ⟨i,from',-,there⟩ := memSlice.mp on
            rcases Nat.lt_or_ge i (j2 + 1) with before | after
            · exact stay' y (memSlice.mpr ⟨i,from',before,there⟩)
            · have above : a[j2 + 1] ≤ y := Ascending.least asc (List.getElem?_eq_getElem less') (memDrop.mpr ⟨i,after,there⟩)
              simp only [Bool.not_eq_true',Foreign.valueAt,decide_eq_false_iff_not]
              intro on'
              have some' := List.ne_nil_of_mem on'
              have below := Ascending.below vector.ascending some' on'
              rw [Foreign.lastOne,List.getLast?_eq_some_getLast some',Option.getD_some] at past
              omega
          · exact ih (by omega) less' stay' (by omega)

-- What the cursor is at value j when it was at jc first.
structure Walking (a jc : List Nat) (j : Nat) (ic : List Nat) : Prop where
  same : ∀ k y, j ≤ k → a[k]? = some y → ic.dropWhile (lowBelow y) = jc.dropWhile (lowBelow y)
  more : j < a.length → ic ≠ []
  ended : a.length ≤ j → ∀ y, a[a.length - 1]? = some y → ic = jc.dropWhile (lowBelow y)

theorem cursorStopStops {jc : List Nat} (asc : Ascending a) (length : memory.length = a.length) (later : memory.drop j = a.drop j) (order : j ≤ j2) (less : j2 < a.length)
    (stay : ∀ y ∈ slice a j j2, (!hits y jc) = true) (walking : Walking a jc j2 ic) (enough : a.length - j2 + ic.length < fuel) :
    ∃ j2' ic', cursorStop memory fuel j2 ic = some (j2',ic') ∧ Stop (fun y => !hits y jc) a j j2' ∧ Walking a jc (j2' + 1) ic' := by
  induction fuel generalizing j2 ic with
  | zero => omega
  | succ fuel ih =>
      have at' : a[j2]? = some a[j2] := List.getElem?_eq_getElem less
      have value : memory[j2]? = some a[j2] := (sharedAfter later order).trans at'
      obtain ⟨x,left,rfl⟩ := List.exists_cons_of_ne_nil (walking.more less)
      have here := walking.same j2 _ (Nat.le_refl _) at'
      have last : j2 + 1 = a.length → a[a.length - 1]? = some a[j2] := fun ended => by rw [show a.length - 1 = j2 by omega]; exact at'
      rw [cursorStop,value]
      simp only [Option.bind_eq_bind,Option.bind_some,List.head?_cons]
      rcases Nat.lt_trichotomy a[j2] (x % halfWord) with below | same | above
      · -- The value is not in what is left of the other vector.
        have stays : (x::left).dropWhile (lowBelow a[j2]) = x::left := List.dropWhile_cons_of_neg (by simp [lowBelow]; omega)
        rw [stays] at here
        have kept : (!hits a[j2] jc) = true := by
          rw [hits,← here]
          simp
          omega
        have stay' := @staysUp a (fun y => !hits y jc) j j2 _ stay at' kept
        rw [if_neg (by omega),if_pos below,length]
        have onward : Walking a jc (j2 + 1) (x::left) :=
          ⟨fun k y from' there => walking.same k y (by omega) there,fun _ => List.cons_ne_nil _ _,fun ended y there => by
            rw [last (by omega)] at there
            cases there
            exact here⟩
        split
        · rename_i ended
          refine ⟨_,_,rfl,⟨by omega,by omega,stay',fun y there => ?_⟩,⟨fun k y from' there => ?_,fun no => by omega,fun _ => onward.ended (by omega)⟩⟩
          · rw [ended,List.getElem?_eq_none (Nat.le_refl _)] at there
            cases there
          · exact onward.same k y (by omega) there
        · exact ih (by omega) (by omega) stay' onward (by omega)
      · have stays : (x::left).dropWhile (lowBelow a[j2]) = x::left := List.dropWhile_cons_of_neg (by simp [lowBelow]; omega)
        rw [stays] at here
        rw [if_pos same]
        refine ⟨_,_,rfl,⟨order,Nat.le_of_lt less,stay,fun y there => ?_⟩,⟨fun k y from' there => walking.same k y (by omega) there,fun _ => List.cons_ne_nil _ _,fun ended y there => ?_⟩⟩
        · rw [at'] at there
          cases there
          rw [hits,← here]
          simp [same]
        · rw [last (by omega)] at there
          cases there
          exact here
      · rw [if_neg (by omega),if_neg (by omega)]
        have passed : ∀ k y, j2 ≤ k → a[k]? = some y → (x::left).dropWhile (lowBelow y) = left.dropWhile (lowBelow y) := by
          intro k y from' there
          have atLeast := Ascending.least asc at' (memDrop.mpr ⟨k,from',there⟩)
          exact List.dropWhile_cons_of_pos (by simp [lowBelow]; omega)
        by_cases empty : left = []
        · -- Nothing is left of the cursor.
          rw [if_pos (show (x::left).tail = [] from empty)]
          subst empty
          have none' : ∀ k y, j2 ≤ k → a[k]? = some y → jc.dropWhile (lowBelow y) = [] :=
            fun k y from' there => by rw [← walking.same k y from' there,passed k y from' there]; rfl
          refine ⟨_,_,rfl,⟨by omega,by omega,fun y on => ?_,fun y there => ?_⟩,⟨fun k y from' there => ?_,fun no => by omega,fun _ y there => ?_⟩⟩
          · rw [length] at on
            obtain ⟨i,from',-,there⟩ := memSlice.mp on
            rcases Nat.lt_or_ge i j2 with before | after
            · exact stay y (memSlice.mpr ⟨i,from',before,there⟩)
            · simp [hits,none' i y after there]
          · rw [length,List.getElem?_eq_none (Nat.le_refl _)] at there
            cases there
          · rw [List.getElem?_eq_none (by omega)] at there
            cases there
          · exact (none' (a.length - 1) y (by omega) there).symm
        · rw [if_neg (show (x::left).tail ≠ [] from empty)]
          simp only [List.length_cons] at enough
          exact ih order less stay ⟨fun k y from' there => (passed k y from' there).symm.trans (walking.same k y from' there),fun _ => empty,fun no => by omega⟩
            (show a.length - j2 + left.length < fuel by omega)

/- One segment. -/

theorem lookupValuesFilter (vector : Foreign) (formed : Formed limit s) (ic : List Nat) :
    ∃ memory j0, lookupValues vector s ic = some (memory,j0,ic) ∧ memory.take j0 = s.indices.filter (fun y => !vector.valueAt (s.index + y)) ∧
      (j0 = 0 ↔ s.indices.filter (fun y => !vector.valueAt (s.index + y)) = []) := by
  have sifts : Sifts (fun memory j ic => (lookupStop vector s.index memory (memory.length + 1) j).map (·,ic)) (fun y => !vector.valueAt (s.index + y)) s.indices
      (fun _ jc => jc = ic) := by
    intro memory j jc length later less same
    obtain ⟨j2,ran,stop⟩ := @lookupStopStops s.indices memory j j s.index (memory.length + 1) vector formed.ascending length later (Nat.le_refl _) less
      (by simp [slice]) (by omega)
    exact ⟨j2,jc,by simp [ran],stop,same⟩
  obtain ⟨memory,j0,ic',j',ran,kept,zero,-,same⟩ := @andcValuesFilter s.indices ic s.indices _ (fun y => !vector.valueAt (s.index + y)) (fun _ jc => jc = ic) 0 0
    (s.indices.length + 1) sifts ⟨rfl,Nat.le_refl _,rfl,rfl⟩ rfl formed.nonempty (by omega)
  subst same
  exact ⟨memory,j0,ran,kept,zero⟩

theorem cursorValuesFilter (formed : Formed limit s) (some' : ic ≠ []) :
    ∃ memory j0, cursorValues s ic = some (memory,j0,ic.dropWhile (lowBelow (lastValue s))) ∧ memory.take j0 = s.indices.filter (fun y => !hits y ic) ∧
      (j0 = 0 ↔ s.indices.filter (fun y => !hits y ic) = []) := by
  have sifts : Sifts (fun memory j jc => cursorStop memory (memory.length + jc.length + 1) j jc) (fun y => !hits y ic) s.indices (Walking s.indices ic) := by
    intro memory j jc length later less walking
    exact @cursorStopStops s.indices jc memory j j (memory.length + jc.length + 1) ic formed.ascending length later (Nat.le_refl _) less (by simp [slice]) walking (by omega)
  have positive := List.length_pos_iff.mpr formed.nonempty
  obtain ⟨memory,j0,ic',j',ran,kept,zero,ended,walking⟩ := @andcValuesFilter s.indices ic s.indices _ (fun y => !hits y ic) (Walking s.indices ic) 0 0
    (s.indices.length + 1) sifts ⟨rfl,Nat.le_refl _,rfl,rfl⟩ ⟨fun _ _ _ _ => rfl,fun _ => some',fun no => by omega⟩ formed.nonempty (by omega)
  have last : s.indices[s.indices.length - 1]? = some (lastValue s) := by
    rw [← List.getLast?_eq_getElem?,lastValue,List.getLast?_eq_some_getLast formed.nonempty]
    rfl
  have left := walking.ended ended _ last
  subst left
  exact ⟨memory,j0,ran,kept,zero⟩

-- The segment put back has what has stayed.
theorem putPiece {p : Nat → Bool} (formed : Formed limit s) (kept : memory.take j0 = s.indices.filter p) (zero : j0 = 0 ↔ s.indices.filter p = []) :
    ∃ m : Option Segment, (∀ t ∈ m, t.highBits = s.highBits ∧ Formed limit t) ∧ (∀ x, Member m.toList x ↔ s.Has x ∧ p (x % halfWord) = true) ∧
      ∀ others, putValues s memory j0 others = m.toList ++ others := by
  by_cases empty : s.indices.filter p = []
  · refine ⟨none,by simp,fun x => ?_,fun others => if_pos (zero.mpr empty)⟩
    simp only [Option.toList_none,memberNil,false_iff]
    rintro ⟨has,holds⟩
    exact List.filter_eq_nil_iff.mp empty _ has.2 holds
  · have length := List.length_filter_le p s.indices
    have fits := formed.fits
    refine ⟨some { s with indices := s.indices.filter p },fun t on => ?_,fun x => ?_,fun others => ?_⟩
    · cases on
      exact ⟨rfl,empty,formed.ascending.sublist List.filter_sublist,fun y on => formed.small y (List.mem_of_mem_filter on),by simp only; omega,formed.size,formed.bounded,formed.high⟩
    · simp only [Option.toList_some,memberCons,memberNil,or_false,Segment.Has,List.mem_filter,and_assoc]
    · rw [putValues,if_neg fun no => empty (zero.mp no),kept]
      rfl

/- All segments. -/

theorem placedFirst {m : Option Segment} {o : List Segment} (well : WellFormed limit (s::v)) (here : ∀ t ∈ m, t.highBits = s.highBits ∧ Formed limit t)
    (wellO : WellFormed limit o) (high : ∀ t ∈ o, ∃ s ∈ v, t.highBits = s.highBits) :
    WellFormed limit (m.toList ++ o) ∧ ∀ t ∈ m.toList ++ o, ∃ u ∈ s::v, t.highBits = u.highBits := by
  have least := (List.pairwise_cons.mp well.ascending).1
  have above : ∀ t ∈ o, s.highBits < t.highBits := by
    intro t on
    obtain ⟨u,inV,same⟩ := high t on
    exact same ▸ least u inV
  have parts : Parted o s.highBits [] none o := ⟨rfl,by simp,by simp,above⟩
  refine ⟨parts.wellFormed wellO here,fun t on => ?_⟩
  rcases List.mem_append.mp on with first | second
  · exact ⟨s,List.mem_cons_self,(here t (by simpa using first)).1⟩
  · obtain ⟨u,inV,same⟩ := high t second
    exact ⟨u,List.mem_cons_of_mem _ inV,same⟩

theorem memberHigh (well : WellFormed limit (s::v)) (on : Member v x) : s.highBits < x / halfWord := by
  obtain ⟨u,inV,has⟩ := on
  exact has.1 ▸ (List.pairwise_cons.mp well.ascending).1 u inV

theorem WellFormed.tail (well : WellFormed limit (s::v)) : WellFormed limit v := well.sublist (List.sublist_cons_self _ _)

theorem lookupEach (vector : Foreign) (fast : vector.hasFastRandomLookup = true) (well : WellFormed limit v) (ic : List Nat) :
    ∃ o, andcForeignEach vector ic v = some o ∧ WellFormed limit o ∧ (∀ t ∈ o, ∃ s ∈ v, t.highBits = s.highBits) ∧
      ∀ x, Member o x ↔ Member v x ∧ x ∉ vector.elements := by
  induction v with
  | nil => exact ⟨[],rfl,well,by simp,by simp⟩
  | cons s rest ih =>
      rw [andcForeignEach,if_pos fast]
      split
      · -- All bits of the vector are below.
        rename_i past
        refine ⟨_,rfl,well,fun t on => ⟨t,on,rfl⟩,fun x => (and_iff_left_of_imp fun on on' => ?_).symm⟩
        have some' := List.ne_nil_of_mem on'
        have below := Ascending.below vector.ascending some' on'
        rw [Foreign.lastOne,List.getLast?_eq_some_getLast some',Option.getD_some] at past
        have atLeast : s.index ≤ x := by
          have high : s.highBits ≤ x / halfWord := by
            rcases memberCons.mp on with has | later
            · exact Nat.le_of_eq has.1
            · exact Nat.le_of_lt (memberHigh well later)
          have whole := wholeBit x
          have scaled := Nat.mul_le_mul_right halfWord high
          rw [Segment.index]
          omega
        omega
      · have formed := well.formed s List.mem_cons_self
        obtain ⟨memory,j0,ran,kept,zero⟩ := lookupValuesFilter vector formed ic
        obtain ⟨o,ran',wellO,high,members⟩ := ih well.tail
        obtain ⟨m,here,bits,put⟩ := putPiece formed kept zero
        obtain ⟨wellO',high'⟩ := placedFirst well here wellO high
        rw [ran]
        simp only [Option.bind_eq_bind,Option.bind_some,ran',put]
        refine ⟨_,rfl,wellO',high',fun x => ?_⟩
        rw [memberAppend,bits,members,memberCons,or_and_right]
        refine or_congr_left (and_congr_right fun has => ?_)
        simp [Foreign.valueAt,has.whole]

section
variable {R : Segment → List Nat → List Segment → Prop} {jc left later : List Nat}

theorem walksEmpty (t : Segment) (jc : List Nat) (later : List Segment) : ¬ Walks ic [] t jc later := by
  intro walks
  cases walks

theorem walksNone (none' : ic.dropWhile (highBelow s) = []) (t : Segment) (jc : List Nat) (later : List Segment) : ¬ Walks ic (s::rest) t jc later := by
  intro walks
  cases walks with
  | here shape same =>
      rw [none'] at shape
      cases shape
  | past shape same next =>
      rw [none'] at shape
      cases shape
  | skip shape differ next =>
      rw [none'] at shape
      cases shape

-- A cursor at its end comes nowhere.
theorem noWalks (v : List Segment) (t : Segment) (jc : List Nat) (later : List Segment) : ¬ Walks [] v t jc later := by
  cases v with
  | nil => exact walksEmpty t jc later
  | cons s v => exact walksNone rfl t jc later

theorem onWalkHere (at' : ic.dropWhile (highBelow s) = x::left) (same : x / halfWord = s.highBits) :
    (∀ t jc later, Walks ic (s::rest) t jc later → R t jc later) ↔
      R s (x::left) rest ∧ ∀ t jc later, Walks ((x::left).dropWhile (lowBelow (lastValue s))) rest t jc later → R t jc later := by
  constructor
  · exact fun all => ⟨all s _ rest (.here at' same),fun t jc later walks => all t jc later (.past at' same walks)⟩
  · rintro ⟨first,others⟩ t jc later walks
    cases walks with
    | here shape same' =>
        rw [at'] at shape
        cases shape
        exact first
    | past shape same' next =>
        rw [at'] at shape
        cases shape
        exact others t jc later next
    | skip shape differ next =>
        rw [at'] at shape
        cases shape
        exact absurd same differ

theorem onWalkSkip (at' : ic.dropWhile (highBelow s) = x::left) (differ : x / halfWord ≠ s.highBits) :
    (∀ t jc later, Walks ic (s::rest) t jc later → R t jc later) ↔ ∀ t jc later, Walks (x::left) rest t jc later → R t jc later := by
  constructor
  · exact fun all t jc later walks => all t jc later (.skip at' differ walks)
  · intro others t jc later walks
    cases walks with
    | here shape same =>
        rw [at'] at shape
        cases shape
        exact absurd same differ
    | past shape same next =>
        rw [at'] at shape
        cases shape
        exact absurd same differ
    | skip shape differ' next =>
        rw [at'] at shape
        cases shape
        exact others t jc later next

end

-- What the walk has done to the segments.
structure Walked (limit : Nat) (ic : List Nat) (v o : List Segment) : Prop where
  well : WellFormed limit o
  high : ∀ t ∈ o, ∃ s ∈ v, t.highBits = s.highBits
  within : ∀ x, Member o x → Member v x
  passed : ∀ x, Member v x → (∀ z ∈ ic, x < z) → Member o x
  steady : (∀ x, Member v x → (Member o x ↔ x ∉ ic)) ↔ Steady ic v
  idle : (∀ x, Member v x → Member o x) ↔ Idle ic v

-- A bit that the cursor has not reached is found.
theorem hitsThere (asc : Ascending (x::a)) (on : y ∈ x::a) (same : x / halfWord = y / halfWord) : hits (y % halfWord) (x::a) = true := by
  obtain ⟨front,back,split⟩ := List.append_of_mem on
  have ordered := asc
  rw [split] at ordered
  have before := (List.pairwise_append.mp ordered).2.2
  have low : ∀ z ∈ front, lowBelow (y % halfWord) z = true := by
    intro z inFront
    have less := before z inFront y List.mem_cons_self
    have least := Ascending.headLeast asc z (split ▸ List.mem_append_left _ inFront)
    have whole := Nat.div_add_mod z halfWord
    have whole' := Nat.div_add_mod y halfWord
    have high : z / halfWord = y / halfWord := by
      have first := Nat.div_le_div_right (c := halfWord) least
      have second := Nat.div_le_div_right (c := halfWord) (Nat.le_of_lt less)
      omega
    rw [high] at whole
    simp only [lowBelow,decide_eq_true_eq]
    omega
  rw [hits,split,List.dropWhile_append_of_pos low,List.dropWhile_cons_of_neg (by simp [lowBelow])]
  simp

theorem eachBit {P : Nat → Prop} : (∀ x, Member (s::v) x → P x) ↔ (∀ x, s.Has x → P x) ∧ ∀ x, Member v x → P x := by
  simp only [memberCons,or_imp,forall_and]

-- A bit of a later segment is none of this one.
theorem notHas (well : WellFormed limit (s::v)) (on : Member v x) : ¬ s.Has x := fun has => absurd (memberHigh well on) (Nat.not_lt_of_ge (Nat.le_of_eq has.1.symm))

theorem walkEach (vector : Foreign) (slow : vector.hasFastRandomLookup = false) (well : WellFormed limit v) (asc : Ascending ic) :
    ∃ o, andcForeignEach vector ic v = some o ∧ Walked limit ic v o := by
  induction v generalizing ic with
  | nil =>
      exact ⟨[],rfl,well,by simp,by simp,by simp,⟨fun _ t jc later walks => absurd walks (walksEmpty t jc later),by simp⟩,
        ⟨fun _ t jc later walks => absurd walks (walksEmpty t jc later),by simp⟩⟩
  | cons s rest ih =>
      have formed := well.formed s List.mem_cons_self
      have split : ic.takeWhile (highBelow s) ++ ic.dropWhile (highBelow s) = ic := List.takeWhile_append_dropWhile
      -- What lies below the segment is none of its bits, nor of the later ones.
      have front : ∀ x, s.highBits ≤ x / halfWord → (x ∈ ic ↔ x ∈ ic.dropWhile (highBelow s)) := by
        intro x high
        conv => lhs; rw [← split]
        rw [List.mem_append]
        refine or_iff_right fun there => ?_
        have low : highBelow s x = true := List.mem_takeWhile_imp there
        have less := of_decide_eq_true low
        omega
      have highs : ∀ x, Member (s::rest) x → s.highBits ≤ x / halfWord := by
        intro x on
        rcases memberCons.mp on with has | later
        · exact Nat.le_of_eq has.1
        · exact Nat.le_of_lt (memberHigh well later)
      rw [andcForeignEach,if_neg (by simp [slow])]
      show ∃ o, (match ic.dropWhile (highBelow s) with
        | [] => some (s::rest)
        | x::ic => _) = some o ∧ _
      have asc' : Ascending (ic.dropWhile (highBelow s)) := asc.sublist (List.dropWhile_sublist _)
      cases left : ic.dropWhile (highBelow s) with
      | nil =>
          rw [left] at front
          refine ⟨_,rfl,well,fun t on => ⟨t,on,rfl⟩,fun _ => id,fun _ on _ => on,⟨fun _ t jc later walks => absurd walks (walksNone left t jc later),fun _ x on => ?_⟩,
            ⟨fun _ t jc later walks => absurd walks (walksNone left t jc later),fun _ _ => id⟩⟩
          exact iff_of_true on fun there => List.not_mem_nil ((front x (highs x on)).mp there)
      | cons x0 jc =>
          rw [left] at front asc'
          have ahead : ∀ z ∈ x0::jc, z ∈ ic := fun z on => (List.dropWhile_sublist (highBelow s)).subset (left ▸ on)
          simp only
          split
          · rename_i same
            obtain ⟨memory,j0,ran,kept,zero⟩ := cursorValuesFilter formed (List.cons_ne_nil x0 jc)
            obtain ⟨o,ran',walked⟩ := @ih ((x0::jc).dropWhile (lowBelow (lastValue s))) well.tail (asc'.sublist (List.dropWhile_sublist _))
            obtain ⟨m,here,bits,put⟩ := putPiece formed kept zero
            obtain ⟨wellO,high⟩ := placedFirst well here walked.well walked.high
            have own : ∀ x, s.Has x → (Member (m.toList ++ o) x ↔ hits (x % halfWord) (x0::jc) = false) := by
              intro x has
              rw [memberAppend,bits,or_iff_left fun on => notHas well (walked.within x on) has]
              simp [has]
            have others : ∀ x, Member rest x → (Member (m.toList ++ o) x ↔ Member o x) := by
              intro x on
              rw [memberAppend,bits]
              exact or_iff_right fun both => notHas well on both.1
            have parts : (x0::jc).takeWhile (lowBelow (lastValue s)) ++ (x0::jc).dropWhile (lowBelow (lastValue s)) = x0::jc := List.takeWhile_append_dropWhile
            have onward : ∀ z ∈ (x0::jc).dropWhile (lowBelow (lastValue s)), z ∈ x0::jc := fun z on => (List.dropWhile_sublist _).subset on
            have inside : ∀ y ∈ s.indices, s.Has (s.index + y) ∧ (s.index + y) % halfWord = y :=
              fun y on => ⟨(hasBit (formed.small y on)).mpr on,(bitHalves s (formed.small y on)).2⟩
            rw [ran]
            simp only [Option.bind_eq_bind,Option.bind_some,ran',put]
            refine ⟨_,rfl,wellO,high,fun x on => ?_,fun x on before => ?_,?_,?_⟩
            · rcases memberAppend.mp on with first | second
              · exact memberCons.mpr (.inl ((bits x).mp first).1)
              · exact memberCons.mpr (.inr (walked.within x second))
            · rcases memberCons.mp on with has | later
              · -- The cursor is behind this bit in the same segment.
                refine (own x has).mpr ?_
                have less := before x0 (ahead x0 List.mem_cons_self)
                have whole := Nat.div_add_mod x halfWord
                have whole' := Nat.div_add_mod x0 halfWord
                have equal : x / halfWord = x0 / halfWord := has.1.symm.trans same.symm
                rw [equal] at whole
                rw [hits,List.dropWhile_cons_of_neg (by simp [lowBelow]; omega)]
                simp
                omega
              · exact (others x later).mpr (walked.passed x later fun z on' => before z (ahead z (onward z on')))
            · rw [Steady,onWalkHere left same,← Steady,← walked.steady,eachBit]
              have passes : ∀ x ∈ (x0::jc).takeWhile (lowBelow (lastValue s)), Member rest x → Member (m.toList ++ o) x := by
                intro x on later
                refine (others x later).mpr (walked.passed x later fun z on' => ?_)
                rw [← parts] at asc'
                exact (List.pairwise_append.mp asc').2.2 x on z on'
              have onRest : ∀ x, Member rest x → (∀ x ∈ (x0::jc).takeWhile (lowBelow (lastValue s)), ¬ Member rest x) →
                  (x ∈ ic ↔ x ∈ (x0::jc).dropWhile (lowBelow (lastValue s))) := by
                intro x on none'
                rw [front x (Nat.le_of_lt (memberHigh well on)),← List.takeWhile_append_dropWhile (p := lowBelow (lastValue s)) (l := x0::jc),List.mem_append]
                rw [parts]
                exact or_iff_right fun there => none' x there on
              constructor
              · rintro ⟨mine,later⟩
                have none' : ∀ x ∈ (x0::jc).takeWhile (lowBelow (lastValue s)), ¬ Member rest x :=
                  fun x on on' => (later x on').mp (passes x on on') (ahead x ((List.takeWhile_prefix _).subset on))
                refine ⟨⟨fun y on hit => ?_,none'⟩,fun x on => ?_⟩
                · obtain ⟨has,low⟩ := inside y on
                  have gone : ¬ Member (m.toList ++ o) (s.index + y) := by
                    rw [own _ has,low,hit]
                    simp
                  have there : s.index + y ∈ ic := by
                    by_contra off
                    exact gone ((mine _ has).mpr off)
                  exact (front _ (Nat.le_of_eq has.1)).mp there
                · rw [← others x on,later x on,onRest x on none']
              · rintro ⟨⟨found,none'⟩,later⟩
                refine ⟨fun x has => ?_,fun x on => ?_⟩
                · rw [own x has,front x (Nat.le_of_eq has.1)]
                  constructor
                  · intro miss there
                    rw [hitsThere asc' there (same.trans has.1)] at miss
                    cases miss
                  · intro off
                    by_contra hit
                    have there := found (x % halfWord) has.2 (by simpa using hit)
                    rw [has.whole] at there
                    exact off there
                · rw [others x on,later x on,onRest x on none']
            · rw [Idle,onWalkHere left same,← Idle,← walked.idle,eachBit]
              refine and_congr ?_ (forall_congr' fun x => imp_congr_right fun on => others x on)
              constructor
              · intro all y on
                obtain ⟨has,low⟩ := inside y on
                have stays := (own _ has).mp (all _ has)
                rwa [low] at stays
              · exact fun all x has => (own x has).mpr (all _ has.2)
          · rename_i differ
            obtain ⟨o,ran',walked⟩ := ih well.tail asc'
            have here : ∀ t ∈ some s, t.highBits = s.highBits ∧ Formed limit t := by
              intro t on
              cases on
              exact ⟨rfl,formed⟩
            obtain ⟨wellO,high⟩ := placedFirst well here walked.well walked.high
            have others : ∀ x, Member rest x → (Member (s::o) x ↔ Member o x) := fun x on => memberCons.trans (or_iff_right (notHas well on))
            -- The cursor is behind the segment.
            have apart : ∀ x, s.Has x → x ∉ ic := by
              intro x has there
              have least := Nat.div_le_div_right (c := halfWord) (Ascending.headLeast asc' x ((front x (Nat.le_of_eq has.1)).mp there))
              have stop : highBelow s x0 = false := by
                have head := List.head_dropWhile_not (highBelow s) (by rw [left]; simp : ic.dropWhile (highBelow s) ≠ [])
                simpa [left] using head
              have atLeast := of_decide_eq_false stop
              have equal := has.1
              omega
            simp only [Option.bind_eq_bind,ran',Option.bind_some]
            refine ⟨_,rfl,wellO,high,fun x on => ?_,fun x on before => ?_,?_,?_⟩
            · rcases memberCons.mp on with has | later
              · exact memberCons.mpr (.inl has)
              · exact memberCons.mpr (.inr (walked.within x later))
            · rcases memberCons.mp on with has | later
              · exact memberCons.mpr (.inl has)
              · exact (others x later).mpr (walked.passed x later fun z on' => before z (ahead z on'))
            · rw [Steady,onWalkSkip left differ,← Steady,← walked.steady,eachBit]
              refine (and_iff_right fun x has => iff_of_true (memberCons.mpr (.inl has)) (apart x has)).trans (forall_congr' fun x => imp_congr_right fun on => ?_)
              rw [others x on,front x (Nat.le_of_lt (memberHigh well on))]
            · rw [Idle,onWalkSkip left differ,← Idle,← walked.idle,eachBit]
              exact (and_iff_right fun x has => memberCons.mpr (.inl has)).trans (forall_congr' fun x => imp_congr_right fun on => others x on)

end

end OmrCompiler.SparseBits
