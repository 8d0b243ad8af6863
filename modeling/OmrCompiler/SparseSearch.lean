import OmrCompiler.SparseBits

/-! The two searches of a segment find the first value that is not below the one
searched for. -/
namespace OmrCompiler.SparseBits

variable {list : List Nat} {start low high x t u v w n fuel p : Nat}

def AscendingFrom (list : List Nat) (start : Nat) : Prop :=
  ∀ i j u v, start ≤ i → i < j → list[i]? = some u → list[j]? = some v → u < v

-- The values from start to low are below x.
def Below (list : List Nat) (start x low : Nat) : Prop := ∀ j v, start ≤ j → j < low → list[j]? = some v → v < x

structure Spot (list : List Nat) (start x t : Nat) : Prop where
  low : start ≤ t
  high : t ≤ list.length
  before : Below list start x t
  after : ∀ j v, t ≤ j → list[j]? = some v → x ≤ v

theorem Below.next (asc : AscendingFrom list start) (from' : start ≤ p) (at' : list[p]? = some u) (less : u < x) : Below list start x (p + 1) := by
  intro j v low high at''
  rcases Nat.lt_or_ge j p with before | after
  · exact Nat.lt_trans (asc j p v u low before at'' at') less
  · have here : j = p := by omega
    subst here
    rw [at'] at at''
    cases at''
    exact less

theorem Below.none (list : List Nat) (start x : Nat) : Below list start x start := fun _ _ low high => absurd high (Nat.not_lt.mpr low)

theorem spotAt (asc : AscendingFrom list start) (from' : start ≤ t) (at' : list[t]? = some v) (above : x ≤ v) (before : Below list start x t) :
    Spot list start x t := by
  have bound : t < list.length := (List.getElem?_eq_some_iff.mp at').1
  refine ⟨from',by omega,before,fun j w low at'' => ?_⟩
  rcases Nat.lt_or_ge t j with later | here
  · exact Nat.le_of_lt (Nat.lt_of_le_of_lt above (asc t j v w from' later at' at''))
  · have same : j = t := by omega
    subst same
    rw [at'] at at''
    cases at''
    exact above

theorem spotEnd (from' : start ≤ list.length) (before : Below list start x list.length) : Spot list start x list.length := by
  refine ⟨from',Nat.le_refl _,before,fun j w low at' => ?_⟩
  have bound := (List.getElem?_eq_some_iff.mp at').1
  omega

-- Between a value below x and one that is not, all is in the list.
theorem between (at' : list[high]? = some w) (order : low ≤ high) : ∃ v, list[low]? = some v := by
  have bound := (List.getElem?_eq_some_iff.mp at').1
  exact ⟨_,List.getElem?_eq_getElem (by omega)⟩

-- In ascending lists the values grow at least as fast as the indices.
theorem AscendingFrom.grow (asc : AscendingFrom list start) (from' : start ≤ low) (n : Nat) :
    ∀ {u v}, list[low]? = some u → list[low + n]? = some v → u + n ≤ v := by
  induction n with
  | zero =>
      intro u v first second
      rw [Nat.add_zero,first] at second
      cases second
      exact Nat.le_refl _
  | succ n ih =>
      intro u v first second
      obtain ⟨w,middle⟩ := between second (show low + n ≤ low + (n + 1) by omega)
      have less := asc (low + n) (low + (n + 1)) w v (by omega) (by omega) middle second
      have before := ih first middle
      omega

/- AdvanceIndex. -/

theorem orNextSpot {next : Option Nat} (asc : AscendingFrom list start) (from' : start ≤ low) (order : low ≤ high) (atHigh : list[high]? = some w) (above : x ≤ w)
    (before : Below list start x low) (later : low + 1 ≤ high → Below list start x (low + 1) → ∃ t, next = some t ∧ Spot list start x t) :
    ∃ t, orNext list x low next = some t ∧ Spot list start x t := by
  obtain ⟨v,here⟩ := between atHigh order
  rw [orNext,here]
  simp only [Option.bind_eq_bind,Option.bind_some]
  split
  · rename_i reached
    exact ⟨low,rfl,spotAt asc from' here reached before⟩
  · rename_i short
    refine later ?_ (Below.next asc from' here (by omega))
    have other : low ≠ high := by
      intro same
      subst same
      rw [atHigh] at here
      cases here
      omega
    omega

theorem advanceLinearSpot (asc : AscendingFrom list start) (from' : start ≤ low) (order : low ≤ high) (atHigh : list[high]? = some w) (above : x ≤ w)
    (before : Below list start x low) (enough : high - low < fuel) : ∃ t, advanceLinear list x high fuel low = some t ∧ Spot list start x t := by
  induction fuel generalizing low with
  | zero => omega
  | succ fuel ih =>
      rw [advanceLinear]
      split
      · rename_i four
        refine orNextSpot asc from' order atHigh above before fun order before => ?_
        refine orNextSpot asc (by omega) order atHigh above before fun order before => ?_
        refine orNextSpot asc (by omega) order atHigh above before fun order before => ?_
        refine orNextSpot asc (by omega) order atHigh above before fun order before => ?_
        exact ih (by omega) order before (by omega)
      · rename_i few
        rw [if_neg (by omega)]
        refine orNextSpot asc from' order atHigh above before fun order before => ?_
        rw [if_neg (by omega)]
        refine orNextSpot asc (by omega) order atHigh above before fun order before => ?_
        rw [if_neg (by omega)]
        refine orNextSpot asc (by omega) order atHigh above before fun order before => ?_
        omega

-- The range that is left still ends at a value that is not below x.
theorem trimmedAt (asc : AscendingFrom list start) (from' : start ≤ low) (atLow : list[low]? = some u) (less : u < x) (order : low ≤ high)
    (atHigh : list[high]? = some w) (above : x ≤ w) :
    ∃ w', list[trimmed x u low high]? = some w' ∧ x ≤ w' ∧ low ≤ trimmed x u low high ∧ trimmed x u low high ≤ high := by
  unfold trimmed
  split
  · rename_i shorter
    obtain ⟨v,there⟩ := between atHigh (Nat.le_of_lt shorter)
    refine ⟨v,there,?_,by omega,by omega⟩
    rw [Nat.add_comm] at there
    have grown := asc.grow from' (x - u) atLow there
    omega
  · exact ⟨w,atHigh,above,order,Nat.le_refl _⟩

theorem advanceBinarySpot (asc : AscendingFrom list start) (from' : start ≤ low) (order : low ≤ high) (atLow : list[low]? = some u) (less : u < x)
    (atHigh : list[high]? = some w) (above : x ≤ w) (enough : high - low < fuel) :
    ∃ t, advanceBinary list x fuel low high = some t ∧ Spot list start x t := by
  induction fuel generalizing low high u w with
  | zero => omega
  | succ fuel ih =>
      rw [advanceBinary]
      split
      · rename_i wide
        obtain ⟨v,middle⟩ := between atHigh (show (high + low) / 2 ≤ high by omega)
        simp only [middle,Option.bind_eq_bind,Option.bind_some]
        split
        · rename_i same
          exact ⟨_,rfl,spotAt asc (by omega) middle (by omega) fun j y from' bound at' => same ▸ asc j _ y v from' bound at' middle⟩
        · split
          · rename_i upon
            exact ih from' (by omega) atLow less middle (by omega) (by omega)
          · rename_i differ notOver
            have under : v < x := by omega
            obtain ⟨w',atEnd,above',low',high'⟩ := trimmedAt asc (show start ≤ (high + low) / 2 by omega) middle under (by omega) atHigh above
            exact ih (by omega) low' middle under atEnd above' (by omega)
      · refine advanceLinearSpot asc from' order atHigh above (fun j y from'' bound at' => ?_) (by omega)
        exact Nat.lt_trans (asc j low y u from'' bound at' atLow) less

theorem advanceIndexSpot (asc : AscendingFrom list low) (some' : list ≠ []) (order : low ≤ list.length)
    (ended : low = list.length → ∀ last, list[list.length - 1]? = some last → last < x) : ∃ t, advanceIndex list x low = some t ∧ Spot list low x t := by
  have size : 0 < list.length := List.length_pos_iff.mpr some'
  obtain ⟨last,atLast⟩ : ∃ last, list[list.length - 1]? = some last := ⟨_,List.getElem?_eq_getElem (by omega)⟩
  unfold advanceIndex
  simp only [atLast,Option.bind_eq_bind,Option.bind_some]
  split
  · rename_i reached
    split
    · rename_i same
      have inside : low ≤ list.length - 1 := by
        rcases Nat.lt_or_ge low list.length with less | all
        · omega
        · have upon := ended (by omega) last atLast
          omega
      exact ⟨_,rfl,spotAt asc inside atLast (by omega) fun j y from' bound at' => same ▸ asc j _ y last from' bound at' atLast⟩
    · rename_i differ
      refine ⟨_,rfl,?_⟩
      rw [show list.length - 1 + 1 = list.length by omega]
      refine spotEnd order fun j y from' bound at' => ?_
      have before := Below.next asc (show low ≤ list.length - 1 by omega) atLast (show last < x by omega)
      exact before j y from' (by omega) at'
  · rename_i short
    have inside : low ≤ list.length - 1 := by
      rcases Nat.lt_or_ge low list.length with less | all
      · omega
      · have upon := ended (by omega) last atLast
        omega
    obtain ⟨value,here⟩ := between atLast inside
    rw [here]
    simp only [Option.bind_some]
    split
    · rename_i under
      exact ⟨low,rfl,spotAt asc (Nat.le_refl _) here under (Below.none _ _ _)⟩
    · rename_i upon
      obtain ⟨w',atEnd,above,low',high'⟩ := trimmedAt asc (Nat.le_refl low) here (show value < x by omega) inside atLast (show x ≤ last by omega)
      exact advanceBinarySpot asc (Nat.le_refl _) low' here (by omega) atEnd above (by omega)

end OmrCompiler.SparseBits
