import Mathlib.Data.List.Basic

/-! Ascending lists of closed integer intervals with a gap between neighbours.
The carrier is any type with two bounds, so that an entry may hold more data
than its bounds. Two sweeps are verified: the union of two lists through one
growing last entry, and the intersection of two lists through two cursors. -/
namespace OmrCompiler.IntervalList

section Bounds
variable {α : Type} {lo hi : α → Int}

def Covers (lo hi : α → Int) (xs : List α) (v : Int) : Prop := ∃ x ∈ xs, lo x ≤ v ∧ v ≤ hi x

def Separated (lo hi : α → Int) (xs : List α) : Prop :=
  (∀ x ∈ xs, lo x ≤ hi x) ∧ xs.Pairwise (fun a b => hi a + 1 < lo b)

@[simp] theorem coversNil (v : Int) : ¬ Covers lo hi [] v := by simp [Covers]

@[simp] theorem coversCons (x : α) (xs : List α) (v : Int) :
    Covers lo hi (x :: xs) v ↔ (lo x ≤ v ∧ v ≤ hi x) ∨ Covers lo hi xs v := by
  simp [Covers]

@[simp] theorem coversAppend (xs ys : List α) (v : Int) :
    Covers lo hi (xs ++ ys) v ↔ Covers lo hi xs v ∨ Covers lo hi ys v := by
  simp [Covers,or_and_right,exists_or]

theorem separatedNil : Separated lo hi [] := by simp [Separated]

theorem separatedCons {x : α} {xs : List α} :
    Separated lo hi (x :: xs) ↔ lo x ≤ hi x ∧ (∀ y ∈ xs, hi x + 1 < lo y) ∧ Separated lo hi xs := by
  simp only [Separated,List.mem_cons,forall_eq_or_imp,List.pairwise_cons]
  tauto

theorem separatedLower {x : α} {xs : List α} (h : Separated lo hi (x :: xs)) {v : Int}
    (covered : Covers lo hi xs v) : hi x + 1 < v := by
  obtain ⟨y,hy,low,_⟩ := covered
  have gap := (separatedCons.mp h).2.1 y hy
  omega

def Ascending (lo : α → Int) (xs : List α) : Prop := xs.Pairwise (fun a b => lo a ≤ lo b)

theorem separatedAscending {xs : List α} (h : Separated lo hi xs) : Ascending lo xs := by
  induction xs with
  | nil => exact .nil
  | cons x xs ih =>
    obtain ⟨proper,gap,rest⟩ := separatedCons.mp h
    refine List.pairwise_cons.mpr ⟨fun y hy => ?_,ih rest⟩
    have := gap y hy
    omega

end Bounds

/- The union sweep. The result is built last entry first: the head of the
accumulator is the entry that may still grow. -/
section Union
variable {α : Type} {lo hi : α → Int} {bottom top : Int} {fine : α → Prop} {join : α → α → Option α}

def push (lo hi : α → Int) (top : Int) (join : α → α → Option α) (acc : List α) (x : α) : Option (List α) :=
  match acc with
  | [] => some [x]
  | last :: rest =>
      if hi last = top ∨ lo x ≤ hi last + 1 then (join last x).map (· :: rest)
      else some (x :: last :: rest)

-- Joining two touching entries is exact, and gives up only on the whole range.
structure Joining (lo hi : α → Int) (bottom top : Int) (fine : α → Prop) (join : α → α → Option α) : Prop where
  bounds : ∀ {a}, fine a → lo a ≤ hi a ∧ bottom ≤ lo a ∧ hi a ≤ top
  some : ∀ {a b j}, fine a → fine b → lo a ≤ lo b → lo b ≤ hi a + 1 → join a b = some j →
    fine j ∧ lo j = lo a ∧ hi j = max (hi a) (hi b)
  none : ∀ {a b}, fine a → fine b → lo a ≤ lo b → lo b ≤ hi a + 1 → join a b = none →
    lo a = bottom ∧ max (hi a) (hi b) = top

/- The accumulator between two steps: separated when read from its end, made of
proper entries, and not above anything still to come. -/
structure Growing (lo hi : α → Int) (fine : α → Prop) (acc xs : List α) : Prop where
  gaps : acc.Pairwise (fun a b => hi b + 1 < lo a)
  inside : ∀ a ∈ acc, fine a
  below : ∀ a ∈ acc, ∀ x ∈ xs, lo a ≤ lo x

theorem growingStart (xs : List α) : Growing lo hi fine [] xs := ⟨.nil,by simp,by simp⟩

theorem growingSeparated (joining : Joining lo hi bottom top fine join) {acc xs : List α}
    (h : Growing lo hi fine acc xs) : Separated lo hi acc.reverse := by
  refine ⟨fun x hx => (joining.bounds (h.inside x (List.mem_reverse.mp hx))).1,?_⟩
  rw [List.pairwise_reverse]
  exact h.gaps

-- The next entry joins the last one or stands clear of it.
theorem pushCases (joining : Joining lo hi bottom top fine join) {last x : α} (rest : List α) (hl : fine last)
    (hx : fine x) :
    (lo x ≤ hi last + 1 ∧ push lo hi top join (last :: rest) x = (join last x).map (· :: rest)) ∨
    (hi last + 1 < lo x ∧ push lo hi top join (last :: rest) x = some (x :: last :: rest)) := by
  have lastBounds := joining.bounds hl
  have bounds := joining.bounds hx
  by_cases touch : hi last = top ∨ lo x ≤ hi last + 1
  · exact .inl ⟨by omega,if_pos touch⟩
  · exact .inr ⟨by omega,if_neg touch⟩

theorem pushGrowing (joining : Joining lo hi bottom top fine join) {acc xs out : List α} {x : α}
    (growing : Growing lo hi fine acc (x :: xs)) (ascending : Ascending lo (x :: xs)) (hx : fine x)
    (ok : push lo hi top join acc x = some out) : Growing lo hi fine out xs := by
  have after := (List.pairwise_cons.mp ascending).1
  cases acc with
  | nil =>
    cases Option.some.inj ok
    exact ⟨List.pairwise_singleton _ _,by simpa using hx,by simpa using after⟩
  | cons last rest =>
    obtain ⟨gaps,inside,below⟩ := growing
    obtain ⟨lastFine,restFine⟩ := List.forall_mem_cons.mp inside
    obtain ⟨lastGap,restGaps⟩ := List.pairwise_cons.mp gaps
    obtain ⟨lastBelow,restBelow⟩ := List.forall_mem_cons.mp below
    obtain ⟨order,lastLater⟩ := List.forall_mem_cons.mp lastBelow
    have restLater : ∀ a ∈ rest, ∀ y ∈ xs, lo a ≤ lo y :=
      fun a ha => (List.forall_mem_cons.mp (restBelow a ha)).2
    rcases pushCases joining rest lastFine hx with ⟨touch,eq⟩ | ⟨clear,eq⟩
    · rw [eq] at ok
      obtain ⟨j,hj,same⟩ := Option.map_eq_some_iff.mp ok
      subst out
      obtain ⟨jFine,low,high⟩ := joining.some lastFine hx order touch hj
      exact ⟨List.pairwise_cons.mpr ⟨fun b hb => low ▸ lastGap b hb,restGaps⟩,
        List.forall_mem_cons.mpr ⟨jFine,restFine⟩,
        List.forall_mem_cons.mpr ⟨fun y hy => low ▸ lastLater y hy,restLater⟩⟩
    · rw [eq] at ok
      cases Option.some.inj ok
      have lastProper := (joining.bounds lastFine).1
      refine ⟨List.pairwise_cons.mpr ⟨List.forall_mem_cons.mpr ⟨clear,fun b hb => ?_⟩,gaps⟩,
        List.forall_mem_cons.mpr ⟨hx,inside⟩,List.forall_mem_cons.mpr ⟨after,
        List.forall_mem_cons.mpr ⟨lastLater,restLater⟩⟩⟩
      have := lastGap b hb
      omega

theorem pushCovers (joining : Joining lo hi bottom top fine join) {acc xs out : List α} {x : α}
    (growing : Growing lo hi fine acc (x :: xs)) (hx : fine x) (ok : push lo hi top join acc x = some out)
    (v : Int) : Covers lo hi out v ↔ Covers lo hi acc v ∨ (lo x ≤ v ∧ v ≤ hi x) := by
  cases acc with
  | nil =>
    cases Option.some.inj ok
    simp
  | cons last rest =>
    have lastFine := growing.inside last (by simp)
    have order := growing.below last (by simp) x (by simp)
    rcases pushCases joining rest lastFine hx with ⟨touch,eq⟩ | ⟨_,eq⟩
    · rw [eq] at ok
      obtain ⟨j,hj,same⟩ := Option.map_eq_some_iff.mp ok
      subst out
      obtain ⟨_,low,high⟩ := joining.some lastFine hx order touch hj
      have part : (lo last ≤ v ∧ v ≤ max (hi last) (hi x)) ↔
          (lo last ≤ v ∧ v ≤ hi last) ∨ (lo x ≤ v ∧ v ≤ hi x) := by omega
      rw [coversCons,coversCons,low,high,part,or_right_comm]
    · rw [eq] at ok
      cases Option.some.inj ok
      rw [coversCons,or_comm]

theorem pushGivesUp (joining : Joining lo hi bottom top fine join) {acc xs : List α} {x : α}
    (growing : Growing lo hi fine acc (x :: xs)) (hx : fine x) (ok : push lo hi top join acc x = none)
    {v : Int} (low : bottom ≤ v) (high : v ≤ top) : Covers lo hi acc v ∨ (lo x ≤ v ∧ v ≤ hi x) := by
  cases acc with
  | nil => simp [push] at ok
  | cons last rest =>
    have lastFine := growing.inside last (by simp)
    have order := growing.below last (by simp) x (by simp)
    rcases pushCases joining rest lastFine hx with ⟨touch,eq⟩ | ⟨_,eq⟩
    · rw [eq] at ok
      obtain ⟨first,whole⟩ := joining.none lastFine hx order touch (Option.map_eq_none_iff.mp ok)
      have here : (lo last ≤ v ∧ v ≤ hi last) ∨ (lo x ≤ v ∧ v ≤ hi x) := by omega
      exact here.imp (fun h => (coversCons ..).mpr (.inl h)) id
    · rw [eq] at ok
      cases ok

theorem pushAll (joining : Joining lo hi bottom top fine join) {acc xs : List α}
    (growing : Growing lo hi fine acc xs) (ascending : Ascending lo xs) (inside : ∀ x ∈ xs, fine x) :
    (∀ out, xs.foldlM (push lo hi top join) acc = some out →
      (Separated lo hi out.reverse ∧ ∀ x ∈ out, fine x) ∧
      ∀ v, Covers lo hi out v ↔ Covers lo hi acc v ∨ Covers lo hi xs v) ∧
    (xs.foldlM (push lo hi top join) acc = none → ∀ v, bottom ≤ v → v ≤ top →
      Covers lo hi acc v ∨ Covers lo hi xs v) := by
  induction xs generalizing acc with
  | nil =>
    refine ⟨fun out ok => ?_,fun bad => by simp [pure] at bad⟩
    cases Option.some.inj ok
    exact ⟨⟨growingSeparated joining growing,growing.inside⟩,fun v => by simp⟩
  | cons x xs ih =>
    obtain ⟨here,rest⟩ := List.forall_mem_cons.mp inside
    have later := (List.pairwise_cons.mp ascending).2
    rw [List.foldlM_cons]
    cases step : push lo hi top join acc x with
    | none =>
      refine ⟨fun out ok => by simp at ok,fun _ v low high => ?_⟩
      rw [coversCons,← or_assoc]
      exact .inl (pushGivesUp joining growing here step low high)
    | some next =>
      have same := pushCovers joining growing here step
      obtain ⟨found,lost⟩ := ih (pushGrowing joining growing ascending here step) later rest
      refine ⟨fun out ok => ?_,fun bad v low high => ?_⟩
      · obtain ⟨shape,covers⟩ := found out ok
        refine ⟨shape,fun v => ?_⟩
        rw [covers v,same v,coversCons,or_assoc]
      · rw [coversCons,← or_assoc,← same v]
        exact lost bad v low high

end Union

/- The intersection sweep over plain pairs of bounds. Every round drops the
head of at least one list, so the sweep ends. -/
section Intersection

-- What is left of a current interval once everything up to last is used.
def reduce (last : Int) (high : Int) (rest : List (Int × Int)) : List (Int × Int) :=
  if high < last + 1 then rest else (last + 1,high) :: rest

def sweep (top : Int) : List (Int × Int) → List (Int × Int) → List (Int × Int)
  | (cl,ch) :: cs, (ol,oh) :: os =>
      if ch < ol then sweep top cs ((ol,oh) :: os)
      else if oh < cl then sweep top ((cl,ch) :: cs) os
      else
        (max cl ol,min ch oh) ::
          if min ch oh = top then []
          else sweep top (reduce (min ch oh) ch cs) (reduce (min ch oh) oh os)
  | _, _ => []
termination_by xs ys => xs.length + ys.length
decreasing_by
  all_goals simp only [reduce,List.length_cons]
  all_goals (try split) <;> (try split) <;> (try simp only [List.length_cons]) <;> omega

abbrev PairCovers (xs : List (Int × Int)) (v : Int) : Prop := Covers Prod.fst Prod.snd xs v

abbrev PairSeparated (xs : List (Int × Int)) : Prop := Separated Prod.fst Prod.snd xs

theorem reduceSeparated {last low high : Int} {rest : List (Int × Int)}
    (h : PairSeparated ((low,high) :: rest)) : PairSeparated (reduce last high rest) := by
  obtain ⟨_,gap,tail⟩ := separatedCons.mp h
  unfold reduce
  split
  · exact tail
  · exact separatedCons.mpr ⟨by simp; omega,gap,tail⟩

theorem reduceCovers {last low high v : Int} {rest : List (Int × Int)} (le : last ≤ high) (lower : low ≤ last + 1)
    (h : PairSeparated ((low,high) :: rest)) :
    PairCovers (reduce last high rest) v ↔ PairCovers ((low,high) :: rest) v ∧ last < v := by
  have above : PairCovers rest v → high + 1 < v := fun c => separatedLower h c
  unfold reduce
  split
  · simp only [coversCons]
    constructor
    · intro c
      exact ⟨.inr c,by have := above c; omega⟩
    · rintro ⟨⟨_,c⟩ | c,d⟩
      · omega
      · exact c
  · simp only [coversCons]
    constructor
    · rintro (⟨c,d⟩ | c)
      · exact ⟨.inl ⟨by omega,d⟩,by omega⟩
      · exact ⟨.inr c,by have := above c; omega⟩
    · rintro ⟨⟨_,c⟩ | c,d⟩
      · exact .inl ⟨by omega,c⟩
      · exact .inr c

theorem reduceBelow {last low high top : Int} {rest : List (Int × Int)}
    (h : ∀ x ∈ (low,high) :: rest, x.2 ≤ top) : ∀ x ∈ reduce last high rest, x.2 ≤ top := by
  unfold reduce
  split
  · exact fun x hx => h x (List.mem_cons_of_mem _ hx)
  · simpa using h

theorem coveredFrom {low high v : Int} {rest : List (Int × Int)} (h : PairSeparated ((low,high) :: rest))
    (c : PairCovers ((low,high) :: rest) v) : low ≤ v := by
  have proper := (separatedCons.mp h).1
  rcases (coversCons _ _ _).mp c with c | c
  · exact c.1
  · have := separatedLower h c
    simp only at this proper
    omega

theorem coveredBelow {top v : Int} {xs : List (Int × Int)} (h : ∀ x ∈ xs, x.2 ≤ top)
    (c : PairCovers xs v) : v ≤ top := by
  obtain ⟨x,hx,_,high⟩ := c
  have := h x hx
  omega

theorem pairCoversCons (low high v : Int) (rest : List (Int × Int)) :
    PairCovers ((low,high) :: rest) v ↔ (low ≤ v ∧ v ≤ high) ∨ PairCovers rest v := coversCons ..

/- After the emitted piece both lists go on past a gap: one of them has spent
its head, and the next head stands clear of it. -/
theorem reducedGap {cl ch ol oh v : Int} {cs os : List (Int × Int)} (left : PairSeparated ((cl,ch) :: cs))
    (right : PairSeparated ((ol,oh) :: os)) (inLeft : PairCovers (reduce (min ch oh) ch cs) v)
    (inRight : PairCovers (reduce (min ch oh) oh os) v) : min ch oh + 1 < v := by
  rcases Int.le_total ch oh with le | le
  · have spent : reduce (min ch oh) ch cs = cs := if_pos (by omega)
    rw [spent] at inLeft
    have := separatedLower left inLeft
    simp only at this
    omega
  · have spent : reduce (min ch oh) oh os = os := if_pos (by omega)
    rw [spent] at inRight
    have := separatedLower right inRight
    simp only at this
    omega

theorem sweepSound (top : Int) (xs ys : List (Int × Int)) (left : PairSeparated xs) (right : PairSeparated ys)
    (leftBelow : ∀ x ∈ xs, x.2 ≤ top) (rightBelow : ∀ y ∈ ys, y.2 ≤ top) :
    PairSeparated (sweep top xs ys) ∧
      ∀ v, PairCovers (sweep top xs ys) v ↔ PairCovers xs v ∧ PairCovers ys v := by
  fun_induction sweep top xs ys with
  | case1 cl ch cs ol oh os skip ih =>
    obtain ⟨shape,covers⟩ := ih (separatedCons.mp left).2.2 right (fun x hx => leftBelow x (by simp [hx])) rightBelow
    refine ⟨shape,fun v => ?_⟩
    rw [covers v,pairCoversCons cl ch]
    refine ⟨fun h => ⟨.inr h.1,h.2⟩,fun h => ⟨h.1.resolve_left fun first => ?_,h.2⟩⟩
    have := coveredFrom right h.2
    omega
  | case2 cl ch cs ol oh os keep skip ih =>
    obtain ⟨shape,covers⟩ := ih left (separatedCons.mp right).2.2 leftBelow (fun x hx => rightBelow x (by simp [hx]))
    refine ⟨shape,fun v => ?_⟩
    rw [covers v,pairCoversCons ol oh]
    refine ⟨fun h => ⟨h.1,.inr h.2⟩,fun h => ⟨h.1,h.2.resolve_left fun first => ?_⟩⟩
    have := coveredFrom left h.1
    omega
  | case3 cl ch cs ol oh os keep overlap ih =>
    have properLeft : cl ≤ ch := (separatedCons.mp left).1
    have properRight : ol ≤ oh := (separatedCons.mp right).1
    -- The part of both lists above the emitted piece, whichever way the sweep goes on.
    have rest : PairSeparated (if min ch oh = top then []
          else sweep top (reduce (min ch oh) ch cs) (reduce (min ch oh) oh os)) ∧
        ∀ v, PairCovers (if min ch oh = top then []
          else sweep top (reduce (min ch oh) ch cs) (reduce (min ch oh) oh os)) v ↔
          PairCovers (reduce (min ch oh) ch cs) v ∧ PairCovers (reduce (min ch oh) oh os) v := by
      split
      · rename_i full
        refine ⟨separatedNil,fun v => iff_of_false (by simp) fun h => ?_⟩
        have := reducedGap left right h.1 h.2
        have := coveredBelow (reduceBelow leftBelow) h.1
        omega
      · exact ih (reduceSeparated left) (reduceSeparated right) (reduceBelow leftBelow) (reduceBelow rightBelow)
    obtain ⟨shape,covers⟩ := rest
    refine ⟨separatedCons.mpr ⟨by simp only; omega,fun p hp => ?_,shape⟩,fun v => ?_⟩
    · have inside := (covers p.1).mp ⟨p,hp,Int.le_refl _,shape.1 p hp⟩
      exact reducedGap left right inside.1 inside.2
    · rw [pairCoversCons,covers v,reduceCovers (by omega) (by omega) left,reduceCovers (by omega) (by omega) right]
      constructor
      · rintro (h | h)
        · exact ⟨(pairCoversCons ..).mpr (.inl (by omega)),(pairCoversCons ..).mpr (.inl (by omega))⟩
        · exact ⟨h.1.1,h.2.1⟩
      · intro h
        have := coveredFrom left h.1
        have := coveredFrom right h.2
        by_cases above : min ch oh < v
        · exact .inr ⟨⟨h.1,above⟩,h.2,above⟩
        · exact .inl (by omega)
  | case4 xs ys stop =>
    refine ⟨separatedNil,fun v => iff_of_false (by simp) fun h => ?_⟩
    match xs, ys with
    | [], _ => exact coversNil v h.1
    | _ :: _, [] => exact coversNil v h.2
    | (cl,ch) :: cs, (ol,oh) :: os => exact stop _ _ _ _ _ _ rfl rfl

end Intersection
end OmrCompiler.IntervalList
