import OmrCompiler.SharedGraph

/-! Reference counts while a graph is edited: each vertex is counted for its uses, for its roots,
and for the references that the edit holds for the moment. -/
namespace OmrCompiler.ReferenceBalance
open SharedGraph

section Balance
variable {P : Type} {g g' : NodeGraph P} {roots : Nat → Nat} {held held' : Nat → Int} {n m c : Nat}

def useBy (g : NodeGraph P) (p m : Nat) : Nat := if 0 < g.referenceCount p then (g.children p).count m else 0

-- held is below zero where a use is not counted yet.
structure Balanced (g : NodeGraph P) (roots : Nat → Nat) (held : Nat → Int) : Prop where
  counts : ∀ m, (uses g m + roots m : Int) + held m ≤ g.referenceCount m
  fresh : ∀ m, g.size ≤ m → g.referenceCount m = 0
  closed : ∀ m < g.size, ∀ c ∈ g.children m, c < g.size

theorem Balanced.ofCounted (counted : Counted g roots) : Balanced g roots fun _ => 0 := by
  refine ⟨fun m => ?_,counted.fresh,counted.closed⟩
  have := counted.counts m
  omega

theorem Balanced.counted (balanced : Balanced g roots held) (settled : ∀ m, 0 ≤ held m) : Counted g roots := by
  refine ⟨fun m => ?_,balanced.fresh,balanced.closed⟩
  have := balanced.counts m
  have := settled m
  omega

theorem Balanced.less (balanced : Balanced g roots held) (less : ∀ m, held' m ≤ held m) : Balanced g roots held' := by
  refine ⟨fun m => ?_,balanced.fresh,balanced.closed⟩
  have := balanced.counts m
  have := less m
  omega

theorem Balanced.inside (balanced : Balanced g roots held) (live : 0 < g.referenceCount n) : n < g.size := by
  by_contra outside
  have := balanced.fresh n (by omega)
  omega

theorem usesChanged (size : g'.size = g.size) (inside : n < g.size) (others : ∀ p, p ≠ n → useBy g' p m = useBy g p m) :
    uses g' m + useBy g n m = uses g m + useBy g' n m := by
  have on : n ∈ Finset.range g.size := Finset.mem_range.mpr inside
  have rest : ∑ p ∈ (Finset.range g.size).erase n, useBy g' p m = ∑ p ∈ (Finset.range g.size).erase n, useBy g p m :=
    Finset.sum_congr rfl fun p at_ => others p (Finset.ne_of_mem_erase at_)
  have before : uses g m = useBy g n m + ∑ p ∈ (Finset.range g.size).erase n, useBy g p m := (Finset.add_sum_erase _ _ on).symm
  have after : uses g' m = useBy g' n m + ∑ p ∈ (Finset.range g.size).erase n, useBy g' p m := by
    rw [uses,size]
    exact (Finset.add_sum_erase _ _ on).symm
  omega

-- An edit of one vertex.
theorem Balanced.edit (balanced : Balanced g roots held) (g' : NodeGraph P) (size : g'.size = g.size) (inside : n < g.size)
    (same : ∀ p, p ≠ n → g'.children p = g.children p ∧ g'.referenceCount p = g.referenceCount p) (closed : ∀ c ∈ g'.children n, c < g.size) :
    Balanced g' roots fun m => held m + useBy g n m - useBy g' n m + if m = n then (g'.referenceCount n : Int) - g.referenceCount n else 0 := by
  have others : ∀ m p, p ≠ n → useBy g' p m = useBy g p m := fun m p other => by rw [useBy,useBy,(same p other).1,(same p other).2]
  refine ⟨fun m => ?_,fun m outside => ?_,fun m at_ c on => ?_⟩
  · have counts := balanced.counts m
    have changed := usesChanged size inside (others m)
    by_cases here : m = n
    · subst here
      simp only [↓reduceIte]
      omega
    · have count := (same m here).2
      simp only [if_neg here]
      omega
  · rw [size] at outside
    rw [(same m (by omega)).2]
    exact balanced.fresh m outside
  · rw [size] at at_ ⊢
    by_cases here : m = n
    · exact closed c (here ▸ on)
    · rw [(same m here).1] at on
      exact balanced.closed m at_ c on

theorem Balanced.setPayload (balanced : Balanced g roots held) (p : P) : Balanced (g.setPayload n p) roots held := by
  have same : ∀ m, uses (g.setPayload n p) m = uses g m := fun m => by simp only [uses,setPayloadChildren,setPayloadCount,setPayloadSize]
  refine ⟨fun m => ?_,fun m outside => ?_,fun m inside c on => ?_⟩
  · rw [same,setPayloadCount]
    exact balanced.counts m
  · rw [setPayloadCount]
    exact balanced.fresh m outside
  · rw [setPayloadChildren] at on
    exact balanced.closed m inside c on

theorem Balanced.create (balanced : Balanced g roots held) (p : P) : Balanced (g.create p) roots held := by
  have same : ∀ m, uses (g.create p) m = uses g m := by
    intro m
    have rest : ∀ q ∈ Finset.range g.size, (if 0 < (g.create p).referenceCount q then ((g.create p).children q).count m else 0) =
        if 0 < g.referenceCount q then (g.children q).count m else 0 := by
      intro q on
      have before := Nat.ne_of_lt (Finset.mem_range.mp on)
      simp only [createCount,createChildren,if_neg before]
    rw [uses,createSize,Finset.sum_range_succ,Finset.sum_congr rfl rest,createCount,if_pos rfl,if_neg (Nat.lt_irrefl 0)]
    rfl
  refine ⟨fun m => ?_,fun m outside => ?_,fun m inside c on => ?_⟩
  · have counts := balanced.counts m
    rw [same,createCount]
    split
    · rename_i here
      have := balanced.fresh m (by omega)
      omega
    · exact counts
  · rw [createSize] at outside
    rw [createCount,if_neg (by omega)]
    exact balanced.fresh m (by omega)
  · rw [createChildren] at on
    rw [createSize] at inside ⊢
    split at on
    · simp at on
    · have := balanced.closed m (by omega) c on
      omega

theorem Balanced.inc (balanced : Balanced g roots held) (inside : n < g.size) (grows : 0 < g.referenceCount n ∨ g.children n = []) :
    Balanced (g.incReferenceCount n) roots fun m => held m + if m = n then 1 else 0 := by
  have edited := balanced.edit (g.incReferenceCount n) rfl inside (fun p other => ⟨incChildren g n p,by rw [incCount,if_neg other]⟩)
    (fun c on => balanced.closed n inside c (incChildren g n n ▸ on))
  refine edited.less fun m => ?_
  have same : useBy (g.incReferenceCount n) n m = useBy g n m := by
    simp only [useBy,incCount,if_pos,incChildren]
    rcases grows with live | none
    · rw [if_pos live,if_pos (by omega)]
    · simp [none]
  rw [same,incCount,if_pos rfl]
  split <;> omega

theorem Balanced.setChild (balanced : Balanced g roots held) (i : Nat) (live : 0 < g.referenceCount n) (inside : c < g.size) :
    Balanced (g.setChild n i c) roots fun m => held m + (g.children n).count m - (NodeGraph.setAt (g.children n) i c).count m := by
  have at_ := balanced.inside live
  have closed : ∀ d ∈ (g.setChild n i c).children n, d < g.size := by
    intro d on
    rw [setChildChildren,if_pos rfl,NodeGraph.setAt] at on
    split at on
    · rcases List.mem_or_eq_of_mem_set on with old | new
      · exact balanced.closed n at_ d old
      · exact new ▸ inside
    · rcases List.mem_append.mp on with old | new
      · exact balanced.closed n at_ d old
      · exact List.mem_singleton.mp new ▸ inside
  have edited := balanced.edit (g.setChild n i c) rfl at_ (fun p other => ⟨by rw [setChildChildren,if_neg other],setChildCount g n p i c⟩) closed
  refine edited.less fun m => ?_
  simp only [useBy,setChildCount,setChildChildren,if_pos,if_pos live]
  split <;> omega

theorem Balanced.setAndInc (balanced : Balanced g roots held) (i : Nat) (live : 0 < g.referenceCount n) (inside : c < g.size)
    (grows : 0 < g.referenceCount c ∨ g.children c = []) :
    Balanced (g.setAndIncChild n i c) roots fun m =>
      (held m + if m = c then 1 else 0) + (g.children n).count m - (NodeGraph.setAt (g.children n) i c).count m := by
  have live' : 0 < (g.incReferenceCount c).referenceCount n := by
    rw [incCount]
    split <;> omega
  have made := (balanced.inc inside grows).setChild i live' inside
  simp only [incChildren] at made
  exact made

theorem Balanced.dec (balanced : Balanced g roots held) (live : 0 < g.referenceCount n) :
    Balanced (g.decReferenceCount n) roots fun m =>
      (held m - if m = n then 1 else 0) + if g.referenceCount n = 1 then ((g.children n).count m : Int) else 0 := by
  have inside := balanced.inside live
  have edited := balanced.edit (g.decReferenceCount n) rfl inside (fun p other => ⟨decChildren g n p,by rw [decCount,if_neg other]⟩)
    (fun c on => balanced.closed n inside c (decChildren g n n ▸ on))
  refine edited.less fun m => ?_
  simp only [useBy,decCount,decChildren,↓reduceIte,if_pos live]
  by_cases last : g.referenceCount n = 1
  · have dead : ¬ 0 < g.referenceCount n - 1 := by omega
    rw [if_pos last,if_neg dead]
    split <;> omega
  · have alive : 0 < g.referenceCount n - 1 := by omega
    rw [if_neg last,if_pos alive]
    split <;> omega

end Balance

end OmrCompiler.ReferenceBalance
