import OmrCompiler.HashTablePlace

/-! Taking an entry out of a hash table: out of its chain, or out of the closed area,
where the next entry of the chain takes its slot. -/
namespace OmrCompiler.HashTable
open IndexChain

variable {K D : Type} {info : HashInfo K} {t t' : Table K D} {free free' : List Nat} {chains chains' : Nat → List Nat} {item : Item K D}
  {fuel a b h p v x : Nat} {list front back : List Nat}

theorem findPreviousAt (linked : Linked t.chain a (front ++ p::x::back)) (enough : front.length < fuel) : findPrevious x t fuel a = some p := by
  induction front generalizing a fuel with
  | nil =>
      obtain ⟨rfl,-,next,-⟩ := linked
      cases fuel with
      | zero => simp at enough
      | succ fuel => rw [findPrevious,if_pos next]
  | cons z rest ih =>
      have unique := linked.nodup
      obtain ⟨rfl,positive,later⟩ := linked
      cases fuel with
      | zero => simp at enough
      | succ fuel =>
          have differ : t.chain a ≠ x := by
            intro hit
            cases rest with
            | nil =>
                have next : t.chain a = p := later.1
                have once := (List.nodup_cons.mp (List.nodup_cons.mp unique).2).1
                exact once (by simp [← next,hit])
            | cons y rest =>
                have next : t.chain a = y := later.1
                have once := (List.nodup_cons.mp (List.nodup_cons.mp unique).2).1
                refine once ?_
                rw [← next,hit]
                simp
          rw [findPrevious,if_neg differ,if_pos positive]
          exact ih later (by simpa using enough)

/- The entry at h has gone and v is vacant: v is h, or the entry of v has moved to h. -/
structure Removed (t : Table K D) (h v : Nat) (t' : Table K D) : Prop where
  items : ∀ x, (t'.table x).item = if x = v then none else if x = h then (t.table v).item else (t.table x).item
  mask : t'.mask = t.mask
  size : t'.tableSize = t.tableSize
  highest : t'.highestIndex = if v = t.highestIndex then walkBackward t' (v - 1) else t.highestIndex

-- Where the entries of the table after a removal were before.
theorem Removed.origin {other : Item K D} (removed : Removed t h v t') (at' : (t'.table x).item = some other) :
    x ≠ v ∧ (t.table (if x = h then v else x)).item = some other := by
  rw [removed.items] at at'
  split at at'
  · cases at'
  · rename_i differ
    refine ⟨differ,?_⟩
    split at at'
    · rename_i here
      rw [if_pos here]
      exact at'
    · rename_i there
      rw [if_neg there]
      exact at'

theorem Shape.removed (shape : Shape info t free chains) (removed : Removed t h v t') (at' : (t.table h).item = some item)
    (bucket : home t.mask item.hashCode = b) (mate : v ∈ chains b) (alone : v ≤ t.mask + 1 → chains b = [v])
    (frame : ∀ x, x ∉ chains b → t'.chain x = t.chain x)
    (freed : (t.mask + 1 < v ∧ free' = v::free ∧ t'.nextFree = v ∧ t'.chain v = t.nextFree) ∨ (v ≤ t.mask + 1 ∧ free' = free ∧ t'.nextFree = t.nextFree))
    (linked : t'.valid b = true → Linked t'.chain b list) (chainIff : t'.valid b = true → ∀ x, x ∈ list ↔ x ∈ chains b ∧ x ≠ v) :
    Shape info t' free' fun c => if c = b then list else chains c := by
  have low : b ≤ t.mask + 1 := bucket ▸ (homeBound _ _).2
  have head : t.valid b = true := bucket ▸ shape.headed at'
  have among := shape.chainIff low head
  obtain ⟨w,atV,homeV⟩ := (among v).mp mate
  have inFree : ∀ x ∈ free, x ∉ chains b := by
    intro x on taken
    obtain ⟨other,at',-⟩ := (among x).mp taken
    rw [((shape.freeIff x).mp on).2.2] at at'
    cases at'
  have homeH : (t.table h).item = some item → h ∈ chains b := fun at' => (among h).mpr ⟨item,at',bucket⟩
  -- Both h and v have entries of the bucket.
  have shifted : ∀ {x other}, (t'.table x).item = some other →
      ∃ y, (t.table y).item = some other ∧ (x ≠ h → y = x) ∧ (x = h → home t.mask other.hashCode = b) := by
    intro x other at''
    obtain ⟨-,old⟩ := removed.origin at''
    refine ⟨_,old,fun off => if_neg off,fun on => ?_⟩
    rw [if_pos on,atV] at old
    cases old
    exact homeV
  have validC : ∀ {c}, c ≠ b → c ≤ t.mask + 1 → t'.valid c = true → t.valid c = true := by
    intro c other low valid
    obtain ⟨there,at''⟩ := validIff.mp valid
    obtain ⟨y,old,same,-⟩ := shifted at''
    have off : c ≠ h := by
      intro hit
      subst hit
      exact other ((shape.closed at' low).symm.trans bucket)
    rw [same off] at old
    exact validIff.mpr ⟨there,old⟩
  refine ⟨?_,?_,fun {x other} at'' => ?_,fun {x other} at'' => ?_,fun {x other} at'' closed => ?_,fun {x other} at'' => ?_,?_,fun x => ?_,
    fun {c} closed valid => ?_,fun {c} closed valid x => ?_,fun {x y first second} atX atY same => ?_⟩
  · rw [removed.mask]
    exact shape.power
  · rw [removed.mask,removed.size]
    exact shape.size
  · rw [removed.size]
    obtain ⟨y,old,same,-⟩ := shifted at''
    by_cases here : x = h
    · rw [here]
      exact shape.inside at'
    · rw [← same here]
      exact shape.inside old
  · obtain ⟨y,old,-⟩ := shifted at''
    exact shape.hashed old
  · rw [removed.mask] at closed ⊢
    obtain ⟨y,old,same,moved⟩ := shifted at''
    by_cases here : x = h
    · rw [moved here,here,← bucket]
      exact shape.closed at' (here ▸ closed)
    · rw [same here] at old
      exact shape.closed old closed
  · rw [removed.mask]
    obtain ⟨differ,old⟩ := removed.origin at''
    obtain ⟨there,atHead⟩ := validIff.mp (shape.headed old)
    generalize place : home t.mask other.hashCode = c at atHead
    have notV : c ≠ v := by
      intro hit
      have closed : v ≤ t.mask + 1 := hit ▸ place ▸ (homeBound _ _).2
      have same : c = b := (shape.closed atHead (place ▸ (homeBound _ _).2)).symm.trans (by rw [hit,atV] at atHead; cases atHead; exact homeV)
      have only := alone closed
      have mine : (if x = h then v else x) ∈ chains b := (among _).mpr ⟨other,old,place.trans same⟩
      rw [only,List.mem_singleton] at mine
      split at mine
      · rename_i here
        have gone : h ≠ v := here ▸ differ
        have own := homeH at'
        rw [only,List.mem_singleton] at own
        exact gone own
      · exact differ mine
    refine validIff.mpr ?_
    rw [removed.items,if_neg notV]
    split
    · exact ⟨w,atV⟩
    · exact ⟨there,atHead⟩
  · have rest : Linked t'.chain t.nextFree free := shape.freeLinked.congr fun x on => frame x (inFree x on)
    rcases freed with ⟨high,same,next,chain⟩ | ⟨-,same,next⟩
    · rw [same,next]
      exact ⟨rfl,by omega,chain ▸ rest⟩
    · rw [same,next]
      exact rest
  · have gone : (t'.table x).item = none ↔ x = v ∨ (t.table x).item = none := by
      rw [removed.items]
      by_cases here : x = v
      · simp [here]
      · rw [if_neg here]
        by_cases there : x = h
        · rw [if_pos there,there,atV,at']
          simp only [reduceCtorEq,or_false,false_iff]
          exact fun same => here (there.trans same)
        · rw [if_neg there]
          simp [here]
    have range := shape.inside atV
    rw [gone,removed.mask,removed.size]
    rcases freed with ⟨high,same,-⟩ | ⟨least,same,-⟩
    · rw [same,List.mem_cons,shape.freeIff]
      constructor
      · rintro (rfl | ⟨upon,under,none'⟩)
        · exact ⟨high,range,.inl rfl⟩
        · exact ⟨upon,under,.inr none'⟩
      · rintro ⟨upon,under,hit | none'⟩
        · exact .inl hit
        · exact .inr ⟨upon,under,none'⟩
    · rw [same,shape.freeIff]
      constructor
      · rintro ⟨upon,under,none'⟩
        exact ⟨upon,under,.inr none'⟩
      · rintro ⟨upon,under,hit | none'⟩
        · omega
        · exact ⟨upon,under,none'⟩
  · rw [removed.mask] at closed
    by_cases here : c = b
    · subst here
      simp only [if_true]
      exact linked valid
    · simp only [if_neg here]
      have old := validC here closed valid
      refine (shape.linked closed old).congr fun x on => frame x fun also => ?_
      obtain ⟨one,at₁,home₁⟩ := (shape.chainIff closed old x).mp on
      obtain ⟨two,at₂,home₂⟩ := (among x).mp also
      rw [at₁] at at₂
      cases at₂
      exact here (home₁.symm.trans home₂)
  · rw [removed.mask] at closed ⊢
    by_cases here : c = b
    · subst here
      simp only [if_true]
      rw [chainIff valid,among]
      constructor
      · rintro ⟨⟨other,old,same⟩,differ⟩
        rw [removed.items,if_neg differ]
        split
        · exact ⟨w,atV,homeV⟩
        · exact ⟨other,old,same⟩
      · rintro ⟨other,at'',same⟩
        obtain ⟨differ,old⟩ := removed.origin at''
        refine ⟨?_,differ⟩
        split at old
        · rename_i hit
          exact ⟨item,hit ▸ at',bucket⟩
        · exact ⟨other,old,same⟩
    · simp only [if_neg here]
      rw [shape.chainIff closed (validC here closed valid)]
      constructor
      · rintro ⟨other,old,same⟩
        refine ⟨other,?_,same⟩
        rw [removed.items,if_neg,if_neg]
        · exact old
        · intro hit
          rw [hit,at'] at old
          cases old
          exact here (same.symm.trans bucket)
        · intro hit
          rw [hit,atV] at old
          cases old
          exact here (same.symm.trans homeV)
      · rintro ⟨other,at'',same⟩
        obtain ⟨y,old,keep,moved⟩ := shifted at''
        by_cases hit : x = h
        · exact absurd (same.symm.trans (moved hit)) here
        · rw [keep hit] at old
          exact ⟨other,old,same⟩
  · obtain ⟨differX,oldX⟩ := removed.origin atX
    obtain ⟨differY,oldY⟩ := removed.origin atY
    have together := shape.distinct oldX oldY same
    split at together <;> split at together
    · rename_i first second
      exact first.trans second.symm
    · exact absurd together.symm differY
    · exact absurd together differX
    · exact together

theorem walkBackwardCongr {t t' : Table K D} (same : t'.table = t.table) (n : Nat) : walkBackward t' n = walkBackward t n := by
  induction n with
  | zero => rfl
  | succ n ih => rw [walkBackward,walkBackward,ih,Table.valid,Table.valid,same]

-- The removal up to the highest index.
theorem lowered (items : ∀ x, (t'.table x).item = if x = v then none else if x = h then (t.table v).item else (t.table x).item) (mask : t'.mask = t.mask)
    (size : t'.tableSize = t.tableSize) (highest : t'.highestIndex = t.highestIndex) : Removed t h v (lowerHighest v t') := by
  unfold lowerHighest
  split
  · rename_i same
    refine ⟨items,mask,size,?_⟩
    rw [if_pos (same.trans highest)]
    exact (@walkBackwardCongr K D t' { t' with highestIndex := walkBackward t' (v - 1) } rfl (v - 1)).symm
  · rename_i differ
    exact ⟨items,mask,size,by rw [if_neg (fun same => differ (same.trans highest.symm))]; exact highest⟩

@[simp]
theorem lowerHighestNextFree : (lowerHighest v t).nextFree = t.nextFree := by
  unfold lowerHighest
  split <;> rfl

@[simp]
theorem lowerHighestChain : (lowerHighest v t).chain x = t.chain x := by
  unfold lowerHighest
  split <;> rfl

theorem releaseItem : ((release v t).table x).item = if x = v then none else (t.table x).item := by
  by_cases here : x = v <;> simp [release,invalidate,setCollisionChain,setEntry,here]

theorem releaseChain : (release v t).chain x = if x = v then t.nextFree else t.chain x := by
  by_cases here : x = v <;> simp [release,invalidate,setCollisionChain,setEntry,Table.chain,here]

theorem setCollisionChainItem {chain : Nat} : ((setCollisionChain p chain t).table x).item = (t.table x).item := by
  by_cases here : x = p <;> simp [setCollisionChain,setEntry,here]

theorem setCollisionChainChain {chain : Nat} : (setCollisionChain p chain t).chain x = if x = p then chain else t.chain x := by
  by_cases here : x = p <;> simp [setCollisionChain,setEntry,Table.chain,here]

-- The chain of a bucket starts in the closed area.
theorem Shape.chainStart (shape : Shape info t free chains) (low : b ≤ t.mask + 1) (valid : t.valid b = true) : ∃ rest, chains b = b::rest := by
  have linked := shape.linked low valid
  obtain ⟨item,at'⟩ := validIff.mp valid
  have positive : b ≠ 0 := by
    have least := shape.positive at'
    omega
  obtain ⟨y,rest,split⟩ := List.exists_cons_of_ne_nil (linked.nonempty.mpr positive)
  rw [split] at linked
  exact ⟨rest,by rw [split,linked.1]⟩

-- An entry of the open area: the one before it in the chain points behind it.
theorem Shape.removeOpen (shape : Shape info t free chains) (at' : (t.table h).item = some item) (bucket : home t.mask item.hashCode = b)
    (high : t.mask + 1 < h) (whole : chains b = front ++ p::h::back) :
    let t' := lowerHighest h (release h (setCollisionChain p (t.chain h) t))
    Removed t h h t' ∧ Shape info t' (h::free) fun c => if c = b then front ++ p::back else chains c := by
  intro t'
  have low : b ≤ t.mask + 1 := bucket ▸ (homeBound _ _).2
  have head : t.valid b = true := bucket ▸ shape.headed at'
  have linked := shape.linked low head
  rw [whole] at linked
  have unique := linked.nodup
  rw [List.nodup_append,List.nodup_cons,List.nodup_cons] at unique
  obtain ⟨-,⟨offP,offH,-⟩,across⟩ := unique
  have differ : p ≠ h := fun same => offP (by simp [same])
  have chain : ∀ x, t'.chain x = if x = h then t.nextFree else if x = p then t.chain h else t.chain x := fun x => by
    rw [lowerHighestChain,releaseChain,setCollisionChainChain]
    rfl
  have removed : Removed t h h t' := by
    refine lowered (fun x => ?_) rfl rfl rfl
    rw [releaseItem,setCollisionChainItem]
    by_cases here : x = h <;> simp [here]
  refine ⟨removed,shape.removed removed at' bucket (by rw [whole]; simp) (fun least => absurd least (by omega)) (fun x off => ?_) (.inl ⟨high,rfl,?_,?_⟩)
    (fun _ => linked.skip ?_ fun y on => ?_) fun _ x => ?_⟩
  · rw [whole] at off
    rw [chain,if_neg,if_neg]
    · exact fun hit => off (by simp [hit])
    · exact fun hit => off (by simp [hit])
  · exact lowerHighestNextFree
  · rw [chain,if_pos rfl]
  · rw [chain,if_neg differ,if_pos rfl]
  · rw [chain,if_neg,if_neg]
    · rcases List.mem_append.mp on with before | after
      · exact across y before p (by simp)
      · exact fun same => offP (by simp [← same,after])
    · rcases List.mem_append.mp on with before | after
      · exact across y before h (by simp)
      · exact fun same => offH (same ▸ after)
  · rw [whole]
    simp only [List.mem_append,List.mem_cons]
    constructor
    · rintro (before | rfl | after)
      · exact ⟨.inl before,across x before h (by simp)⟩
      · exact ⟨.inr (.inl rfl),differ⟩
      · exact ⟨.inr (.inr (.inr after)),fun same => offH (same ▸ after)⟩
    · rintro ⟨before | rfl | rfl | after,other⟩
      · exact .inl before
      · exact .inr (.inl rfl)
      · exact absurd rfl other
      · exact .inr (.inr after)

-- The only entry of its bucket.
theorem Shape.removeOnly (shape : Shape info t free chains) (at' : (t.table h).item = some item) (bucket : home t.mask item.hashCode = h)
    (whole : chains h = [h]) :
    Removed t h h (lowerHighest h (invalidate h t)) ∧ Shape info (lowerHighest h (invalidate h t)) free fun c => if c = h then [] else chains c := by
  have low : h ≤ t.mask + 1 := bucket ▸ (homeBound _ _).2
  have removed : Removed t h h (lowerHighest h (invalidate h t)) := by
    refine lowered (fun x => ?_) rfl rfl rfl
    by_cases here : x = h <;> simp [invalidate,setEntry,here]
  have gone : (lowerHighest h (invalidate h t)).valid h ≠ true := by
    intro valid
    obtain ⟨other,at''⟩ := validIff.mp valid
    rw [removed.items,if_pos rfl] at at''
    cases at''
  refine ⟨removed,shape.removed removed at' bucket (by rw [whole]; simp) (fun _ => whole) (fun x _ => ?_) (.inr ⟨low,rfl,lowerHighestNextFree⟩)
    (fun valid => absurd valid gone) fun valid => absurd valid gone⟩
  rw [lowerHighestChain]
  by_cases here : x = h <;> simp [invalidate,setEntry,Table.chain,here]

-- The second entry of the chain takes the slot of the first.
theorem Shape.removeFirst {f : Nat} (shape : Shape info t free chains) (at' : (t.table h).item = some item) (bucket : home t.mask item.hashCode = h)
    (whole : chains h = h::f::back) :
    let t' := lowerHighest f (release f (setEntry h ((invalidate h t).table f) (invalidate h t)))
    h < f ∧ t.valid f = true ∧ Removed t h f t' ∧ Shape info t' (f::free) fun c => if c = h then h::back else chains c := by
  intro t'
  have low : h ≤ t.mask + 1 := bucket ▸ (homeBound _ _).2
  have head : t.valid h = true := validIff.mpr ⟨item,at'⟩
  have linked := shape.linked low head
  rw [whole] at linked
  have unique := linked.nodup
  rw [List.nodup_cons,List.nodup_cons] at unique
  obtain ⟨offH,offF,-⟩ := unique
  have differ : f ≠ h := fun same => offH (by simp [same])
  obtain ⟨second,atF,homeF⟩ := (shape.chainIff low head f).mp (by rw [whole]; simp)
  have high : t.mask + 1 < f := by
    by_contra least
    exact differ ((shape.closed atF (by omega)).symm.trans homeF)
  have chain : ∀ x, t'.chain x = if x = f then t.nextFree else if x = h then t.chain f else t.chain x := fun x => by
    rw [lowerHighestChain,releaseChain]
    by_cases here : x = f
    · simp only [if_pos here]
      rfl
    · by_cases there : x = h <;> simp [here,there,invalidate,setEntry,Table.chain,differ]
  have removed : Removed t h f t' := by
    refine lowered (fun x => ?_) rfl rfl rfl
    rw [releaseItem]
    by_cases here : x = f
    · simp [here]
    · by_cases there : x = h <;> simp [here,there,invalidate,setEntry,differ]
  refine ⟨by omega,validIff.mpr ⟨second,atF⟩,removed,shape.removed removed at' bucket (by rw [whole]; simp) (fun least => absurd least (by omega)) (fun x off => ?_)
    (.inl ⟨high,rfl,?_,?_⟩) (fun _ => ⟨rfl,linked.2.1,?_⟩) fun _ x => ?_⟩
  · rw [whole] at off
    rw [chain,if_neg,if_neg]
    · exact fun hit => off (by simp [hit])
    · exact fun hit => off (by simp [hit])
  · exact lowerHighestNextFree
  · rw [chain,if_pos rfl]
  · rw [chain,if_neg (Ne.symm differ),if_pos rfl]
    have rest : Linked t.chain (t.chain f) back := linked.2.2.2.2
    refine rest.congr fun x on => ?_
    rw [chain,if_neg,if_neg]
    · exact fun hit => offH (by simp [← hit,on])
    · exact fun hit => offF (hit ▸ on)
  · rw [whole]
    simp only [List.mem_cons]
    constructor
    · rintro (rfl | after)
      · exact ⟨.inl rfl,Ne.symm differ⟩
      · exact ⟨.inr (.inr after),fun same => offF (same ▸ after)⟩
    · rintro ⟨rfl | rfl | after,other⟩
      · exact .inl rfl
      · exact absurd rfl other
      · exact .inr after

theorem Shape.remove (shape : Shape info t free chains) (at' : (t.table h).item = some item) :
    ∃ t' v free' chains', remove h t = some t' ∧ Removed t h v t' ∧ t.valid v = true ∧ Shape info t' free' chains' := by
  have low : home t.mask item.hashCode ≤ t.mask + 1 := (homeBound _ _).2
  have head := shape.headed at'
  generalize bucket : home t.mask item.hashCode = b at low head
  have mine : h ∈ chains b := (shape.chainIff low head h).mpr ⟨item,at',bucket⟩
  have linked := shape.linked low head
  obtain ⟨rest,start⟩ := shape.chainStart low head
  unfold HashTable.remove
  rw [at']
  simp only
  by_cases high : t.mask + 1 < h
  · have later : h ∈ rest := by
      rw [start,List.mem_cons] at mine
      exact mine.resolve_left (by omega)
    obtain ⟨before,back,split⟩ := List.append_of_mem later
    obtain ⟨front,p,ends⟩ : ∃ front p, b::before = front ++ [p] :=
      ⟨(b::before).dropLast,(b::before).getLast (by simp),(List.dropLast_append_getLast (by simp)).symm⟩
    have whole : chains b = front ++ p::h::back := by
      rw [start,split,← List.cons_append,ends]
      simp
    have enough : front.length < t.tableSize := by
      have length := shape.chainLength low head
      rw [whole] at length
      simp only [List.length_append,List.length_cons] at length
      omega
    obtain ⟨removed,after⟩ := shape.removeOpen at' bucket high whole
    rw [if_pos high,show (item.hashCode &&& t.mask) + 1 = b from bucket,findPreviousAt (whole ▸ linked) enough]
    exact ⟨_,h,_,_,rfl,removed,validIff.mpr ⟨item,at'⟩,after⟩
  · have here : b = h := bucket.symm.trans (shape.closed at' (by omega))
    subst here
    rw [if_neg high]
    rw [start] at linked
    cases rest with
    | nil =>
        have stop : t.chain b = 0 := linked.2.2
        obtain ⟨removed,after⟩ := shape.removeOnly at' bucket start
        rw [if_neg (by simp [stop])]
        exact ⟨_,b,_,_,rfl,removed,head,after⟩
    | cons f back =>
        have next : t.chain b = f := linked.2.2.1
        obtain ⟨order,valid,removed,after⟩ := shape.removeFirst at' bucket start
        rw [next,if_pos linked.2.2.2.1,if_pos order]
        exact ⟨_,f,_,_,rfl,removed,valid,after⟩

end OmrCompiler.HashTable
