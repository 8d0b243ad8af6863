import OmrCompiler.HedgeSurgery

/-! Insertion into a hedge tree: what the search below a link may do to a subtree,
the step that rebalances a node, and the search from any slot. -/
namespace OmrCompiler.Hedge

/- The subtree t of level n and the rebalance value: 0 keeps its siblings, 1 has
given a node without siblings exactly one, 2 has raised it by a level. -/
inductive Grown (n : Nat) (t t' : Tree) : Nat → Prop where
  | kept (balanced : t'.Balanced n) (plain : t.Plain → t'.Plain) : Grown n t t' 0
  | widened (balanced : t'.Balanced n) (one : t.Plain → ∃ d, t'.sib d = true ∧ t'.sib d.other = false) : Grown n t t' 1
  | raised (balanced : t'.Balanced (n + 1)) (plain : t'.Plain) (was : t.Plain → t = .nil) : Grown n t t' 2

section
variable {d : Side} {m m' m'' : Memory} {p : Option Nat} {slot : Slot} {t t' t'' near near' far : Tree} {a : Nat} {k : Int}
  {ns fs s : Bool} {n reb : Nat}

theorem Turned.refl (rep : Rep m p t) (here : read slot m = t.ptr) : Turned slot p t t m m := by
  refine ⟨rep,⟨fun x _ _ => ⟨rfl,fun e => ?_,fun _ => rfl,rfl⟩,?_⟩⟩
  · split
    next same => rw [← here,same,read]
    next => rfl
  · split
    next same => rw [← here,same,read]
    next => rfl

theorem Turned.trans (first : Turned slot p t t' m m') (second : Turned slot p t' t'' m' m'')
    (covered : ∀ x ∈ t'.addrs, x ∈ t.addrs ∨ x ∈ t''.addrs) : Turned slot p t t'' m m'' := by
  refine ⟨second.rep,⟨fun x out out'' => ?_,?_⟩⟩
  · have out' : x ∉ t'.addrs := fun on => (covered x on).elim out out''
    obtain ⟨key,child,sibling,parent⟩ := first.frame.other x out out'
    obtain ⟨key',child',sibling',parent'⟩ := second.frame.other x out' out''
    refine ⟨key'.trans key,fun e => ?_,fun e => (sibling' e).trans (sibling e),parent'.trans parent⟩
    rw [child',child]
    split <;> rfl
  · rw [second.frame.root,first.frame.root]
    split <;> rfl

theorem Turned.here (turned : Turned slot p t t' m m') (outside : Outside slot t) (outside' : Outside slot t') :
    read slot m' = t'.ptr := by
  cases slot with
  | root => simpa [read] using turned.frame.root
  | link e x => simpa [read] using (turned.frame.other x (outside e x rfl) (outside' e x rfl)).2.1 e

theorem joinApart (distinct : (Tree.join d a k near ns far fs).addrs.Nodup) :
    a ∉ near.addrs ∧ a ∉ far.addrs ∧ ∀ x ∈ near.addrs, x ∉ far.addrs := by
  have split := Tree.addrsPerm.nodup_iff.mp distinct
  grind

theorem siblingTurned (rep : Rep m p (.join d a k near ns far fs)) (here : read slot m = some a)
    (distinct : (Tree.join d a k near ns far fs).addrs.Nodup) :
    Turned slot p (.join d a k near ns far fs) (.join d a k near s far fs) m (setSibling d a s m) := by
  obtain ⟨aloneNear,aloneFar,-⟩ := joinApart distinct
  have sides := Side.otherNe d
  rw [repJoin] at rep
  obtain ⟨cell,repNear,repFar⟩ := rep
  refine ⟨repJoin.mpr ⟨?_,repNear.congr fun x on => ?_,repFar.congr fun x on => ?_⟩,?_⟩
  · simp only [setSiblingKey,setSiblingChild,setSiblingSibling,setSiblingParent]
    grind
  · have other : x ≠ a := fun same => aloneNear (same ▸ on)
    simp [SameNode,other]
  · have other : x ≠ a := fun same => aloneFar (same ▸ on)
    simp [SameNode,other]
  · have there : read slot m = (Tree.join d a k near ns far fs).ptr := by rw [here,Tree.ptrJoin]
    have kept := (Turned.refl (repJoin.mpr ⟨cell,repNear,repFar⟩) there).frame
    refine ⟨fun x out out' => ?_,by simpa using kept.root⟩
    have other : x ≠ a := fun same => out (Tree.addrsJoin.mpr (.inr (.inl same)))
    simpa [other] using kept.other x out out

-- A change below one link of a node is a change of the node's tree.
theorem Turned.below (rep : Rep m p (.join d a k near ns far fs)) (here : read slot m = some a)
    (distinct : (Tree.join d a k near ns far fs).addrs.Nodup)
    (distinct' : (Tree.join d a k near' ns far fs).addrs.Nodup)
    (turned : Turned (.link d a) (some a) near near' m m') :
    Turned slot p (.join d a k near ns far fs) (.join d a k near' ns far fs) m m' := by
  obtain ⟨rep',frame⟩ := turned
  have apart := joinApart distinct
  have apart' := joinApart distinct'
  clear distinct distinct'
  have sides := Side.otherNe d
  have there : read slot m = (Tree.join d a k near ns far fs).ptr := by rw [here,Tree.ptrJoin]
  have kept := (Turned.refl rep there).frame
  rw [repJoin] at rep
  obtain ⟨cell,repNear,repFar⟩ := rep
  have cell' := frame.other a apart.1 apart'.1
  refine ⟨repJoin.mpr ⟨?_,rep',repFar.congr fun x on => ?_⟩,⟨fun x out out' => ?_,?_⟩⟩
  · grind
  · have := frame.other x
    simp only [SameNode]
    grind
  · simp only [Tree.addrsJoin] at out out'
    have changed := frame.other x (by grind) (by grind)
    have same := kept.other x (by rw [Tree.addrsJoin]; grind) (by rw [Tree.addrsJoin]; grind)
    simp only [Tree.ptrJoin] at same ⊢
    grind
  · rw [frame.root]
    simpa using kept.root

theorem sameAddrs (order : t'.inorder = t.inorder) : t'.addrs = t.addrs := by rw [Tree.addrs,order,Tree.addrs]

theorem splitLevelTurned (rep : Rep m p (.join d a k near true far fs)) (here : read slot m = some a)
    (distinct : (Tree.join d a k near true far fs).addrs.Nodup) (outside : Outside slot (.join d a k near true far fs))
    (balanced : near.Balanced (n + 1)) (one : ∃ e, near.sib e = true ∧ near.sib e.other = false)
    (linkedFar : far.Linked fs n) :
    ∃ m' t', splitLevel d slot a m = some m' ∧ Turned slot p (.join d a k near true far fs) t' m m' ∧
      t'.Balanced (n + 2) ∧ t'.Plain ∧ t'.inorder = (Tree.join d a k near true far fs).inorder := by
  obtain ⟨b,j,x,s₁,y,s₂,rfl,linkedX,linkedY⟩ := Tree.balancedNode d balanced
  have first := siblingTurned (s := false) rep here distinct
  have order : (Tree.join d a k (.join d b j x s₁ y s₂) false far fs).inorder =
    (Tree.join d a k (.join d b j x s₁ y s₂) true far fs).inorder := Tree.inorderJoin rfl rfl
  have addrs := sameAddrs order
  have apart : b ≠ a := fun same => (joinApart distinct).1 (Tree.addrsJoin.mpr (.inr (.inl same.symm)))
  have covered {z : Tree} : ∀ c ∈ (Tree.join d a k (.join d b j x s₁ y s₂) false far fs).addrs,
      c ∈ (Tree.join d a k (.join d b j x s₁ y s₂) true far fs).addrs ∨ c ∈ z.addrs := fun c on => .inl (addrs ▸ on)
  rw [← addrs] at distinct
  simp only [Outside,← addrs] at outside
  simp only [repJoin,Tree.ptrJoin] at rep
  obtain ⟨cellA,⟨cellB,-,-⟩,-⟩ := rep
  have flags : s₁ = true ∧ s₂ = false ∨ s₁ = false ∧ s₂ = true := by
    obtain ⟨e,one⟩ := one
    cases d <;> cases e <;> simp [Tree.sib,Tree.join,Side.other] at one <;> simp [one]
  obtain ⟨rfl,rfl⟩ | ⟨rfl,rfl⟩ := flags
  · refine ⟨_,_,?_,first.trans (liftNearTurned first.rep distinct outside) covered,?_,?_,?_⟩
    · simp [splitLevel,cellA,cellB,apart]
    · exact Tree.balancedSucc.mpr ⟨linkedX.1,Tree.balancedSucc.mpr ⟨linkedY,linkedFar⟩⟩
    · exact Tree.plainJoin.mpr ⟨rfl,rfl⟩
    · cases d <;> simp [Tree.join,Tree.inorder]
  · obtain ⟨levelY,plainY⟩ := linkedY
    obtain ⟨c,i,u,s₃,v,s₄,rfl,linkedU,linkedV⟩ := Tree.balancedNode d levelY
    obtain ⟨rfl,rfl⟩ := Tree.plainJoin.mp plainY
    refine ⟨_,_,?_,first.trans (liftInnerTurned first.rep distinct outside) covered,?_,?_,?_⟩
    · simp [splitLevel,cellA,cellB,apart]
    · refine Tree.balancedSucc.mpr ⟨Tree.balancedSucc.mpr ⟨linkedX,linkedU⟩,Tree.balancedSucc.mpr ⟨linkedV,linkedFar⟩⟩
    · exact Tree.plainJoin.mpr ⟨rfl,rfl⟩
    · cases d <;> simp [Tree.join,Tree.inorder]

-- The node is not lifted: it has kept its siblings or has gained one.
theorem rebalanceInsertTurned (rep : Rep m p (.join d a k near' ns far fs)) (here : read slot m = some a)
    (distinct : (Tree.join d a k near' ns far fs).addrs.Nodup) (outside : Outside slot (.join d a k near' ns far fs))
    (linked : near.Linked ns n) (linkedFar : far.Linked fs n)
    (grown : Grown (if ns then n + 1 else n) near near' reb) :
    ∃ reb' m' t', rebalanceInsert d slot a reb m = some (reb',m') ∧
      Turned slot p (.join d a k near' ns far fs) t' m m' ∧ Grown (n + 1) (.join d a k near ns far fs) t' reb' ∧
      t'.inorder = (Tree.join d a k near' ns far fs).inorder := by
  have there : read slot m = (Tree.join d a k near' ns far fs).ptr := by rw [here,Tree.ptrJoin]
  have same := Turned.refl rep there
  have cell := (repJoin.mp rep).1
  have flag : m.sibling d a = ns := cell.2.2.2.1
  have link : m.child d a = near'.ptr := cell.2.1
  cases grown with
  | kept balanced plain =>
    refine ⟨0,m,_,by simp [rebalanceInsert],same,.kept ?_ ?_,rfl⟩
    · rw [Tree.balancedSucc]
      refine ⟨?_,linkedFar⟩
      cases ns with
      | true => exact ⟨balanced,plain linked.2⟩
      | false => exact balanced
    · rw [Tree.plainJoin,Tree.plainJoin]
      exact id
  | widened balanced one =>
    cases ns with
    | false =>
      refine ⟨0,m,_,by simp [rebalanceInsert,flag],same,.kept ?_ ?_,rfl⟩
      · exact Tree.balancedSucc.mpr ⟨balanced,linkedFar⟩
      · rw [Tree.plainJoin,Tree.plainJoin]
        exact id
    | true =>
      obtain ⟨m',t',run,turned,level,apart,order⟩ :=
        splitLevelTurned rep here distinct outside balanced (one linked.2) linkedFar
      refine ⟨2,m',t',by simp [rebalanceInsert,flag,run],turned,.raised level apart fun before => ?_,order⟩
      cases (Tree.plainJoin.mp before).1
  | raised balanced plain was =>
    cases ns with
    | true =>
      have empty := was linked.2
      have level : near.Balanced (n + 1) := linked.1
      rw [empty] at level
      cases level
    | false =>
      refine ⟨1,_,_,by simp [rebalanceInsert,flag],siblingTurned (s := true) rep here distinct,.widened ?_ ?_,Tree.inorderJoin rfl rfl⟩
      · exact Tree.balancedSucc.mpr ⟨⟨balanced,plain⟩,linkedFar⟩
      · intro before
        have none := (Tree.plainJoin.mp before).2
        exact ⟨d,Tree.sibNear,by rw [Tree.sibFar,none]⟩

end

-- Insertion into the pairs in key order; a key that is there keeps its node.
def insertPair (a : Nat) (k : Int) : List (Nat × Int) → List (Nat × Int)
  | [] => [(a,k)]
  | (b,j)::rest => if k < j then (a,k)::(b,j)::rest else if j < k then (b,j)::insertPair a k rest else (b,j)::rest

def Toward (d : Side) (key k : Int) : Prop :=
  match d with
  | .left => key < k
  | .right => k < key

section
variable {a b : Nat} {k j : Int} {xs ys : List (Nat × Int)}

theorem insertLow (low : k < j) : insertPair a k (xs ++ (b,j)::ys) = insertPair a k xs ++ (b,j)::ys := by
  induction xs with
  | nil => simp [insertPair,low]
  | cons x xs ih =>
    simp only [List.cons_append,insertPair,ih]
    split
    · rfl
    · split <;> rfl

theorem insertPast (lower : ∀ x ∈ xs, x.2 < k) : insertPair a k (xs ++ ys) = xs ++ insertPair a k ys := by
  induction xs with
  | nil => rfl
  | cons x xs ih =>
    have less : x.2 < k := lower x (by simp)
    have more : ¬k < x.2 := by omega
    simp only [List.cons_append,insertPair,if_neg more,if_pos less]
    rw [ih fun y on => lower y (by simp [on])]

theorem memInsert {x : Nat × Int} (on : x ∈ insertPair a k xs) : x = (a,k) ∨ x ∈ xs := by
  induction xs with
  | nil => simpa [insertPair] using on
  | cons y xs ih =>
    simp only [insertPair] at on
    split at on
    · simpa using on
    · split at on
      · rcases List.mem_cons.mp on with here | later
        · simp [here]
        · exact (ih later).imp_right (List.mem_cons_of_mem y)
      · exact .inr on

theorem nodupInsert (distinct : (xs.map Prod.fst).Nodup) (fresh : a ∉ xs.map Prod.fst) :
    ((insertPair a k xs).map Prod.fst).Nodup := by
  induction xs with
  | nil => simp [insertPair]
  | cons y xs ih =>
    simp only [List.map_cons,List.nodup_cons,List.mem_cons,not_or] at distinct fresh
    have inner := ih distinct.2 fresh.2
    simp only [insertPair]
    split
    · simp only [List.map_cons,List.nodup_cons,List.mem_cons,not_or]
      exact ⟨fresh,distinct⟩
    · split
      · simp only [List.map_cons,List.nodup_cons]
        refine ⟨fun on => ?_,inner⟩
        obtain ⟨x,onX,same⟩ := List.mem_map.mp on
        rcases memInsert onX with rfl | before
        · exact fresh.1 same
        · exact distinct.1 (same ▸ List.mem_map_of_mem before)
      · simpa using distinct

theorem keysInsert : ∀ i, i ∈ (insertPair a k xs).map Prod.snd ↔ i = k ∨ i ∈ xs.map Prod.snd := by
  intro i
  induction xs with
  | nil => simp [insertPair]
  | cons y xs ih =>
    simp only [insertPair]
    split
    · simp
    · split
      · simp only [List.map_cons,List.mem_cons,ih]
        tauto
      · have same : y.2 = k := by omega
        simp only [List.map_cons,List.mem_cons,same]
        tauto

theorem sortedInsert (sorted : (xs.map Prod.snd).Pairwise (· < ·)) :
    ((insertPair a k xs).map Prod.snd).Pairwise (· < ·) := by
  induction xs with
  | nil => simp [insertPair]
  | cons y xs ih =>
    simp only [List.map_cons,List.pairwise_cons] at sorted
    simp only [insertPair]
    split
    next low =>
      simp only [List.map_cons,List.pairwise_cons,List.mem_cons]
      exact ⟨fun i on => on.elim (fun same => same ▸ low) fun later => lt_trans low (sorted.1 i later),sorted⟩
    next =>
      split
      next high =>
        simp only [List.map_cons,List.pairwise_cons]
        exact ⟨fun i on => ((keysInsert i).mp on).elim (fun same => same ▸ high) (sorted.1 i),ih sorted.2⟩
      next => simpa using sorted

end

section
variable {d : Side} {near near' far : Tree} {a new : Nat} {k key : Int} {ns fs : Bool}

theorem insertJoin (toward : Toward d key k) (ordered : (Tree.join d a k near ns far fs).Ordered)
    (order : near'.inorder = insertPair new key near.inorder) :
    (Tree.join d a k near' ns far fs).inorder = insertPair new key (Tree.join d a k near ns far fs).inorder := by
  cases d with
  | left =>
    simp only [Tree.join,Tree.inorder,order]
    rw [insertLow toward]
  | right =>
    have high : k < key := toward
    have lower : ∀ x ∈ far.inorder ++ [(a,k)], x.2 < key := by
      simp only [Tree.Ordered,Tree.join,Tree.keysNode,List.pairwise_append] at ordered
      intro x on
      rcases List.mem_append.mp on with left | here
      · exact lt_trans (ordered.2.2 x.2 (List.mem_map_of_mem left) k (by simp)) high
      · rw [List.mem_singleton.mp here]
        exact high
    have split := @insertPast new key (far.inorder ++ [(a,k)]) near.inorder lower
    simpa [Tree.join,Tree.inorder,order] using split.symm

theorem orderedNear (ordered : (Tree.join d a k near ns far fs).Ordered) : near.Ordered := by
  cases d with
  | left =>
    simp only [Tree.Ordered,Tree.join,Tree.keysNode,List.pairwise_append] at ordered
    exact ordered.1
  | right =>
    simp only [Tree.Ordered,Tree.join,Tree.keysNode,List.pairwise_append,List.pairwise_cons] at ordered
    exact ordered.2.1.2

end

-- The node to be inserted is the caller's, ready, or one yet to be initialized.
def Ready (new : Nat) (key : Int) (nodeToBeInserted : Option Nat) (allocated : Nat) (m : Memory) : Prop :=
  match nodeToBeInserted with
  | none => allocated = new
  | some b => b = new ∧ m.key b = key ∧ ∀ e, m.child e b = none ∧ m.sibling e b = false

-- What a search for the key does at a slot that holds t.
structure Inserted (new : Nat) (key : Int) (slot : Slot) (p : Option Nat) (n : Nat) (t t' : Tree) (m : Memory)
    (out : Nat × Nat × Memory) : Prop where
  turned : Turned slot p t t' m out.2.2
  grown : Grown n t t' out.2.1
  order : t'.inorder = insertPair new key t.inorder
  found : (out.1,key) ∈ t'.inorder

-- The slot, which is not in the tree, holds a tree of level n.
structure Held (slot : Slot) (p : Option Nat) (n : Nat) (t : Tree) (m : Memory) : Prop where
  rep : Rep m p t
  here : read slot m = t.ptr
  distinct : t.addrs.Nodup
  balanced : t.Balanced n
  outside : Outside slot t

-- The tree is in order and has no place yet for the new node.
structure Placed (new : Nat) (slot : Slot) (p : Option Nat) (n : Nat) (t : Tree) (m : Memory) : Prop extends
    Held slot p n t m where
  ordered : t.Ordered
  fresh : new ∉ t.addrs
  owner : ∀ e, slot ≠ .link e new

section
variable {d : Side} {near near' far t t' : Tree} {a new allocated n : Nat} {k key : Int} {ns fs : Bool} {m : Memory}
  {nodeToBeInserted p : Option Nat} {slot : Slot}

theorem newChildInserted (ready : Ready new key nodeToBeInserted allocated m) (apart : a ≠ new) :
    Inserted new key (.link d a) (some a) 0 .nil (.node new key .nil false .nil false) m
      ((newChild key nodeToBeInserted allocated d a m).1,2,(newChild key nodeToBeInserted allocated d a m).2) := by
  refine ⟨⟨?_,?_,?_⟩,.raised ⟨0,rfl,rfl,rfl⟩ ⟨rfl,rfl⟩ fun _ => rfl,rfl,?_⟩
  · cases nodeToBeInserted with
    | none =>
      cases ready
      simp [Rep,newChild,initializeNode,Tree.ptr,Ne.symm apart]
    | some b =>
      obtain ⟨rfl,keyed,links⟩ := ready
      simp [Rep,newChild,Tree.ptr,keyed,links,Ne.symm apart]
  · intro x _ out
    have other : x ≠ new := by simpa using out
    cases nodeToBeInserted with
    | none =>
      cases ready
      simp [newChild,initializeNode,other,Ne.symm other]
      grind
    | some b =>
      obtain ⟨rfl,-⟩ := ready
      simp [newChild,Ne.symm other]
      grind
  · cases nodeToBeInserted <;> simp [newChild,initializeNode]
  · cases nodeToBeInserted with
    | none =>
      cases ready
      simp [newChild,Tree.inorder]
    | some b =>
      obtain ⟨rfl,-⟩ := ready
      simp [newChild,Tree.inorder]

theorem Held.below (held : Held slot p (n + 1) (.join d a k near ns far fs) m) :
    Held (.link d a) (some a) (if ns then n + 1 else n) near m := by
  obtain ⟨rep,here,distinct,balanced,outside⟩ := held
  have cell := repJoin.mp rep
  refine ⟨cell.2.1,cell.1.2.1,?_,?_,?_⟩
  · exact (List.nodup_append.mp (Tree.addrsPerm.nodup_iff.mp distinct)).1
  · have linked := (Tree.balancedSucc.mp balanced).1
    cases ns with
    | true => exact linked.1
    | false => exact linked
  · rintro e x same
    cases same
    exact (joinApart distinct).1

theorem Placed.below (placed : Placed new slot p (n + 1) (.join d a k near ns far fs) m) :
    Placed new (.link d a) (some a) (if ns then n + 1 else n) near m := by
  have fresh := placed.fresh
  rw [Tree.addrsJoin,not_or,not_or] at fresh
  refine ⟨placed.toHeld.below,orderedNear placed.ordered,fresh.1,?_⟩
  rintro e same
  cases same
  exact fresh.2.1 rfl

theorem findOrCreateBelowInserted {search : Descent} (placed : Placed new slot p (n + 1) (.join d a k near ns far fs) m)
    (ready : Ready new key nodeToBeInserted allocated m) (toward : Toward d key k)
    (searched : near ≠ .nil → ∃ out near', search (.link d a) m = some out ∧
      Inserted new key (.link d a) (some a) (if ns then n + 1 else n) near near' m out) :
    ∃ out t', findOrCreateBelow search key nodeToBeInserted allocated d slot a m = some out ∧
      Inserted new key slot p (n + 1) (.join d a k near ns far fs) t' m out := by
  obtain ⟨⟨rep,here,distinct,balanced,outside⟩,ordered,fresh,owner⟩ := placed
  have linked := Tree.balancedSucc.mp balanced
  have link : m.child d a = near.ptr := (repJoin.mp rep).1.2.1
  -- The link is empty and takes the new node, or the search goes on below it.
  have below : ∃ out near', (match m.child d a with
      | none => some ((newChild key nodeToBeInserted allocated d a m).1,2,(newChild key nodeToBeInserted allocated d a m).2)
      | some _ => search (.link d a) m) = some out ∧
      Inserted new key (.link d a) (some a) (if ns then n + 1 else n) near near' m out := by
    cases near with
    | nil =>
      have level : (if ns then n + 1 else n) = 0 := by
        cases ns with
        | true => exact linked.1.1
        | false => exact linked.1
      rw [link,level]
      exact ⟨_,_,rfl,newChildInserted ready fun same => fresh (Tree.addrsJoin.mpr (.inr (.inl same.symm)))⟩
    | node b j l ls r rs =>
      rw [link]
      exact searched (by simp)
  obtain ⟨⟨result,reb,m₁⟩,near',run,turned,grown,order,found⟩ := below
  have ordering := insertJoin toward ordered order
  have addrs : ∀ x ∈ (Tree.join d a k near' ns far fs).addrs, x = new ∨ x ∈ (Tree.join d a k near ns far fs).addrs := by
    intro x on
    rw [Tree.addrs,ordering] at on
    obtain ⟨y,onY,rfl⟩ := List.mem_map.mp on
    exact (memInsert onY).imp (congrArg Prod.fst) List.mem_map_of_mem
  have distinct' : (Tree.join d a k near' ns far fs).addrs.Nodup := by
    rw [Tree.addrs,ordering]
    exact nodupInsert distinct fresh
  have outside' : Outside slot (.join d a k near' ns far fs) := by
    intro e x same on
    rcases addrs x on with rfl | before
    · exact owner e same
    · exact outside e x same before
  have under := Turned.below rep (by rw [here,Tree.ptrJoin]) distinct distinct' turned
  have here₁ : read slot m₁ = some a := (under.here outside outside').trans Tree.ptrJoin
  obtain ⟨reb',m₂,t',step,turned',grown',order'⟩ :=
    rebalanceInsertTurned under.rep here₁ distinct' outside' linked.1 linked.2 grown
  refine ⟨(result,reb',m₂),t',?_,under.trans turned' ?_,grown',order'.trans ordering,?_⟩
  · cases child : m.child d a with
    | none =>
      rw [child] at run
      cases run
      simp [findOrCreateBelow,child,step]
    | some b =>
      rw [child] at run
      have searching : search (.link d a) m = some (result,reb,m₁) := run
      simp [findOrCreateBelow,child,searching,step]
  · intro x on
    rw [sameAddrs order']
    exact .inr on
  · rw [order']
    cases d <;> simp [Tree.join,Tree.inorder,found]

end

theorem findOrCreateAtInserted (key : Int) (nodeToBeInserted : Option Nat) (allocated new fuel : Nat) {t : Tree}
    {slot : Slot} {p : Option Nat} {n : Nat} {m : Memory} (placed : Placed new slot p n t m) (some : t ≠ .nil)
    (ready : Ready new key nodeToBeInserted allocated m) (enough : t.height ≤ fuel) :
    ∃ out t', findOrCreateAt key nodeToBeInserted allocated fuel slot m = .some out ∧
      Inserted new key slot p n t t' m out := by
  induction fuel generalizing t slot p n with
  | zero =>
    cases t with
    | nil => exact absurd rfl some
    | node a k l ls r rs => simp [Tree.height] at enough
  | succ fuel ih =>
    cases t with
    | nil => exact absurd rfl some
    | node a k l ls r rs =>
      obtain ⟨level,rfl,-⟩ := placed.balanced
      have keyed : m.key a = k := placed.rep.1.1
      have lower : l.height ≤ fuel ∧ r.height ≤ fuel := by
        simp only [Tree.height] at enough
        omega
      simp only [findOrCreateAt,placed.here,Tree.ptrNode,keyed,bind,Option.bind_some]
      by_cases low : key < k
      · rw [if_pos low]
        exact findOrCreateBelowInserted (d := .left) placed ready low fun some =>
          ih (Placed.below (d := .left) placed) some lower.1
      · rw [if_neg low]
        by_cases high : k < key
        · rw [if_pos high]
          exact findOrCreateBelowInserted (d := .right) placed ready high fun some =>
            ih (Placed.below (d := .right) placed) some lower.2
        · rw [if_neg high]
          obtain rfl : key = k := by omega
          refine ⟨_,_,rfl,Turned.refl placed.rep placed.here,.kept placed.balanced id,?_,?_⟩
          · have lower : ∀ x ∈ l.inorder, x.2 < key := by
              have sorted := placed.ordered
              simp only [Tree.Ordered,Tree.keysNode,List.pairwise_append] at sorted
              exact fun x on => sorted.2.2 x.2 (List.mem_map_of_mem on) key (by simp)
            rw [Tree.inorder,insertPast lower]
            simp [insertPair]
          · simp [Tree.inorder]

end OmrCompiler.Hedge
