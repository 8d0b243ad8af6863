import OmrCompiler.HedgeSwap

/-! Removal from a hedge tree: the step that rebalances a node one of whose
subtrees has become shorter, and the search from any slot. -/
namespace OmrCompiler.Hedge

-- The subtree t of level n and the rebalance value: 1 has made it a level shorter.
inductive Shrunk (n : Nat) (t t' : Tree) : Nat → Prop where
  | kept (balanced : t'.Balanced n) (plain : t.Plain → t'.Plain) : Shrunk n t t' 0
  | lowered (m : Nat) (level : n = m + 1) (balanced : t'.Balanced m) : Shrunk n t t' 1

section
variable {d : Side} {m m' : Memory} {p : Option Nat} {slot : Slot} {t t' near near' far : Tree} {a : Nat} {k : Int}
  {ns fs s : Bool} {n level reb : Nat}

theorem joinOther : Tree.join d.other a k far fs near ns = .join d a k near ns far fs := by cases d <;> rfl

-- The far subtree is a sibling: it is taken apart so that the node gets its level back.
theorem raiseSibling (rep : Rep m p (.join d a k near' false far true))
    (distinct : (Tree.join d a k near' false far true).addrs.Nodup)
    (outside : Outside slot (.join d a k near' false far true)) (shorter : near'.Balanced level)
    (linkedFar : far.Linked true (level + 1)) :
    ∃ m' t', rebalanceRemove d slot a m = some (0,m') ∧ Turned slot p (.join d a k near' false far true) t' m m' ∧
      t'.Balanced (level + 2) ∧ t'.inorder = (Tree.join d a k near' false far true).inorder := by
  obtain ⟨levelFar,plainFar⟩ := linkedFar
  obtain ⟨b,j,x,s₁,z,s₂,rfl,linkedX,linkedZ⟩ := Tree.balancedNode d levelFar
  obtain ⟨rfl,rfl⟩ := Tree.plainJoin.mp plainFar
  obtain ⟨c,i,u,s₃,v,s₄,rfl,linkedU,linkedV⟩ := Tree.balancedNode d (Tree.linkedFalse.mp linkedX)
  have cells := rep
  simp only [repJoin,Tree.ptrJoin] at cells
  obtain ⟨cellA,-,cellB,⟨cellC,repU,repV⟩,-⟩ := cells
  cases s₄ with
  | true =>
    refine ⟨_,_,?_,raiseInnerTurned rep distinct outside,?_,?_⟩
    · simp [rebalanceRemove,cellA,cellB,cellC]
    · exact Tree.balancedSucc.mpr ⟨Tree.balancedSucc.mpr ⟨shorter,linkedU⟩,
        Tree.balancedSucc.mpr ⟨linkedV.1,linkedZ⟩,Tree.plainJoin.mpr ⟨rfl,rfl⟩⟩
    · cases d <;> simp [Tree.join,Tree.inorder]
  | false =>
    cases s₃ with
    | true =>
      obtain ⟨levelU,plainU⟩ := linkedU
      obtain ⟨f,l,w,s₅,y,s₆,rfl,linkedW,linkedY⟩ := Tree.balancedNode d levelU
      obtain ⟨rfl,rfl⟩ := Tree.plainJoin.mp plainU
      refine ⟨_,_,?_,raiseInnermostTurned rep distinct outside,?_,?_⟩
      · simp [rebalanceRemove,cellA,cellB,cellC]
      · exact Tree.balancedSucc.mpr ⟨Tree.balancedSucc.mpr ⟨shorter,linkedW⟩,
          Tree.balancedSucc.mpr ⟨Tree.balancedSucc.mpr ⟨linkedY,linkedV⟩,linkedZ⟩,Tree.plainJoin.mpr ⟨rfl,rfl⟩⟩
      · cases d <;> simp [Tree.join,Tree.inorder]
    | false =>
      refine ⟨_,_,?_,raiseFarTurned rep distinct outside,?_,?_⟩
      · simp [rebalanceRemove,cellA,cellB,cellC]
      · exact Tree.balancedSucc.mpr ⟨Tree.balancedSucc.mpr ⟨⟨Tree.balancedSucc.mpr ⟨shorter,linkedU⟩,
          Tree.plainJoin.mpr ⟨rfl,rfl⟩⟩,linkedV⟩,linkedZ⟩
      · cases d <;> simp [Tree.join,Tree.inorder]

-- The far subtree is a child: it is lifted, or becomes a sibling and the node shorter.
theorem raiseChild (rep : Rep m p (.join d a k near' false far false)) (here : read slot m = some a)
    (distinct : (Tree.join d a k near' false far false).addrs.Nodup)
    (outside : Outside slot (.join d a k near' false far false)) (shorter : near'.Balanced level)
    (linkedFar : far.Linked false (level + 1)) :
    ∃ reb' m' t', rebalanceRemove d slot a m = some (reb',m') ∧ Turned slot p (.join d a k near' false far false) t' m m' ∧
      (reb' = 0 ∧ t'.Balanced (level + 2) ∧ t'.Plain ∨ reb' = 1 ∧ t'.Balanced (level + 1)) ∧
      t'.inorder = (Tree.join d a k near' false far false).inorder := by
  obtain ⟨b,j,y,s₁,z,s₂,rfl,linkedY,linkedZ⟩ := Tree.balancedNode d (Tree.linkedFalse.mp linkedFar)
  have cells := rep
  simp only [repJoin,Tree.ptrJoin] at cells
  obtain ⟨cellA,-,cellB,-,-⟩ := cells
  cases s₁ with
  | true =>
    obtain ⟨levelY,plainY⟩ := linkedY
    obtain ⟨c,i,u,s₃,v,s₄,rfl,linkedU,linkedV⟩ := Tree.balancedNode d levelY
    obtain ⟨rfl,rfl⟩ := Tree.plainJoin.mp plainY
    refine ⟨0,_,_,?_,raiseInnerTurned rep distinct outside,.inl ⟨rfl,?_,?_⟩,?_⟩
    · simp [rebalanceRemove,cellA,cellB]
    · exact Tree.balancedSucc.mpr ⟨Tree.balancedSucc.mpr ⟨shorter,linkedU⟩,Tree.balancedSucc.mpr ⟨linkedV,linkedZ⟩⟩
    · exact Tree.plainJoin.mpr ⟨rfl,rfl⟩
    · cases d <;> simp [Tree.join,Tree.inorder]
  | false =>
    cases s₂ with
    | true =>
      refine ⟨1,_,_,?_,raiseLevelTurned rep distinct outside,.inr ⟨rfl,?_⟩,?_⟩
      · simp [rebalanceRemove,cellA,cellB]
      · exact Tree.balancedSucc.mpr ⟨⟨Tree.balancedSucc.mpr ⟨shorter,linkedY⟩,Tree.plainJoin.mpr ⟨rfl,rfl⟩⟩,linkedZ⟩
      · cases d <;> simp [Tree.join,Tree.inorder]
    | false =>
      have turned := siblingTurned (d := d.other) (s := true) (by rw [joinOther]; exact rep) here
        (by rw [joinOther]; exact distinct)
      rw [joinOther,joinOther] at turned
      refine ⟨1,_,_,?_,turned,.inr ⟨rfl,?_⟩,Tree.inorderJoin rfl rfl⟩
      · simp [rebalanceRemove,cellA,cellB]
      · exact Tree.balancedSucc.mpr ⟨shorter,Tree.balancedSucc.mpr ⟨linkedY,linkedZ⟩,Tree.plainJoin.mpr ⟨rfl,rfl⟩⟩

theorem rebalanceRemoveTurned (rep : Rep m p (.join d a k near' ns far fs)) (here : read slot m = some a)
    (distinct : (Tree.join d a k near' ns far fs).addrs.Nodup) (outside : Outside slot (.join d a k near' ns far fs))
    (linkedFar : far.Linked fs n) (shorter : near'.Balanced level) (was : (if ns then n + 1 else n) = level + 1) :
    ∃ reb' m' t', rebalanceRemove d slot a m = some (reb',m') ∧ Turned slot p (.join d a k near' ns far fs) t' m m' ∧
      Shrunk (n + 1) (.join d a k near ns far fs) t' reb' ∧ t'.inorder = (Tree.join d a k near' ns far fs).inorder := by
  cases ns with
  | true =>
    obtain rfl : n = level := by simpa using was
    have flag : m.sibling d a = true := (repJoin.mp rep).1.2.2.2.1
    refine ⟨0,_,_,?_,siblingTurned (s := false) rep here distinct,.kept ?_ ?_,Tree.inorderJoin rfl rfl⟩
    · simp [rebalanceRemove,flag]
    · exact Tree.balancedSucc.mpr ⟨shorter,linkedFar⟩
    · intro before
      cases (Tree.plainJoin.mp before).1
  | false =>
    obtain rfl : n = level + 1 := by simpa using was
    cases fs with
    | true =>
      obtain ⟨m',t',run,turned,balanced,order⟩ := raiseSibling rep distinct outside shorter linkedFar
      refine ⟨0,m',t',run,turned,.kept balanced fun before => ?_,order⟩
      cases (Tree.plainJoin.mp before).2
    | false =>
      obtain ⟨reb',m',t',run,turned,⟨rfl,balanced,plain⟩ | ⟨rfl,balanced⟩,order⟩ :=
        raiseChild rep here distinct outside shorter linkedFar
      · exact ⟨0,m',t',run,turned,.kept balanced fun _ => plain,order⟩
      · exact ⟨1,m',t',run,turned,.lowered _ rfl balanced,order⟩

end

-- What a removal of the key does at a slot that holds t.
structure Removed (key : Int) (slot : Slot) (p : Option Nat) (n : Nat) (t t' : Tree) (m : Memory)
    (out : Option Nat × Nat × Memory) : Prop where
  turned : Turned slot p t t' m out.2.2
  shrunk : Shrunk n t t' out.2.1
  order : t'.inorder = t.inorder.filter (·.2 ≠ key)
  found : ∀ b, out.1 = some b ↔ (b,key) ∈ t.inorder

section
variable {d : Side} {m : Memory} {p : Option Nat} {slot : Slot} {near near' far : Tree} {a : Nat} {k key : Int}
  {ns fs : Bool} {n : Nat}

theorem sublistJoin (shorter : near'.inorder.Sublist near.inorder) :
    (Tree.join d a k near' ns far fs).addrs.Sublist (Tree.join d a k near ns far fs).addrs := by
  refine List.Sublist.map _ ?_
  cases d with
  | left => exact shorter.append_right _
  | right => exact (shorter.cons_cons _).append_left _

theorem removeBelowTurned {search : Removal} (held : Held slot p (n + 1) (.join d a k near ns far fs) m)
    (searched : ∃ out near', search (.link d a) m = some out ∧
      Removed key (.link d a) (some a) (if ns then n + 1 else n) near near' m out) :
    ∃ out near' t', removeBelow search d slot m = some out ∧
      Turned slot p (.join d a k near ns far fs) t' m out.2.2 ∧
      Shrunk (n + 1) (.join d a k near ns far fs) t' out.2.1 ∧
      near'.inorder = near.inorder.filter (·.2 ≠ key) ∧ t'.inorder = (Tree.join d a k near' ns far fs).inorder ∧
      ∀ b, out.1 = some b ↔ (b,key) ∈ near.inorder := by
  obtain ⟨rep,here,distinct,balanced,outside⟩ := held
  obtain ⟨⟨result,reb,m₁⟩,near',run,turned,shrunk,order,found⟩ := searched
  have linked := Tree.balancedSucc.mp balanced
  have sublist : (Tree.join d a k near' ns far fs).addrs.Sublist (Tree.join d a k near ns far fs).addrs :=
    sublistJoin (order ▸ List.filter_sublist)
  have distinct' := distinct.sublist sublist
  have outside' : Outside slot (.join d a k near' ns far fs) := fun e x same on =>
    outside e x same (sublist.subset on)
  have under := Turned.below rep (by rw [here,Tree.ptrJoin]) distinct distinct' turned
  have here₁ : read slot m₁ = some a := (under.here outside outside').trans Tree.ptrJoin
  rw [Tree.ptrJoin] at here
  cases shrunk with
  | kept level plain =>
    refine ⟨(result,0,m₁),near',_,?_,under,.kept ?_ ?_,order,rfl,found⟩
    · simp [removeBelow,here,run]
    · refine Tree.balancedSucc.mpr ⟨?_,linked.2⟩
      cases ns with
      | true => exact ⟨level,plain linked.1.2⟩
      | false => exact level
    · rw [Tree.plainJoin,Tree.plainJoin]
      exact id
  | lowered level was shorter =>
    obtain ⟨reb',m₂,t',step,turned',shrunk',order'⟩ :=
      @rebalanceRemoveTurned d m₁ p slot near near' far a k ns fs n level under.rep here₁ distinct' outside' linked.2 shorter was
    refine ⟨(result,reb',m₂),near',t',?_,under.trans turned' ?_,shrunk',order,order',found⟩
    · simp [removeBelow,here,run,step]
    · intro x on
      rw [sameAddrs order']
      exact .inr on

-- A node with one subtree gives way to it.
theorem promoteTurned (held : Held slot p n (.join d a k near ns .nil fs) m) :
    Turned slot p (.join d a k near ns .nil fs) near m (promote d slot a m) := by
  obtain ⟨rep,here,distinct,balanced,outside⟩ := held
  have apart := joinApart distinct
  have distinctNear := (List.nodup_append.mp (Tree.addrsPerm.nodup_iff.mp distinct)).1
  have kept := (Turned.refl rep here).frame
  obtain ⟨⟨-,link,-,-,-,parent⟩,repNear,-⟩ := repJoin.mp rep
  simp only [Outside,Tree.addrsJoin] at outside
  clear distinct balanced rep
  constructor
  · refine repNear.moved distinctNear fun x on => ?_
    cases near with
    | nil => simp at on
    | node b j l ls r rs =>
      simp only [promote,link,Tree.ptrNode,parent,SameNode]
      simp
      grind
  · refine ⟨fun x out out' => ?_,?_⟩
    · have same := kept.other x out out
      cases near with
      | nil =>
        simp [promote,link,Tree.ptr]
      | node b j l ls r rs =>
        have other : x ≠ b := fun there => out' (by simp [there])
        simp [promote,link,Tree.ptr,other]
    · simp only [promote,writeRoot,link]
      split
      · rfl
      · split <;> rfl

theorem filterJoin (order : near'.inorder = near.inorder.filter (·.2 ≠ key)) (other : k ≠ key)
    (absent : ∀ x ∈ far.inorder, x.2 ≠ key) :
    (Tree.join d a k near' ns far fs).inorder = (Tree.join d a k near ns far fs).inorder.filter (·.2 ≠ key) := by
  have all : far.inorder.filter (·.2 ≠ key) = far.inorder := List.filter_eq_self.mpr fun x on => by simp [absent x on]
  have stays : decide ((a,k).2 ≠ key) = true := by simpa using other
  cases d <;> simp only [Tree.join,Tree.inorder,List.filter_append,List.filter_cons,order,all,if_pos stays]

theorem Shrunk.plain {t t₁ t' : Tree} {reb : Nat} (shrunk : Shrunk n t₁ t' reb) (plain : t.Plain → t₁.Plain) :
    Shrunk n t t' reb := by
  cases shrunk with
  | kept balanced kept => exact .kept balanced fun before => kept (plain before)
  | lowered level was balanced => exact .lowered level was balanced

theorem orderedSides {l r : Tree} {ls rs : Bool} (ordered : (Tree.node a k l ls r rs).Ordered) :
    (∀ x ∈ l.inorder, x.2 < k) ∧ (∀ x ∈ r.inorder, k < x.2) := by
  simp only [Tree.Ordered,Tree.keysNode,List.pairwise_append,List.pairwise_cons] at ordered
  refine ⟨fun x on => ordered.2.2 x.2 (List.mem_map_of_mem on) k (by simp),fun x on => ?_⟩
  exact ordered.2.1.1 x.2 (List.mem_map_of_mem on)

theorem promoteRemoved (held : Held slot p n (.join d a k near ns .nil fs) m) (absent : ∀ x ∈ near.inorder, x.2 ≠ k) :
    Removed k slot p n (.join d a k near ns .nil fs) near m
      (some a,if ns then 0 else 1,promote d slot a m) := by
  obtain ⟨level,rfl,linked,empty⟩ := Tree.balancedJoin.mp held.balanced
  refine ⟨promoteTurned held,?_,?_,?_⟩
  · obtain rfl : level = 0 := by
      cases fs with
      | true => cases empty.1
      | false => exact empty
    cases ns with
    | true => exact .kept linked.1 fun before => by cases (Tree.plainJoin.mp before).1
    | false => exact .lowered 0 rfl linked
  · have all : near.inorder.filter (·.2 ≠ k) = near.inorder := List.filter_eq_self.mpr fun x on => by simp [absent x on]
    have leaves : ¬decide ((a,k).2 ≠ k) = true := by simp
    cases d <;> simp only [Tree.join,Tree.inorder,List.filter_append,List.filter_cons,all,if_neg leaves] <;> simp
  · intro b
    have out : (b,k) ∉ near.inorder := fun on => absent _ on rfl
    cases d <;> simp [Tree.join,Tree.inorder,out,eq_comm]

-- The rightmost node of the left subtree takes the node's place, and the node is removed below it.
theorem removeSwapped {search : Removal} {fuel : Nat} {l r : Tree} {ls rs : Bool}
    (held : Held slot p (n + 1) (.node a k l ls r rs) m) (ordered : (Tree.node a k l ls r rs).Ordered)
    (above : ∀ q, p = some q → q ∉ (Tree.node a k l ls r rs).addrs) (nonempty : l ≠ .nil) (enough : l.height ≤ fuel)
    (searched : ∀ {x level t m'}, Held (.link .left x) (some x) level t m' → t.Ordered → x ∉ t.addrs →
      t.height = l.height → ∃ out t', search (.link .left x) m' = some out ∧
        Removed k (.link .left x) (some x) level t t' m' out) :
    ∃ out t', (do
        let m' ← swapRightmost fuel (.link .left a) slot m
        removeBelow search .left slot m') = some out ∧
      Removed k slot p (n + 1) (.node a k l ls r rs) t' m out := by
  obtain ⟨rep,here,distinct,balanced,outside⟩ := held
  obtain ⟨⟨keyed,left,right,-⟩,repL,repR⟩ := id rep
  obtain ⟨low,high⟩ := orderedSides ordered
  have apart := joinApart (d := .left) distinct
  obtain ⟨node,k',e,owner,before,last,empty,link,place,run⟩ := @swapRightmostRun fuel l m .left a slot repL left nonempty enough
  have onL : node ∈ l.addrs := by simp [Tree.addrs,last]
  have ex : Exchanged (.node a k l ls r rs) p slot a node owner e m := by
    refine ⟨rep,distinct,outside,above,rfl,?_,?_,link,?_,empty⟩
    · simp [onL]
    · rcases place with ⟨-,rfl⟩ | ⟨-,on⟩ <;> simp [*]
    · rcases place with ⟨rfl,rfl⟩ | ⟨rfl,on⟩
      · simp
      · have other : owner ≠ a := fun same => apart.1 (same ▸ on)
        simp [other]
  have turned := swapNodesTurned ex
  have distinctL : l.addrs.Nodup := (Held.below (d := .left) ⟨rep,here,distinct,balanced,outside⟩).distinct
  have keyedNode : m.key node = k' := repL.keyed (node,k') (by simp [last])
  have lowNode : k' < k := low (node,k') (by simp [last])
  have orderL : (l.rename (exchange a node) m.key).inorder = before ++ [(a,k)] := by
    have stays : ∀ x ∈ before, (exchange a node x.1,m.key (exchange a node x.1)) = x := by
      intro x on
      have onX : x.1 ∈ l.addrs := by
        rw [Tree.addrs,last]
        exact List.mem_map_of_mem (by simp [on])
      have notA : x.1 ≠ a := fun same => apart.1 (same ▸ onX)
      have notNode : x.1 ≠ node := by
        rw [Tree.addrs,last,List.map_append,List.nodup_append] at distinctL
        exact fun same => distinctL.2.2 x.1 (List.mem_map_of_mem on) node (by simp) same
      rw [exchange,if_neg notA,if_neg notNode,repL.keyed x (by simp [last,on])]
    have moved : exchange a node node = a := by
      have other : node ≠ a := fun same => apart.1 (same ▸ onL)
      simp [exchange,other]
    rw [inorderRename,last,List.map_append,List.map_cons,List.map_nil,moved,keyed]
    rw [List.map_congr_left stays,List.map_id']
  have orderR : (r.rename (exchange a node) m.key).inorder = r.inorder := by
    have stays : ∀ x ∈ r.inorder, (exchange a node x.1,m.key (exchange a node x.1)) = x := by
      intro x on
      have onX : x.1 ∈ r.addrs := List.mem_map_of_mem on
      have notA : x.1 ≠ a := fun same => apart.2.1 (same ▸ onX)
      have notNode : x.1 ≠ node := fun same => apart.2.2 node onL (same ▸ onX)
      rw [exchange,if_neg notA,if_neg notNode,repR.keyed x on]
    rw [inorderRename,List.map_congr_left stays,List.map_id']
  have shape : (Tree.node a k l ls r rs).rename (exchange a node) m.key =
      .node node k' (l.rename (exchange a node) m.key) ls (r.rename (exchange a node) m.key) rs := by
    simp [Tree.rename,exchange,keyedNode]
  have covered : ∀ x ∈ ((Tree.node a k l ls r rs).rename (exchange a node) m.key).addrs, x ∈ (Tree.node a k l ls r rs).addrs :=
    fun x on => memRename (by simp) (by simp [onL]) on
  have outside' : Outside slot ((Tree.node a k l ls r rs).rename (exchange a node) m.key) := fun f x same on =>
    outside f x same (covered x on)
  have held' : Held slot p (n + 1) ((Tree.node a k l ls r rs).rename (exchange a node) m.key)
      (swapNodes (.link e owner) slot node a m) :=
    ⟨turned.rep,turned.here outside outside',nodupRename distinct,balancedRename.mpr balanced,outside'⟩
  rw [shape] at held' covered turned
  have lowBefore : ∀ x ∈ before, x.2 < k := fun x on => low x (by simp [last,on])
  have ordered' : (l.rename (exchange a node) m.key).Ordered := by
    have orderedL : l.Ordered := orderedNear (d := .left) ordered
    rw [Tree.Ordered,Tree.keys,last,List.map_append,List.pairwise_append] at orderedL
    rw [Tree.Ordered,Tree.keys,orderL,List.map_append,List.pairwise_append]
    refine ⟨orderedL.1,by simp,fun i on j onJ => ?_⟩
    obtain ⟨x,onX,rfl⟩ := List.mem_map.mp on
    rw [show j = k by simpa using onJ]
    exact lowBefore x onX
  have search := searched (Held.below (d := .left) held') ordered' (joinApart (d := .left) held'.distinct).1 heightRename
  obtain ⟨out,near',t',below,turned',shrunk,order,join,found⟩ := removeBelowTurned (d := .left) held' search
  have rest : near'.inorder = before := by
    have all : before.filter (·.2 ≠ k) = before := List.filter_eq_self.mpr fun x on => by
      simpa using ne_of_lt (lowBefore x on)
    rw [order,orderL,List.filter_append,all]
    simp
  refine ⟨out,t',?_,turned.trans turned' fun x on => .inl (covered x on),shrunk.plain ?_,?_,fun b => ?_⟩
  · have top : read slot m = some a := here
    simp [run,top,below]
  · intro plain
    exact plain
  · have all : (l.inorder ++ r.inorder).filter (·.2 ≠ k) = l.inorder ++ r.inorder := by
      refine List.filter_eq_self.mpr fun x on => ?_
      rcases List.mem_append.mp on with onL | onR
      · simpa using ne_of_lt (low x onL)
      · simpa using ne_of_gt (high x onR)
    have dropped : (Tree.node a k l ls r rs).inorder.filter (·.2 ≠ k) = (l.inorder ++ r.inorder).filter (·.2 ≠ k) := by
      simp [Tree.inorder]
    rw [dropped,all,join,last]
    simp [Tree.join,Tree.inorder,rest,orderR]
  · have absentR : (b,k) ∉ r.inorder := fun on => lt_irrefl k (high _ on)
    have absentL : (b,k) ∉ l.inorder := fun on => lt_irrefl k (low _ on)
    have absentB : (b,k) ∉ before := fun on => lt_irrefl k (lowBefore _ on)
    rw [found,orderL]
    simp [Tree.inorder,absentR,absentL,absentB]

end

theorem removeAtRemoved (key : Int) {fuel : Nat} {t : Tree} {slot : Slot} {p : Option Nat} {n : Nat} {m : Memory}
    (held : Held slot p n t m) (ordered : t.Ordered) (above : ∀ q, p = some q → q ∉ t.addrs) (enough : t.height < fuel) :
    ∃ out t', removeAt key fuel slot m = some out ∧ Removed key slot p n t t' m out := by
  induction fuel generalizing t slot p n m with
  | zero => cases enough
  | succ fuel ih =>
    cases t with
    | nil =>
      have empty : read slot m = none := held.here
      refine ⟨(none,0,m),.nil,by simp [removeAt,empty],Turned.refl held.rep held.here,.kept held.balanced id,rfl,?_⟩
      simp [Tree.inorder]
    | node a k l ls r rs =>
      obtain ⟨level,rfl,-⟩ := held.balanced
      have top : read slot m = some a := held.here
      obtain ⟨⟨keyed,left,right,sibL,sibR,-⟩,repL,repR⟩ := held.rep
      obtain ⟨low,high⟩ := orderedSides ordered
      have lower : l.height < fuel ∧ r.height < fuel := by
        simp only [Tree.height] at enough
        omega
      have orderedL : l.Ordered := orderedNear (d := .left) ordered
      have orderedR : r.Ordered := orderedNear (d := .right) ordered
      have apart := joinApart (d := .left) held.distinct
      simp only [removeAt,top,keyed,left,right]
      by_cases same : key = k
      · subst same
        rw [if_pos rfl]
        by_cases noRight : r = .nil
        · subst noRight
          refine ⟨_,l,by simp [sibL],promoteRemoved (d := .left) held fun x on => ?_⟩
          exact ne_of_lt (low x on)
        · by_cases noLeft : l = .nil
          · subst noLeft
            refine ⟨_,r,by simp [noRight,sibR],promoteRemoved (d := .right) held fun x on => ?_⟩
            exact ne_of_gt (high x on)
          · rw [if_neg (by simpa using noRight),if_neg (by simpa using noLeft)]
            refine removeSwapped held ordered above noLeft (Nat.le_of_lt lower.1) fun held' ordered' fresh height => ?_
            exact ih held' ordered' (by simpa using fresh) (by omega)
      · rw [if_neg same]
        by_cases less : key < k
        · rw [if_pos less]
          have search := ih (Held.below (d := .left) held) orderedL (by simpa using apart.1) lower.1
          obtain ⟨out,near',t',run,turned,shrunk,order,join,found⟩ := removeBelowTurned (d := .left) held search
          refine ⟨out,t',run,turned,shrunk,?_,fun b => ?_⟩
          · rw [join]
            exact filterJoin order (Ne.symm same) fun x on => by have := high x on; omega
          · have absent : (b,key) ∉ r.inorder := fun on => by have := high _ on; simp at this; omega
            simp [found,Tree.inorder,same,absent]
        · rw [if_neg less]
          have search := ih (Held.below (d := .right) held) orderedR (by simpa using apart.2.1) lower.2
          obtain ⟨out,near',t',run,turned,shrunk,order,join,found⟩ := removeBelowTurned (d := .right) held search
          refine ⟨out,t',run,turned,shrunk,?_,fun b => ?_⟩
          · rw [join]
            exact filterJoin order (Ne.symm same) fun x on => by have := low x on; omega
          · have absent : (b,key) ∉ l.inorder := fun on => by have := low _ on; simp at this; omega
            simp [found,Tree.inorder,same,absent]

end OmrCompiler.Hedge
