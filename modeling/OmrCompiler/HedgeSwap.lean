import OmrCompiler.HedgeInsert

/-! A node with two subtrees changes places with the rightmost node of its left
subtree: the tree keeps its shape, and the two nodes keep their keys. -/
namespace OmrCompiler.Hedge

-- The nodes of the tree under other addresses, each with the key it has in memory.
def Tree.rename (change : Nat → Nat) (key : Nat → Int) : Tree → Tree
  | .nil => .nil
  | .node a _ l ls r rs => .node (change a) (key (change a)) (l.rename change key) ls (r.rename change key) rs

def exchange (a b x : Nat) : Nat := if x = a then b else if x = b then a else x

section
variable {change : Nat → Nat} {key : Nat → Int} {t : Tree} {m m' : Memory} {p : Option Nat}

theorem ptrRename : (t.rename change key).ptr = t.ptr.map change := by cases t <;> rfl

theorem sibRename {d : Side} : (t.rename change key).sib d = t.sib d := by cases t <;> rfl

theorem inorderRename :
    (t.rename change key).inorder = t.inorder.map fun x => (change x.1,key (change x.1)) := by
  induction t with
  | nil => rfl
  | node a k l ls r rs ihl ihr => simp [Tree.rename,Tree.inorder,ihl,ihr]

theorem heightRename : (t.rename change key).height = t.height := by
  induction t with
  | nil => rfl
  | node a k l ls r rs ihl ihr => simp [Tree.rename,Tree.height,ihl,ihr]

theorem balancedRename {n : Nat} : (t.rename change key).Balanced n ↔ t.Balanced n := by
  induction t generalizing n with
  | nil => rfl
  | node a k l ls r rs ihl ihr => simp [Tree.rename,Tree.Balanced,Tree.Plain,sibRename,ihl,ihr]

theorem Rep.keyed (rep : Rep m p t) : ∀ x ∈ t.inorder, m.key x.1 = x.2 := by
  induction t generalizing p with
  | nil => simp [Tree.inorder]
  | node a k l ls r rs ihl ihr =>
    obtain ⟨⟨keyed,-⟩,left,right⟩ := rep
    intro x on
    rcases List.mem_append.mp on with below | on
    · exact ihl left x below
    · rcases List.mem_cons.mp on with rfl | above
      · exact keyed
      · exact ihr right x above

theorem Rep.rename (rep : Rep m p t) (keys : m'.key = m.key)
    (links : ∀ x ∈ t.addrs, (∀ e, m'.child e (change x) = (m.child e x).map change) ∧
      (∀ e, m'.sibling e (change x) = m.sibling e x) ∧ m'.parent (change x) = (m.parent x).map change) :
    Rep m' (p.map change) (t.rename change m.key) := by
  induction t generalizing p with
  | nil => trivial
  | node a k l ls r rs ihl ihr =>
    obtain ⟨⟨-,left,right,sibLeft,sibRight,parent⟩,repL,repR⟩ := rep
    obtain ⟨child,sibling,above⟩ := links a (by simp)
    refine ⟨⟨by rw [keys],?_,?_,?_,?_,?_⟩,?_,?_⟩
    · rw [child,left,ptrRename]
    · rw [child,right,ptrRename]
    · rw [sibling,sibLeft]
    · rw [sibling,sibRight]
    · rw [above,parent]
    · exact ihl repL fun x on => links x (by simp [on])
    · exact ihr repR fun x on => links x (by simp [on])

theorem Rep.parent {y : Nat} (rep : Rep m p t) (top : t.ptr = some y) : m.parent y = p := by
  cases t with
  | nil => cases top
  | node a k l ls r rs =>
    cases top
    exact rep.1.2.2.2.2.2

-- The links of a tree in memory.
theorem Rep.links (rep : Rep m p t) (distinct : t.addrs.Nodup) : ∀ x ∈ t.addrs,
    (∀ e y, m.child e x = some y → y ∈ t.addrs ∧ m.parent y = some x ∧ t.ptr ≠ some y) ∧
    (∀ y, m.child .left x = some y → m.child .right x = some y → False) := by
  induction t generalizing p with
  | nil => simp
  | node a k l ls r rs ihl ihr =>
    obtain ⟨⟨-,left,right,-⟩,repL,repR⟩ := rep
    have apart := joinApart (d := .left) distinct
    simp only [Tree.addrsNode,List.nodup_append,List.nodup_cons] at distinct
    have linksL := ihl repL distinct.1
    have linksR := ihr repR distinct.2.1.2
    have topL := fun y => @Rep.parent l m (some a) y repL
    have topR := fun y => @Rep.parent r m (some a) y repR
    clear distinct ihl ihr
    intro x on
    rw [Tree.addrsNode,List.mem_append,List.mem_cons] at on
    simp only [Tree.addrsNode,List.mem_append,List.mem_cons,Tree.ptrNode]
    rcases on with onL | rfl | onR
    · have here := linksL x onL
      grind
    · refine ⟨fun e y linked => ?_,fun y linkedL linkedR => ?_⟩
      · cases e <;> grind
      · grind
    · have here := linksR x onR
      grind

theorem memRename {a b : Nat} (onA : a ∈ t.addrs) (onB : b ∈ t.addrs) {x : Nat}
    (on : x ∈ (t.rename (exchange a b) key).addrs) : x ∈ t.addrs := by
  simp only [Tree.addrs,inorderRename,List.map_map,List.mem_map] at on
  obtain ⟨y,onY,rfl⟩ := on
  have here : y.1 ∈ t.addrs := List.mem_map_of_mem onY
  simp only [Function.comp,exchange]
  split
  · exact onB
  · split
    · exact onA
    · exact here

theorem nodupRename {a b : Nat} (distinct : t.addrs.Nodup) : (t.rename (exchange a b) key).addrs.Nodup := by
  have same : (t.rename (exchange a b) key).addrs = t.addrs.map (exchange a b) := by
    simp [Tree.addrs,inorderRename]
  rw [same]
  refine distinct.map fun x y equal => ?_
  simp only [exchange] at equal
  grind

-- Every node but the root hangs on a link of another node.
theorem Rep.hangs (rep : Rep m p t) : ∀ x ∈ t.addrs, t.ptr ≠ some x →
    ∃ q e, q ∈ t.addrs ∧ m.child e q = some x ∧ m.parent x = some q := by
  induction t generalizing p with
  | nil => simp
  | node a k l ls r rs ihl ihr =>
    obtain ⟨⟨-,left,right,-⟩,repL,repR⟩ := rep
    intro x on other
    rw [Tree.addrsNode,List.mem_append,List.mem_cons] at on
    rcases on with onL | rfl | onR
    · by_cases top : l.ptr = some x
      · exact ⟨a,.left,by simp,by rw [left,top],repL.parent top⟩
      · obtain ⟨q,e,onQ,linked,parent⟩ := ihl repL x onL top
        exact ⟨q,e,by simp [onQ],linked,parent⟩
    · exact absurd rfl other
    · by_cases top : r.ptr = some x
      · exact ⟨a,.right,by simp,by rw [right,top],repR.parent top⟩
      · obtain ⟨q,e,onQ,linked,parent⟩ := ihr repR x onR top
        exact ⟨q,e,by simp [onQ],linked,parent⟩

end

section
variable {t : Tree} {m : Memory} {p : Option Nat} {slot : Slot} {swap node owner : Nat} {e : Side}

-- What the two nodes and the slots have to do with the tree.
structure Exchanged (t : Tree) (p : Option Nat) (slot : Slot) (swap node owner : Nat) (e : Side) (m : Memory) : Prop where
  rep : Rep m p t
  distinct : t.addrs.Nodup
  outside : Outside slot t
  above : ∀ q, p = some q → q ∉ t.addrs
  top : t.ptr = some swap
  onNode : node ∈ t.addrs
  onOwner : owner ∈ t.addrs
  link : m.child e owner = some node
  place : owner = swap ↔ e = .left
  last : m.child .right node = none

theorem Exchanged.links (ex : Exchanged t p slot swap node owner e m) :
    (∀ x ∈ t.addrs, ∀ f, (m.child f x).map (exchange swap node) = if x = owner ∧ f = e then some swap else m.child f x) ∧
    m.parent node = some owner ∧ m.parent swap = p ∧ node ≠ swap ∧ owner ≠ node ∧
    (∀ x ∈ t.addrs, x ≠ swap → ∃ q f, q ∈ t.addrs ∧ m.child f q = some x ∧ m.parent x = some q) ∧
    (∀ x ∈ t.addrs, ∀ f y, m.child f x = some y → m.parent y = some x ∧ y ≠ swap ∧ y ∈ t.addrs) := by
  obtain ⟨rep,distinct,outside,above,top,onNode,onOwner,link,place,last⟩ := ex
  have links := rep.links distinct
  have hangs := rep.hangs
  have onward : ∀ x ∈ t.addrs, ∀ f y, m.child f x = some y → m.parent y = some x ∧ y ≠ swap ∧ y ∈ t.addrs := by
    intro x on f y linked
    obtain ⟨onY,parent,other⟩ := (links x on).1 f y linked
    exact ⟨parent,fun same => other (same ▸ top),onY⟩
  have parent := onward owner onOwner e node link
  refine ⟨fun x on f => ?_,parent.1,rep.parent top,parent.2.1,?_,fun x on other => ?_,onward⟩
  · cases linked : m.child f x with
    | none =>
      have : ¬(x = owner ∧ f = e) := by
        rintro ⟨rfl,rfl⟩
        simp [link] at linked
      simp [this]
    | some y =>
      have here := onward x on f y linked
      have double := (links x on).2
      simp only [Option.map_some,exchange,if_neg here.2.1]
      by_cases same : y = node
      · have both : x = owner ∧ f = e := by
          subst same
          have atOwner : x = owner := by simpa [here.1] using parent.1
          subst atOwner
          cases f <;> cases e <;> grind
        rw [if_pos same,if_pos both]
      · have neither : ¬(x = owner ∧ f = e) := by
          rintro ⟨rfl,rfl⟩
          exact same (by simpa [linked] using link)
        rw [if_neg same,if_neg neither]
  · rintro rfl
    cases e with
    | left => exact parent.2.1 (place.mpr rfl)
    | right => simp [last] at link
  · exact hangs x on fun same => other (by simpa [top] using same.symm)

theorem swapNodesChild (x : Nat) (f : Side) :
    (swapNodes (.link e owner) slot node swap m).child f x =
      if slot = .link f x then some node
      else if m.child .left swap = some node then
        if x = node then if f = .left then some swap else m.child .right swap
        else if x = swap then m.child f node else m.child f x
      else if x = owner ∧ f = e then some swap
      else if x = node then m.child f swap
      else if x = swap then m.child f node else m.child f x := by
  by_cases direct : m.child .left swap = some node
  · simp only [swapNodes]
    rw [if_pos (by simp [direct])]
    cases f <;> simp [direct]
  · simp only [swapNodes]
    rw [if_neg (by simp [Ne.symm direct])]
    cases f <;> simp [direct] <;> grind

theorem swapNodesSibling (x : Nat) (f : Side) : (swapNodes (.link e owner) slot node swap m).sibling f x =
    if x = swap then m.sibling f node else if x = node then m.sibling f swap else m.sibling f x := by
  simp only [swapNodes]
  split <;> cases f <;> simp

theorem swapNodesParent (ex : Exchanged t p slot swap node owner e m) (x : Nat) :
    (swapNodes (.link e owner) slot node swap m).parent x =
      if x = node then p
      else if x = swap then if owner = swap then some node else some owner
      else if m.child .left swap = some x ∨ m.child .right swap = some x then some node
      else if m.child .left node = some x then some swap
      else m.parent x := by
  obtain ⟨-,upNode,upSwap,other,apart,-,onward⟩ := ex.links
  have onSwap := Tree.ptrMem ex.top
  have downSwap := onward swap onSwap
  have downNode := onward node ex.onNode
  have downOwner := onward owner ex.onOwner e node ex.link
  have last := ex.last
  have place := ex.place
  have link := ex.link
  clear onward
  by_cases direct : m.child .left swap = some node
  · simp only [swapNodes]
    rw [if_pos (by simp [direct])]
    simp [last]
    grind
  · simp only [swapNodes]
    rw [if_neg (by simp [Ne.symm direct])]
    simp [last]
    grind

theorem swapNodesTurned (ex : Exchanged t p slot swap node owner e m) :
    Turned slot p t (t.rename (exchange swap node) m.key) m (swapNodes (.link e owner) slot node swap m) := by
  obtain ⟨mapped,upNode,upSwap,other,apart,hangs,onward⟩ := ex.links
  have onSwap := Tree.ptrMem ex.top
  have last := ex.last
  have place := ex.place
  have link := ex.link
  have onNode := ex.onNode
  have onOwner := ex.onOwner
  have direct : m.child .left swap = some node ↔ owner = swap := by
    constructor
    · intro linked
      have up := (onward swap onSwap .left node linked).1
      simpa [upNode] using up
    · intro same
      rw [← place.mp same,← same,link]
  have off : ∀ x ∈ t.addrs, ∀ f, slot ≠ .link f x := fun x on f same => ex.outside f x same on
  have fixed : p.map (exchange swap node) = p := by
    cases p with
    | none => rfl
    | some q =>
      have out := ex.above q rfl
      simp only [Option.map_some,exchange]
      grind
  have renamed : Rep (swapNodes (.link e owner) slot node swap m) (p.map (exchange swap node))
      (t.rename (exchange swap node) m.key) := by
    refine ex.rep.rename ?_ fun x on => ⟨fun f => ?_,fun f => ?_,?_⟩
    · simp only [swapNodes]
      split <;> simp
    · rw [mapped x on f,swapNodesChild]
      clear mapped hangs onward fixed
      by_cases atSwap : x = swap
      · subst atSwap
        have off' := off node onNode f
        cases f <;> simp only [exchange] <;> grind
      · by_cases atNode : x = node
        · subst atNode
          have off' := off swap onSwap f
          cases f <;> simp only [exchange] <;> grind
        · have off' := off x on f
          simp only [exchange,if_neg atSwap,if_neg atNode]
          grind
    · rw [swapNodesSibling]
      simp only [exchange]
      grind
    · rw [swapNodesParent ex]
      by_cases atSwap : x = swap
      · simp [atSwap,exchange,upSwap,fixed]
      · by_cases atNode : x = node
        · simp [atNode,exchange,upNode,other,Ne.symm other]
          grind
        · obtain ⟨q,f,onQ,linked,up⟩ := hangs x on atSwap
          have downSwap := fun f => onward swap onSwap f x
          have downNode := fun f => onward node onNode f x
          clear mapped hangs onward fixed
          simp only [exchange,if_neg atSwap,if_neg atNode,up,Option.map_some]
          cases f <;> grind
  refine ⟨fixed ▸ renamed,fun x out _ => ⟨?_,fun f => ?_,fun f => ?_,?_⟩,?_⟩
  · simp only [swapNodes]
    split <;> simp
  · have top : (t.rename (exchange swap node) m.key).ptr = some node := by simp [ptrRename,ex.top,exchange]
    rw [swapNodesChild,top]
    grind
  · rw [swapNodesSibling]
    grind
  · rw [swapNodesParent ex]
    grind
  · have top : (t.rename (exchange swap node) m.key).ptr = some node := by simp [ptrRename,ex.top,exchange]
    rw [top]
    simp only [swapNodes]
    split <;> simp

end

-- The search finds the last node of the subtree, on its link.
theorem swapRightmostRun {fuel : Nat} {t : Tree} {m : Memory} {d : Side} {a : Nat} {slot : Slot} (rep : Rep m (some a) t)
    (here : m.child d a = t.ptr) (some : t ≠ .nil) (enough : t.height ≤ fuel) :
    ∃ node k e owner before, t.inorder = before ++ [(node,k)] ∧ m.child .right node = none ∧ m.child e owner = .some node ∧
      (e = d ∧ owner = a ∨ e = .right ∧ owner ∈ t.addrs) ∧
      swapRightmost fuel (.link d a) slot m =
        (read slot m).map fun swap => swapNodes (.link e owner) slot node swap m := by
  induction fuel generalizing t d a with
  | zero =>
    cases t with
    | nil => exact absurd rfl some
    | node b k l ls r rs => simp [Tree.height] at enough
  | succ fuel ih =>
    cases t with
    | nil => exact absurd rfl some
    | node b k l ls r rs =>
      obtain ⟨⟨-,-,right,-⟩,-,repR⟩ := rep
      cases r with
      | nil =>
        refine ⟨b,k,d,a,l.inorder,rfl,right,here,.inl ⟨rfl,rfl⟩,?_⟩
        have top : read (.link d a) m = .some b := here
        have empty : m.child .right b = none := right
        cases target : read slot m <;> simp [swapRightmost,top,empty,target]
      | node c j rl rls rr rrs =>
        have lower : (Tree.node c j rl rls rr rrs).height ≤ fuel := by
          simp only [Tree.height] at enough ⊢
          omega
        obtain ⟨node,k',e,owner,before,last,empty,link,place,run⟩ := ih repR right (by simp) lower
        refine ⟨node,k',e,owner,l.inorder ++ (b,k)::before,?_,empty,link,.inr ?_,?_⟩
        · rw [Tree.inorder,last]
          simp
        · rcases place with ⟨rfl,rfl⟩ | ⟨rfl,on⟩
          · simp
          · exact ⟨rfl,by rw [Tree.addrsNode,List.mem_append,List.mem_cons]; exact .inr (.inr on)⟩
        · have top : read (.link d a) m = .some b := here
          rw [← run]
          simp [swapRightmost,top,right]

end OmrCompiler.Hedge
