import Mathlib.Data.Finset.Basic
import OmrCompiler.HedgeRemove

/-! Whole runs on a hedge tree that starts empty: the tree stays a balanced map,
and the iterator yields its keys. -/
namespace OmrCompiler.Hedge

inductive Operation where
  | findOrCreate (key : Int) (allocated : Nat)
  | insert (newNode : Nat) (key : Int)
  | remove (key : Int)
  deriving DecidableEq, Repr

-- The caller's node comes with its key.
def setKey (a : Nat) (key : Int) (m : Memory) : Memory := { m with key := fun x => if x = a then key else m.key x }

def Operation.run (fuel : Nat) (m : Memory) : Operation → Option Memory
  | .findOrCreate key allocated => (Hedge.findOrCreate fuel key allocated m).map Prod.snd
  | .insert newNode key => (Hedge.insert fuel newNode (setKey newNode key m)).map Prod.snd
  | .remove key => (Hedge.remove fuel key m).map Prod.snd

def runOperations (fuel : Nat) : List Operation → Memory → Option Memory
  | [],m => some m
  | op::ops,m => do
      let m ← op.run fuel m
      runOperations fuel ops m

-- The nodes and keys of the finite map.
def Operation.apply (pairs : List (Nat × Int)) : Operation → List (Nat × Int)
  | .findOrCreate key allocated => insertPair allocated key pairs
  | .insert newNode key => insertPair newNode key pairs
  | .remove key => pairs.filter (·.2 ≠ key)

def Operation.node : Operation → Option Nat
  | .findOrCreate _ allocated => some allocated
  | .insert newNode _ => some newNode
  | .remove _ => none

-- A node is allocated or handed over only while it is not in the tree.
def Allowed : List (Nat × Int) → List Operation → Prop
  | _,[] => True
  | pairs,op::ops => (∀ a, op.node = some a → a ∉ pairs.map Prod.fst) ∧ Allowed (op.apply pairs) ops

def Operation.keySet (keys : Finset Int) : Operation → Finset Int
  | .findOrCreate key _ => Insert.insert key keys
  | .insert _ key => Insert.insert key keys
  | .remove key => keys.erase key

-- The memory holds a hedge tree with these nodes.
structure Sound (m : Memory) (t : Tree) : Prop where
  root : m.root = t.ptr
  rep : Rep m none t
  distinct : t.addrs.Nodup
  ordered : t.Ordered
  balanced : ∃ n, t.Balanced n

section
variable {m : Memory} {p : Option Nat} {t : Tree} {fuel : Nat}

theorem heightLength : t.height ≤ t.inorder.length := by
  induction t with
  | nil => simp [Tree.height]
  | node a k l ls r rs ihl ihr =>
    simp only [Tree.height,Tree.inorder,List.length_append,List.length_cons]
    omega

theorem getLeftmostFirst {a : Nat} (rep : Rep m p t) (top : t.ptr = some a) (enough : t.height ≤ fuel) :
    ∃ b k rest, t.inorder = (b,k)::rest ∧ getLeftmost m fuel a = some b := by
  induction fuel generalizing t p a with
  | zero =>
    cases t with
    | nil => cases top
    | node b k l ls r rs => simp [Tree.height] at enough
  | succ fuel ih =>
    cases t with
    | nil => cases top
    | node b k l ls r rs =>
      cases top
      obtain ⟨⟨-,left,-⟩,repL,-⟩ := rep
      have lower : l.height ≤ fuel := by
        simp only [Tree.height] at enough
        omega
      cases below : l.ptr with
      | none =>
        have empty : l = .nil := Tree.ptrNone.mp below
        subst empty
        exact ⟨a,k,r.inorder,rfl,by simp [getLeftmost,left,below]⟩
      | some c =>
        obtain ⟨b,j,rest,order,run⟩ := ih repL below lower
        exact ⟨b,j,rest ++ (a,k)::r.inorder,by simp [Tree.inorder,order],by simp [getLeftmost,left,below,run]⟩

-- A place in the order of a node: in the left subtree, the node itself, in the right subtree.
theorem inorderPlace {a x : Nat} {j k : Int} {l r : Tree} {ls rs : Bool} {before after : List (Nat × Int)}
    (here : (Tree.node a j l ls r rs).inorder = before ++ (x,k)::after) :
    (∃ rest, l.inorder = before ++ (x,k)::rest ∧ after = rest ++ (a,j)::r.inorder) ∨
    (x = a ∧ k = j ∧ after = r.inorder) ∨ ∃ rest, r.inorder = rest ++ (x,k)::after := by
  rw [Tree.inorder,List.append_eq_append_iff] at here
  rcases here with ⟨c,-,tail⟩ | ⟨c,front,tail⟩
  · cases c with
    | nil =>
      rw [List.nil_append,List.cons.injEq,Prod.mk.injEq] at tail
      exact .inr (.inl ⟨tail.1.1.symm,tail.1.2.symm,tail.2.symm⟩)
    | cons y c =>
      rw [List.cons_append,List.cons.injEq] at tail
      exact .inr (.inr ⟨c,tail.2⟩)
  · cases c with
    | nil =>
      rw [List.nil_append,List.cons.injEq,Prod.mk.injEq] at tail
      exact .inr (.inl ⟨tail.1.1,tail.1.2,tail.2⟩)
    | cons y c =>
      rw [List.cons_append,List.cons.injEq] at tail
      exact .inl ⟨c,by rw [front,tail.1],tail.2⟩

/- The node after x in key order; the climb from the last node leaves the subtree
with at least as much fuel as the levels of the subtree leave over. -/
theorem getNextHigherNext (rep : Rep m p t) (ordered : t.Ordered) (enough : t.height ≤ fuel) {before after : List (Nat × Int)}
    {x : Nat} {k : Int} (here : t.inorder = before ++ (x,k)::after) :
    (∀ y j rest, after = (y,j)::rest → getNextHigher m (fuel + 1) x = some (some y)) ∧
    (after = [] → ∃ left, fuel + 2 ≤ left + t.height ∧ getNextHigher m (fuel + 1) x = climb m k left p) := by
  induction t generalizing p before after with
  | nil =>
    rw [Tree.inorder] at here
    simp at here
  | node a j l ls r rs ihl ihr =>
    obtain ⟨⟨keyed,-,right,-,-,parent⟩,repL,repR⟩ := rep
    obtain ⟨low,high⟩ := orderedSides ordered
    have lower : l.height < (Tree.node a j l ls r rs).height ∧ r.height < (Tree.node a j l ls r rs).height := by
      simp only [Tree.height]
      omega
    rcases inorderPlace here with ⟨rest,inL,rfl⟩ | ⟨rfl,rfl,rfl⟩ | ⟨rest,inR⟩
    · obtain ⟨next,last⟩ := ihl repL (orderedNear (d := .left) ordered) (by omega) inL
      refine ⟨fun y i tail split => ?_,fun empty => by simp at empty⟩
      cases rest with
      | cons z rest =>
        rw [List.cons_append,List.cons.injEq] at split
        exact next y i rest (by rw [split.1])
      | nil =>
        rw [List.nil_append,List.cons.injEq,Prod.mk.injEq] at split
        obtain ⟨left,bound,run⟩ := last rfl
        obtain ⟨left,rfl⟩ : ∃ f, left = f + 1 := ⟨left - 1,by omega⟩
        have above : ¬m.key a ≤ k := by
          have less : k < j := low (x,k) (by simp [inL])
          omega
        rw [run,climb,if_neg above,split.1.1]
    · refine ⟨fun y i tail split => ?_,fun empty => ?_⟩
      · obtain ⟨c,top⟩ : ∃ c, r.ptr = some c := Option.ne_none_iff_exists'.mp fun none => by
          rw [Tree.ptrNone] at none
          simp [none,Tree.inorder] at split
        obtain ⟨b,k',rest,order,run⟩ := @getLeftmostFirst m (some x) r (fuel + 1) c repR top (by omega)
        rw [order,List.cons.injEq,Prod.mk.injEq] at split
        simp [getNextHigher,right,top,run,split.1.1]
      · have none : r = .nil := by
          cases r with
          | nil => rfl
          | node => simp [Tree.inorder] at empty
        subst none
        refine ⟨fuel + 1,?_,?_⟩
        · simp only [Tree.height]
          omega
        · have bare : m.child .right x = none := right
          simp [getNextHigher,bare,parent,keyed]
    · obtain ⟨next,last⟩ := ihr repR (orderedNear (d := .right) ordered) (by omega) inR
      refine ⟨next,fun empty => ?_⟩
      obtain ⟨left,bound,run⟩ := last empty
      obtain ⟨left,rfl⟩ : ∃ f, left = f + 1 := ⟨left - 1,by omega⟩
      have above : m.key a ≤ k := by
        have less : j < k := high (x,k) (by simp [inR])
        omega
      refine ⟨left,by omega,?_⟩
      rw [run,climb,if_pos above,parent]

theorem iterateFromKeys (sound : Sound m t) (enough : t.height ≤ fuel) {count : Nat} {before after : List (Nat × Int)}
    {x : Nat} {k : Int} (here : t.inorder = before ++ (x,k)::after) (steps : after.length < count) :
    iterateFrom m (fuel + 1) count (some x) = some (k::after.map Prod.snd) := by
  obtain ⟨count,rfl⟩ : ∃ c, count = c + 1 := ⟨count - 1,by omega⟩
  obtain ⟨next,last⟩ := getNextHigherNext sound.rep sound.ordered enough here
  have keyed : m.key x = k := sound.rep.keyed (x,k) (by simp [here])
  induction after generalizing before x k count with
  | nil =>
    obtain ⟨left,bound,run⟩ := last rfl
    obtain ⟨left,rfl⟩ : ∃ f, left = f + 1 := ⟨left - 1,by omega⟩
    simp [iterateFrom,run,climb,keyed]
  | cons y after ih =>
    obtain ⟨count,rfl⟩ : ∃ c, count = c + 1 := ⟨count - 1,by simp at steps; omega⟩
    have onward : t.inorder = (before ++ [(x,k)]) ++ (y.1,y.2)::after := by simp [here]
    obtain ⟨next',last'⟩ := getNextHigherNext sound.rep sound.ordered enough onward
    have rest := ih onward count (by simpa using steps) next' last' (sound.rep.keyed y (by simp [here]))
    rw [iterateFrom,next y.1 y.2 after rfl]
    simp [rest,keyed]

theorem iterateKeys (sound : Sound m t) (enough : t.inorder.length ≤ fuel) : iterate m (fuel + 1) = some t.keys := by
  have levels := @heightLength t
  cases top : t.ptr with
  | none =>
    have empty : t = .nil := Tree.ptrNone.mp top
    subst empty
    simp [iterate,sound.root,Tree.ptr]
  | some a =>
    obtain ⟨b,k,rest,order,run⟩ := @getLeftmostFirst m none t (fuel + 1) a sound.rep top (by omega)
    have count : rest.length < fuel + 1 := by
      rw [order,List.length_cons] at enough
      omega
    have whole := @iterateFromKeys m t fuel sound (Nat.le_trans levels enough) (fuel + 1) [] rest b k order count
    simp [iterate,sound.root,top,run,whole,Tree.keys,order]

theorem Sound.placed {a n : Nat} (sound : Sound m t) (balanced : t.Balanced n) (fresh : a ∉ t.addrs) :
    Placed a .root none n t m :=
  ⟨⟨sound.rep,sound.root,sound.distinct,balanced,fun _ _ same => by cases same⟩,sound.ordered,fresh,
    fun _ same => by cases same⟩

theorem Grown.balanced {t' : Tree} {n reb : Nat} (grown : Grown n t t' reb) : ∃ n', t'.Balanced n' := by
  cases grown with
  | kept balanced => exact ⟨n,balanced⟩
  | widened balanced => exact ⟨n,balanced⟩
  | raised balanced => exact ⟨n + 1,balanced⟩

theorem Shrunk.balanced {t' : Tree} {n reb : Nat} (shrunk : Shrunk n t t' reb) : ∃ n', t'.Balanced n' := by
  cases shrunk with
  | kept balanced => exact ⟨n,balanced⟩
  | lowered level _ balanced => exact ⟨level,balanced⟩

theorem Inserted.sound {a n : Nat} {key : Int} {t' : Tree} {out : Nat × Nat × Memory} (sound : Sound m t) (fresh : a ∉ t.addrs)
    (inserted : Inserted a key .root none n t t' m out) : Sound out.2.2 t' := by
  obtain ⟨turned,grown,order,-⟩ := inserted
  refine ⟨turned.frame.root,turned.rep,?_,?_,grown.balanced⟩
  · rw [Tree.addrs,order]
    exact nodupInsert sound.distinct fresh
  · rw [Tree.Ordered,Tree.keys,order]
    exact sortedInsert sound.ordered

theorem soundLeaf {a : Nat} {key : Int} (root : m.root = some a) (keyed : m.key a = key) (parent : m.parent a = none)
    (links : ∀ e, m.child e a = none ∧ m.sibling e a = false) : Sound m (.node a key .nil false .nil false) := by
  refine ⟨root,⟨⟨keyed,(links .left).1,(links .right).1,(links .left).2,(links .right).2,parent⟩,trivial,trivial⟩,?_,?_,?_⟩
  · simp
  · simp [Tree.Ordered]
  · exact ⟨1,0,rfl,rfl,rfl⟩

theorem findOrCreateSound {key : Int} {a : Nat} (sound : Sound m t) (enough : t.inorder.length ≤ fuel) (fresh : a ∉ t.addrs) :
    ∃ m' t', Operation.run fuel m (.findOrCreate key a) = some m' ∧ Sound m' t' ∧
      t'.inorder = insertPair a key t.inorder := by
  have levels := @heightLength t
  obtain ⟨n,balanced⟩ := sound.balanced
  cases top : t.ptr with
  | none =>
    have empty : t = .nil := Tree.ptrNone.mp top
    subst empty
    refine ⟨setRoot a (initializeNode a key m),.node a key .nil false .nil false,?_,?_,rfl⟩
    · simp [Operation.run,findOrCreate,sound.root,top]
    · apply soundLeaf <;> simp [setRoot,initializeNode]
  | some b =>
    have some : t ≠ .nil := fun none => by simp [none,Tree.ptr] at top
    obtain ⟨out,t',run,inserted⟩ :=
      findOrCreateAtInserted key none a a fuel (sound.placed balanced fresh) some rfl (Nat.le_trans levels enough)
    refine ⟨out.2.2,t',?_,inserted.sound sound fresh,inserted.order⟩
    simp [Operation.run,findOrCreate,sound.root,top,run]

theorem insertSound {key : Int} {a : Nat} (sound : Sound m t) (enough : t.inorder.length ≤ fuel) (fresh : a ∉ t.addrs) :
    ∃ m' t', Operation.run fuel m (.insert a key) = some m' ∧ Sound m' t' ∧
      t'.inorder = insertPair a key t.inorder := by
  have levels := @heightLength t
  obtain ⟨n,balanced⟩ := sound.balanced
  -- The caller's node is prepared; the tree does not see it.
  let ready := setSibling .right a false (setSibling .left a false (setChild .right a none
    (setChild .left a none (setKey a key m))))
  have keyed : ready.key a = key := by simp [ready,setKey]
  have links : ∀ e, ready.child e a = none ∧ ready.sibling e a = false := by
    intro e
    cases e <;> simp [ready]
  have prepared : Sound ready t := by
    refine ⟨sound.root,sound.rep.congr fun x on => ?_,sound.distinct,sound.ordered,sound.balanced⟩
    have other : x ≠ a := fun same => fresh (same ▸ on)
    simp [ready,SameNode,setKey,other]
  cases top : t.ptr with
  | none =>
    have empty : t = .nil := Tree.ptrNone.mp top
    subst empty
    have root : m.root = none := sound.root
    refine ⟨setRoot a ready,.node a key .nil false .nil false,?_,?_,rfl⟩
    · simp [Operation.run,insert,setKey,root,ready]
    · apply soundLeaf
      · simp [setRoot]
      · simpa [setRoot] using keyed
      · simp [setRoot]
      · simpa [setRoot] using links
  | some b =>
    have some : t ≠ .nil := fun none => by simp [none,Tree.ptr] at top
    obtain ⟨out,t',run,inserted⟩ := findOrCreateAtInserted key (.some a) a a fuel (prepared.placed balanced fresh) some
      ⟨rfl,keyed,links⟩ (Nat.le_trans levels enough)
    refine ⟨out.2.2,t',?_,inserted.sound prepared fresh,inserted.order⟩
    have root : ready.root = .some b := prepared.root.trans top
    have unfolded : insert fuel a (setKey a key m) =
        (findOrCreateAt (ready.key a) (.some a) a fuel .root ready).map fun r => (r.1,r.2.2) := by
      simp only [insert]
      split
      · rfl
      · rename_i missing
        exact absurd (root.symm.trans missing) (by simp)
    simp [Operation.run,unfolded,root,keyed,run]

theorem removeSound {key : Int} (sound : Sound m t) (enough : t.inorder.length < fuel) :
    ∃ m' t', Operation.run fuel m (.remove key) = some m' ∧ Sound m' t' ∧ t'.inorder = t.inorder.filter (·.2 ≠ key) := by
  have levels := @heightLength t
  obtain ⟨n,balanced⟩ := sound.balanced
  have held : Held .root none n t m := ⟨sound.rep,sound.root,sound.distinct,balanced,fun _ _ same => by cases same⟩
  obtain ⟨out,t',run,turned,shrunk,order,-⟩ := removeAtRemoved key held sound.ordered (by simp) (Nat.lt_of_le_of_lt levels enough)
  refine ⟨out.2.2,t',by simp [Operation.run,remove,run],⟨turned.frame.root,turned.rep,?_,?_,shrunk.balanced⟩,order⟩
  · rw [Tree.addrs,order]
    exact sound.distinct.sublist (List.filter_sublist.map _)
  · rw [Tree.Ordered,Tree.keys,order]
    exact sound.ordered.sublist (List.filter_sublist.map _)

theorem operationSound {op : Operation} (sound : Sound m t) (enough : t.inorder.length < fuel)
    (fresh : ∀ a, op.node = some a → a ∉ t.addrs) :
    ∃ m' t', op.run fuel m = some m' ∧ Sound m' t' ∧ t'.inorder = op.apply t.inorder := by
  cases op with
  | findOrCreate key a => exact findOrCreateSound sound (Nat.le_of_lt enough) (fresh a rfl)
  | insert a key => exact insertSound sound (Nat.le_of_lt enough) (fresh a rfl)
  | remove key => exact removeSound sound enough

theorem lengthInsert {a : Nat} {k : Int} {xs : List (Nat × Int)} : (insertPair a k xs).length ≤ xs.length + 1 := by
  induction xs with
  | nil => simp [insertPair]
  | cons x xs ih =>
    simp only [insertPair]
    split
    · simp
    · split <;> simp [ih]

theorem lengthApply {op : Operation} {pairs : List (Nat × Int)} : (op.apply pairs).length ≤ pairs.length + 1 := by
  cases op with
  | findOrCreate key a => exact lengthInsert
  | insert a key => exact lengthInsert
  | remove key => exact Nat.le_succ_of_le (List.length_filter_le _ _)

theorem keySetApply {op : Operation} {pairs : List (Nat × Int)} :
    ((op.apply pairs).map Prod.snd).toFinset = op.keySet (pairs.map Prod.snd).toFinset := by
  ext i
  cases op with
  | findOrCreate key a => simp only [Operation.apply,Operation.keySet,List.mem_toFinset,Finset.mem_insert,keysInsert]
  | insert a key => simp only [Operation.apply,Operation.keySet,List.mem_toFinset,Finset.mem_insert,keysInsert]
  | remove key =>
    simp only [Operation.apply,Operation.keySet,List.mem_toFinset,Finset.mem_erase,List.mem_map,List.mem_filter]
    constructor
    · rintro ⟨x,⟨on,other⟩,rfl⟩
      exact ⟨by simpa using other,x,on,rfl⟩
    · rintro ⟨other,x,on,rfl⟩
      exact ⟨x,⟨on,by simpa using other⟩,rfl⟩

theorem runSound {ops : List Operation} (sound : Sound m t) (enough : t.inorder.length + ops.length < fuel)
    (allowed : Allowed t.inorder ops) :
    ∃ m' t', runOperations fuel ops m = some m' ∧ Sound m' t' ∧ t'.inorder.length < fuel ∧
      t'.keys.toFinset = ops.foldl Operation.keySet t.keys.toFinset := by
  induction ops generalizing m t with
  | nil => exact ⟨m,t,rfl,sound,by simpa using enough,rfl⟩
  | cons op ops ih =>
    rw [List.length_cons] at enough
    obtain ⟨m₁,t₁,run,sound₁,order⟩ := @operationSound m t fuel op sound (by omega) allowed.1
    have count := @lengthApply op t.inorder
    rw [← order] at count
    obtain ⟨m',t',rest,sound',short,keys⟩ := ih sound₁ (by omega) (order ▸ allowed.2)
    refine ⟨m',t',by simp [runOperations,run,rest],sound',short,?_⟩
    rw [keys,List.foldl_cons,Tree.keys,order,keySetApply,Tree.keys]

end

/- Any run of operations on a tree that starts empty: the memory holds a tree that
is a search tree, is balanced with no chains of siblings and has correct parent
links; its keys are those of a finite set, and the iterator yields them in order. -/
theorem hedgeTreeBalancedMap (start : Memory) (empty : start.root = none) (ops : List Operation) (allowed : Allowed [] ops)
    (fuel : Nat) (enough : ops.length < fuel) :
    ∃ m t n, runOperations fuel ops start = some m ∧ m.root = t.ptr ∧ Rep m none t ∧ t.addrs.Nodup ∧ t.Ordered ∧
      t.Balanced n ∧ t.keys.toFinset = ops.foldl Operation.keySet ∅ ∧ iterate m fuel = some t.keys := by
  have first : Sound start .nil := ⟨empty,trivial,by simp,by simp [Tree.Ordered],0,rfl⟩
  obtain ⟨m,t,run,sound,short,keys⟩ := runSound first (by simpa [Tree.inorder] using enough) allowed
  obtain ⟨n,balanced⟩ := sound.balanced
  obtain ⟨fuel,rfl⟩ : ∃ f, fuel = f + 1 := ⟨fuel - 1,by omega⟩
  exact ⟨m,t,n,run,sound.root,sound.rep,sound.distinct,sound.ordered,balanced,keys,iterateKeys sound (by omega)⟩

-- A memory whose nodes hold nothing, with an empty tree.
def blank : Memory := ⟨fun _ => 0,fun _ _ => none,fun _ _ => false,fun _ => none,none⟩

theorem hedgeTreeBalancedMapSample :
    ∃ m t n, runOperations 7 [.findOrCreate 5 1,.insert 2 7,.findOrCreate 9 3,.remove 7,.findOrCreate 5 4,.insert 2 6] blank =
        some m ∧ m.root = t.ptr ∧ Rep m none t ∧ t.addrs.Nodup ∧ t.Ordered ∧ t.Balanced n ∧
      t.keys.toFinset = ([.findOrCreate 5 1,.insert 2 7,.findOrCreate 9 3,.remove 7,.findOrCreate 5 4,.insert 2 6] :
        List Operation).foldl Operation.keySet ∅ ∧ iterate m 7 = some t.keys :=
  hedgeTreeBalancedMap blank rfl _ (by simp [Allowed,Operation.node,Operation.apply,insertPair]) 7 (by decide)

end OmrCompiler.Hedge
