import OmrCompiler.DominatorLinks

/-! The main loop of the dominator search: the semidominators, the buckets, and what the
immediate dominators are taken from. -/
namespace OmrCompiler.Dominators
open Semidominators PostDominance

section Lower
variable {edge : Nat → Nat → Prop} {parent : Nat → Nat} {t t' t'' : Infos} {n i x fuel : Nat} (tree : SpanningTree edge parent n)

structure Kept (t t' : Infos) : Prop where
  block : t'.block = t.block
  parent : t'.parent = t.parent
  idom : t'.idom = t.idom
  bucket : t'.bucket = t.bucket

theorem Shorter.kept (shorter : Shorter t t') : Kept t t' := by
  rw [shorter.same]
  exact ⟨rfl,rfl,rfl,rfl⟩

theorem Kept.trans (first : Kept t t') (second : Kept t' t'') : Kept t t'' :=
  ⟨second.block.trans first.block,second.parent.trans first.parent,second.idom.trans first.idom,second.bucket.trans first.bucket⟩

-- The vertices after i have their semidominators, those before i their own numbers.
structure Known (edge : Nat → Nat → Prop) (n i : Nat) (t : Infos) : Prop where
  waiting : ∀ r, 0 < r → r < i → t.sdno r = r
  done : ∀ w, i < w → w ≤ n → t.sdno w = semidominator edge w

-- The forest stays, and so do the semidominators after i.
theorem Linked.reordered (linked : Linked parent n i t) (ancestor : t'.ancestor = t.ancestor) (child : t'.child = t.child) (label : t'.label = t.label)
    (zero : t'.sdno 0 = 0) (after : ∀ y, i < y → t'.sdno y = t.sdno y) (spots : ∀ x l, Route parent n i t x l → Spots parent i t' x l) :
    Linked parent n i t' := by
  have chains : ∀ {r c}, Chain parent n i r t c → Chain parent n i r t' c := fun chain => by
    refine ⟨⟨by rw [ancestor,label]; exact chain.roots,chain.sorted.imp_of_mem fun {k k'} on on' order => ?_⟩,by rw [child]; exact chain.follows⟩
    rw [label,after _ (chain.roots k on).2.1,after _ (chain.roots k' on').2.1]
    exact order
  refine ⟨by rw [ancestor,label]; exact ⟨linked.zero.1,linked.zero.2.1,zero⟩,by rw [ancestor,label]; exact linked.fresh,by rw [ancestor,label]; exact linked.later,
    fun x pos last => ?_,fun r pos atMost => ?_⟩
  · obtain ⟨l,route⟩ := linked.route x pos last
    refine ⟨l,by rw [ancestor]; exact route.follows,route.inside,spots x l route,fun k on none => ?_⟩
    rw [ancestor] at none
    obtain ⟨r,posR,root,same | ⟨c,chain,onC⟩⟩ := route.ends k on none
    · exact ⟨r,posR,root,.inl same⟩
    · exact ⟨r,posR,root,.inr ⟨c,chains chain,onC⟩⟩
  · obtain ⟨c,chain⟩ := linked.chain r pos atMost
    exact ⟨c,chains chain⟩

-- The semidominator of i gets lower.
theorem Linked.lowered (linked : Linked parent n i t) (pos : 0 < i) {m : Nat} (lower : m ≤ t.sdno i) :
    Linked parent n i {t with sdno := Function.update t.sdno i m} := by
  have others : ∀ y, y ≠ i → Function.update t.sdno i m y = t.sdno y := fun y other => Function.update_of_ne other _ _
  have less : ∀ y, Function.update t.sdno i m y ≤ t.sdno y := fun y => by
    by_cases here : y = i
    · rw [here,Function.update_self]
      exact lower
    · exact (others y here).le
  refine linked.reordered rfl rfl rfl ((others 0 (by omega)).trans linked.zero.2.2) (fun y after => others y (by omega)) fun x l route => ⟨fun y way => ?_,fun q on => ?_⟩
  · obtain ⟨q,on,order⟩ := route.spots.least y way
    have after := way.2
    refine ⟨q,on,Nat.le_trans (less q) ?_⟩
    dsimp only
    rw [others y (by omega)]
    exact order
  · rcases route.spots.among q on with way | root | ⟨y,way,order⟩
    · exact .inl way
    · exact .inr (.inl root)
    · by_cases here : q = i
      · -- the label i is its own
        obtain ⟨k,onK,own⟩ := List.mem_map.mp on
        dsimp only at own
        by_cases none : t.ancestor k = 0
        · obtain ⟨r,posR,root,same | ⟨c,chain,onC⟩⟩ := route.ends k onK none
          · rw [same,(linked.fresh r posR root.atMost).2] at own
            exact .inr (.inl (own ▸ root))
          · have := (chain.roots k onC).2.1
            omega
        · have := linked.later k none
          omega
      · have after := way.2
        exact .inr (.inr ⟨y,way,by
          dsimp only
          rw [others y (by omega),others q here]
          exact order⟩)

theorem Linked.congr (linked : Linked parent n i t) (idom : Nat → Nat) (bucket : Nat → Finset Nat) :
    Linked parent n i {t with idom := idom, bucket := bucket} :=
  linked.reordered rfl rfl rfl linked.zero.2.2 (fun _ _ => rfl) fun _ _ route => ⟨route.spots.least,route.spots.among⟩

-- What eval finds from x: a linked vertex above x, or the root.
theorem Linked.evaluated (linked : Linked parent n i t) (pos : 0 < x) (last : x ≤ n) (enough : n ≤ fuel) :
    ∃ t' u, eval fuel t x = some (t',u) ∧ Shorter t t' ∧ (Way parent i x u ∨ Root parent i u x) ∧ (∀ y, Way parent i x y → t.sdno u ≤ t.sdno y) ∧
      (x ≤ i → u = x) := by
  obtain ⟨l,route⟩ := linked.route x pos last
  have short := route.follows.short route.inside
  have enough : l.length ≤ fuel := Nat.le_trans short enough
  obtain ⟨t',u,ran,shorter,on,least⟩ := evalLowest (Nat.ne_of_gt pos) route.follows enough
  have lowest : ∀ y, Way parent i x y → t.sdno u ≤ t.sdno y := fun y way => by
    obtain ⟨q,onQ,less⟩ := route.spots.least y way
    exact Nat.le_trans (least q onQ) less
  refine ⟨t',u,ran,shorter,?_,lowest,fun atMost => ?_⟩
  · rcases route.spots.among u on with way | root | ⟨y,way,less⟩
    · exact .inl way
    · exact .inr root
    · have := lowest y way
      omega
  · obtain ⟨none,own⟩ := linked.fresh x pos atMost
    have shape := route.follows.unique (.step (Nat.ne_of_gt pos) (by rw [none]; exact .stop))
    rw [shape] at on
    simpa [own] using on

include tree

-- A root that is found is as low as the vertex below it.
theorem rootLowest (known : Known edge n i t) {u : Nat} (root : Root parent i u x) (pos : 0 < u) (less : u < i) (last : x ≤ n) (other : u ≠ x)
    (lowest : ∀ y, Way parent i x y → t.sdno u ≤ t.sdno y) : ∃ c, Way parent i x c ∧ t.sdno u = semidominator edge c := by
  obtain ⟨c,from',below,upon⟩ := root.above.child other
  have inside := upon.le
  have later : i < c := Nat.lt_of_not_le fun atMost => by
    have := root.greatest c upon atMost
    omega
  have upTo := lowest c ⟨upon,later⟩
  have le := tree.semidominatorLe (b := c) (by omega) (by omega)
  rw [known.waiting u pos less,known.done c later (by omega)] at upTo
  exact ⟨c,⟨upon,later⟩,by rw [known.waiting u pos less]; omega⟩

theorem lowerStep (linked : Linked parent n i t) (known : Known edge n i t) (bound : semidominator edge i ≤ t.sdno i) (on : edge i x) (enough : n ≤ fuel) :
    ∃ t', lower fuel i x t = some t' ∧ Kept t t' ∧ Linked parent n i t' ∧ Known edge n i t' ∧ semidominator edge i ≤ t'.sdno i ∧ t'.sdno i ≤ t.sdno i ∧
      (x < i → t'.sdno i ≤ x) ∧ ∀ u, Above parent u x → i < u → t'.sdno i ≤ semidominator edge u := by
  obtain ⟨posI,lastI,posX,lastX⟩ := tree.inside i x on
  obtain ⟨t1,u,ran,shorter,which,lowest,own⟩ := linked.evaluated posX lastX enough
  have linked1 := linked.shorter shorter
  have sdno := shorter.sdno
  have value : semidominator edge i ≤ t.sdno u := by
    rcases which with way | root
    · have inside := way.1.le
      have after := way.2
      rw [known.done u way.2 (by omega)]
      exact tree.semidominatorThrough on way.1 way.2
    · have posU : 0 < u := by
        rcases Nat.lt_or_ge i x with later | atMost
        · obtain ⟨r,posR,rootX⟩ := rootExists tree posI posX lastX
          rw [root.unique rootX]
          exact posR
        · rw [own atMost]
          exact posX
      rcases Nat.lt_or_eq_of_le root.atMost with less | same
      · by_cases here : u = x
        · rw [known.waiting u posU less,here]
          exact semidominatorLeast ⟨x,.refl,on⟩
        · obtain ⟨c,way,equal⟩ := rootLowest tree known root posU less lastX here lowest
          rw [equal]
          exact tree.semidominatorThrough on way.1 way.2
      · rw [same]
        exact bound
  have upTo : (x < i → t.sdno u ≤ x) ∧ ∀ y, Above parent y x → i < y → t.sdno u ≤ semidominator edge y := by
    refine ⟨fun less => ?_,fun y above later => ?_⟩
    · rw [own (Nat.le_of_lt less),known.waiting x posX less]
    · have inside := above.le
      rw [← known.done y later (by omega)]
      exact lowest y ⟨above,later⟩
  unfold lower
  rw [ran]
  simp only [Option.bind_eq_bind,Option.bind_some,sdno]
  split
  · rename_i less
    have others : ∀ y, y ≠ i → Function.update t.sdno i (t.sdno u) y = t.sdno y := fun y other => Function.update_of_ne other _ _
    have kept := shorter.kept
    refine ⟨_,rfl,⟨kept.block,kept.parent,kept.idom,kept.bucket⟩,by have := linked1.lowered posI (m := t.sdno u) (by rw [sdno]; omega); rwa [sdno] at this,
      ⟨fun r pos before => (others r (by omega)).trans (known.waiting r pos before),fun w after last => (others w (by omega)).trans (known.done w after last)⟩,?_⟩
    dsimp only
    rw [Function.update_self]
    exact ⟨value,by omega,upTo⟩
  · rename_i more
    refine ⟨_,rfl,shorter.kept,linked1,⟨by rw [sdno]; exact known.waiting,by rw [sdno]; exact known.done⟩,?_⟩
    rw [sdno]
    exact ⟨bound,Nat.le_refl _,fun less => Nat.le_trans (Nat.le_of_not_lt more) (upTo.1 less),fun y above later => Nat.le_trans (Nat.le_of_not_lt more) (upTo.2 y above later)⟩

theorem lowerAll (index : Nat → Nat) (list : List Nat) (linked : Linked parent n i t) (known : Known edge n i t) (bound : semidominator edge i ≤ t.sdno i)
    (inside : ∀ b ∈ list, edge i (index b)) (enough : n ≤ fuel) :
    ∃ t', list.foldlM (fun infos pred => lower fuel i (index pred) infos) t = some t' ∧ Kept t t' ∧ Linked parent n i t' ∧ Known edge n i t' ∧
      semidominator edge i ≤ t'.sdno i ∧ t'.sdno i ≤ t.sdno i ∧
      ∀ b ∈ list, (index b < i → t'.sdno i ≤ index b) ∧ ∀ u, Above parent u (index b) → i < u → t'.sdno i ≤ semidominator edge u := by
  induction list generalizing t with
  | nil => exact ⟨t,rfl,⟨rfl,rfl,rfl,rfl⟩,linked,known,bound,Nat.le_refl _,fun b on => absurd on List.not_mem_nil⟩
  | cons b list ih =>
      obtain ⟨t1,ran,kept,linked1,known1,bound1,less1,before,through⟩ := lowerStep tree linked known bound (inside b List.mem_cons_self) enough
      obtain ⟨t',rest,kept',linked',known',bound',less',all⟩ := ih linked1 known1 bound1 fun c on => inside c (List.mem_cons_of_mem _ on)
      refine ⟨t',by rw [List.foldlM_cons,ran]; exact rest,kept.trans kept',linked',known',bound',Nat.le_trans less' less1,fun c on => ?_⟩
      rcases List.mem_cons.mp on with rfl | later
      · exact ⟨fun less => Nat.le_trans less' (before less),fun u above later => Nat.le_trans less' (through u above later)⟩
      · exact all c later

-- All edges to i have been met.
theorem semiFound (less : 1 < i) (last : i ≤ n) {m : Nat} (bound : semidominator edge i ≤ m)
    (all : ∀ x, edge i x → (x < i → m ≤ x) ∧ ∀ u, Above parent u x → i < u → m ≤ semidominator edge u) : m = semidominator edge i := by
  refine Nat.le_antisymm ?_ bound
  rcases tree.semidominatorFrom less last with on | ⟨x,u,on,above,later,lower⟩
  · exact (all _ on).1 (tree.semidominatorBelow less last)
  · exact Nat.le_trans ((all x on).2 u above later) lower

end Lower

section Resolve
variable {edge : Nat → Nat → Prop} {parent : Nat → Nat} {t t' : Infos} {n i p u v w fuel : Nat} (tree : SpanningTree edge parent n)

-- The same once i has its semidominator too.
structure SemiFound (edge : Nat → Nat → Prop) (n i : Nat) (t : Infos) : Prop where
  waiting : ∀ r, 0 < r → r < i → t.sdno r = r
  done : ∀ w, i ≤ w → w ≤ n → t.sdno w = semidominator edge w

def Between (edge : Nat → Nat → Prop) (parent : Nat → Nat) (w y : Nat) : Prop :=
  Above parent (semidominator edge w) y ∧ semidominator edge w ≠ y ∧ Above parent y w

-- What is recorded for w: its semidominator, or a vertex that has the same immediate dominator.
inductive Settled (edge : Nat → Nat → Prop) (parent : Nat → Nat) (w : Nat) : Nat → Prop where
  | semi (least : ∀ y, Between edge parent w y → semidominator edge w ≤ semidominator edge y) : Settled edge parent w (semidominator edge w)
  | shared {u : Nat} (between : Between edge parent w u) (lower : semidominator edge u < semidominator edge w)
      (least : ∀ y, Between edge parent w y → semidominator edge u ≤ semidominator edge y) : Settled edge parent w u

include tree

-- The linked vertices above v are those below its semidominator, when this is the parent of i.
theorem betweenWays (less : 1 < i) (last : i ≤ n) (semi : semidominator edge v = parent i) (above : Above parent i v) (y : Nat) :
    Between edge parent v y ↔ Way parent (i - 1) v y := by
  obtain ⟨posP,lessP,_⟩ := tree.up i less last
  unfold Between
  rw [semi]
  constructor
  · rintro ⟨upon,other,under⟩
    have after := upon.le
    refine ⟨under,?_⟩
    by_contra before
    have aboveI : Above parent y i := under.linear above (by omega)
    have := (aboveI.before (by omega)).2.2.le
    omega
  · rintro ⟨under,after⟩
    have aboveY : Above parent i y := above.linear under (by omega)
    exact ⟨(Above.up posP lessP .here).trans aboveY,by omega,under⟩

theorem resolveStep (linked : Linked parent n (i - 1) t) (less : 1 < i) (found : SemiFound edge n i t) (semi : semidominator edge v = parent i)
    (above : Above parent i v) (last : v ≤ n) (enough : n ≤ fuel) :
    ∃ t' d, resolve fuel (parent i) t v = some {t' with idom := Function.update t'.idom v d} ∧ Shorter t t' ∧ Settled edge parent v d := by
  have from' := above.le
  obtain ⟨posP,lessP,_⟩ := tree.up i less (by omega)
  have ways := betweenWays tree less (by omega) semi above
  obtain ⟨t',u,ran,shorter,which,lowest,_⟩ := linked.evaluated (x := v) (by omega) last enough
  have least : ∀ y, Between edge parent v y → t.sdno u ≤ semidominator edge y := fun y between => by
    have way := (ways y).mp between
    have inside := way.1.le
    have after := way.2
    have upTo := lowest y way
    rwa [found.done y (by omega) (by omega)] at upTo
  refine ⟨t',if t.sdno u < t.sdno v then u else parent i,?_,shorter,?_⟩
  · unfold resolve
    rw [ran]
    simp only [Option.bind_eq_bind,Option.bind_some,shorter.sdno]
  rw [found.done v from' last]
  rcases which with way | root
  · have inside := way.1.le
    have after := way.2
    have own := found.done u (by omega) (by omega)
    rw [own] at least ⊢
    split
    · rename_i lower
      exact .shared ((ways u).mpr way) lower least
    · rename_i more
      rw [← semi]
      exact .semi fun y between => Nat.le_trans (Nat.le_of_not_lt more) (least y between)
  · have same : u = parent i := root.unique (Root.ofParent posP lessP above)
    have own : t.sdno u = semidominator edge v := by rw [same,semi]; exact found.waiting _ posP lessP
    rw [own] at least ⊢
    rw [if_neg (Nat.lt_irrefl _),← semi]
    exact .semi least

theorem resolveAll (list : List Nat) (linked : Linked parent n (i - 1) t) (less : 1 < i) (found : SemiFound edge n i t)
    (bucket : ∀ v ∈ list, semidominator edge v = parent i ∧ Above parent i v ∧ v ≤ n) (enough : n ≤ fuel) :
    ∃ t', list.foldlM (resolve fuel (parent i)) t = some t' ∧ t'.block = t.block ∧ t'.parent = t.parent ∧ t'.bucket = t.bucket ∧ t'.sdno = t.sdno ∧
      Linked parent n (i - 1) t' ∧ (∀ v ∈ list, Settled edge parent v (t'.idom v)) ∧ ∀ v, v ∉ list → t'.idom v = t.idom v := by
  induction list generalizing t with
  | nil => exact ⟨t,rfl,rfl,rfl,rfl,rfl,linked,fun v on => absurd on List.not_mem_nil,fun _ _ => rfl⟩
  | cons v list ih =>
      obtain ⟨semi,above,last⟩ := bucket v List.mem_cons_self
      obtain ⟨t1,d,ran,shorter,settled⟩ := resolveStep tree linked less found semi above last enough
      have kept := shorter.kept
      obtain ⟨t',rest,block,parent',bucket',sdno,linked',all,others⟩ := ih (t := {t1 with idom := Function.update t1.idom v d})
        ((linked.shorter shorter).congr _ t1.bucket) ⟨by rw [shorter.sdno]; exact found.waiting,by rw [shorter.sdno]; exact found.done⟩
        fun w on => bucket w (List.mem_cons_of_mem _ on)
      refine ⟨t',by rw [List.foldlM_cons,ran]; exact rest,block.trans kept.block,parent'.trans kept.parent,bucket'.trans kept.bucket,sdno.trans shorter.sdno,linked',
        fun w on => ?_,fun w off => ?_⟩
      · by_cases again : w ∈ list
        · exact all w again
        · have here := (List.mem_cons.mp on).resolve_right again
          rw [others w again,here]
          dsimp only
          rw [Function.update_self]
          exact settled
      · rw [others w fun on => off (List.mem_cons_of_mem _ on)]
        dsimp only
        rw [Function.update_of_ne fun same => off (by rw [same]; exact List.mem_cons_self),kept.idom]

end Resolve

section Process
variable {post : Bool} {cfg : CFG} {dfNumbers : Nat → Int} {edge : Nat → Nat → Prop} {parent : Nat → Nat} {t t' : Infos} {n i fuel : Nat}
  (tree : SpanningTree edge parent n)

/- The vertices after i are linked. Their immediate dominators are recorded, or will be when the
child of the semidominator that is above them is linked. -/
structure Processed (edge : Nat → Nat → Prop) (parent : Nat → Nat) (n i : Nat) (t : Infos) : Prop where
  linked : Linked parent n i t
  parents : t.parent = parent
  waiting : ∀ r, 0 < r → r ≤ i → t.sdno r = r
  done : ∀ w, i < w → w ≤ n → t.sdno w = semidominator edge w
  settled : ∀ w, i < w → w ≤ n → Settled edge parent w (t.idom w) ∨ w ∈ t.bucket (semidominator edge w)
  buckets : ∀ p w, w ∈ t.bucket p → i < w ∧ w ≤ n ∧ semidominator edge w = p ∧ ∃ c, parent c = p ∧ p < c ∧ c ≤ i ∧ Above parent c w

-- When i is linked too, the bucket of its parent is still to be emptied.
structure Filled (edge : Nat → Nat → Prop) (parent : Nat → Nat) (n i : Nat) (t : Infos) : Prop extends SemiFound edge n i t where
  linked : Linked parent n (i - 1) t
  parents : t.parent = parent
  settled : ∀ w, i ≤ w → w ≤ n → Settled edge parent w (t.idom w) ∨ w ∈ t.bucket (semidominator edge w)
  buckets : ∀ p w, w ∈ t.bucket p → i ≤ w ∧ w ≤ n ∧ semidominator edge w = p ∧ ∃ c, parent c = p ∧ p < c ∧ c ≤ i ∧ Above parent c w

-- The entries of index i are the edges against the search.
def Indexed (post : Bool) (cfg : CFG) (dfNumbers : Nat → Int) (edge : Nat → Nat → Prop) (n : Nat) (block : Nat → Nat) : Prop :=
  ∀ i, 0 < i → i ≤ n → ∀ x, edge i x ↔ ∃ b ∈ cfg.against post (block i), (dfNumbers b + 1).toNat = x

include tree

theorem fillStep (processed : Processed edge parent n i t) (less : 1 < i) (last : i ≤ n) (indexed : Indexed post cfg dfNumbers edge n t.block)
    (enough : n < fuel) :
    ∃ t', (process post cfg fuel dfNumbers t i = do
        let infos ← (t'.bucket (parent i)).sort.foldlM (resolve fuel (parent i)) t'
        some {infos with bucket := Function.update infos.bucket (parent i) ∅}) ∧ t'.block = t.block ∧ Filled edge parent n i t' := by
  have here := indexed i (by omega) last
  have own := processed.waiting i (by omega) (Nat.le_refl i)
  have below := tree.semidominatorBelow less last
  obtain ⟨t1,ran1,kept,linked1,known,bound,_,met⟩ := lowerAll tree (fun b => (dfNumbers b + 1).toNat) (cfg.against post (t.block i)) processed.linked
    ⟨fun r pos before => processed.waiting r pos (Nat.le_of_lt before),processed.done⟩ (by omega) (fun b on => (here _).mpr ⟨b,on,rfl⟩) (Nat.le_of_lt enough)
  have found : t1.sdno i = semidominator edge i := semiFound tree less last bound fun x on => by
    obtain ⟨b,onB,rfl⟩ := (here x).mp on
    exact met b onB
  have parent1 : t1.parent = parent := kept.parent.trans processed.parents
  obtain ⟨t3,ran3,same3,linked3⟩ := linkLinked tree (linked1.congr t1.idom (Function.update t1.bucket (t1.sdno i) (insert i (t1.bucket (t1.sdno i))))) less last enough
  have frame : t3.block = t1.block ∧ t3.parent = parent ∧ t3.idom = t.idom ∧ t3.sdno = t1.sdno ∧
      t3.bucket = Function.update t.bucket (semidominator edge i) (insert i (t.bucket (semidominator edge i))) := by
    rw [same3]
    dsimp only
    rw [found,kept.bucket]
    exact ⟨rfl,parent1,kept.idom,rfl,rfl⟩
  obtain ⟨block3,parent3,idom3,sdno3,bucket3⟩ := frame
  refine ⟨t3,?_,block3.trans kept.block,⟨by rw [sdno3]; exact known.waiting,fun w after lastW => ?_⟩,linked3,parent3,fun w after lastW => ?_,fun p w on => ?_⟩
  · unfold process
    rw [ran1]
    simp only [Option.bind_eq_bind,Option.bind_some]
    rw [congrFun parent1 i,ran3]
    simp only [Option.bind_some,parent3]
  · rw [sdno3]
    rcases Nat.lt_or_eq_of_le after with later | same
    · exact known.done w later lastW
    · rw [← same]
      exact found
  · rw [idom3,bucket3]
    by_cases isI : w = i
    · rw [isI,Function.update_self]
      exact .inr (Finset.mem_insert_self _ _)
    · refine (processed.settled w (by omega) lastW).imp_right fun on => ?_
      by_cases same : semidominator edge w = semidominator edge i
      · rw [same,Function.update_self,← same]
        exact Finset.mem_insert_of_mem on
      · rwa [Function.update_of_ne same]
  · rw [bucket3] at on
    have before := fun on : w ∈ t.bucket p => (processed.buckets p w on).imp_left Nat.le_of_lt
    by_cases same : p = semidominator edge i
    · rw [same,Function.update_self,Finset.mem_insert,← same] at on
      rcases on with isI | on
      · obtain ⟨c,from',lessC,above⟩ := (tree.semidominatorAbove less last).child (by omega)
        rw [isI,same]
        exact ⟨Nat.le_refl i,last,rfl,c,from',lessC,above.le,above⟩
      · exact before on
    · rw [Function.update_of_ne same] at on
      exact before on

theorem processStep (processed : Processed edge parent n i t) (less : 1 < i) (last : i ≤ n) (indexed : Indexed post cfg dfNumbers edge n t.block)
    (enough : n < fuel) :
    ∃ t', process post cfg fuel dfNumbers t i = some t' ∧ t'.block = t.block ∧ Processed edge parent n (i - 1) t' := by
  obtain ⟨t3,ran3,block3,filled⟩ := fillStep tree processed less last indexed enough
  -- The child of the parent of i that is above a vertex in its bucket is i.
  have ready : ∀ v ∈ (t3.bucket (parent i)).sort, semidominator edge v = parent i ∧ Above parent i v ∧ v ≤ n := fun v on => by
    obtain ⟨after,lastV,semi,c,from',lessC,upTo,above⟩ := filled.buckets (parent i) v ((Finset.mem_sort _).mp on)
    refine ⟨semi,?_,lastV⟩
    have aboveI := tree.between c i v above (by omega) lastV upTo after
    by_cases same : c = i
    · exact same ▸ above
    · have := (aboveI.before same).2.2.le
      omega
  obtain ⟨t4,ran4,block4,parent4,bucket4,sdno4,linked4,all,others⟩ := resolveAll tree _ filled.linked less filled.toSemiFound ready (Nat.le_of_lt enough)
  refine ⟨{t4 with bucket := Function.update t4.bucket (parent i) ∅},by rw [ran3,ran4]; rfl,block4.trans block3,linked4.congr t4.idom _,parent4.trans filled.parents,
    fun r pos atMost => ?_,fun w after lastW => ?_,fun w after lastW => ?_,fun p w on => ?_⟩
  · dsimp only
    rw [sdno4]
    exact filled.waiting r pos (by omega)
  · dsimp only
    rw [sdno4]
    exact filled.done w (by omega) lastW
  · dsimp only
    by_cases onBucket : w ∈ t3.bucket (parent i)
    · exact .inl (all w ((Finset.mem_sort _).mpr onBucket))
    · rw [others w fun on => onBucket ((Finset.mem_sort _).mp on),bucket4]
      refine (filled.settled w (by omega) lastW).imp_right fun on => ?_
      have other : semidominator edge w ≠ parent i := fun same => onBucket (same ▸ on)
      rwa [Function.update_of_ne other]
  · dsimp only at on
    rw [bucket4] at on
    by_cases same : p = parent i
    · rw [same,Function.update_self] at on
      exact absurd on (Finset.notMem_empty w)
    · rw [Function.update_of_ne same] at on
      obtain ⟨after,lastW,semi,c,from',lessC,upTo,above⟩ := filled.buckets p w on
      have other : c ≠ i := fun isI => same (by rw [← from',isI])
      exact ⟨by omega,lastW,semi,c,from',lessC,by omega,above⟩

theorem processedAll (i : Nat) (pos : 0 < i) (last : i ≤ n) (processed : Processed edge parent n i t)
    (indexed : Indexed post cfg dfNumbers edge n t.block) (enough : n < fuel) :
    ∃ t', processAll post cfg fuel dfNumbers i t = some t' ∧ t'.block = t.block ∧ Processed edge parent n 1 t' := by
  induction i using Nat.strongRecOn generalizing t with
  | ind i ih =>
      match i with
      | 0 => exact absurd pos (Nat.lt_irrefl 0)
      | 1 => exact ⟨t,rfl,rfl,processed⟩
      | i + 2 =>
          obtain ⟨t1,ran,block,processed1⟩ := processStep tree processed (by omega) last indexed enough
          obtain ⟨t',rest,block',processed'⟩ := ih (i + 1) (by omega) (by omega) (by omega) processed1 (by rw [block]; exact indexed)
          refine ⟨t',?_,block'.trans block,processed'⟩
          rw [processAll,ran]
          exact rest

-- In the end nothing waits in a bucket.
theorem Processed.settledAll (processed : Processed edge parent n 1 t) (w : Nat) (less : 1 < w) (last : w ≤ n) : Settled edge parent w (t.idom w) := by
  rcases processed.settled w less last with settled | on
  · exact settled
  · obtain ⟨_,_,_,c,_,after,atMost,_⟩ := processed.buckets _ w on
    have := tree.semiPos (tree.semidominatorSemi less last)
    omega

-- From the top down, the recorded vertices lead to the immediate dominators.
theorem adjusted (count i : Nat) (pos : 1 < i) (upTo : i + count ≤ n + 1) (done : ∀ w, 1 < w → w ≤ n → t.sdno w = semidominator edge w)
    (before : ∀ w, 1 < w → w < i → Immediate edge 1 (t.idom w) w) (settled : ∀ w, i ≤ w → w ≤ n → Settled edge parent w (t.idom w)) :
    (adjust count i t).block = t.block ∧ ∀ w, 1 < w → w < i + count → Immediate edge 1 ((adjust count i t).idom w) w := by
  induction count generalizing i t with
  | zero => exact ⟨rfl,before⟩
  | succ count ih =>
      have last : i ≤ n := by omega
      have immediate : Immediate edge 1 (if t.idom i ≠ t.sdno i then t.idom (t.idom i) else t.idom i) i := by
        have recorded := settled i (Nat.le_refl i) last
        rw [done i pos last]
        generalize own : t.idom i = d at recorded
        cases recorded with
        | semi least =>
            rw [if_neg (fun other => other rfl)]
            exact tree.immediateSemidominator pos last fun y above apart under => least y ⟨above,apart,under⟩
        | shared between lower least =>
            obtain ⟨above,apart,under⟩ := between
            have first := tree.semiPos (tree.semidominatorSemi pos last)
            have from' := above.le
            have inside := under.le
            have other : d ≠ i := fun same => Nat.lt_irrefl _ (same ▸ lower)
            rw [if_pos (Ne.symm apart)]
            exact tree.immediateShared pos last above apart under lower (fun y above apart under => least y ⟨above,apart,under⟩) (before d (by omega) (by omega))
      rw [adjust,Nat.add_comm count 1,← Nat.add_assoc]
      split
      · rename_i other
        rw [if_pos other] at immediate
        refine ih (t := {t with idom := Function.update t.idom i (t.idom (t.idom i))}) (i + 1) (by omega) (by omega) done (fun w after less => ?_) fun w after lastW => ?_
        · dsimp only
          by_cases here : w = i
          · rw [here,Function.update_self]
            exact immediate
          · rw [Function.update_of_ne here]
            exact before w after (by omega)
        · dsimp only
          rw [Function.update_of_ne (by omega)]
          exact settled w (by omega) lastW
      · rename_i same
        rw [if_neg same] at immediate
        refine ih (i + 1) (by omega) (by omega) done (fun w after less => ?_) fun w after lastW => settled w (by omega) lastW
        by_cases here : w = i
        · rw [here]
          exact immediate
        · exact before w after (by omega)

end Process

end OmrCompiler.Dominators
