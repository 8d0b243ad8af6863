import OmrCompiler.DominatorForest

/-! The balanced forest of the dominator search. The subtree of a vertex that is linked is
spread over the trees of a chain of roots; a label on the way to its root that is not above
a vertex never is the lowest one there. -/
namespace OmrCompiler.Dominators
open Semidominators

section Roots
variable {parent : Nat → Nat} {n i j r s x y p : Nat}

-- Vertices after i are linked: those on the way up from x, and the first one that is not.
def Way (parent : Nat → Nat) (i x y : Nat) : Prop := Above parent y x ∧ i < y

structure Root (parent : Nat → Nat) (i r x : Nat) : Prop where
  above : Above parent r x
  atMost : r ≤ i
  greatest : ∀ y, Above parent y x → y ≤ i → y ≤ r

theorem Root.unique (one : Root parent i r x) (two : Root parent i s x) : r = s :=
  Nat.le_antisymm (two.greatest r one.above one.atMost) (one.greatest s two.above two.atMost)

theorem rootSelf (atMost : r ≤ i) : Root parent i r r := ⟨.here,atMost,fun _ above _ => above.le⟩

theorem rootUnder (above : Above parent i x) : Root parent i i x := ⟨above,Nat.le_refl i,fun _ _ atMost => atMost⟩

-- When i is linked too, the vertices below it get the root of its parent.
theorem Root.ofParent (pos : 0 < parent i) (less : parent i < i) (above : Above parent i x) : Root parent (i - 1) (parent i) x := by
  refine ⟨(Above.up pos less .here).trans above,by omega,fun y aboveY atMost => ?_⟩
  have before : Above parent y i := aboveY.linear above (by omega)
  exact (before.before (by omega)).2.2.le

theorem Root.next (root : Root parent i r x) (apart : ¬ Above parent i x) : Root parent (i - 1) r x := by
  have other : r ≠ i := fun same => apart (same ▸ root.above)
  have := root.atMost
  exact ⟨root.above,by omega,fun y above atMost => root.greatest y above (by omega)⟩

theorem wayNext (pos : 0 < i) : Way parent (i - 1) x y ↔ Way parent i x y ∨ y = i ∧ Above parent i x := by
  constructor
  · rintro ⟨above,after⟩
    by_cases here : y = i
    · exact .inr ⟨here,here ▸ above⟩
    · exact .inl ⟨above,by omega⟩
  · rintro (⟨above,after⟩ | ⟨rfl,above⟩)
    · exact ⟨above,by omega⟩
    · exact ⟨above,by omega⟩

theorem rootExists {edge : Nat → Nat → Prop} (tree : SpanningTree edge parent n) (some : 0 < i) (pos : 0 < x) (last : x ≤ n) : ∃ r, 0 < r ∧ Root parent i r x := by
  induction x using Nat.strongRecOn with
  | ind x ih =>
      by_cases atMost : x ≤ i
      · exact ⟨x,pos,rootSelf atMost⟩
      · obtain ⟨posP,less,_⟩ := tree.up x (by omega) last
        obtain ⟨r,posR,root⟩ := ih (parent x) less posP (by omega)
        refine ⟨r,posR,.up posP less root.above,root.atMost,fun y above atMostY => ?_⟩
        exact root.greatest y (above.before (by omega)).2.2 atMostY

end Roots

section Labels
variable {parent : Nat → Nat} {t t' : Infos} {i j n p x : Nat} {l c : List Nat}

/- The lowest label on the way from x is the lowest of the linked vertices above it. The other
labels are above it too, or its root, or higher. -/
structure Spots (parent : Nat → Nat) (i : Nat) (t : Infos) (x : Nat) (l : List Nat) : Prop where
  least : ∀ y, Way parent i x y → ∃ q ∈ l.map t.label, t.sdno q ≤ t.sdno y
  among : ∀ q ∈ l.map t.label, Way parent i x q ∨ Root parent i q x ∨ ∃ y, Way parent i x y ∧ t.sdno y < t.sdno q

theorem Spots.rooted (spots : Spots parent i t x l) (root : Root parent i p x) (own : t.label p = p) : Spots parent i t x (l ++ [p]) := by
  refine ⟨fun y way => ?_,fun q on => ?_⟩
  · obtain ⟨q,on,less⟩ := spots.least y way
    exact ⟨q,by rw [List.map_append]; exact List.mem_append_left _ on,less⟩
  · rw [List.map_append,List.mem_append] at on
    rcases on with before | last
    · exact spots.among q before
    · rw [List.map_singleton,List.mem_singleton,own] at last
      exact .inr (.inl (last ▸ root))

-- Roots of trees in the subtree of r, with labels that do not get higher.
structure Roots (parent : Nat → Nat) (n i r : Nat) (t : Infos) (c : List Nat) : Prop where
  roots : ∀ k ∈ c, t.ancestor k = 0 ∧ i < t.label k ∧ Root parent i r k ∧ i < k ∧ k ≤ n
  sorted : c.Pairwise fun k k' => t.sdno (t.label k') ≤ t.sdno (t.label k)

structure Chain (parent : Nat → Nat) (n i r : Nat) (t : Infos) (c : List Nat) : Prop extends Roots parent n i r t c where
  follows : Follows t.child (t.child r) c

structure Route (parent : Nat → Nat) (n i : Nat) (t : Infos) (x : Nat) (l : List Nat) : Prop where
  follows : Follows t.ancestor x l
  inside : ∀ k ∈ l, k ≤ n
  spots : Spots parent i t x l
  ends : ∀ k ∈ l, t.ancestor k = 0 → ∃ r, 0 < r ∧ Root parent i r x ∧ (k = r ∨ ∃ c, Chain parent n i r t c ∧ k ∈ c)

structure Linked (parent : Nat → Nat) (n i : Nat) (t : Infos) : Prop where
  zero : t.ancestor 0 = 0 ∧ t.label 0 = 0 ∧ t.sdno 0 = 0
  fresh : ∀ r, 0 < r → r ≤ i → t.ancestor r = 0 ∧ t.label r = r
  later : ∀ x, t.ancestor x ≠ 0 → i < t.label x
  route : ∀ x, 0 < x → x ≤ n → ∃ l, Route parent n i t x l
  chain : ∀ r, 0 < r → r ≤ i → ∃ c, Chain parent n i r t c

theorem Chain.shorter {r : Nat} (chain : Chain parent n i r t c) (shorter : Shorter t t') : Chain parent n i r t' c := by
  have child : t'.child = t.child := by rw [shorter.same]
  refine ⟨⟨fun k on => ?_,?_⟩,by rw [child]; exact chain.follows⟩
  · obtain ⟨none,rest⟩ := chain.roots k on
    rw [shorter.rootLabel k none]
    exact ⟨(shorter.root k).mpr none,rest⟩
  · refine chain.sorted.imp_of_mem fun {k k'} on on' less => ?_
    rw [shorter.sdno,shorter.rootLabel k (chain.roots k on).1,shorter.rootLabel k' (chain.roots k' on').1]
    exact less

theorem Linked.shorter (linked : Linked parent n i t) (shorter : Shorter t t') : Linked parent n i t' := by
  have sdno := shorter.sdno
  refine ⟨?_,fun r pos atMost => ?_,fun x some => ?_,fun x pos last => ?_,fun r pos atMost => ?_⟩
  · rw [shorter.root,shorter.rootLabel 0 linked.zero.1,sdno]
    exact linked.zero
  · have fresh := linked.fresh r pos atMost
    exact ⟨(shorter.root r).mpr fresh.1,(shorter.rootLabel r fresh.1).trans fresh.2⟩
  · obtain ⟨y,someY,same⟩ := shorter.label x (mt (shorter.root x).mpr some)
    rw [same]
    exact linked.later y someY
  · obtain ⟨l,route⟩ := linked.route x pos last
    obtain ⟨l',follows,sub,keeps,labels,least⟩ := shorter.path x l route.follows
    refine ⟨l',follows,fun k on => route.inside k (sub k on),⟨fun y way => ?_,fun q on => ?_⟩,fun k on none => ?_⟩
    · obtain ⟨q,on,less⟩ := route.spots.least y way
      obtain ⟨q',on',less'⟩ := least q on
      rw [sdno]
      exact ⟨q',on',Nat.le_trans less' less⟩
    · rw [sdno]
      exact route.spots.among q (labels q on)
    · obtain ⟨r,posR,root,same | ⟨c,chain,onC⟩⟩ := route.ends k (sub k on) ((shorter.root k).mp none)
      · exact ⟨r,posR,root,.inl same⟩
      · exact ⟨r,posR,root,.inr ⟨c,chain.shorter shorter,onC⟩⟩
  · obtain ⟨c,chain⟩ := linked.chain r pos atMost
    exact ⟨c,chain.shorter shorter⟩

end Labels

section Attach
variable {next next' : Nat → Nat} {x p : Nat} {l e : List Nat}

-- Some last vertices now lead to p.
theorem Follows.graftAll (follows : Follows next x l) (ends : ∀ k ∈ e, next k = 0) (someP : p ≠ 0) (lastP : next p = 0) (apart : p ∉ e)
    (same : ∀ k, next' k = if k ∈ e then p else next k) :
    (∀ k ∈ l, k ∉ e) ∧ Follows next' x l ∨ (∃ k ∈ l, k ∈ e) ∧ Follows next' x (l ++ [p]) := by
  induction follows with
  | stop => exact .inl ⟨by simp,.stop⟩
  | @step x l some rest ih =>
      have nextX := same x
      by_cases on : x ∈ e
      · rw [ends x on] at rest
        rw [if_pos on] at nextX
        cases rest with
        | step again _ => exact absurd rfl again
        | stop =>
            refine .inr ⟨⟨x,List.mem_cons_self,on⟩,.step some ?_⟩
            rw [nextX]
            refine .step someP ?_
            rw [same,if_neg apart,lastP]
            exact .stop
      · rw [if_neg on] at nextX
        rcases ih with ⟨none,follows⟩ | ⟨⟨k,onL,onE⟩,follows⟩
        · refine .inl ⟨fun k onK => ?_,.step some (nextX ▸ follows)⟩
          rcases List.mem_cons.mp onK with here | later
          · exact here ▸ on
          · exact none k later
        · exact .inr ⟨⟨k,List.mem_cons_of_mem _ onL,onE⟩,.step some (nextX ▸ follows)⟩

theorem Follows.congr (follows : Follows next x l) (same : ∀ k ∈ l, next' k = next k) : Follows next' x l := by
  induction follows with
  | stop => exact .stop
  | @step x l some rest ih =>
      refine .step some ?_
      rw [same x List.mem_cons_self]
      exact ih fun k on => same k (List.mem_cons_of_mem _ on)

theorem Follows.last (follows : Follows next x l) (some : x ≠ 0) : ∃ k ∈ l, next k = 0 := by
  induction follows with
  | stop => exact absurd rfl some
  | @step x l _ rest ih =>
      by_cases none : next x = 0
      · exact ⟨x,List.mem_cons_self,none⟩
      · obtain ⟨k,on,last⟩ := ih none
        exact ⟨k,List.mem_cons_of_mem _ on,last⟩

theorem adoptAllSpec {t : Infos} {si : Nat} (fuel : Nat) (follows : Follows t.child si e) (enough : e.length < fuel) :
    ∃ t', adoptAll p fuel t si = some t' ∧ t' = {t with ancestor := t'.ancestor} ∧ ∀ k, t'.ancestor k = if k ∈ e then p else t.ancestor k := by
  induction fuel generalizing t si e with
  | zero => exact absurd enough (Nat.not_lt_zero _)
  | succ fuel ih =>
      rw [adoptAll]
      cases follows with
      | stop => exact ⟨t,rfl,rfl,fun k => by simp⟩
      | @step _ e some rest =>
          rw [if_pos some]
          obtain ⟨t',ran,same,each⟩ := ih (t := {t with ancestor := Function.update t.ancestor si p}) rest (by simpa using enough)
          refine ⟨t',ran,same,fun k => ?_⟩
          rw [each k]
          by_cases on : k ∈ e
          · simp [on]
          · by_cases here : k = si
            · simp [here]
            · simp [on,here]

end Attach

section Rebalance
variable {parent : Nat → Nat} {t0 t t' : Infos} {i n s x k z : Nat} {l c R R' : List Nat}

/- The way from x below i, with the roots R of the trees below i; with i linked, labels on it
are above x or not the lowest. -/
structure Joined (parent : Nat → Nat) (n i : Nat) (t : Infos) (R : List Nat) (x : Nat) (l : List Nat) : Prop where
  follows : Follows t.ancestor x l
  inside : ∀ k ∈ l, k ≤ n
  ends : ∀ k ∈ l, t.ancestor k = 0 → k ∈ R
  least : ∀ y, Way parent i x y → ∃ q ∈ l.map t.label, t.sdno q ≤ t.sdno y
  among : ∀ q ∈ l.map t.label, Way parent (i - 1) x q ∨ ∃ y, Way parent (i - 1) x y ∧ t.sdno y < t.sdno q

-- One root gets another one as its ancestor.
theorem Joined.graft (joined : Joined parent n i t R x l) (pos : 0 < i) (below : Above parent i x) (label : t'.label = t.label) (sdno : t'.sdno = t.sdno)
    (ancestor : t'.ancestor = Function.update t.ancestor k z) (lastK : t.ancestor k = 0) (lastZ : t.ancestor z = 0) (someZ : z ≠ 0) (lastN : z ≤ n)
    (apart : k ≠ z) (good : t.label z = i ∨ t.sdno i < t.sdno (t.label z)) (roots : ∀ r ∈ R, r ≠ k → r ∈ R') (onZ : z ∈ R') :
    ∃ l', Joined parent n i t' R' x l' := by
  have self : Way parent (i - 1) x i := ⟨below,by omega⟩
  have ends : ∀ r, t'.ancestor r = 0 → r ≠ k ∧ t.ancestor r = 0 := fun r none => by
    rw [ancestor] at none
    by_cases here : r = k
    · rw [here,Function.update_self] at none
      exact absurd none someZ
    · rw [Function.update_of_ne here] at none
      exact ⟨here,none⟩
  by_cases on : k ∈ l
  · refine ⟨l ++ [z],?_,fun r onR => ?_,fun r onR none => ?_,fun y way => ?_,fun q onQ => ?_⟩
    · rw [ancestor]
      exact joined.follows.graft lastK on (.step someZ (by rw [lastZ]; exact .stop)) (by simpa using apart)
    · rcases List.mem_append.mp onR with before | last
      · exact joined.inside r before
      · rwa [List.mem_singleton.mp last]
    · obtain ⟨other,none⟩ := ends r none
      rcases List.mem_append.mp onR with before | last
      · exact roots r (joined.ends r before none) other
      · rwa [List.mem_singleton.mp last]
    · obtain ⟨q,onQ,less⟩ := joined.least y way
      rw [sdno,label,List.map_append]
      exact ⟨q,List.mem_append_left _ onQ,less⟩
    · rw [label,List.map_append,List.mem_append] at onQ
      rw [sdno]
      rcases onQ with before | last
      · exact joined.among q before
      · rw [List.map_singleton,List.mem_singleton] at last
        rcases good with own | higher
        · exact .inl (by rw [last,own]; exact self)
        · exact .inr ⟨i,self,by rw [last]; exact higher⟩
  · refine ⟨l,by rw [ancestor]; exact joined.follows.update on z,joined.inside,fun r onR none => ?_,?_,?_⟩
    · obtain ⟨other,none⟩ := ends r none
      exact roots r (joined.ends r onR none) other
    · rw [sdno,label]
      exact joined.least
    · rw [sdno,label]
      exact joined.among

structure Merging (parent : Nat → Nat) (n i : Nat) (t0 t : Infos) (s : Nat) (c : List Nat) : Prop where
  same : t = {t0 with ancestor := t.ancestor, child := t.child, size := t.size}
  current : t.label s = i ∨ t.sdno i < t.sdno (t.label s)
  follows : Follows t.child s (s::c)
  roots : ∀ k ∈ s::c, t.ancestor k = 0 ∧ Above parent i k ∧ k ≤ n
  after : ∀ k ∈ c, i < t.label k
  own : i < t.label s ∨ s = i
  sorted : c.Pairwise fun k k' => t.sdno (t.label k') ≤ t.sdno (t.label k)
  others : ∀ k, ¬ Above parent i k → t.ancestor k = t0.ancestor k ∧ t.child k = t0.child k
  later : ∀ x, t.ancestor x ≠ 0 → i ≤ t.label x
  route : ∀ x, Above parent i x → x ≤ n → ∃ l, Joined parent n i t (s::c) x l

theorem Merging.next {d : Nat} (merging : Merging parent n i t0 t s (d::c)) :
    t.child s = d ∧ s ≠ 0 ∧ d ≠ 0 ∧ Follows t.child (t.child d) c ∧ s ≠ d ∧ s ∉ c ∧ d ∉ c := by
  obtain ⟨_,someS,tail⟩ := merging.follows.cons
  obtain ⟨next,someD,tail'⟩ := tail.cons
  obtain ⟨offS,nodup⟩ := List.nodup_cons.mp merging.follows.nodup
  exact ⟨next,someS,someD,tail',fun same => offS (by simp [same]),fun on => offS (List.mem_cons_of_mem _ on),(List.nodup_cons.mp nodup).1⟩

-- The child joins the tree of s.
theorem Merging.childUnder {d : Nat} (merging : Merging parent n i t0 t s (d::c)) (pos : 0 < i) :
    Merging parent n i t0 {t with ancestor := Function.update t.ancestor d s, child := Function.update t.child s (t.child d)} s c := by
  obtain ⟨_,someS,_,tail,apart,offS,offD⟩ := merging.next
  obtain ⟨lastS,aboveS,insideS⟩ := merging.roots s List.mem_cons_self
  obtain ⟨lastD,aboveD,_⟩ := merging.roots d (by simp)
  refine ⟨by rw [merging.same],merging.current,.step someS ?_,fun k on => ?_,fun k on => merging.after k (List.mem_cons_of_mem _ on),
    merging.own,(List.pairwise_cons.mp merging.sorted).2,fun k off => ?_,fun x some => ?_,fun x above last => ?_⟩
  · dsimp only
    rw [Function.update_self]
    exact tail.update offS _
  · have other : k ≠ d := by
      rcases List.mem_cons.mp on with here | later
      · rwa [here]
      · exact fun same => offD (same ▸ later)
    dsimp only
    rw [Function.update_of_ne other]
    refine merging.roots k ?_
    rcases List.mem_cons.mp on with here | later
    · simp [here]
    · simp [later]
  · have notD : k ≠ d := fun same => off (same ▸ aboveD)
    have notS : k ≠ s := fun same => off (same ▸ aboveS)
    dsimp only
    rw [Function.update_of_ne notD,Function.update_of_ne notS]
    exact merging.others k off
  · by_cases here : x = d
    · exact Nat.le_of_lt (here ▸ merging.after d List.mem_cons_self)
    · dsimp only at some
      rw [Function.update_of_ne here] at some
      exact merging.later x some
  · obtain ⟨l,joined⟩ := merging.route x above last
    refine joined.graft pos above rfl rfl rfl lastD lastS someS insideS (Ne.symm apart) merging.current (fun r on other => ?_) List.mem_cons_self
    simpa [other] using on

-- The tree of s joins that of the child.
theorem Merging.underChild {d : Nat} (merging : Merging parent n i t0 t s (d::c)) (pos : 0 < i) (ownLabel : t0.label i = i) (lower : t.sdno i < t.sdno (t.label d)) :
    Merging parent n i t0 {t with size := Function.update t.size d (t.size s), ancestor := Function.update t.ancestor s d} d c := by
  obtain ⟨_,_,someD,tail,apart,offS,_⟩ := merging.next
  obtain ⟨lastS,aboveS,_⟩ := merging.roots s List.mem_cons_self
  obtain ⟨lastD,_,insideD⟩ := merging.roots d (by simp)
  refine ⟨by rw [merging.same],.inr lower,.step someD tail,fun k on => ?_,fun k on => merging.after k (List.mem_cons_of_mem _ on),
    .inl (merging.after d List.mem_cons_self),(List.pairwise_cons.mp merging.sorted).2,fun k off => ?_,fun x some => ?_,fun x above last => ?_⟩
  · have other : k ≠ s := by
      rintro rfl
      rcases List.mem_cons.mp on with here | later
      · exact apart here
      · exact offS later
    dsimp only
    rw [Function.update_of_ne other]
    exact merging.roots k (List.mem_cons_of_mem _ on)
  · have notS : k ≠ s := fun same => off (same ▸ aboveS)
    dsimp only
    rw [Function.update_of_ne notS]
    exact merging.others k off
  · by_cases here : x = s
    · rw [here]
      rcases merging.own with own | own
      · exact Nat.le_of_lt own
      · dsimp only
        rw [own,merging.same]
        exact ownLabel.ge
    · dsimp only at some
      rw [Function.update_of_ne here] at some
      exact merging.later x some
  · obtain ⟨l,joined⟩ := merging.route x above last
    refine joined.graft pos above rfl rfl rfl lastS lastD someD insideD apart (.inr lower) (fun r on other => ?_) List.mem_cons_self
    simpa [other] using on

theorem rebalanceMerges (zero : t0.label 0 = 0 ∧ t0.sdno 0 = 0) (pos : 0 < i) (ownLabel : t0.label i = i) (fuel : Nat) (merging : Merging parent n i t0 t s c)
    (enough : c.length < fuel) :
    ∃ t' s' c', rebalance (t.sdno i) fuel t s = some (t',s') ∧ Merging parent n i t0 t' s' c' ∧ ∀ k ∈ c', t'.sdno (t'.label k) ≤ t'.sdno i := by
  induction fuel generalizing t s c with
  | zero => exact absurd enough (Nat.not_lt_zero _)
  | succ fuel ih =>
      rw [rebalance]
      split
      · rename_i lower
        rcases c with - | ⟨d,c⟩
        · rw [merging.follows.cons.2.2.nil,merging.same] at lower
          dsimp only at lower
          rw [zero.1,zero.2] at lower
          exact absurd lower (Nat.not_lt_zero _)
        · have next := merging.next.1
          rw [next] at lower ⊢
          split
          · exact ih (merging.childUnder pos) (by simpa using enough)
          · exact ih (merging.underChild pos ownLabel lower) (by simpa using enough)
      · rename_i done
        refine ⟨t,s,c,rfl,merging,fun k on => ?_⟩
        rcases c with - | ⟨d,c⟩
        · cases on
        · rw [merging.next.1] at done
          rcases List.mem_cons.mp on with here | later
          · rw [here]
            omega
          · have := (List.pairwise_cons.mp merging.sorted).1 k later
            omega

end Rebalance

section Double
variable {parent : Nat → Nat} {t t' : Infos} {j n p x r : Nat} {l c e : List Nat}

-- The subtree of p has the roots of two chains, e and c, beside p.
structure Doubled (parent : Nat → Nat) (n j p : Nat) (t : Infos) (e c : List Nat) : Prop where
  zero : t.ancestor 0 = 0 ∧ t.label 0 = 0 ∧ t.sdno 0 = 0
  fresh : ∀ r, 0 < r → r ≤ j → t.ancestor r = 0 ∧ t.label r = r
  later : ∀ x, t.ancestor x ≠ 0 → j < t.label x
  rootsE : Roots parent n j p t e
  rootsC : Roots parent n j p t c
  apart : ∀ k ∈ e, k ∉ c
  chain : ∀ r, 0 < r → r ≤ j → r ≠ p → ∃ c, Chain parent n j r t c
  route : ∀ x, 0 < x → x ≤ n → ∃ l, Follows t.ancestor x l ∧ (∀ k ∈ l, k ≤ n) ∧ Spots parent j t x l ∧
    ∀ k ∈ l, t.ancestor k = 0 → ∃ r, 0 < r ∧ Root parent j r x ∧ (k = r ∨ r = p ∧ (k ∈ e ∨ k ∈ c) ∨ r ≠ p ∧ ∃ c, Chain parent n j r t c ∧ k ∈ c)

-- The roots of the first chain become children of p.
theorem Doubled.attach (doubled : Doubled parent n j p t e c) (pos : 0 < p) (atMost : p ≤ j) (label : t'.label = t.label) (sdno : t'.sdno = t.sdno)
    (ancestor : ∀ k, t'.ancestor k = if k ∈ e then p else t.ancestor k) (child : ∀ k, k ≠ p → t'.child k = t.child k)
    (follows : Follows t'.child (t'.child p) c) : Linked parent n j t' := by
  have offLow : ∀ k, k ≤ j → k ∉ e := fun k low on => by
    have := (doubled.rootsE.roots k on).2.2.2.1
    omega
  have low : ∀ k, k ≤ j → t'.ancestor k = t.ancestor k := fun k low => by rw [ancestor,if_neg (offLow k low)]
  have others : ∀ r c, r ≠ p → (∀ k ∈ c, j < k) → Follows t.child (t.child r) c → Follows t'.child (t'.child r) c := fun r c other high follows => by
    rw [child r other]
    exact follows.congr fun k on => child k fun same => by
      have := high k on
      omega
  have keeps : ∀ {r c}, Roots parent n j r t c → (∀ k ∈ c, k ∉ e) → Roots parent n j r t' c := fun roots off => by
    refine ⟨fun k on => ?_,by rw [sdno,label]; exact roots.sorted⟩
    rw [ancestor,if_neg (off k on),label]
    exact roots.roots k on
  have chains : ∀ r, 0 < r → r ≤ j → r ≠ p → ∃ c, Chain parent n j r t' c ∧ Follows t.child (t.child r) c := by
    intro r posR atMostR other
    obtain ⟨c',chain⟩ := doubled.chain r posR atMostR other
    refine ⟨c',⟨keeps chain.toRoots fun k on onE => ?_,others r c' other (fun k on => (chain.roots k on).2.2.2.1) chain.follows⟩,chain.follows⟩
    exact other ((chain.roots k on).2.2.1.unique (doubled.rootsE.roots k onE).2.2.1)
  have chainP : Chain parent n j p t' c := ⟨keeps doubled.rootsC fun k onC onE => doubled.apart k onE onC,follows⟩
  refine ⟨?_,fun r posR atMostR => ?_,fun x some => ?_,fun x posX last => ?_,fun r posR atMostR => ?_⟩
  · rw [low 0 (Nat.zero_le j),label,sdno]
    exact doubled.zero
  · rw [low r atMostR,label]
    exact doubled.fresh r posR atMostR
  · rw [label]
    rw [ancestor] at some
    split at some
    · rename_i on
      exact (doubled.rootsE.roots x on).2.1
    · exact doubled.later x some
  · obtain ⟨l,follows',inside,spots,ends⟩ := doubled.route x posX last
    have spots' : Spots parent j t' x l := by
      refine ⟨?_,?_⟩
      · rw [label,sdno]
        exact spots.least
      · rw [label,sdno]
        exact spots.among
    rcases follows'.graftAll (fun k on => (doubled.rootsE.roots k on).1) (Nat.ne_of_gt pos) (doubled.fresh p pos atMost).1 (offLow p atMost) ancestor with
      ⟨none,route⟩ | ⟨⟨k,onL,onE⟩,route⟩
    · refine ⟨l,route,inside,spots',fun k on last' => ?_⟩
      rw [ancestor,if_neg (none k on)] at last'
      obtain ⟨r,posR,root,same | ⟨isP,onE | onC⟩ | ⟨other,c',chain,onC⟩⟩ := ends k on last'
      · exact ⟨r,posR,root,.inl same⟩
      · exact absurd onE (none k on)
      · exact ⟨r,posR,root,.inr ⟨c,by rw [isP]; exact chainP,onC⟩⟩
      · obtain ⟨c'',chain'',same⟩ := chains r posR root.atMost other
        rw [same.unique chain.follows] at chain''
        exact ⟨r,posR,root,.inr ⟨c',chain'',onC⟩⟩
    · obtain ⟨none,_,rootK,later,lastK⟩ := doubled.rootsE.roots k onE
      have rootX : Root parent j p x := by
        obtain ⟨r,_,root,same | ⟨isP,_⟩ | ⟨other,c',chain,onC⟩⟩ := ends k onL none
        · have := root.atMost
          omega
        · exact isP ▸ root
        · exact absurd ((chain.roots k onC).2.2.1.unique rootK) other
      refine ⟨l ++ [p],route,fun k on => ?_,spots'.rooted rootX (by rw [label]; exact (doubled.fresh p pos atMost).2),fun k on last' => ⟨p,pos,rootX,?_⟩⟩
      · rcases List.mem_append.mp on with before | end'
        · exact inside k before
        · rw [List.mem_singleton.mp end']
          omega
      · rcases List.mem_append.mp on with before | end'
        · rw [ancestor] at last'
          split at last'
          · exact absurd last' (Nat.ne_of_gt pos)
          · rename_i off
            obtain ⟨r,_,root,same | ⟨_,onE | onC⟩ | ⟨other,_⟩⟩ := ends k before last'
            · exact .inl (same.trans (root.unique rootX))
            · exact absurd onE off
            · exact .inr ⟨c,chainP,onC⟩
            · exact absurd (root.unique rootX) other
        · exact .inl (List.mem_singleton.mp end')
  · by_cases here : r = p
    · rw [here]
      exact ⟨c,chainP⟩
    · obtain ⟨c',chain,_⟩ := chains r posR atMostR here
      exact ⟨c',chain⟩

theorem Doubled.swap (doubled : Doubled parent n j p t e c) : Doubled parent n j p t c e := by
  refine ⟨doubled.zero,doubled.fresh,doubled.later,doubled.rootsC,doubled.rootsE,fun k onC onE => doubled.apart k onE onC,doubled.chain,fun x pos last => ?_⟩
  obtain ⟨l,follows,inside,spots,ends⟩ := doubled.route x pos last
  refine ⟨l,follows,inside,spots,fun k on none => ?_⟩
  obtain ⟨r,posR,root,same | ⟨isP,chains⟩ | other⟩ := ends k on none
  · exact ⟨r,posR,root,.inl same⟩
  · exact ⟨r,posR,root,.inr (.inl ⟨isP,chains.symm⟩)⟩
  · exact ⟨r,posR,root,.inr (.inr other)⟩

end Double

section Link
variable {edge : Nat → Nat → Prop} {parent : Nat → Nat} {t t1 u : Infos} {i n x r s k : Nat} {l c d : List Nat}

-- All vertices on the way from x have its root.
theorem Linked.sameRoot (linked : Linked parent n i t) (route : Route parent n i t x l) (root : Root parent i r x) (on : k ∈ l) : Root parent i r k := by
  obtain ⟨before,m,shape,tail,pos⟩ := route.follows.from on
  have last := route.inside k on
  obtain ⟨m',routeK⟩ := linked.route k (by omega) last
  rw [routeK.follows.unique tail] at routeK
  obtain ⟨e,onE,none⟩ := tail.last pos
  have member : ∀ {x : Nat} {l : List Nat}, Route parent n i t x l → e ∈ l → ∃ r, Root parent i r x ∧ Root parent i r e := by
    intro x l route on
    obtain ⟨r,_,root,same | ⟨c,chain,onC⟩⟩ := route.ends e on none
    · exact ⟨r,root,by rw [same]; exact rootSelf root.atMost⟩
    · exact ⟨r,root,(chain.roots e onC).2.2.1⟩
  obtain ⟨r1,rootX,rootE⟩ := member route (by rw [shape]; exact List.mem_append_right _ onE)
  obtain ⟨r2,rootK,rootE'⟩ := member routeK onE
  rw [root.unique rootX,rootE.unique rootE']
  exact rootK

theorem Linked.merging (linked : Linked parent n i t) (pos : 0 < i) (last : i ≤ n) (chain : Chain parent n i i t c) : Merging parent n i t t i c := by
  have fresh := linked.fresh i pos (Nat.le_refl i)
  refine ⟨rfl,.inl fresh.2,.step (Nat.ne_of_gt pos) chain.follows,fun k on => ?_,fun k on => (chain.roots k on).2.1,.inr rfl,chain.sorted,fun _ _ => ⟨rfl,rfl⟩,
    fun x some => Nat.le_of_lt (linked.later x some),fun x above lastX => ?_⟩
  · rcases List.mem_cons.mp on with here | later
    · rw [here]
      exact ⟨fresh.1,.here,last⟩
    · obtain ⟨none,_,root,_,lastK⟩ := chain.roots k later
      exact ⟨none,root.above,lastK⟩
  · have from' := above.le
    obtain ⟨l,route⟩ := linked.route x (by omega) lastX
    refine ⟨l,route.follows,route.inside,fun k on none => ?_,route.spots.least,fun q on => ?_⟩
    · obtain ⟨r,_,root,same | ⟨c',chain',onC⟩⟩ := route.ends k on none
      · rw [same,root.unique (rootUnder above)]
        exact List.mem_cons_self
      · rw [root.unique (rootUnder above)] at chain'
        rw [chain'.follows.unique chain.follows] at onC
        exact List.mem_cons_of_mem _ onC
    · rcases route.spots.among q on with way | root | ⟨y,way,less⟩
      · exact .inl ((wayNext pos).mpr (.inl way))
      · exact .inl ((wayNext pos).mpr (.inr ⟨root.unique (rootUnder above),above⟩))
      · exact .inr ⟨y,(wayNext pos).mpr (.inl way),less⟩

-- The merged tree's root gets the label i.
theorem Merging.spots (merging : Merging parent n i t t1 s c) (pos : 0 < i) (upTo : ∀ k ∈ c, t1.sdno (t1.label k) ≤ t1.sdno i)
    (label : u.label = Function.update t1.label s i) (sdno : u.sdno = t1.sdno) (above : Above parent i x) (last : x ≤ n) :
    ∃ l, Follows t1.ancestor x l ∧ (∀ k ∈ l, k ≤ n) ∧ (∀ k ∈ l, t1.ancestor k = 0 → k ∈ s::c) ∧ Spots parent (i - 1) u x l := by
  have self : Way parent (i - 1) x i := ⟨above,by omega⟩
  have from' := above.le
  obtain ⟨l,joined⟩ := merging.route x above last
  have kept : ∀ k, k ≠ s → u.label k = t1.label k := fun k other => by rw [label,Function.update_of_ne other]
  have own : u.label s = i := by rw [label,Function.update_self]
  refine ⟨l,joined.follows,joined.inside,joined.ends,fun y way => ?_,fun q on => ?_⟩
  · rw [sdno]
    by_cases onS : s ∈ l
    · have onI : i ∈ l.map u.label := List.mem_map.mpr ⟨s,onS,own⟩
      rcases (wayNext pos).mp way with before | ⟨same,_⟩
      · obtain ⟨q,on,less⟩ := joined.least y before
        obtain ⟨k,onK,rfl⟩ := List.mem_map.mp on
        by_cases here : k = s
        · rw [here] at less
          rcases merging.current with isI | higher
          · rw [isI] at less
            exact ⟨i,onI,less⟩
          · exact ⟨i,onI,by omega⟩
        · exact ⟨t1.label k,List.mem_map.mpr ⟨k,onK,kept k here⟩,less⟩
      · exact ⟨i,onI,by rw [same]⟩
    · have labels : l.map u.label = l.map t1.label := List.map_congr_left fun k on => kept k fun same => onS (same ▸ on)
      rw [labels]
      rcases (wayNext pos).mp way with before | ⟨same,_⟩
      · exact joined.least y before
      · obtain ⟨k,onK,none⟩ := joined.follows.last (by omega)
        rcases List.mem_cons.mp (joined.ends k onK none) with here | onC
        · exact absurd (here ▸ onK) onS
        · exact ⟨t1.label k,List.mem_map_of_mem onK,by rw [same]; exact upTo k onC⟩
  · obtain ⟨k,onK,rfl⟩ := List.mem_map.mp on
    rw [sdno]
    by_cases here : k = s
    · rw [here,own]
      exact .inl self
    · rw [kept k here]
      rcases joined.among _ (List.mem_map_of_mem onK) with way | higher
      · exact .inl way
      · exact .inr (.inr higher)

theorem Merging.doubled (tree : SpanningTree edge parent n) (linked : Linked parent n i t) (less : 1 < i) (last : i ≤ n) (merging : Merging parent n i t t1 s c)
    (upTo : ∀ k ∈ c, t1.sdno (t1.label k) ≤ t1.sdno i) (chain : Chain parent n i (parent i) t d)
    (label : u.label = Function.update t1.label s i) (sdno : u.sdno = t1.sdno) (ancestor : u.ancestor = t1.ancestor) (child : u.child = t1.child) :
    Doubled parent n (i - 1) (parent i) u (s::c) d := by
  obtain ⟨posP,lessP,_⟩ := tree.up i less last
  have label1 : t1.label = t.label := by rw [merging.same]
  have sdno1 : t1.sdno = t.sdno := by rw [merging.same]
  have aboveS := (merging.roots s List.mem_cons_self).2.1
  have kept : ∀ k, ¬ Above parent i k → u.ancestor k = t.ancestor k ∧ u.child k = t.child k ∧ u.label k = t.label k := fun k off => by
    have other : k ≠ s := fun same => off (same ▸ aboveS)
    rw [ancestor,child,label,Function.update_of_ne other,label1]
    exact ⟨(merging.others k off).1,(merging.others k off).2,rfl⟩
  have low : ∀ k, k < i → ¬ Above parent i k := fun k before above => by
    have := above.le
    omega
  have away : ∀ r k, Root parent i r k → r ≠ i → ¬ Above parent i k := fun r k root other above => other (root.unique (rootUnder above))
  have chains : ∀ {r d}, r ≤ i - 1 → Chain parent n i r t d → Chain parent n (i - 1) r u d := by
    intro r d atMost chain
    have off : ∀ k ∈ d, ¬ Above parent i k := fun k on => away r k (chain.roots k on).2.2.1 (by omega)
    refine ⟨⟨fun k on => ?_,?_⟩,?_⟩
    · obtain ⟨none,high,root,after,inside⟩ := chain.roots k on
      rw [(kept k (off k on)).1,(kept k (off k on)).2.2]
      exact ⟨none,by omega,root.next (off k on),by omega,inside⟩
    · refine chain.sorted.imp_of_mem fun {k k'} on on' order => ?_
      rw [sdno,sdno1,(kept k (off k on)).2.2,(kept k' (off k' on')).2.2]
      exact order
    · rw [(kept r (low r (by omega))).2.1]
      exact chain.follows.congr fun k on => (kept k (off k on)).2.1
  have chainD := chains (by omega) chain
  refine ⟨?_,fun r posR atMost => ?_,fun x some => ?_,⟨fun k on => ?_,?_⟩,chainD.toRoots,fun k onE onC => ?_,fun r posR atMost other => ?_,
    fun x posX lastX => ?_⟩
  · rw [(kept 0 (low 0 (by omega))).1,(kept 0 (low 0 (by omega))).2.2,sdno,sdno1]
    exact linked.zero
  · rw [(kept r (low r (by omega))).1,(kept r (low r (by omega))).2.2]
    exact linked.fresh r posR (by omega)
  · rw [ancestor] at some
    rw [label]
    by_cases here : x = s
    · rw [here,Function.update_self]
      omega
    · rw [Function.update_of_ne here]
      have := merging.later x some
      omega
  · obtain ⟨none,above,inside⟩ := merging.roots k on
    have from' := above.le
    rw [ancestor,label]
    refine ⟨none,?_,Root.ofParent posP lessP above,by omega,inside⟩
    by_cases here : k = s
    · rw [here,Function.update_self]
      omega
    · rw [Function.update_of_ne here]
      have := merging.after k ((List.mem_cons.mp on).resolve_left here)
      omega
  · have nodup := (List.nodup_cons.mp merging.follows.nodup).1
    have others : ∀ k ∈ c, u.label k = t1.label k := fun k on => by
      have other : k ≠ s := fun same => nodup (same ▸ on)
      rw [label,Function.update_of_ne other]
    refine List.pairwise_cons.mpr ⟨fun k on => ?_,merging.sorted.imp_of_mem fun {k k'} on on' order => ?_⟩
    · rw [others k on,label,Function.update_self,sdno]
      exact upTo k on
    · rw [others k on,others k' on',sdno]
      exact order
  · exact away _ k (chain.roots k onC).2.2.1 (by omega) (merging.roots k onE).2.1
  · obtain ⟨c',chain'⟩ := linked.chain r posR (by omega)
    exact ⟨c',chains atMost chain'⟩
  · by_cases above : Above parent i x
    · obtain ⟨l,follows,inside,ends,spots⟩ := merging.spots (by omega) upTo label sdno above lastX
      exact ⟨l,by rw [ancestor]; exact follows,inside,spots,fun k on none =>
        ⟨parent i,posP,Root.ofParent posP lessP above,.inr (.inl ⟨rfl,.inl (ends k on (by rw [← ancestor]; exact none))⟩)⟩⟩
    · obtain ⟨l,route⟩ := linked.route x posX lastX
      obtain ⟨r0,posR0,root0⟩ := rootExists tree (i := i) (by omega) posX lastX
      have notI : r0 ≠ i := fun same => above (same ▸ root0.above)
      have off : ∀ k ∈ l, ¬ Above parent i k := fun k on => away r0 k (linked.sameRoot route root0 on) notI
      have labels : l.map u.label = l.map t.label := List.map_congr_left fun k on => (kept k (off k on)).2.2
      have ways : ∀ y, Way parent (i - 1) x y ↔ Way parent i x y := fun y => (wayNext (by omega)).trans (or_iff_left fun both => above both.2)
      refine ⟨l,route.follows.congr fun k on => (kept k (off k on)).1,route.inside,⟨fun y way => ?_,fun q on => ?_⟩,fun k on none => ?_⟩
      · rw [labels,sdno,sdno1]
        exact route.spots.least y ((ways y).mp way)
      · rw [labels] at on
        rw [sdno,sdno1]
        rcases route.spots.among q on with way | root | ⟨y,way,order⟩
        · exact .inl ((ways q).mpr way)
        · exact .inr (.inl (root.next above))
        · exact .inr (.inr ⟨y,(ways y).mpr way,order⟩)
      · rw [(kept k (off k on)).1] at none
        obtain ⟨r,posR,root,same | ⟨c',chain',onC⟩⟩ := route.ends k on none
        · exact ⟨r,posR,root.next above,.inl same⟩
        · have notI' : r ≠ i := fun same => above (same ▸ root.above)
          have := root.atMost
          by_cases isP : r = parent i
          · rw [isP] at chain'
            rw [chain'.follows.unique chain.follows] at onC
            exact ⟨r,posR,root.next above,.inr (.inl ⟨isP,.inr onC⟩)⟩
          · exact ⟨r,posR,root.next above,.inr (.inr ⟨isP,c',chains (by omega) chain',onC⟩)⟩

theorem linkLinked (tree : SpanningTree edge parent n) (linked : Linked parent n i t) (less : 1 < i) (last : i ≤ n) {fuel : Nat} (enough : n < fuel) :
    ∃ t', link fuel t (parent i) i = some t' ∧ t' = {t with ancestor := t'.ancestor, label := t'.label, child := t'.child, size := t'.size} ∧
      Linked parent n (i - 1) t' := by
  obtain ⟨posP,lessP,_⟩ := tree.up i less last
  obtain ⟨c0,chain0⟩ := linked.chain i (by omega) (Nat.le_refl i)
  obtain ⟨d,chain⟩ := linked.chain (parent i) posP (by omega)
  have fresh := linked.fresh i (by omega) (Nat.le_refl i)
  have short : c0.length ≤ n := chain0.follows.short fun k on => (chain0.roots k on).2.2.2.2
  obtain ⟨t1,s,c,ran,merging,upTo⟩ := rebalanceMerges ⟨linked.zero.2.1,linked.zero.2.2⟩ (by omega) fresh.2 fuel (linked.merging (by omega) last chain0) (by omega)
  have label1 : t1.label i = i := by rw [merging.same]; exact fresh.2
  have shortS : (s::c).length ≤ n := merging.follows.short fun k on => (merging.roots k on).2.2
  have shortD : d.length ≤ n := chain.follows.short fun k on => (chain.roots k on).2.2.2.2
  have low : ¬ Above parent i (parent i) := fun above => by
    have := above.le
    omega
  have offP : parent i ∉ s::c := fun on => low (merging.roots _ on).2.1
  have followsD : ∀ z, Follows (Function.update t1.child (parent i) z) (t1.child (parent i)) d := fun z => by
    rw [(merging.others _ low).2]
    refine chain.follows.congr fun k on => ?_
    obtain ⟨_,_,root,after,_⟩ := chain.roots k on
    have off : ¬ Above parent i k := fun above => Nat.ne_of_lt lessP (root.unique (rootUnder above))
    rw [Function.update_of_ne (by omega),(merging.others k off).2]
  have frame : t1.block = t.block ∧ t1.parent = t.parent ∧ t1.idom = t.idom ∧ t1.bucket = t.bucket ∧ t1.sdno = t.sdno := by
    rw [merging.same]
    exact ⟨rfl,rfl,rfl,rfl,rfl⟩
  obtain ⟨block,parent',idom,bucket,sdno⟩ := frame
  unfold link
  simp only [Option.bind_eq_bind]
  rw [fresh.2,ran]
  simp only [Option.bind_some,label1]
  have doubled := merging.doubled tree linked less last upTo chain (u := {t1 with
    label := Function.update t1.label s i
    size := Function.update t1.size (parent i) (t1.size (parent i) + t1.size i)}) rfl rfl rfl rfl
  split
  · obtain ⟨t',ran',same,ancestor⟩ := adoptAllSpec (p := parent i) (t := {t1 with
      label := Function.update t1.label s i
      size := Function.update t1.size (parent i) (t1.size (parent i) + t1.size i)
      child := Function.update t1.child (parent i) s}) fuel (followsD s) (by omega)
    refine ⟨t',ran',?_,doubled.swap.attach posP (by omega) (by rw [same]) (by rw [same]) ancestor (fun k other => ?_) ?_⟩
    · rw [same]
      simp only [block,parent',idom,bucket,sdno]
    · rw [same]
      exact Function.update_of_ne other _ _
    · rw [same]
      dsimp only
      rw [Function.update_self]
      exact merging.follows.update offP s
  · obtain ⟨t',ran',same,ancestor⟩ := adoptAllSpec (p := parent i) (t := {t1 with
      label := Function.update t1.label s i
      size := Function.update t1.size (parent i) (t1.size (parent i) + t1.size i)}) fuel merging.follows (by omega)
    refine ⟨t',ran',?_,doubled.attach posP (by omega) (by rw [same]) (by rw [same]) ancestor (fun k _ => by rw [same]) ?_⟩
    · rw [same]
      simp only [block,parent',idom,bucket,sdno]
    · have own := followsD (t1.child (parent i))
      rw [Function.update_eq_self] at own
      rw [same]
      exact own

end Link

end OmrCompiler.Dominators
