import OmrCompiler.Dominators

/-! The forest of the dominator search: what path compression keeps, and the lowest label
that eval finds on the way to a root. -/
namespace OmrCompiler.Dominators
open Semidominators

section Follows
variable {next : Nat → Nat} {x y z n : Nat} {l m : List Nat}

-- The vertices from one on, up to a vertex without a next.
inductive Follows (next : Nat → Nat) : Nat → List Nat → Prop where
  | stop : Follows next 0 []
  | step {x : Nat} {l : List Nat} (some : x ≠ 0) (rest : Follows next (next x) l) : Follows next x (x::l)

theorem Follows.unique (one : Follows next x l) (two : Follows next x m) : l = m := by
  induction one generalizing m with
  | stop =>
      cases two with
      | stop => rfl
      | step some _ => exact absurd rfl some
  | step some _ ih =>
      cases two with
      | stop => exact absurd rfl some
      | step _ rest => rw [ih rest]

theorem Follows.from (follows : Follows next x l) (on : y ∈ l) : ∃ before m, l = before ++ m ∧ Follows next y m ∧ y ≠ 0 := by
  induction follows with
  | stop => cases on
  | @step x l some rest ih =>
      rcases List.mem_cons.mp on with here | later
      · rw [here]
        exact ⟨[],x::l,rfl,.step some rest,some⟩
      · obtain ⟨before,m,shape,tail,pos⟩ := ih later
        exact ⟨x::before,m,by rw [shape,List.cons_append],tail,pos⟩

theorem Follows.head (follows : Follows next x l) (some : x ≠ 0) : ∃ m, l = x::m ∧ Follows next (next x) m := by
  cases follows with
  | stop => exact absurd rfl some
  | step _ rest => exact ⟨_,rfl,rest⟩

theorem Follows.cons (follows : Follows next z (x::l)) : z = x ∧ x ≠ 0 ∧ Follows next (next x) l := by
  cases follows with
  | step some rest => exact ⟨rfl,some,rest⟩

theorem Follows.nil (follows : Follows next x []) : x = 0 := by
  cases follows with
  | stop => rfl

-- A vertex met again would go round for ever.
theorem Follows.nodup (follows : Follows next x l) : l.Nodup := by
  induction follows with
  | stop => exact List.nodup_nil
  | @step x l some rest ih =>
      refine List.nodup_cons.mpr ⟨fun again => ?_,ih⟩
      obtain ⟨before,m,shape,tail,_⟩ := rest.from again
      have same := congrArg List.length (tail.unique (.step some rest))
      rw [shape,List.length_cons,List.length_append] at same
      omega

theorem Follows.short (follows : Follows next x l) (inside : ∀ y ∈ l, y ≤ n) : l.length ≤ n := by
  have sub : l.Subperm (List.range' 1 n) := List.subperm_of_subset follows.nodup fun y on => by
    obtain ⟨_,_,_,_,pos⟩ := follows.from on
    have := inside y on
    exact List.mem_range'_1.mpr (by omega)
  simpa using sub.length_le

-- A vertex that is not met may lead elsewhere.
theorem Follows.update (follows : Follows next x l) (apart : y ∉ l) (z : Nat) : Follows (Function.update next y z) x l := by
  induction follows with
  | stop => exact .stop
  | @step x l some rest ih =>
      have other : x ≠ y := fun same => apart (same ▸ List.mem_cons_self)
      refine .step some ?_
      rw [Function.update_of_ne other]
      exact ih fun on => apart (List.mem_cons_of_mem _ on)

-- The last vertex now leads on.
theorem Follows.graft (follows : Follows next x l) (last : next y = 0) (on : y ∈ l) (onward : Follows next z m) (apart : y ∉ m) :
    Follows (Function.update next y z) x (l ++ m) := by
  induction follows with
  | stop => cases on
  | @step x l some rest ih =>
      refine .step some ?_
      by_cases here : x = y
      · rw [here,last] at rest
        cases rest with
        | stop =>
            rw [here,Function.update_self]
            exact onward.update apart z
        | step some _ => exact absurd rfl some
      · rw [Function.update_of_ne here]
        exact ih ((List.mem_cons.mp on).resolve_left (Ne.symm here))

-- A vertex is passed over.
theorem Follows.bypass {before rest : List Nat} {a : Nat} (follows : Follows next z (before ++ x::a::rest)) :
    Follows (Function.update next x (next a)) z (before ++ x::rest) := by
  have nodup := follows.nodup
  induction before generalizing z with
  | nil =>
      obtain ⟨rfl,some,tail⟩ := follows.cons
      obtain ⟨same,_,tail'⟩ := tail.cons
      refine .step some ?_
      rw [Function.update_self]
      exact tail'.update (fun on => (List.nodup_cons.mp nodup).1 (List.mem_cons_of_mem _ on)) _
  | cons y before ih =>
      obtain ⟨rfl,some,tail⟩ := follows.cons
      have other : z ≠ x := fun same => (List.nodup_cons.mp nodup).1 (by simp [same])
      refine .step some ?_
      rw [Function.update_of_ne other]
      exact ih tail (List.nodup_cons.mp nodup).2

end Follows

section Compress
variable {t t' t'' : Infos} {x z n fuel : Nat} {l : List Nat}

/- Ways to the roots may get shorter: no new labels, and the lowest label stays. -/
structure Shorter (t t' : Infos) : Prop where
  same : t' = {t with ancestor := t'.ancestor, label := t'.label}
  root : ∀ k, t'.ancestor k = 0 ↔ t.ancestor k = 0
  rootLabel : ∀ k, t.ancestor k = 0 → t'.label k = t.label k
  label : ∀ k, t.ancestor k ≠ 0 → ∃ y, t.ancestor y ≠ 0 ∧ t'.label k = t.label y
  path : ∀ z l, Follows t.ancestor z l → ∃ l', Follows t'.ancestor z l' ∧ (∀ k ∈ l', k ∈ l) ∧ (∀ k ∈ l, t.ancestor k = 0 → k ∈ l') ∧
    (∀ q ∈ l'.map t'.label, q ∈ l.map t.label) ∧ ∀ q ∈ l.map t.label, ∃ q' ∈ l'.map t'.label, t.sdno q' ≤ t.sdno q

theorem Shorter.refl (t : Infos) : Shorter t t :=
  ⟨rfl,fun _ => Iff.rfl,fun _ _ => rfl,fun k some => ⟨k,some,rfl⟩,fun _ l on =>
    ⟨l,on,fun _ on => on,fun _ on _ => on,fun _ on => on,fun q on => ⟨q,on,Nat.le_refl _⟩⟩⟩

theorem Shorter.sdno (shorter : Shorter t t') : t'.sdno = t.sdno := by rw [shorter.same]

theorem Shorter.trans (first : Shorter t t') (second : Shorter t' t'') : Shorter t t'' := by
  refine ⟨?_,fun k => (second.root k).trans (first.root k),fun k none => ?_,fun k some => ?_,fun z l on => ?_⟩
  · rw [second.same,first.same]
  · rw [second.rootLabel k ((first.root k).mpr none),first.rootLabel k none]
  · obtain ⟨y,someY,same⟩ := second.label k (mt (first.root k).mp some)
    obtain ⟨y',someY',same'⟩ := first.label y (mt (first.root y).mpr someY)
    exact ⟨y',someY',same.trans same'⟩
  · obtain ⟨l',on',sub',keeps',labels',least'⟩ := first.path z l on
    obtain ⟨l'',on'',sub'',keeps'',labels'',least''⟩ := second.path z l' on'
    refine ⟨l'',on'',fun k onK => sub' k (sub'' k onK),fun k onK none => keeps'' k (keeps' k onK none) ((first.root k).mpr none),
      fun q onQ => labels' q (labels'' q onQ),fun q onQ => ?_⟩
    obtain ⟨q',onQ',less'⟩ := least' q onQ
    obtain ⟨q'',onQ'',less''⟩ := least'' q' onQ'
    rw [first.sdno] at less''
    exact ⟨q'',onQ'',Nat.le_trans less'' less'⟩

-- One vertex takes the ancestor of its ancestor, and the lower of both labels.
def skipped (t : Infos) (x : Nat) : Infos :=
  {t with
    label := Function.update t.label x (if t.sdno (t.label (t.ancestor x)) < t.sdno (t.label x) then t.label (t.ancestor x) else t.label x)
    ancestor := Function.update t.ancestor x (t.ancestor (t.ancestor x))}

theorem skippedShorter (someX : x ≠ 0) (someA : t.ancestor x ≠ 0) (some : t.ancestor (t.ancestor x) ≠ 0) : Shorter t (skipped t x) := by
  have chosen : (skipped t x).label x = t.label x ∨ (skipped t x).label x = t.label (t.ancestor x) := by
    simp only [skipped,Function.update_self]
    split
    · exact .inr rfl
    · exact .inl rfl
  have lower : t.sdno ((skipped t x).label x) ≤ t.sdno (t.label x) ∧ t.sdno ((skipped t x).label x) ≤ t.sdno (t.label (t.ancestor x)) := by
    simp only [skipped,Function.update_self]
    split
    · omega
    · omega
  have elsewhere : ∀ y, y ≠ x → (skipped t x).label y = t.label y := fun y other => Function.update_of_ne other _ _
  refine ⟨rfl,fun k => ?_,fun k none => elsewhere k fun same => someA (same ▸ none),fun k someK => ?_,fun z l on => ?_⟩
  · by_cases here : k = x
    · rw [here]
      simp only [skipped,Function.update_self]
      exact ⟨fun none => absurd none some,fun none => absurd none someA⟩
    · simp only [skipped,Function.update_of_ne here]
  · by_cases here : k = x
    · rw [here]
      rcases chosen with own | next
      · exact ⟨x,someA,own⟩
      · exact ⟨_,some,next⟩
    · exact ⟨k,someK,elsewhere k here⟩
  · by_cases onWay : x ∈ l
    · obtain ⟨before,m,rfl,tail,_⟩ := on.from onWay
      obtain ⟨m',rfl,tail'⟩ := tail.head someX
      obtain ⟨rest,rfl,_⟩ := tail'.head someA
      have nodup := on.nodup
      have other : ∀ y, y ∈ before ∨ y ∈ rest → y ≠ x := by
        rintro y where' rfl
        rw [List.nodup_append] at nodup
        obtain ⟨_,tail,apart⟩ := nodup
        rcases where' with early | late
        · exact apart y early y List.mem_cons_self rfl
        · exact (List.nodup_cons.mp tail).1 (List.mem_cons_of_mem _ late)
      have labels : ∀ y, y ∈ before ∨ y ∈ rest → (skipped t x).label y = t.label y := fun y where' => elsewhere y (other y where')
      refine ⟨before ++ x::rest,on.bypass,fun k => ?_,fun k onK none => ?_,fun q onQ => ?_,fun q onQ => ?_⟩
      · simp only [List.mem_append,List.mem_cons]
        tauto
      · have notX : k ≠ x := fun same => someA (same ▸ none)
        have notA : k ≠ t.ancestor x := fun same => some (same ▸ none)
        simp only [List.mem_append,List.mem_cons] at onK ⊢
        tauto
      · obtain ⟨y,onY,rfl⟩ := List.mem_map.mp onQ
        simp only [List.mem_append,List.mem_cons] at onY
        rcases onY with early | rfl | late
        · rw [labels y (.inl early)]
          exact List.mem_map_of_mem (by simp [early])
        · rcases chosen with own | next
          · rw [own]
            exact List.mem_map_of_mem (by simp)
          · rw [next]
            exact List.mem_map_of_mem (by simp)
        · rw [labels y (.inr late)]
          exact List.mem_map_of_mem (by simp [late])
      · obtain ⟨y,onY,rfl⟩ := List.mem_map.mp onQ
        simp only [List.mem_append,List.mem_cons] at onY
        have here : (skipped t x).label x ∈ (before ++ x::rest).map (skipped t x).label := List.mem_map_of_mem (by simp)
        rcases onY with early | rfl | rfl | late
        · exact ⟨_,List.mem_map_of_mem (show y ∈ before ++ x::rest by simp [early]),by rw [labels y (.inl early)]⟩
        · exact ⟨_,here,lower.1⟩
        · exact ⟨_,here,lower.2⟩
        · exact ⟨_,List.mem_map_of_mem (show y ∈ before ++ x::rest by simp [late]),by rw [labels y (.inr late)]⟩
    · refine ⟨l,on.update onWay _,fun _ onK => onK,fun _ onK _ => onK,?_⟩
      have labels : l.map (skipped t x).label = l.map t.label := List.map_congr_left fun y onY => elsewhere y fun same => onWay (same ▸ onY)
      rw [labels]
      exact ⟨fun q onQ => onQ,fun q onQ => ⟨q,onQ,Nat.le_refl _⟩⟩

-- Afterwards the vertex is just below its root.
theorem compressShorter (fuel : Nat) (someX : x ≠ 0) (someA : t.ancestor x ≠ 0) (follows : Follows t.ancestor x l) (enough : l.length ≤ fuel) :
    ∃ t', compress fuel t x = some t' ∧ Shorter t t' ∧ t'.ancestor (t'.ancestor x) = 0 ∧ ∀ y, y ∉ l → t'.ancestor y = t.ancestor y := by
  induction fuel generalizing x l with
  | zero =>
      obtain ⟨m,rfl,_⟩ := follows.head someX
      exact absurd enough (by simp)
  | succ fuel ih =>
      obtain ⟨m,rfl,tail⟩ := follows.head someX
      rw [compress]
      dsimp only
      split
      · rename_i some
        obtain ⟨t',ran,shorter,root,frame⟩ := ih someA some tail (by simpa using enough)
        have kept := frame x (List.nodup_cons.mp follows.nodup).1
        have someX' : t'.ancestor x ≠ 0 := by rwa [kept]
        have someA' : t'.ancestor (t'.ancestor x) ≠ 0 := by
          rw [kept]
          exact mt (shorter.root _).mp some
        rw [ran]
        refine ⟨skipped t' x,by simp only [Option.bind_eq_bind,Option.bind_some,skipped,kept],shorter.trans (skippedShorter someX someX' someA'),?_,fun y off => ?_⟩
        · have there : (skipped t' x).ancestor x = t'.ancestor (t.ancestor x) := by simp only [skipped,Function.update_self,kept]
          have other : t'.ancestor (t.ancestor x) ≠ x := fun same => someX' (by rw [← same]; exact root)
          rw [there]
          simp only [skipped,Function.update_of_ne other]
          exact root
        · have other : y ≠ x := fun same => off (same ▸ List.mem_cons_self)
          simp only [skipped,Function.update_of_ne other]
          exact frame y fun on => off (List.mem_cons_of_mem _ on)
      · rename_i none
        exact ⟨t,rfl,.refl t,not_not.mp none,fun _ _ => rfl⟩

-- What eval finds is on the way, and lowest there.
theorem evalLowest (someX : x ≠ 0) (follows : Follows t.ancestor x l) (enough : l.length ≤ fuel) :
    ∃ t' u, eval fuel t x = some (t',u) ∧ Shorter t t' ∧ u ∈ l.map t.label ∧ ∀ q ∈ l.map t.label, t.sdno u ≤ t.sdno q := by
  unfold eval
  split
  · rename_i none
    obtain ⟨m,rfl,tail⟩ := follows.head someX
    rw [none] at tail
    cases tail with
    | stop => exact ⟨t,t.label x,rfl,.refl t,by simp,by simp⟩
    | step some _ => exact absurd rfl some
  · rename_i someA
    obtain ⟨t',ran,shorter,root,_⟩ := compressShorter fuel someX someA follows enough
    obtain ⟨l',follows',_,_,labels,least⟩ := shorter.path x l follows
    have someA' : t'.ancestor x ≠ 0 := mt (shorter.root x).mp someA
    have shape : l' = [x,t'.ancestor x] := follows'.unique (.step someX (.step someA' (by rw [root]; exact .stop)))
    rw [shape] at labels least
    simp only [List.map_cons,List.map_nil,List.mem_cons,List.not_mem_nil,or_false,exists_eq_or_imp,exists_eq_left] at labels least
    rw [ran]
    simp only [Option.bind_eq_bind,Option.bind_some]
    rw [shorter.sdno]
    refine ⟨t',_,rfl,shorter,?_,fun q on => ?_⟩
    · split
      · exact labels _ (.inl rfl)
      · exact labels _ (.inr rfl)
    · have lower := least q on
      split
      · omega
      · omega

end Compress

end OmrCompiler.Dominators
