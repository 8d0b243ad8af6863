import Mathlib.Logic.Relation
import Mathlib.Data.List.Induction

/-! A parallel assignment made as a sequence of single moves. A move is a target
and a source. The sequence does what the parallel assignment would exactly when
equal targets have equal sources and no move writes what a later one reads. -/
namespace OmrCompiler.SequentialMoves
open Relation (ReflTransGen TransGen)

variable {ι V : Type} [DecidableEq ι]

def step (env : ι → V) (m : ι × ι) : ι → V := Function.update env m.1 (env m.2)

def run (moves : List (ι × ι)) (env : ι → V) : ι → V := moves.foldl step env

-- Whose entry value each place holds in the end.
def origin (moves : List (ι × ι)) : ι → ι := run moves id

theorem runCons (m : ι × ι) (moves : List (ι × ι)) (env : ι → V) : run (m :: moves) env = run moves (step env m) := rfl

theorem runAppend (moves later : List (ι × ι)) (env : ι → V) : run (moves ++ later) env = run later (run moves env) :=
  List.foldl_append

theorem stepThrough {W : Type} (value : V → W) (env : ι → V) (m : ι × ι) : step (value ∘ env) m = value ∘ step env m := by
  funext a
  by_cases here : a = m.1
  · subst here
    simp [step]
  · simp [step,here]

theorem runThrough {W : Type} (value : V → W) (moves : List (ι × ι)) (env : ι → V) :
    run moves (value ∘ env) = value ∘ run moves env := by
  induction moves generalizing env with
  | nil => rfl
  | cons m rest ih => rw [runCons,runCons,stepThrough,ih]

theorem runOrigin (moves : List (ι × ι)) (env : ι → V) (a : ι) : run moves env a = env (origin moves a) :=
  congrFun (runThrough env moves id) a

theorem stepSelf (env : ι → V) {m : ι × ι} (same : m.1 = m.2) : step env m = env := by
  rw [step,← same]
  exact Function.update_eq_self m.1 env

-- A move of a place to itself may be left out.
theorem runEffective (moves : List (ι × ι)) (env : ι → V) : run (moves.filter fun m => m.1 ≠ m.2) env = run moves env := by
  induction moves generalizing env with
  | nil => rfl
  | cons m rest ih =>
      by_cases same : m.1 = m.2
      · rw [List.filter_cons_of_neg (by simpa using same),ih,runCons,stepSelf env same]
      · rw [List.filter_cons_of_pos (by simpa using same),runCons,runCons,ih]

def Exact (moves : List (ι × ι)) : Prop := ∀ m ∈ moves, origin moves m.1 = m.2

def Functional (moves : List (ι × ι)) : Prop := ∀ m ∈ moves, ∀ n ∈ moves, m.1 = n.1 → m.2 = n.2

def Unread (m n : ι × ι) : Prop := m.1 = n.2 → m.2 = m.1

section Enough
variable {moves : List (ι × ι)}

-- What has been moved is in place, and everything else is as it was.
structure Placed (done : List (ι × ι)) (o : ι → ι) : Prop where
  there : ∀ m ∈ done, o m.1 = m.2
  kept : ∀ a, (∀ m ∈ done, m.1 ≠ a) → o a = a

theorem Placed.step {done : List (ι × ι)} {o : ι → ι} {m : ι × ι} (h : Placed done o) (same : ∀ n ∈ done, n.1 = m.1 → n.2 = m.2)
    (unread : ∀ n ∈ done, Unread n m) : Placed (done ++ [m]) (step o m) := by
  have source : o m.2 = m.2 := by
    by_cases written : ∃ n ∈ done, n.1 = m.2
    · obtain ⟨n,on,here⟩ := written
      rw [← here,h.there n on,unread n on here]
    · exact h.kept m.2 fun n on here => written ⟨n,on,here⟩
  refine ⟨fun n on => ?_,fun a away => ?_⟩
  · unfold SequentialMoves.step
    rcases List.mem_append.mp on with early | last
    · by_cases here : n.1 = m.1
      · rw [here,Function.update_self,source,same n early here]
      · rw [Function.update_of_ne here,h.there n early]
    · rw [List.mem_singleton.mp last,Function.update_self,source]
  · have target : a ≠ m.1 := fun here => away m (by simp) here.symm
    rw [SequentialMoves.step,Function.update_of_ne target]
    exact h.kept a fun n on => away n (by simp [on])

theorem Placed.run {rest done : List (ι × ι)} {o : ι → ι} (h : Placed done o) (functional : Functional (done ++ rest))
    (unread : (done ++ rest).Pairwise Unread) : Placed (done ++ rest) (run rest o) := by
  induction rest generalizing done o with
  | nil =>
      rw [List.append_nil]
      exact h
  | cons m rest ih =>
      have before := (List.pairwise_append.mp unread).2.2
      have next := h.step (fun n on => functional n (by simp [on]) m (by simp)) (fun n on => before n on m (by simp))
      have all : done ++ m :: rest = done ++ [m] ++ rest := by simp
      rw [all] at functional unread ⊢
      exact ih next functional unread

theorem exactOfOrder (functional : Functional moves) (unread : moves.Pairwise Unread) : Exact moves := by
  have start : Placed [] (id : ι → ι) := ⟨by simp,fun _ _ => rfl⟩
  have placed : Placed ([] ++ moves) (run moves id) := start.run functional unread
  exact placed.there

end Enough

section Needed
variable (moves : List (ι × ι))

-- One effective move leads from its target to its source.
def Leads (a b : ι) : Prop := (a,b) ∈ moves ∧ a ≠ b

variable {moves}

theorem originTraced {some' : List (ι × ι)} (from' : ∀ m ∈ some', m ∈ moves) (a : ι) :
    ReflTransGen (Leads moves) a (origin some' a) ∧
      ((∃ m ∈ some', m.1 = a ∧ m.1 ≠ m.2) → TransGen (Leads moves) a (origin some' a)) := by
  -- The last move decides, so the list is taken from its end.
  induction some' using List.reverseRecOn generalizing a with
  | nil => exact ⟨.refl,fun ⟨_,on,_⟩ => nomatch on⟩
  | append_singleton init m ih =>
      have before := ih fun n on => from' n (by simp [on])
      have last : origin (init ++ [m]) = step (origin init) m := runAppend init [m] id
      by_cases same : m.1 = m.2
      · rw [last,stepSelf _ same]
        refine ⟨(before a).1,fun ⟨n,on,here,effective⟩ => (before a).2 ⟨n,?_,here,effective⟩⟩
        rcases List.mem_append.mp on with early | late
        · exact early
        · rw [List.mem_singleton.mp late] at effective
          exact absurd same effective
      · by_cases here : a = m.1
        · have leads : Leads moves a m.2 := ⟨by rw [here]; exact from' m (by simp),here ▸ same⟩
          have now : origin (init ++ [m]) a = origin init m.2 := by rw [last,step,here,Function.update_self]
          rw [now]
          have reached : TransGen (Leads moves) a (origin init m.2) := TransGen.head' leads (before m.2).1
          exact ⟨reached.to_reflTransGen,fun _ => reached⟩
        · have now : origin (init ++ [m]) a = origin init a := by rw [last,step,Function.update_of_ne here]
          rw [now]
          refine ⟨(before a).1,fun ⟨n,on,atA,effective⟩ => (before a).2 ⟨n,?_,atA,effective⟩⟩
          rcases List.mem_append.mp on with early | late
          · exact early
          · rw [List.mem_singleton.mp late] at atA
            exact absurd atA.symm here

omit [DecidableEq ι] in
theorem cycleEnters {y c : ι} (cycle : TransGen (Leads moves) y y) (reached : ReflTransGen (Leads moves) y c) :
    ∃ p, ReflTransGen (Leads moves) y p ∧ Leads moves p c := by
  have around : TransGen (Leads moves) y c := by
    rcases ReflTransGen.cases_head reached with rfl | ⟨d,first,rest⟩
    · exact cycle
    · exact TransGen.head' first rest
  obtain ⟨p,early,last⟩ := TransGen.tail'_iff.mp around
  exact ⟨p,early,last⟩

/- The first move on what a place leads to loses an entry value there that no
later move can bring back. -/
theorem firstLoses {some' : List (ι × ι)} (y : ι) (from' : ∀ m ∈ some', m ∈ moves) :
    (∀ a, ReflTransGen (Leads moves) y a → origin some' a = a) ∨
      ∃ c, ReflTransGen (Leads moves) y c ∧ ∀ a, ReflTransGen (Leads moves) y a → origin some' a ≠ c := by
  induction some' using List.reverseRecOn with
  | nil => exact .inl fun _ _ => rfl
  | append_singleton init m ih =>
      have last : origin (init ++ [m]) = step (origin init) m := runAppend init [m] id
      have before := ih fun n on => from' n (by simp [on])
      by_cases same : m.1 = m.2
      · rw [last,stepSelf _ same]
        exact before
      · have leads : Leads moves m.1 m.2 := ⟨from' m (by simp),same⟩
        have else' : ∀ a, a ≠ m.1 → origin (init ++ [m]) a = origin init a := fun a away => by
          rw [last,step,Function.update_of_ne away]
        have here : origin (init ++ [m]) m.1 = origin init m.2 := by rw [last,step,Function.update_self]
        by_cases on : ReflTransGen (Leads moves) y m.1
        · have next := on.tail leads
          rcases before with own | ⟨c,onC,lost⟩
          · refine .inr ⟨m.1,on,fun a reached => ?_⟩
            by_cases atTarget : a = m.1
            · rw [atTarget,here,own m.2 next]
              exact Ne.symm same
            · rw [else' a atTarget,own a reached]
              exact atTarget
          · refine .inr ⟨c,onC,fun a reached => ?_⟩
            by_cases atTarget : a = m.1
            · rw [atTarget,here]
              exact lost m.2 next
            · rw [else' a atTarget]
              exact lost a reached
        · have off : ∀ a, ReflTransGen (Leads moves) y a → a ≠ m.1 := fun a reached atTarget => on (atTarget ▸ reached)
          rcases before with own | ⟨c,onC,lost⟩
          · exact .inl fun a reached => by rw [else' a (off a reached),own a reached]
          · exact .inr ⟨c,onC,fun a reached => by rw [else' a (off a reached)]; exact lost a reached⟩

theorem cycleInexact {y : ι} (cycle : TransGen (Leads moves) y y) : ¬ Exact moves := by
  intro exact'
  rcases firstLoses y (fun m on => on) with own | ⟨c,onC,lost⟩
  · obtain ⟨b,first,_⟩ := TransGen.head'_iff.mp cycle
    have moved := exact' (y,b) first.1
    rw [own y .refl] at moved
    exact first.2 moved
  · obtain ⟨p,onP,leads⟩ := cycleEnters cycle onC
    exact lost p onP (exact' (p,c) leads.1)

theorem functionalOfExact (exact' : Exact moves) : Functional moves := by
  intro m onM n onN same
  rw [← exact' m onM,← exact' n onN,same]

-- The last move to a place decides what it holds.
theorem lastWrite (later : List (ι × ι)) (j : ι × ι) :
    ∃ pre k post, j :: later = pre ++ k :: post ∧ k.1 = j.1 ∧ ∀ m ∈ post, m.1 ≠ j.1 := by
  induction later using List.reverseRecOn with
  | nil => exact ⟨[],j,[],rfl,rfl,by simp⟩
  | append_singleton init m ih =>
      by_cases here : m.1 = j.1
      · exact ⟨j :: init,m,[],rfl,here,by simp⟩
      · obtain ⟨pre,k,post,same,target,away⟩ := ih
        refine ⟨pre,k,post ++ [m],?_,target,fun n on => ?_⟩
        · rw [← List.cons_append,same]
          simp
        · rcases List.mem_append.mp on with early | late
          · exact away n early
          · rw [List.mem_singleton.mp late]
            exact here

theorem runAway {later : List (ι × ι)} {a : ι} (away : ∀ m ∈ later, m.1 ≠ a) (env : ι → V) : run later env a = env a := by
  induction later generalizing env with
  | nil => rfl
  | cons m rest ih =>
      rw [runCons,ih (fun n on => away n (List.mem_cons_of_mem _ on)),step,Function.update_of_ne (Ne.symm (away m List.mem_cons_self))]

theorem unreadOfExact (exact' : Exact moves) : moves.Pairwise Unread := by
  have functional := functionalOfExact exact'
  rw [List.pairwise_iff_forall_sublist]
  intro i j before written
  by_contra effective
  -- i comes before j, and so before the last move to j's target.
  obtain ⟨early,rest,split,last⟩ := List.cons_sublist_iff.mp before
  have onI : i ∈ early := last.1
  obtain ⟨middle,later,split'⟩ := List.append_of_mem (List.singleton_sublist.mp last.2)
  obtain ⟨pre,k,post,tail,target,away⟩ := lastWrite later j
  have whole : moves = (early ++ middle ++ pre) ++ k :: post := by
    rw [split,split',List.append_assoc,List.append_assoc,← tail]
  have onK : k ∈ moves := by rw [whole]; simp
  have onJ : j ∈ moves := by rw [split,split']; simp
  have source : k.2 = j.2 := functional k onK j onJ target
  have now : origin moves k.1 = origin (early ++ middle ++ pre) k.2 := by
    have last' : origin ((early ++ middle ++ pre) ++ k :: post) k.1 = origin (early ++ middle ++ pre) k.2 := by
      rw [origin,runAppend,runCons,runAway (fun m on => target ▸ away m on),step,Function.update_self]
      rfl
    rw [← last',← whole]
  have held : origin (early ++ middle ++ pre) j.2 = j.2 := by
    rw [← source,← now]
    exact exact' k onK
  have traced := (@originTraced ι _ moves (early ++ middle ++ pre) (fun m on => by rw [whole]; simp only [List.mem_append] at on ⊢; tauto) j.2).2
    ⟨i,by simp [onI],written,fun same => effective same.symm⟩
  rw [held] at traced
  exact cycleInexact traced exact'

end Needed

theorem exactIff (moves : List (ι × ι)) : Exact moves ↔ Functional moves ∧ moves.Pairwise Unread :=
  ⟨fun exact' => ⟨functionalOfExact exact',unreadOfExact exact'⟩,fun h => exactOfOrder h.1 h.2⟩

-- Two different values are enough to tell any two places apart.
theorem runExactIff [Nontrivial V] (moves : List (ι × ι)) :
    (∀ env : ι → V, ∀ m ∈ moves, run moves env m.1 = env m.2) ↔ Functional moves ∧ moves.Pairwise Unread := by
  rw [← exactIff]
  constructor
  · intro all m on
    obtain ⟨x,y,apart⟩ := exists_pair_ne V
    have moved := all (fun a => if a = m.2 then x else y) m on
    rw [runOrigin,if_pos rfl] at moved
    by_contra away
    rw [if_neg away] at moved
    exact apart moved.symm
  · intro exact' env m on
    rw [runOrigin,exact' m on]

end OmrCompiler.SequentialMoves
