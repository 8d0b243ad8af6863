import Mathlib.Algebra.BigOperators.Group.Finset.Basic
import Mathlib.Algebra.Ring.Nat
import OmrCompiler.Dominators

/-! The depth-first search of the dominators with its explicit stack: the blocks it numbers
and the spanning tree it leaves. -/
namespace OmrCompiler.Dominators
open Semidominators PostDominance

section Search
variable {post : Bool} {cfg : CFG} {stack : List StackInfo} {s : Search} {a b k p fuel : Nat} {next : List Nat}

def CFG.out (post : Bool) (cfg : CFG) (block : Nat) : List Nat := cfg.followed post block ++ cfg.followedExceptions post block

-- Edges that are left for a block, which all later ones are below.
structure Entry (post : Bool) (cfg : CFG) (s : Search) (e : StackInfo) : Prop where
  some : e.list ≠ []
  pos : 0 < e.parent
  last : e.parent ≤ s.topDfNum
  inside : ∀ x ∈ e.list, x ∈ cfg.out post (s.infos.block e.parent)
  below : ∀ b, e.parent ≤ b → b ≤ s.topDfNum → Above s.infos.parent e.parent b

-- The blocks numbered so far, and the edges that are left for them on the stack.
structure Searching (post : Bool) (cfg : CFG) (stack : List StackInfo) (s : Search) : Prop where
  numbers : ∀ k, 0 < k → k ≤ s.topDfNum → s.visited (s.infos.block k) = true ∧ s.dfNumbers (s.infos.block k) = k - 1
  visited : ∀ b, s.visited b = true → ∃ k, 0 < k ∧ k ≤ s.topDfNum ∧ s.infos.block k = b
  fresh : ∀ k, s.infos.ancestor k = 0 ∧ s.infos.child k = 0 ∧ s.infos.bucket k = ∅ ∧ (k ≤ s.topDfNum → s.infos.label k = k ∧ s.infos.sdno k = k)
  first : 0 < s.topDfNum ∧ s.infos.block 1 = cfg.root post
  up : ∀ k, 1 < k → k ≤ s.topDfNum → 0 < s.infos.parent k ∧ s.infos.parent k < k ∧ s.infos.block k ∈ cfg.out post (s.infos.block (s.infos.parent k))
  forward : ∀ b a, 0 < a → a < b → b ≤ s.topDfNum → s.infos.block b ∈ cfg.out post (s.infos.block a) → Above s.infos.parent a b
  between : ∀ a b c, Above s.infos.parent a c → 0 < a → c ≤ s.topDfNum → a ≤ b → b ≤ c → Above s.infos.parent a b
  entries : ∀ e ∈ stack, Entry post cfg s e
  sorted : stack.Pairwise fun e e' => e'.parent ≤ e.parent
  pending : ∀ k, 0 < k → k ≤ s.topDfNum → ∀ x ∈ cfg.out post (s.infos.block k), s.visited x = true ∨ ∃ e ∈ stack, e.parent = k ∧ x ∈ e.list

theorem mem_pushed {e : StackInfo} : e ∈ pushed next p stack ↔ e ∈ stack ∨ next ≠ [] ∧ e = ⟨next,p⟩ := by
  unfold pushed
  split
  · rename_i none
    simp [none]
  · rename_i some
    rw [List.mem_cons]
    exact ⟨fun h => h.elim (fun h => .inr ⟨some,h⟩) .inl,fun h => h.elim .inr fun h => .inl h.2⟩

theorem pushedSorted {list : List Nat} {parent : Nat} (least : ∀ e ∈ stack, e.parent ≤ parent) (sorted : stack.Pairwise fun e e' => e'.parent ≤ e.parent) :
    (pushed list parent stack).Pairwise fun e e' => e'.parent ≤ e.parent := by
  unfold pushed
  split
  · exact sorted
  · exact List.pairwise_cons.mpr ⟨least,sorted⟩

section Top
variable (searching : Searching post cfg (⟨b::next,p⟩::stack) s)
include searching

-- What is left on the stack once the block at the top is taken off.
theorem Searching.entry {e : StackInfo} (on : e ∈ pushed next p stack) : Entry post cfg s e ∧ e.parent ≤ p ∧ Above s.infos.parent e.parent p := by
  obtain ⟨_,pos,atMost,inside,below⟩ := searching.entries _ List.mem_cons_self
  rcases mem_pushed.mp on with before | ⟨some,rfl⟩
  · have left := searching.entries e (List.mem_cons_of_mem _ before)
    have least := (List.pairwise_cons.mp searching.sorted).1 e before
    exact ⟨left,least,left.below p least atMost⟩
  · exact ⟨⟨some,pos,atMost,fun x on => inside x (List.mem_cons_of_mem _ on),below⟩,Nat.le_refl _,.here⟩

theorem Searching.rest : (pushed next p stack).Pairwise fun e e' => e'.parent ≤ e.parent :=
  pushedSorted (List.pairwise_cons.mp searching.sorted).1 (List.pairwise_cons.mp searching.sorted).2

theorem Searching.left (posK : 0 < k) (upTo : k ≤ s.topDfNum) {x : Nat} (on : x ∈ cfg.out post (s.infos.block k)) :
    s.visited x = true ∨ k ≤ p ∧ Above s.infos.parent k p ∧ (x = b ∨ ∃ e ∈ pushed next p stack, e.parent = k ∧ x ∈ e.list) := by
  rcases searching.pending k posK upTo x on with known | ⟨e,onE,rfl,onX⟩
  · exact .inl known
  · rcases List.mem_cons.mp onE with rfl | later
    · refine .inr ⟨Nat.le_refl _,.here,?_⟩
      rcases List.mem_cons.mp onX with rfl | onX
      · exact .inl rfl
      · exact .inr ⟨_,mem_pushed.mpr (.inr ⟨List.ne_nil_of_mem onX,rfl⟩),rfl,onX⟩
    · have on : e ∈ pushed next p stack := mem_pushed.mpr (.inl later)
      exact .inr ⟨(searching.entry on).2.1,(searching.entry on).2.2,.inr ⟨e,on,rfl,onX⟩⟩

-- The block at the top has been visited already.
theorem Searching.skip (seen : s.visited b = true) : Searching post cfg (pushed next p stack) s := by
  refine {searching with entries := fun e on => (searching.entry on).1,sorted := searching.rest,pending := fun k posK last x on => ?_}
  rcases searching.left posK last on with known | ⟨_,_,rfl | left⟩
  · exact .inl known
  · exact .inl seen
  · exact .inr left

end Top

section Numbered
variable (upTo : k ≤ s.topDfNum)
include upTo

theorem numberedBlock : (numbered s b p).infos.block k = s.infos.block k := Function.update_of_ne (by omega) _ _

theorem numberedParent : (numbered s b p).infos.parent k = s.infos.parent k := Function.update_of_ne (by omega) _ _

theorem numberedAbove : Above (numbered s b p).infos.parent a k ↔ Above s.infos.parent a k :=
  ⟨fun above => above.congr fun _ less => (numberedParent (by omega)).symm,fun above => above.congr fun _ less => numberedParent (by omega)⟩

end Numbered

theorem blockNew : (numbered s b p).infos.block (s.topDfNum + 1) = b := Function.update_self _ _ _

theorem parentNew : (numbered s b p).infos.parent (s.topDfNum + 1) = p := Function.update_self _ _ _

theorem numberedBefore (upTo : k ≤ (numbered s b p).topDfNum) (other : k ≠ s.topDfNum + 1) : k ≤ s.topDfNum :=
  Nat.le_of_lt_succ (Nat.lt_of_le_of_ne upTo other)

theorem numberedSeen {x : Nat} : (numbered s b p).visited x = true ↔ x = b ∨ s.visited x = true := by
  by_cases here : x = b
  · exact iff_of_true (by rw [here]; exact Function.update_self _ _ _) (.inl here)
  · exact (iff_of_eq (congrArg (· = true) (Function.update_of_ne here _ _))).trans (or_iff_right here).symm

theorem aboveNew (pos : 0 < p) (atMost : p ≤ s.topDfNum) (above : Above s.infos.parent a p) :
    Above (numbered s b p).infos.parent a (s.topDfNum + 1) := by
  refine .up (by rw [parentNew]; exact pos) (by rw [parentNew]; omega) ?_
  rw [parentNew]
  exact (numberedAbove atMost).mpr above

theorem Entry.number {e : StackInfo} (left : Entry post cfg s e) (above : Above s.infos.parent e.parent p) (pos : 0 < p) (atMost : p ≤ s.topDfNum) :
    Entry post cfg (numbered s b p) e := by
  refine ⟨left.some,left.pos,Nat.le_succ_of_le left.last,by rw [numberedBlock left.last]; exact left.inside,fun c first second => ?_⟩
  by_cases here : c = s.topDfNum + 1
  · rw [here]
    exact aboveNew pos atMost above
  · have before := numberedBefore second here
    exact (numberedAbove before).mpr (left.below c first before)

theorem entryNew {list : List Nat} (some : list ≠ []) (inside : ∀ x ∈ list, x ∈ cfg.out post b) :
    Entry post cfg (numbered s b p) ⟨list,s.topDfNum + 1⟩ := by
  refine ⟨some,Nat.succ_pos _,Nat.le_refl _,by rw [blockNew]; exact inside,fun c first second => ?_⟩
  rw [Nat.le_antisymm second first]
  exact .here

-- The block at the top gets the next number.
theorem Searching.number (searching : Searching post cfg (⟨b::next,p⟩::stack) s) (new : s.visited b = false) :
    Searching post cfg (pushed (cfg.followed post b) (s.topDfNum + 1)
      (pushed (cfg.followedExceptions post b) (s.topDfNum + 1) (pushed next p stack))) (numbered s b p) := by
  obtain ⟨_,pos,atMost,inside,below⟩ := searching.entries _ List.mem_cons_self
  have pos : 0 < p := pos
  have atMost : p ≤ s.topDfNum := atMost
  have least : ∀ e ∈ pushed next p stack, e.parent ≤ s.topDfNum + 1 := fun e on => Nat.le_succ_of_le (searching.entry on).1.last
  refine ⟨fun k posK upTo => ?_,fun x known => ?_,fun k => ?_,?_,fun k more upTo => ?_,fun c a posA less upTo on => ?_,fun a c d above posA upTo first second => ?_,
    fun e on => ?_,pushedSorted (fun e on => ?_) (pushedSorted least searching.rest),fun k posK upTo x on => ?_⟩
  · by_cases here : k = s.topDfNum + 1
    · rw [here,blockNew]
      exact ⟨numberedSeen.mpr (.inl rfl),by simp [numbered]⟩
    · have before := numberedBefore upTo here
      obtain ⟨known,number⟩ := searching.numbers k posK before
      have other : s.infos.block k ≠ b := fun same => by
        rw [same,new] at known
        cases known
      rw [numberedBlock before]
      exact ⟨numberedSeen.mpr (.inr known),(Function.update_of_ne other _ _).trans number⟩
  · rcases numberedSeen.mp known with rfl | known
    · exact ⟨s.topDfNum + 1,Nat.succ_pos _,Nat.le_refl _,blockNew⟩
    · obtain ⟨k,posK,upTo,found⟩ := searching.visited x known
      exact ⟨k,posK,Nat.le_succ_of_le upTo,by rw [numberedBlock upTo,found]⟩
  · obtain ⟨ancestor,child,bucket,own⟩ := searching.fresh k
    by_cases here : k = s.topDfNum + 1
    · simp [numbered,here,(searching.fresh (s.topDfNum + 1)).2.2.1]
    · simp only [numbered,Function.update_of_ne here]
      exact ⟨ancestor,child,bucket,fun upTo => own (by omega)⟩
  · exact ⟨Nat.succ_pos _,by rw [numberedBlock searching.first.1]; exact searching.first.2⟩
  · by_cases here : k = s.topDfNum + 1
    · rw [here,parentNew,blockNew,numberedBlock atMost]
      exact ⟨pos,by omega,inside b List.mem_cons_self⟩
    · have before := numberedBefore upTo here
      obtain ⟨posP,less,on⟩ := searching.up k more before
      rw [numberedParent before,numberedBlock before,numberedBlock (by omega)]
      exact ⟨posP,less,on⟩
  · have earlier : a ≤ s.topDfNum := Nat.le_of_lt_succ (Nat.lt_of_lt_of_le less upTo)
    rw [numberedBlock earlier] at on
    by_cases here : c = s.topDfNum + 1
    · rw [here,blockNew] at on
      rw [here]
      rcases searching.left posA earlier on with known | ⟨_,above,_⟩
      · rw [new] at known
        cases known
      · exact aboveNew pos atMost above
    · have before := numberedBefore upTo here
      rw [numberedBlock before] at on
      exact (numberedAbove before).mpr (searching.forward c a posA less before on)
  · by_cases here : d = s.topDfNum + 1
    · by_cases end' : c = s.topDfNum + 1
      · rw [end',← here]
        exact above
      · have other : a ≠ d := by omega
        obtain ⟨_,_,upon⟩ := above.before other
        rw [here,parentNew] at upon
        have upon := (numberedAbove atMost).mp upon
        refine (numberedAbove (by omega)).mpr ?_
        rcases Nat.le_total c p with early | late
        · exact searching.between a c p upon posA atMost first early
        · exact upon.trans (below c late (by omega))
    · have before := numberedBefore upTo here
      exact (numberedAbove (by omega)).mpr (searching.between a c d ((numberedAbove before).mp above) posA before first second)
  · rcases mem_pushed.mp on with on | ⟨some,rfl⟩
    · rcases mem_pushed.mp on with on | ⟨some,rfl⟩
      · obtain ⟨left,_,above⟩ := searching.entry on
        exact left.number above pos atMost
      · exact entryNew some fun x on => List.mem_append_right _ on
    · exact entryNew some fun x on => List.mem_append_left _ on
  · rcases mem_pushed.mp on with on | ⟨_,rfl⟩
    · exact least e on
    · exact Nat.le_refl _
  · by_cases here : k = s.topDfNum + 1
    · rw [here,blockNew] at on
      rcases List.mem_append.mp on with normal | exception
      · exact .inr ⟨_,mem_pushed.mpr (.inr ⟨List.ne_nil_of_mem normal,rfl⟩),here.symm,normal⟩
      · exact .inr ⟨_,mem_pushed.mpr (.inl (mem_pushed.mpr (.inr ⟨List.ne_nil_of_mem exception,rfl⟩))),here.symm,exception⟩
    · have before := numberedBefore upTo here
      rw [numberedBlock before] at on
      rcases searching.left posK before on with known | ⟨_,_,same | ⟨e,onE,left⟩⟩
      · exact .inl (numberedSeen.mpr (.inr known))
      · exact .inl (numberedSeen.mpr (.inl same))
      · exact .inr ⟨e,mem_pushed.mpr (.inl (mem_pushed.mpr (.inl onE))),left⟩

-- What is left of the edges, on the stack and of the blocks not numbered yet.
def work (nodes : Finset Nat) (post : Bool) (cfg : CFG) (stack : List StackInfo) (s : Search) : Nat :=
  (stack.map (·.list.length)).sum + ∑ b ∈ nodes with s.visited b = false, (cfg.out post b).length

theorem pushedSum : ((pushed next p stack).map (·.list.length)).sum = next.length + (stack.map (·.list.length)).sum := by
  unfold pushed
  split
  · rename_i none
    simp [none]
  · rfl

theorem workNumbered {nodes : Finset Nat} (on : b ∈ nodes) (new : s.visited b = false) :
    ∑ x ∈ nodes with s.visited x = false, (cfg.out post x).length =
      (cfg.out post b).length + ∑ x ∈ nodes with (numbered s b p).visited x = false, (cfg.out post x).length := by
  have split : (nodes.filter fun x => s.visited x = false) = insert b (nodes.filter fun x => (numbered s b p).visited x = false) := by
    ext x
    rw [Finset.mem_insert,Finset.mem_filter,Finset.mem_filter]
    by_cases here : x = b
    · simp [here,on,new]
    · simp [here,numbered]
  have off : b ∉ nodes.filter fun x => (numbered s b p).visited x = false := by
    rw [Finset.mem_filter]
    simp [numbered]
  rw [split,Finset.sum_insert off]

theorem searchRuns {nodes : Finset Nat} (closed : ∀ b ∈ nodes, ∀ x ∈ cfg.out post b, x ∈ nodes) (fuel : Nat)
    (searching : Searching post cfg stack s) (inside : ∀ e ∈ stack, ∀ x ∈ e.list, x ∈ nodes) (enough : work nodes post cfg stack s < fuel) :
    ∃ s', initializeFrom post cfg fuel stack s = some s' ∧ Searching post cfg [] s' := by
  induction fuel generalizing stack s with
  | zero => exact absurd enough (Nat.not_lt_zero _)
  | succ fuel ih =>
      match stack with
      | [] => exact ⟨s,rfl,searching⟩
      | ⟨[],_⟩::_ => exact absurd rfl (searching.entries _ List.mem_cons_self).1
      | ⟨b::next,p⟩::stack =>
          have onB := inside _ List.mem_cons_self b List.mem_cons_self
          have rest : ∀ e ∈ pushed next p stack, ∀ x ∈ e.list, x ∈ nodes := fun e on x onX => by
            rcases mem_pushed.mp on with before | ⟨_,rfl⟩
            · exact inside e (List.mem_cons_of_mem _ before) x onX
            · exact inside _ List.mem_cons_self x (List.mem_cons_of_mem _ onX)
          simp only [work,List.map_cons,List.sum_cons,List.length_cons] at enough
          rw [initializeFrom]
          split
          · rename_i seen
            refine ih (searching.skip seen) rest ?_
            rw [work,pushedSum]
            omega
          · rename_i off
            have new : s.visited b = false := Bool.eq_false_iff.mpr off
            refine ih (searching.number new) (fun e on x onX => ?_) ?_
            · rcases mem_pushed.mp on with on | ⟨_,rfl⟩
              · rcases mem_pushed.mp on with on | ⟨_,rfl⟩
                · exact rest e on x onX
                · exact closed b onB x (List.mem_append_right _ onX)
              · exact closed b onB x (List.mem_append_left _ onX)
            · rw [@workNumbered post cfg s b p nodes onB new,CFG.out,List.length_append] at enough
              rw [work,pushedSum,pushedSum,pushedSum]
              omega

def startSearch (post : Bool) (cfg : CFG) : Search := ⟨fun _ => false,Function.update (fun _ => 0) (cfg.other post) (-1),0,blank⟩

-- The dummy edge leads to the root.
theorem startSearching : Searching post cfg (pushed (cfg.followed post (cfg.root post)) 1
    (pushed (cfg.followedExceptions post (cfg.root post)) 1 [])) (numbered (startSearch post cfg) (cfg.root post) 0) := by
  have only : ∀ k, 0 < k → k ≤ 1 → k = 1 := fun k pos upTo => Nat.le_antisymm upTo pos
  have entry : ∀ e ∈ pushed (cfg.followed post (cfg.root post)) 1 (pushed (cfg.followedExceptions post (cfg.root post)) 1 []),
      e.list ≠ [] ∧ e.parent = 1 ∧ ∀ x ∈ e.list, x ∈ cfg.out post (cfg.root post) := fun e on => by
    rcases mem_pushed.mp on with on | ⟨some,rfl⟩
    · rcases mem_pushed.mp on with on | ⟨some,rfl⟩
      · cases on
      · exact ⟨some,rfl,fun x on => List.mem_append_right _ on⟩
    · exact ⟨some,rfl,fun x on => List.mem_append_left _ on⟩
  refine ⟨fun k pos upTo => ?_,fun x known => ?_,fun k => ?_,⟨Nat.one_pos,rfl⟩,fun k more upTo => ?_,fun c a pos less upTo _ => ?_,fun a c d _ pos upTo first second => ?_,
    fun e on => ?_,?_,fun k pos upTo x on => ?_⟩
  · rw [only k pos upTo]
    simp [numbered,startSearch]
  · by_cases here : x = cfg.root post
    · exact ⟨1,Nat.one_pos,Nat.le_refl 1,by rw [here]; rfl⟩
    · simp [numbered,startSearch,here] at known
  · by_cases here : k = 1
    · simp [numbered,startSearch,blank,here]
    · simp only [numbered,startSearch,blank,Nat.zero_add,Function.update_of_ne here]
      exact ⟨trivial,trivial,trivial,fun upTo => by omega⟩
  · exact absurd upTo (Nat.not_le.mpr more)
  · exact absurd (Nat.le_trans (Nat.succ_le_of_lt less) upTo) (Nat.not_le.mpr (Nat.lt_succ_of_le pos))
  · have one := only d (by omega) upTo
    rw [show c = a by omega]
    exact .here
  · obtain ⟨some,isOne,inside⟩ := entry e on
    refine ⟨some,by omega,by rw [isOne]; exact Nat.le_refl 1,by rw [isOne]; exact inside,fun b first second => ?_⟩
    rw [isOne] at first ⊢
    rw [only b first second]
    exact .here
  · refine List.Pairwise.imp_of_mem (R := fun _ _ => True) (fun {e e'} on on' _ => ?_) (List.pairwise_of_forall fun _ _ => trivial)
    rw [(entry e on).2.1,(entry e' on').2.1]
  · rw [only k pos upTo] at on ⊢
    rcases List.mem_append.mp on with normal | exception
    · exact .inr ⟨_,mem_pushed.mpr (.inr ⟨List.ne_nil_of_mem normal,rfl⟩),rfl,normal⟩
    · exact .inr ⟨_,mem_pushed.mpr (.inl (mem_pushed.mpr (.inr ⟨List.ne_nil_of_mem exception,rfl⟩))),rfl,exception⟩

theorem searchFinds {nodes : Finset Nat} (root : cfg.root post ∈ nodes) (closed : ∀ b ∈ nodes, ∀ x ∈ cfg.out post b, x ∈ nodes)
    (enough : (∑ b ∈ nodes, (cfg.out post b).length) + 1 < fuel) :
    ∃ s, initializeFrom post cfg fuel [⟨[cfg.root post],0⟩] (startSearch post cfg) = some s ∧ Searching post cfg [] s := by
  obtain ⟨fuel,rfl⟩ : ∃ k, fuel = k + 1 := ⟨fuel - 1,by omega⟩
  have first : initializeFrom post cfg (fuel + 1) [⟨[cfg.root post],0⟩] (startSearch post cfg) =
      initializeFrom post cfg fuel (pushed (cfg.followed post (cfg.root post)) 1
        (pushed (cfg.followedExceptions post (cfg.root post)) 1 [])) (numbered (startSearch post cfg) (cfg.root post) 0) := rfl
  rw [first]
  refine searchRuns closed fuel startSearching (fun e on x onX => ?_) ?_
  · rcases mem_pushed.mp on with on | ⟨_,rfl⟩
    · rcases mem_pushed.mp on with on | ⟨_,rfl⟩
      · cases on
      · exact closed _ root x (List.mem_append_right _ onX)
    · exact closed _ root x (List.mem_append_left _ onX)
  · have all := @workNumbered post cfg (startSearch post cfg) (cfg.root post) 0 nodes root rfl
    have everything : (nodes.filter fun x => (startSearch post cfg).visited x = false) = nodes := Finset.filter_true_of_mem fun _ _ => rfl
    rw [everything,CFG.out,List.length_append] at all
    rw [work,pushedSum,pushedSum]
    simp only [List.map_nil,List.sum_nil]
    omega

end Search

end OmrCompiler.Dominators
