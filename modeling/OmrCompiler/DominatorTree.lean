import OmrCompiler.ControlDependents
import OmrCompiler.DominatorLoop
import OmrCompiler.DominatorSearch

/-! What the dominator tree of a control flow graph records: the immediate dominators of the
blocks that the search reaches, by way of their indices. -/
namespace OmrCompiler.Dominators
open Semidominators PostDominance

section Index
variable {post : Bool} {cfg : CFG} {nodes : Finset Nat} {s : Search} {b k : Nat} {path : List Nat}

-- The edges of both directions are the same ones. The other end of the graph has none to follow.
structure WellFormed (post : Bool) (cfg : CFG) (nodes : Finset Nat) : Prop where
  root : cfg.root post ∈ nodes
  other : cfg.other post ∈ nodes
  closed : ∀ b ∈ nodes, ∀ x ∈ cfg.out post b, x ∈ nodes
  against : ∀ b ∈ nodes, ∀ x ∈ cfg.against post b, x ∈ nodes
  mirrored : ∀ a b, a ∈ cfg.against post b ↔ b ∈ cfg.out post a
  last : cfg.out post (cfg.other post) = []
  count : nodes.card = cfg.numberOfNodes

-- By index, as the numbers lead to it: a block that is not reached counts as the first.
def edge (post : Bool) (cfg : CFG) (s : Search) (b a : Nat) : Prop :=
  (0 < b ∧ b ≤ s.topDfNum) ∧ ∃ c ∈ cfg.against post (s.infos.block b), (s.dfNumbers c + 1).toNat = a

def blockEdge (post : Bool) (cfg : CFG) (b a : Nat) : Prop := a ∈ cfg.against post b

-- What the search leaves: the numbers of the other blocks are the first ones.
structure Searched (post : Bool) (cfg : CFG) (nodes : Finset Nat) (s : Search) : Prop extends Searching post cfg [] s where
  graph : WellFormed post cfg nodes
  unseen : ∀ b, s.visited b = false → s.dfNumbers b = if b = cfg.other post then -1 else 0

-- Before any link each vertex is a tree of its own.
theorem Searching.processed (searching : Searching post cfg [] s) :
    Processed (edge post cfg s) s.infos.parent s.topDfNum s.topDfNum s.infos := by
  have fresh := searching.fresh
  have empty : ∀ r, Chain s.infos.parent s.topDfNum s.topDfNum r s.infos [] := fun r =>
    ⟨⟨fun k on => absurd on List.not_mem_nil,.nil⟩,by rw [(fresh r).2.1]; exact .stop⟩
  refine ⟨⟨⟨(fresh 0).1,(fresh 0).2.2.2 (Nat.zero_le _)⟩,fun r _ atMost => ⟨(fresh r).1,((fresh r).2.2.2 atMost).1⟩,fun x some => absurd (fresh x).1 some,
    fun x pos last => ⟨[x],?_,fun k on => ?_,⟨fun y way => ?_,fun q on => ?_⟩,fun k on _ => ?_⟩,fun r _ _ => ⟨[],empty r⟩⟩,rfl,
    fun r _ atMost => ((fresh r).2.2.2 atMost).2,fun w after last => absurd last (by omega),fun w after last => absurd last (by omega),fun p w on => ?_⟩
  · refine .step (Nat.ne_of_gt pos) ?_
    rw [(fresh x).1]
    exact .stop
  · rw [List.mem_singleton.mp on]
    exact last
  · have := way.1.le
    have := way.2
    omega
  · rw [List.map_singleton,List.mem_singleton,((fresh x).2.2.2 last).1] at on
    rw [on]
    exact .inr (.inl (rootSelf last))
  · rw [List.mem_singleton.mp on]
    exact ⟨x,pos,rootSelf last,.inl rfl⟩
  · rw [(fresh p).2.2.1] at on
    exact absurd on (Finset.notMem_empty w)

theorem insidePath (tree : SpanningTree (edge post cfg s) s.infos.parent s.topDfNum) (pos : 0 < k) (last : k ≤ s.topDfNum)
    (run : ExitPath (edge post cfg s) 1 k path) : ∀ y ∈ path, 0 < y ∧ y ≤ s.topDfNum := by
  induction run with
  | stop => exact fun y on => by rw [List.mem_singleton.mp on]; exact ⟨pos,last⟩
  | @step b a _ on _ ih =>
      intro y member
      obtain ⟨_,_,posA,lastA⟩ := tree.inside b a on
      rcases List.mem_cons.mp member with rfl | later
      · exact ⟨pos,last⟩
      · exact ih posA lastA y later

variable (searched : Searched post cfg nodes s)
include searched

theorem Searched.index (pos : 0 < k) (last : k ≤ s.topDfNum) : (s.dfNumbers (s.infos.block k) + 1).toNat = k := by
  rw [(searched.numbers k pos last).2]
  omega

theorem Searched.injective {i j : Nat} (posI : 0 < i) (lastI : i ≤ s.topDfNum) (posJ : 0 < j) (lastJ : j ≤ s.topDfNum)
    (same : s.infos.block i = s.infos.block j) : i = j := by
  rw [← searched.index posI lastI,same,searched.index posJ lastJ]

theorem Searched.rootAbove (b : Nat) (pos : 0 < b) (last : b ≤ s.topDfNum) : Above s.infos.parent 1 b := by
  induction b using Nat.strongRecOn with
  | ind b ih =>
      by_cases first : b = 1
      · rw [first]
        exact .here
      · obtain ⟨some,less,_⟩ := searched.up b (by omega) last
        exact .up some less (ih (s.infos.parent b) less some (by omega))

theorem Searched.spanning :
    SpanningTree (edge post cfg s) s.infos.parent s.topDfNum := by
  have first := searched.first.1
  have seen : ∀ b a, edge post cfg s b a → (0 < a ∧ a ≤ s.topDfNum) ∧ (s.infos.block b ∈ cfg.out post (s.infos.block a) ∨ a = 1) := by
    rintro b a ⟨_,c,on,rfl⟩
    have out := (searched.graph.mirrored _ _).mp on
    cases known : s.visited c with
    | true =>
        obtain ⟨k,pos,last,rfl⟩ := searched.visited c known
        rw [searched.index pos last]
        exact ⟨⟨pos,last⟩,.inl out⟩
    | false =>
        have other : c ≠ cfg.other post := fun same => by
          rw [same,searched.graph.last] at out
          exact List.not_mem_nil out
        rw [searched.unseen c known,if_neg other]
        exact ⟨⟨Nat.one_pos,first⟩,.inr rfl⟩
  refine ⟨fun b a on => ⟨on.1.1,on.1.2,(seen b a on).1⟩,fun b less last => ?_,fun b a on less => ?_,searched.between⟩
  · obtain ⟨pos,below,out⟩ := searched.up b less last
    exact ⟨pos,below,⟨by omega,last⟩,_,(searched.graph.mirrored _ _).mpr out,searched.index pos (by omega)⟩
  · obtain ⟨inside,out | isRoot⟩ := seen b a on
    · exact searched.forward b a inside.1 less on.1.2 out
    · rw [isRoot]
      exact searched.rootAbove b on.1.1 on.1.2

theorem Searched.fromBlocks
    (run : ExitPath (blockEdge post cfg) (cfg.root post) b path) :
    ∃ k path', 0 < k ∧ k ≤ s.topDfNum ∧ s.infos.block k = b ∧ ExitPath (edge post cfg s) 1 k path' ∧ path = path'.map s.infos.block := by
  induction run with
  | stop => exact ⟨1,[1],Nat.one_pos,searched.first.1,searched.first.2,.stop,by rw [List.map_singleton,searched.first.2]⟩
  | @step b a path on _ ih =>
      obtain ⟨k,path',pos,last,rfl,run,rfl⟩ := ih
      obtain ⟨i,posI,lastI,rfl⟩ : ∃ i, 0 < i ∧ i ≤ s.topDfNum ∧ s.infos.block i = b := by
        rcases searched.pending k pos last b ((searched.graph.mirrored _ _).mp on) with seen | ⟨e,onE,_⟩
        · exact searched.visited b seen
        · exact absurd onE List.not_mem_nil
      exact ⟨i,i::path',posI,lastI,rfl,.step ⟨⟨posI,lastI⟩,_,on,searched.index pos last⟩ run,rfl⟩

theorem Searched.reaches :
    Reaches (blockEdge post cfg) (cfg.root post) b ↔ s.visited b = true := by
  constructor
  · rintro ⟨path,run⟩
    obtain ⟨k,_,pos,last,rfl,_⟩ := searched.fromBlocks run
    exact (searched.numbers k pos last).1
  · intro seen
    obtain ⟨k,pos,last,rfl⟩ := searched.visited b seen
    clear seen
    induction k using Nat.strongRecOn with
    | ind k ih =>
        by_cases first : k = 1
        · rw [first,searched.first.2]
          exact ⟨_,.stop⟩
        · obtain ⟨posP,less,on⟩ := searched.up k (by omega) last
          obtain ⟨path,run⟩ := ih _ less posP (by omega)
          exact ⟨_,.step ((searched.graph.mirrored _ _).mpr on) run⟩

end Index

section Complete
variable {post : Bool} {cfg : CFG} {nodes : Finset Nat} {s : Search} {k d : Nat} {path : List Nat}

/- The search has reached the blocks that lead to reached ones. -/
structure Complete (post : Bool) (cfg : CFG) (nodes : Finset Nat) (s : Search) : Prop extends Searched post cfg nodes s where
  all : ∀ k, 0 < k → k ≤ s.topDfNum → ∀ c ∈ cfg.against post (s.infos.block k), s.visited c = true

variable (complete : Complete post cfg nodes s)
include complete

theorem Complete.tree : SpanningTree (edge post cfg s) s.infos.parent s.topDfNum := complete.toSearched.spanning

theorem Complete.toBlocks (run : ExitPath (edge post cfg s) 1 k path) :
    ExitPath (blockEdge post cfg) (cfg.root post) (s.infos.block k) (path.map s.infos.block) := by
  induction run with
  | stop =>
      rw [← complete.first.2]
      exact .stop
  | @step b a _ on _ ih =>
      obtain ⟨⟨pos,last⟩,c,onC,rfl⟩ := on
      obtain ⟨j,posJ,lastJ,rfl⟩ := complete.visited c (complete.all b pos last c onC)
      rw [complete.index posJ lastJ] at ih
      exact .step onC ih

theorem Complete.dominates (posK : 0 < k) (lastK : k ≤ s.topDfNum) (posD : 0 < d) (lastD : d ≤ s.topDfNum) :
    PostDominates (blockEdge post cfg) (cfg.root post) (s.infos.block d) (s.infos.block k) ↔ PostDominates (edge post cfg s) 1 d k := by
  constructor
  · intro dominates path run
    obtain ⟨y,on,same⟩ := List.mem_map.mp (dominates _ (complete.toBlocks run))
    obtain ⟨posY,lastY⟩ := insidePath complete.tree posK lastK run y on
    rwa [complete.injective posD lastD posY lastY same.symm]
  · intro dominates path run
    obtain ⟨i,path',posI,lastI,same,run',rfl⟩ := complete.fromBlocks run
    rw [complete.injective posI lastI posK lastK same] at run'
    exact List.mem_map_of_mem (dominates path' run')

theorem Complete.immediate (pos : 0 < k) (last : k ≤ s.topDfNum) (immediate : Immediate (edge post cfg s) 1 d k) :
    Immediate (blockEdge post cfg) (cfg.root post) (s.infos.block d) (s.infos.block k) := by
  obtain ⟨posD,above⟩ := complete.tree.dominatorAbove pos last immediate.1.1
  have upTo := above.le
  refine ⟨⟨(complete.dominates pos last posD (by omega)).mpr immediate.1.1,fun same => ?_⟩,fun c strictly => ?_⟩
  · exact immediate.1.2 (complete.injective posD (by omega) pos last same)
  · obtain ⟨path,run,_⟩ := complete.tree.reaches k pos last
    obtain ⟨y,on,rfl⟩ := List.mem_map.mp (strictly.1 _ (complete.toBlocks run))
    obtain ⟨posY,lastY⟩ := insidePath complete.tree pos last run y on
    refine (complete.dominates posD (by omega) posY lastY).mpr (immediate.2 y ⟨?_,fun same => strictly.2 (by rw [same])⟩)
    exact (complete.dominates pos last posY lastY).mp strictly.1

end Complete

section Construct
variable {post : Bool} {cfg : CFG} {nodes : Finset Nat} {s : Search} {infos : Infos} {result : Result} {b k n fuel : Nat}

-- Each block has one index.
theorem recordedAt (dominators : Nat → Option Nat) (n : Nat) (injective : ∀ i j, 1 < i → i ≤ n → 1 < j → j ≤ n → infos.block i = infos.block j → i = j) :
    (∀ k, 1 < k → k ≤ n → recorded infos n dominators (infos.block k) = some (infos.block (infos.idom k))) ∧
      ∀ b, (∀ k, 1 < k → k ≤ n → infos.block k ≠ b) → recorded infos n dominators b = dominators b := by
  induction n using Nat.strongRecOn generalizing dominators with
  | ind n ih =>
      match n with
      | 0 => exact ⟨fun k less last => absurd last (by omega),fun _ _ => rfl⟩
      | 1 => exact ⟨fun k less last => absurd last (by omega),fun _ _ => rfl⟩
      | n + 2 =>
          obtain ⟨inside,outside⟩ := ih (n + 1) (by omega) (Function.update dominators (infos.block (n + 2)) (some (infos.block (infos.idom (n + 2)))))
            fun i j lessI lastI lessJ lastJ => injective i j lessI (by omega) lessJ (by omega)
          refine ⟨fun k less last => ?_,fun b off => ?_⟩
          · rw [recorded]
            by_cases here : k = n + 2
            · rw [here,outside _ fun j lessJ lastJ same => ?_,Function.update_self]
              have := injective j (n + 2) lessJ (by omega) (by omega) (Nat.le_refl _) same
              omega
            · exact inside k less (by omega)
          · rw [recorded,outside b fun k less last => off k less (by omega),Function.update_of_ne (Ne.symm (off (n + 2) (by omega) (Nat.le_refl _)))]

-- Only blocks that are reached get numbers.
theorem initializeKept {stack : List StackInfo} {s' : Search} (ran : initializeFrom post cfg fuel stack s = some s') (unseen : s'.visited b = false) :
    s.visited b = false ∧ s'.dfNumbers b = s.dfNumbers b := by
  induction fuel generalizing stack s with
  | zero => cases ran
  | succ fuel ih =>
      match stack with
      | [] =>
          cases ran
          exact ⟨unseen,rfl⟩
      | ⟨[],_⟩::_ => cases ran
      | ⟨block::next,parent⟩::stack =>
          rw [initializeFrom] at ran
          split at ran
          · exact ih ran
          · obtain ⟨fresh,same⟩ := ih ran
            dsimp only [numbered] at fresh same
            by_cases here : b = block
            · rw [here,Function.update_self] at fresh
              cases fresh
            · rw [Function.update_of_ne here] at fresh same
              exact ⟨fresh,same⟩

theorem searchedFrom (wellFormed : WellFormed post cfg nodes) (enough : (∑ b ∈ nodes, (cfg.out post b).length) + nodes.card < fuel) :
    ∃ s, initializeFrom post cfg fuel [⟨[cfg.root post],0⟩] (startSearch post cfg) = some s ∧ Searched post cfg nodes s := by
  have some : 0 < nodes.card := Finset.card_pos.mpr ⟨_,wellFormed.root⟩
  have more : (∑ b ∈ nodes, (cfg.out post b).length) + 1 < fuel := by omega
  obtain ⟨s,ran,searching⟩ := searchFinds wellFormed.root wellFormed.closed more
  refine ⟨s,ran,searching,wellFormed,fun b unseen => ?_⟩
  rw [(initializeKept ran unseen).2]
  simp only [startSearch,Function.update_apply]

def Search.reached (s : Search) : Finset Nat := (Finset.Icc 1 s.topDfNum).image s.infos.block

variable (searched : Searched post cfg nodes s)
include searched

-- The blocks that are reached are nodes of the graph.
theorem Searched.inside (k : Nat) (pos : 0 < k) (last : k ≤ s.topDfNum) :
    s.infos.block k ∈ nodes := by
  induction k using Nat.strongRecOn with
  | ind k ih =>
      by_cases first : k = 1
      · rw [first,searched.first.2]
        exact searched.graph.root
      · obtain ⟨posP,less,on⟩ := searched.up k (by omega) last
        exact searched.graph.closed _ (ih _ less posP (by omega)) _ on

theorem Searched.count : s.reached.card = s.topDfNum := by
  rw [Search.reached,Finset.card_image_of_injOn,Nat.card_Icc,Nat.add_sub_cancel]
  intro i onI j onJ same
  have onI := Finset.mem_Icc.mp onI
  have onJ := Finset.mem_Icc.mp onJ
  exact searched.injective onI.1 onI.2 onJ.1 onJ.2 same

theorem Searched.seen : b ∈ s.reached ↔ s.visited b = true := by
  rw [Search.reached,Finset.mem_image]
  constructor
  · rintro ⟨k,on,rfl⟩
    have on := Finset.mem_Icc.mp on
    exact (searched.numbers k on.1 on.2).1
  · intro known
    obtain ⟨k,pos,last,same⟩ := searched.visited b known
    exact ⟨k,Finset.mem_Icc.mpr ⟨pos,last⟩,same⟩

theorem Searched.sub : s.reached ⊆ nodes := fun b on => by
  obtain ⟨k,onK,rfl⟩ := Finset.mem_image.mp on
  have onK := Finset.mem_Icc.mp onK
  exact searched.inside k onK.1 onK.2

theorem Searched.some : s.topDfNum ≤ nodes.card := by
  rw [← searched.count]
  exact Finset.card_le_card searched.sub

/- The object is valid when all blocks but perhaps the other end are reached. -/
theorem Searched.valid :
    (if s.visited (cfg.other post) = true then s.topDfNum = cfg.numberOfNodes else s.topDfNum + 1 = cfg.numberOfNodes) ↔
      ∀ b ∈ nodes, b ≠ cfg.other post → s.visited b = true := by
  have sub := searched.sub
  have counted := searched.count
  rw [← searched.graph.count]
  split
  · rename_i known
    constructor
    · intro same b on _
      have all := Finset.eq_of_subset_of_card_le sub (by omega)
      exact searched.seen.mp (by rw [all]; exact on)
    · intro all
      rw [← counted]
      refine congrArg Finset.card (Finset.Subset.antisymm sub fun b on => searched.seen.mpr ?_)
      by_cases here : b = cfg.other post
      · rw [here]
        exact known
      · exact all b on here
  · rename_i unknown
    have off : s.reached ⊆ nodes.erase (cfg.other post) := fun b on =>
      Finset.mem_erase.mpr ⟨fun same => unknown (by rw [← same]; exact searched.seen.mp on),sub on⟩
    have erased := Finset.card_erase_of_mem searched.graph.other
    have some : 0 < nodes.card := Finset.card_pos.mpr ⟨_,searched.graph.root⟩
    constructor
    · intro same b on other
      have all := Finset.eq_of_subset_of_card_le off (by omega)
      exact searched.seen.mp (by rw [all]; exact Finset.mem_erase.mpr ⟨other,on⟩)
    · intro all
      have same : s.reached = nodes.erase (cfg.other post) := Finset.Subset.antisymm off fun b on =>
        searched.seen.mpr (all b (Finset.mem_of_mem_erase on) (Finset.ne_of_mem_erase on))
      rw [same] at counted
      omega

end Construct

section Trees
variable {post : Bool} {cfg : CFG} {nodes : Finset Nat} {s : Search} {result : Result} {a b k fuel : Nat}

-- The tree of the blocks by index, whatever the edges from blocks that are not reached.
structure Found (post : Bool) (cfg : CFG) (s : Search) (result : Result) : Prop where
  numbers : ∀ k, 0 < k → k ≤ s.topDfNum → result.dfNumbers (s.infos.block k) = k - 1
  root : result.getDominator (cfg.root post) = none
  immediate : ∀ k, 1 < k → k ≤ s.topDfNum → ∃ d, result.getDominator (s.infos.block k) = some (s.infos.block d) ∧ Immediate (edge post cfg s) 1 d k
  isValid : result.isValid = true ↔
    post = false ∨ if s.visited (cfg.other post) = true then s.topDfNum = cfg.numberOfNodes else s.topDfNum + 1 = cfg.numberOfNodes

theorem constructFinds (wellFormed : WellFormed post cfg nodes) (enough : (∑ b ∈ nodes, (cfg.out post b).length) + nodes.card < fuel) :
    ∃ s result, construct post cfg fuel = some result ∧ Searched post cfg nodes s ∧ Found post cfg s result := by
  obtain ⟨s,ran,searched⟩ := searchedFrom wellFormed enough
  have tree := searched.spanning
  have first := searched.first.1
  have short := searched.some
  have indexed : Indexed post cfg s.dfNumbers (edge post cfg s) s.topDfNum s.infos.block := fun i pos last x =>
    ⟨fun on => on.2,fun on => ⟨⟨pos,last⟩,on⟩⟩
  have more : s.topDfNum < fuel := by omega
  obtain ⟨t,processed,block,done⟩ := processedAll tree s.topDfNum first (Nat.le_refl _) searched.processed indexed more
  obtain ⟨same,immediate⟩ := adjusted tree (t := t) (s.topDfNum - 1) 2 (by omega) (by omega) done.done (fun w less before => absurd before (by omega))
    fun w less last => done.settledAll tree w less last
  rw [block] at same
  obtain ⟨inside,outside⟩ := recordedAt (fun _ => none) s.topDfNum fun i j lessI lastI lessJ lastJ equal => by
    rw [same] at equal
    exact searched.injective (by omega) lastI (by omega) lastJ equal
  rw [same] at inside outside
  have atRoot := outside (cfg.root post) fun k less last equal => by
    rw [← searched.first.2] at equal
    have := searched.injective (by omega) last Nat.one_pos first equal
    omega
  have other : s.visited (cfg.other post) = true ↔ ¬ s.dfNumbers (cfg.other post) < 0 := by
    cases known : s.visited (cfg.other post) with
    | true =>
        obtain ⟨k,pos,last,here⟩ := searched.visited _ known
        have number := (searched.numbers k pos last).2
        rw [here] at number
        exact ⟨fun _ => by omega,fun _ => rfl⟩
    | false =>
        rw [searched.unseen _ known,if_pos rfl]
        decide
  unfold construct findDominators
  rw [← startSearch]
  dsimp only
  rw [ran]
  simp only [Option.bind_eq_bind,Option.bind_some,processed]
  split
  · rename_i negative
    refine ⟨s,_,rfl,searched,fun k pos last => ?_,atRoot,fun k less last => ⟨_,inside k less last,immediate k less (by omega)⟩,?_⟩
    · have number := (searched.numbers k pos last).2
      dsimp only
      rw [Function.update_of_ne fun here => ?_,number]
      rw [← here,number] at negative
      omega
    · rw [if_neg (by rw [other]; exact not_not.mpr negative)]
      simp
  · rename_i more
    refine ⟨s,_,rfl,searched,fun k pos last => (searched.numbers k pos last).2,atRoot,fun k less last => ⟨_,inside k less last,immediate k less (by omega)⟩,?_⟩
    rw [if_pos (other.mpr more)]
    simp

theorem Searched.complete (searched : Searched post cfg nodes s) (all : ∀ b ∈ nodes, b ≠ cfg.other post → Reaches (blockEdge post cfg) (cfg.root post) b) :
    Complete post cfg nodes s := by
  refine ⟨searched,fun k pos last c on => ?_⟩
  have graph := searched.graph
  refine searched.reaches.mp (all c (graph.against _ (searched.inside k pos last) c on) fun same => ?_)
  have out := (graph.mirrored _ _).mp on
  rw [same,graph.last] at out
  exact List.not_mem_nil out

theorem Found.tree (found : Found post cfg s result) (complete : Complete post cfg nodes s) :
    Tree (blockEdge post cfg) (cfg.root post) result.getDominator := by
  refine ⟨found.root,fun a reached other => ?_⟩
  obtain ⟨k,pos,last,rfl⟩ := complete.visited a (complete.reaches.mp reached)
  have notFirst : k ≠ 1 := fun first => other (by rw [first,complete.first.2])
  obtain ⟨d,own,immediate⟩ := found.immediate k (by omega) last
  exact ⟨_,own,complete.immediate pos last immediate⟩

-- The recorded blocks above one are those that dominate it, from the last index on.
theorem Found.climbs (found : Found post cfg s result) (complete : Complete post cfg nodes s) {i : Nat} (posI : 0 < i) (lastI : i ≤ s.topDfNum)
    (fuel k : Nat) (pos : 0 < k) (last : k ≤ s.topDfNum) (enough : k ≤ fuel) :
    ∃ answer, dominatesFrom result (s.infos.block i) fuel (some (s.infos.block k)) = some answer ∧
      (answer = true ↔ PostDominates (blockEdge post cfg) (cfg.root post) (s.infos.block i) (s.infos.block k)) := by
  induction fuel generalizing k with
  | zero => exact absurd enough (by omega)
  | succ fuel ih =>
      rw [dominatesFrom,found.numbers k pos last,found.numbers i posI lastI]
      by_cases before : k < i
      · rw [if_neg (by omega)]
        refine ⟨false,rfl,fun never => absurd never (by decide),fun dominates => ?_⟩
        have := (complete.tree.dominatorAbove pos last ((complete.dominates pos last posI lastI).mp dominates)).2.le
        omega
      · rw [if_pos (by omega)]
        by_cases same : k = i
        · rw [same,if_pos rfl]
          exact ⟨true,rfl,fun _ => .refl _,fun _ => rfl⟩
        · have other : s.infos.block k ≠ s.infos.block i := fun equal => same (complete.injective pos last posI lastI equal)
          obtain ⟨d,own,immediate⟩ := found.immediate k (by omega) last
          obtain ⟨posD,above⟩ := complete.tree.dominatorAbove pos last immediate.1.1
          have upTo := above.le
          have notSelf := immediate.1.2
          obtain ⟨answer,ran,meets⟩ := ih d posD (by omega) (by omega)
          rw [if_neg other,own,(complete.immediate pos last immediate).least]
          exact ⟨answer,ran,meets.trans (or_iff_right (Ne.symm other)).symm⟩

end Trees

section Results
variable {post : Bool} {cfg : CFG} {nodes : Finset Nat} {fuel : Nat}

-- From the entry 0 block 2 branches round 3 to the exit 1.
def sampleCFG : CFG where
  start := 0
  exit := 1
  successors := fun b => if b = 0 then [2] else if b = 2 then [3,1] else if b = 3 then [1] else []
  exceptionSuccessors := fun _ => []
  predecessors := fun b => if b = 2 then [0] else if b = 3 then [2] else if b = 1 then [2,3] else []
  exceptionPredecessors := fun _ => []
  numberOfNodes := 4

theorem sampleWellFormed (post : Bool) : WellFormed post sampleCFG {0,1,2,3} := by
  have mirrored : ∀ a b, a ∈ sampleCFG.against post b ↔ b ∈ sampleCFG.out post a := fun a b => by
    simp only [CFG.against,CFG.out,CFG.followed,CFG.followedExceptions,sampleCFG]
    grind
  cases post with
  | true => exact ⟨by decide,by decide,by decide,by decide,mirrored,rfl,rfl⟩
  | false => exact ⟨by decide,by decide,by decide,by decide,mirrored,rfl,rfl⟩

/- When all blocks have a way from the root, apart from the other end, the object holds the tree of
the immediate dominators and answers by climbing it. For the post-dominators it tells this. -/
theorem dominatorTree (wellFormed : WellFormed post cfg nodes) (enough : (∑ b ∈ nodes, (cfg.out post b).length) + nodes.card < fuel) :
    ∃ result, construct post cfg fuel = some result ∧
      (result.isValid = true ↔ post = false ∨ ∀ b ∈ nodes, b ≠ cfg.other post → Reaches (blockEdge post cfg) (cfg.root post) b) ∧
      ((∀ b ∈ nodes, b ≠ cfg.other post → Reaches (blockEdge post cfg) (cfg.root post) b) → Tree (blockEdge post cfg) (cfg.root post) result.getDominator ∧
        ∀ a b, Reaches (blockEdge post cfg) (cfg.root post) a → Reaches (blockEdge post cfg) (cfg.root post) b →
          ∃ answer, dominates fuel result a b = some answer ∧ (answer = true ↔ PostDominates (blockEdge post cfg) (cfg.root post) a b)) := by
  obtain ⟨s,result,ran,searched,found⟩ := constructFinds wellFormed enough
  refine ⟨result,ran,found.isValid.trans (or_congr_right (searched.valid.trans (by simp only [searched.reaches]))),fun all => ?_⟩
  have complete := searched.complete all
  refine ⟨found.tree complete,fun a b reachedA reachedB => ?_⟩
  obtain ⟨i,posI,lastI,rfl⟩ := searched.visited a (searched.reaches.mp reachedA)
  obtain ⟨k,pos,last,rfl⟩ := searched.visited b (searched.reaches.mp reachedB)
  have short := searched.some
  unfold dominates
  split
  · rename_i same
    rw [same]
    exact ⟨true,rfl,fun _ => .refl _,fun _ => rfl⟩
  · exact found.climbs complete posI lastI fuel k pos last (by omega)

theorem dominatorTreeSample : ∃ result, construct true sampleCFG 9 = some result ∧ (result.isValid = true → ∃ d, result.getDominator 2 = some d ∧
    Immediate (blockEdge true sampleCFG) 1 d 2) := by
  obtain ⟨result,ran,valid,holds⟩ := @dominatorTree true sampleCFG {0,1,2,3} 9 (sampleWellFormed true) (by decide)
  refine ⟨result,ran,fun isValid => ?_⟩
  exact (holds ((valid.mp isValid).resolve_left (by decide))).1.immediate 2 ⟨[2,1],.step (show 1 ∈ sampleCFG.against true 2 by decide) .stop⟩ (by decide)

-- Block 2 goes on by block 3 or leaves at once.
example : (construct true sampleCFG 9).map (fun r => (r.isValid,[0,1,2,3].map r.getDominator)) = some (true,[some 2,none,some 1,some 1]) := by decide +kernel

open ControlDependents in
-- With the post-dominators computed here, findControlDependents finds the control dependents.
theorem controlDependentsComputed (wellFormed : WellFormed true cfg nodes) (exitLast : cfg.against true cfg.exit = []) {blocks : List Nat}
    (chain : ∀ b, b ∈ blocks ↔ b ∈ nodes ∧ b ≠ cfg.exit ∧ b ≠ cfg.start) (enough : (∑ b ∈ nodes, (cfg.out true b).length) + nodes.card < fuel) :
    ∃ result, construct true cfg fuel = some result ∧ (result.isValid = true → ∃ least, ∀ fuel, least ≤ fuel → ∃ table,
      findControlDependents result.getDominator ⟨cfg.successors,cfg.exceptionSuccessors,blocks,cfg.exit⟩ fuel = some table ∧
      (∀ a ∈ blocks, ∀ b, b ∈ table a ↔ Controls ⟨cfg.successors,cfg.exceptionSuccessors,blocks,cfg.exit⟩ a b) ∧ ∀ a, a ∉ blocks → table a = ∅) := by
  obtain ⟨s,result,ran,searched,found⟩ := constructFinds wellFormed enough
  refine ⟨result,ran,fun valid => tableMembers ?_⟩
  have all := (searched.valid.mp ((found.isValid.mp valid).resolve_left (by decide)))
  have complete := searched.complete fun b on other => searched.reaches.mpr (all b on other)
  have same : FlowGraph.edge ⟨cfg.successors,cfg.exceptionSuccessors,blocks,cfg.exit⟩ = blockEdge true cfg := by
    funext a s
    exact propext List.mem_append.symm
  refine ⟨fun s on => ?_,fun on => ((chain _).mp on).2.1 rfl,fun a block s on => ?_,fun a block => ?_,?_⟩
  · rw [same,blockEdge,exitLast] at on
    exact List.not_mem_nil on
  · rw [same,blockEdge] at on
    by_cases exit : s = cfg.exit
    · exact .inr exit
    · refine .inl ((chain s).mpr ⟨wellFormed.against a ((chain a).mp block).1 s on,exit,fun start => ?_⟩)
      have out := (wellFormed.mirrored _ _).mp on
      rw [start] at out
      have none : cfg.out true cfg.start = [] := wellFormed.last
      rw [none] at out
      exact List.not_mem_nil out
  · rw [same]
    exact searched.reaches.mpr (all a ((chain a).mp block).1 ((chain a).mp block).2.2)
  · rw [same]
    exact found.tree complete

open ControlDependents in
theorem controlDependentsComputedSample : ∃ result, construct true sampleCFG 9 = some result ∧ (result.isValid = true → ∃ least, ∀ fuel, least ≤ fuel →
    ∃ table, findControlDependents result.getDominator ⟨sampleCFG.successors,fun _ => [],[2,3],1⟩ fuel = some table) := by
  obtain ⟨result,ran,computed⟩ := @controlDependentsComputed sampleCFG {0,1,2,3} 9 (sampleWellFormed true) (by decide) [2,3] (fun b => by simp [sampleCFG]; omega) (by decide)
  refine ⟨result,ran,fun valid => ?_⟩
  obtain ⟨least,tables⟩ := computed valid
  exact ⟨least,fun fuel more => (tables fuel more).imp fun table found => found.1⟩

end Results

end OmrCompiler.Dominators
