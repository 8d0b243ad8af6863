import Mathlib.Data.Finset.Sort
import OmrCompiler.Semidominators

/-! The dominator tree of TR_Dominators (Dominators.cpp), which the post-dominators share:
the depth-first search, the forest with balanced links, the semidominators and the tree. -/
namespace OmrCompiler.Dominators

structure CFG where
  start : Nat
  exit : Nat
  successors : Nat → List Nat
  exceptionSuccessors : Nat → List Nat
  predecessors : Nat → List Nat
  exceptionPredecessors : Nat → List Nat
  numberOfNodes : Nat

/- Each field of BBInfo by index. One that is not set is 0 here and -1 in the source, where it
is read of the dummy entry's _sdno only: compared with an index, neither is more. -/
structure Infos where
  block : Nat → Nat
  parent : Nat → Nat
  idom : Nat → Nat
  ancestor : Nat → Nat
  label : Nat → Nat
  bucket : Nat → Finset Nat
  child : Nat → Nat
  sdno : Nat → Nat
  size : Nat → Nat

section Forest

def compress : Nat → Infos → Nat → Option Infos
  | 0,_,_ => none
  | fuel + 1,infos,index =>
      let ancestor := infos.ancestor index
      if infos.ancestor ancestor ≠ 0 then do
        let infos ← compress fuel infos ancestor
        let label := if infos.sdno (infos.label ancestor) < infos.sdno (infos.label index) then infos.label ancestor else infos.label index
        some {infos with
          label := Function.update infos.label index label
          ancestor := Function.update infos.ancestor index (infos.ancestor ancestor)}
      else some infos

def eval (fuel : Nat) (infos : Infos) (index : Nat) : Option (Infos × Nat) :=
  if infos.ancestor index = 0 then some (infos,infos.label index)
  else do
    let infos ← compress fuel infos index
    let ancestor := infos.ancestor index
    some (infos,if infos.sdno (infos.label ancestor) ≥ infos.sdno (infos.label index) then infos.label index else infos.label ancestor)

-- The subtrees whose roots' labels have a higher semidominator become one.
def rebalance (sdno : Nat) : Nat → Infos → Nat → Option (Infos × Nat)
  | 0,_,_ => none
  | fuel + 1,infos,si =>
      let child := infos.child si
      if sdno < infos.sdno (infos.label child) then
        if infos.size si + infos.size (infos.child child) ≥ 2 * infos.size child then
          rebalance sdno fuel {infos with
            ancestor := Function.update infos.ancestor child si
            child := Function.update infos.child si (infos.child child)} si
        else
          rebalance sdno fuel {infos with
            size := Function.update infos.size child (infos.size si)
            ancestor := Function.update infos.ancestor si child} child
      else some (infos,si)

def adoptAll (parentIndex : Nat) : Nat → Infos → Nat → Option Infos
  | 0,_,_ => none
  | fuel + 1,infos,si =>
      if si ≠ 0 then adoptAll parentIndex fuel {infos with ancestor := Function.update infos.ancestor si parentIndex} (infos.child si)
      else some infos

def link (fuel : Nat) (infos : Infos) (parentIndex childIndex : Nat) : Option Infos := do
  let (infos,si) ← rebalance (infos.sdno (infos.label childIndex)) fuel infos childIndex
  let infos := {infos with label := Function.update infos.label si (infos.label childIndex)}
  let infos := {infos with size := Function.update infos.size parentIndex (infos.size parentIndex + infos.size childIndex)}
  if infos.size parentIndex < 2 * infos.size childIndex then
    adoptAll parentIndex fuel {infos with child := Function.update infos.child parentIndex si} (infos.child parentIndex)
  else adoptAll parentIndex fuel infos si

end Forest

section Search

-- What is left of a list of edges, and the index of the block it belongs to.
structure StackInfo where
  list : List Nat
  parent : Nat

structure Search where
  visited : Nat → Bool
  dfNumbers : Nat → Int
  topDfNum : Nat
  infos : Infos

variable (postDominators : Bool) (cfg : CFG)

def CFG.followed (block : Nat) : List Nat := if postDominators then cfg.predecessors block else cfg.successors block

def CFG.followedExceptions (block : Nat) : List Nat := if postDominators then cfg.exceptionPredecessors block else cfg.exceptionSuccessors block

-- TR_SuccessorIterator and TR_PredecessorIterator
def CFG.against (block : Nat) : List Nat :=
  if postDominators then cfg.successors block ++ cfg.exceptionSuccessors block else cfg.predecessors block ++ cfg.exceptionPredecessors block

def pushed (list : List Nat) (parent : Nat) (stack : List StackInfo) : List StackInfo := if list = [] then stack else ⟨list,parent⟩::stack

def numbered (search : Search) (block parent : Nat) : Search :=
  let index := search.topDfNum + 1
  { visited := Function.update search.visited block true
    dfNumbers := Function.update search.dfNumbers block search.topDfNum
    topDfNum := index
    infos := {search.infos with
      block := Function.update search.infos.block index block
      sdno := Function.update search.infos.sdno index index
      label := Function.update search.infos.label index index
      ancestor := Function.update search.infos.ancestor index 0
      child := Function.update search.infos.child index 0
      size := Function.update search.infos.size index 1
      parent := Function.update search.infos.parent index parent} }

def initializeFrom : Nat → List StackInfo → Search → Option Search
  | 0,_,_ => none
  | _ + 1,[],search => some search
  | _ + 1,⟨[],_⟩::_,_ => none
  | fuel + 1,⟨block::next,parent⟩::stack,search =>
      if search.visited block then initializeFrom fuel (pushed next parent stack) search
      else
        let search := numbered search block parent
        initializeFrom fuel (pushed (cfg.followed postDominators block) search.topDfNum
          (pushed (cfg.followedExceptions postDominators block) search.topDfNum (pushed next parent stack))) search

end Search

section Tree
variable (postDominators : Bool) (cfg : CFG) (fuel : Nat)

def lower (w : Nat) (index : Nat) (infos : Infos) : Option Infos := do
  let (infos,u) ← eval fuel infos index
  some (if infos.sdno u < infos.sdno w then {infos with sdno := Function.update infos.sdno w (infos.sdno u)} else infos)

def resolve (parent : Nat) (infos : Infos) (cursor : Nat) : Option Infos := do
  let (infos,u) ← eval fuel infos cursor
  some {infos with idom := Function.update infos.idom cursor (if infos.sdno u < infos.sdno cursor then u else parent)}

def process (dfNumbers : Nat → Int) (infos : Infos) (i : Nat) : Option Infos := do
  let infos ← (cfg.against postDominators (infos.block i)).foldlM (fun infos pred => lower fuel i (dfNumbers pred + 1).toNat infos) infos
  let infos := {infos with bucket := Function.update infos.bucket (infos.sdno i) (insert i (infos.bucket (infos.sdno i)))}
  let infos ← link fuel infos (infos.parent i) i
  let parent := infos.parent i
  let infos ← (infos.bucket parent).sort.foldlM (resolve fuel parent) infos
  some {infos with bucket := Function.update infos.bucket parent ∅}

-- i from the top down to 2.
def processAll (dfNumbers : Nat → Int) : Nat → Infos → Option Infos
  | 0,infos => some infos
  | 1,infos => some infos
  | i + 2,infos => do processAll dfNumbers (i + 1) (← process postDominators cfg fuel dfNumbers infos (i + 2))

-- i from 2 on, for n indices.
def adjust : Nat → Nat → Infos → Infos
  | 0,_,infos => infos
  | n + 1,i,infos => adjust n (i + 1) (if infos.idom i ≠ infos.sdno i then {infos with idom := Function.update infos.idom i (infos.idom (infos.idom i))} else infos)

def blank : Infos := ⟨fun _ => 0,fun _ => 0,fun _ => 0,fun _ => 0,fun _ => 0,fun _ => ∅,fun _ => 0,fun _ => 0,fun _ => 0⟩

def findDominators (start : Nat) (search : Search) : Option Search := do
  let search ← initializeFrom postDominators cfg fuel [⟨[start],0⟩] search
  let infos ← processAll postDominators cfg fuel search.dfNumbers search.topDfNum search.infos
  some {search with infos := adjust (search.topDfNum - 1) 2 infos}

structure Result where
  dfNumbers : Nat → Int
  dominators : Nat → Option Nat
  isValid : Bool

-- i from the top down to 2.
def recorded (infos : Infos) : Nat → (Nat → Option Nat) → Nat → Option Nat
  | 0,dominators => dominators
  | 1,dominators => dominators
  | i + 2,dominators => recorded infos (i + 1) (Function.update dominators (infos.block (i + 2)) (some (infos.block (infos.idom (i + 2)))))

def CFG.root : Nat := if postDominators then cfg.exit else cfg.start

def CFG.other : Nat := if postDominators then cfg.start else cfg.exit

-- A block that is not reached is an assertion failure for the dominators.
def construct : Option Result := do
  let search : Search := ⟨fun _ => false,Function.update (fun _ => 0) (cfg.other postDominators) (-1),0,blank⟩
  let search ← findDominators postDominators cfg fuel (cfg.root postDominators) search
  let dominators := recorded search.infos search.topDfNum fun _ => none
  let other := cfg.other postDominators
  if search.dfNumbers other < 0 then
    some ⟨Function.update search.dfNumbers other search.topDfNum,dominators,!postDominators || decide (search.topDfNum + 1 = cfg.numberOfNodes)⟩
  else some ⟨search.dfNumbers,dominators,!postDominators || decide (search.topDfNum = cfg.numberOfNodes)⟩

def Result.getDominator (result : Result) (block : Nat) : Option Nat := result.dominators block

def dominatesFrom (result : Result) (block : Nat) : Nat → Option Nat → Option Bool
  | 0,_ => none
  | _ + 1,none => some false
  | fuel + 1,some d =>
      if result.dfNumbers d ≥ result.dfNumbers block then
        if d = block then some true else dominatesFrom result block fuel (result.getDominator d)
      else some false

def dominates (result : Result) (block other : Nat) : Option Bool :=
  if other = block then some true else dominatesFrom result block fuel (some other)

end Tree

end OmrCompiler.Dominators
