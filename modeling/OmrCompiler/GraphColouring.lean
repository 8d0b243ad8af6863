import OmrCompiler.InterferenceGraph

/-! Graph colouring in two phases: simplify takes nodes off the graph and stacks
them, select pops them and gives each the first colour its neighbours leave. -/
namespace OmrCompiler.Interference
open MachineInt
open BitChunk (Layout)

variable {L : Layout}

def decWorkingDegree (g : InterferenceGraph L) (cursor : Nat) : InterferenceGraph L :=
  if (g.nodeTable cursor).isRemovedFromIG then g
  else update g cursor fun n => { n with workingDegree := decDegree n.workingDegree }

def decWorkingDegreeOfNeighbours (g : InterferenceGraph L) (igNode : Nat) : InterferenceGraph L :=
  update ((g.nodeTable igNode).adjList.foldl decWorkingDegree g) igNode fun n => { n with workingDegree := 0 }

def virtualRemoveNodeFromIG (g : InterferenceGraph L) (igNode : Nat) : InterferenceGraph L :=
  let g := decWorkingDegreeOfNeighbours g igNode
  let g := update g igNode fun n => { n with isRemovedFromIG := true }
  update g igNode fun n => { n with workingDegree := 0 }

-- virtualRemoveNodeFromIG(igNode); getNodeStack()->push(igNode)
def removeAndPush (g : InterferenceGraph L) (igNode : Nat) : InterferenceGraph L :=
  let g := virtualRemoveNodeFromIG g igNode
  { g with nodeStack := igNode::g.nodeStack }

-- The nodes of the working set, in ascending order, whose working degree is below the number of colours.
def colourableDegreeSet (g : InterferenceGraph L) (workingSet : List Nat) : List Nat :=
  workingSet.filter fun i => (g.nodeTable i).workingDegree < g.numColours

def notColourableDegreeSet (g : InterferenceGraph L) (workingSet : List Nat) : List Nat :=
  workingSet.filter fun i => ¬ (g.nodeTable i).workingDegree < g.numColours

-- if (igNode->getDegree() > degree), an unsigned comparison with an int32_t degree that starts at -1.
def betterSpill (g : InterferenceGraph L) (best : Int × Option Nat) (igNode : Nat) : Int × Option Nat :=
  if toUnsigned 32 best.1 < (g.nodeTable igNode).degree then (wrap 32 (g.nodeTable igNode).degree,some igNode) else best

def bestSpillNode (g : InterferenceGraph L) (candidates : List Nat) : Option Nat :=
  (candidates.foldl (betterSpill g) (-1,none)).2

inductive Fault where
  | outOfFuel
  | nullSpillNode
  deriving DecidableEq, Repr

def simplifyLoop : Nat → List Nat → InterferenceGraph L → Except Fault (InterferenceGraph L)
  | _,[],g => .ok g
  | 0,_::_,_ => .error .outOfFuel
  | fuel+1,i::rest,g =>
      let colourable := colourableDegreeSet g (i::rest)
      if colourable.isEmpty then
        match bestSpillNode g (notColourableDegreeSet g (i::rest)) with
        | none => .error .nullSpillNode
        | some best => simplifyLoop fuel ((i::rest).filter (· ≠ best)) (removeAndPush g best)
      else simplifyLoop fuel ((i::rest).filter (· ∉ colourable)) (colourable.foldl removeAndPush g)

def resetNodes (g : InterferenceGraph L) : InterferenceGraph L :=
  { g with nodeTable := fun i =>
      if i < g.numNodes then { g.nodeTable i with
        workingDegree := (g.nodeTable i).degree, isRemovedFromIG := false, colour := none }
      else g.nodeTable i }

def simplify (fuel : Nat) (g : InterferenceGraph L) : Except Fault (InterferenceGraph L) :=
  if g.numNodes = 0 then .ok g else simplifyLoop fuel (List.range g.numNodes) (resetNodes g)

def availableColours (g : InterferenceGraph L) (igNode : Nat) : List Nat :=
  (List.range g.numColours).filter fun colour =>
    ∀ adj ∈ (g.nodeTable igNode).adjList, (g.nodeTable adj).colour ≠ some colour

def selectLoop : List Nat → List Nat → InterferenceGraph L → Bool × InterferenceGraph L
  | [],assigned,g => (true,{ g with nodeStack := [], numberOfColoursUsedToColour := assigned.length })
  | igNode::stack,assigned,g =>
      match availableColours g igNode with
      | [] => (false,{ g with nodeStack := stack })
      | colour::_ => selectLoop stack (assigned.insert colour) (update g igNode fun n => { n with colour := some colour })

def select (g : InterferenceGraph L) : Bool × InterferenceGraph L :=
  selectLoop g.nodeStack [] { g with numberOfColoursUsedToColour := 0 }

def doColouring (fuel : Nat) (g : InterferenceGraph L) (numColours : Nat) :
    Except Fault (Bool × InterferenceGraph L) := do
  let g ← simplify fuel { g with numColours := numColours }
  .ok (select g)

end OmrCompiler.Interference
