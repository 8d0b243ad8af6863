import OmrCompiler.BitVector

/-! Interference graphs: the table of nodes with their adjacency lists, the
triangular interference matrix, and the colouring of the graph. A node is named
by its index in the table. -/
namespace OmrCompiler.Interference
open MachineInt
open BitChunk (Layout)
open BitVector (TRBitVector)

structure IGNode where
  entity : Nat
  degree : Nat
  workingDegree : Nat
  colour : Option Nat
  adjList : List Nat
  isRemovedFromIG : Bool
  deriving DecidableEq, Repr

def newNode (entity : Nat) : IGNode := ⟨entity,0,0,none,[],false⟩

def incDegree (degree : Nat) : Nat := (degree + 1) % 2 ^ 32

def decDegree (degree : Nat) : Nat := (degree + (2 ^ 32 - 1)) % 2 ^ 32

def highIndexTable : List Nat :=
  [0,
   0,1,3,6,10,15,21,28,
   36,45,55,66,78,91,105,120,
   136,153,171,190,210,231,253,276,
   300,325,351,378,406,435,465,496,
   528,561,595,630,666,703,741,780,
   820,861,903,946,990,1035,1081,1128,
   1176,1225,1275,1326,1378,1431,1485,1540,
   1596,1653,1711,1770,1830,1891,1953]

def getNodePairToBVIndex (index1 index2 : Nat) : Nat :=
  let low := if index1 < index2 then index1 else index2
  let high := if index1 < index2 then index2 else index1
  if high < 64 then low + highIndexTable.getD high 0 else (high - 1) * high / 2 + low

-- For indices in ascending order.
def getOrderedNodePairToBVIndex (low high : Nat) : Nat :=
  if high < 64 then low + highIndexTable.getD high 0 else (high - 2) * (high - 1) / 2 + low - 1

structure InterferenceGraph (L : Layout) where
  numNodes : Nat
  nodeTable : Nat → IGNode
  interferenceMatrix : TRBitVector L
  buckets : Nat → List Nat
  nodeStack : List Nat
  numColours : Nat
  numberOfColoursUsedToColour : Nat

variable {L : Layout}

def construct (L : Layout) (estimatedNodes : Nat) : InterferenceGraph L where
  numNodes := 0
  nodeTable _ := newNode 0
  interferenceMatrix := BitVector.construct L (wrap 32 (estimatedNodes * (estimatedNodes - 1)) / 2)
  buckets _ := []
  nodeStack := []
  numColours := 0
  numberOfColoursUsedToColour := 0

def update (g : InterferenceGraph L) (i : Nat) (f : IGNode → IGNode) : InterferenceGraph L :=
  { g with nodeTable := Function.update g.nodeTable i (f (g.nodeTable i)) }

def entityHashBucket (entity : Nat) : Nat := entity / 4 % 73

/- A bucket is circular and entered at its newest entry: the order in which a
search meets the entries is the newest, then the others from the oldest on. -/
def enterBucket (i : Nat) : List Nat → List Nat
  | [] => [i]
  | newest::older => i::(older ++ [newest])

def getIGNodeForEntity (g : InterferenceGraph L) (entity : Nat) : Option Nat :=
  (g.buckets (entityHashBucket entity)).find? fun i => (g.nodeTable i).entity = entity

def addNode (g : InterferenceGraph L) (entity : Nat) : InterferenceGraph L :=
  { g with
    numNodes := g.numNodes + 1
    nodeTable := Function.update g.nodeTable g.numNodes (newNode entity)
    buckets := Function.update g.buckets (entityHashBucket entity)
      (enterBucket g.numNodes (g.buckets (entityHashBucket entity))) }

def add (g : InterferenceGraph L) (entity : Nat) (ignoreDuplicates : Bool) : InterferenceGraph L :=
  if (getIGNodeForEntity g entity).isSome ∧ ignoreDuplicates then g else addNode g entity

def addInterferenceBetween (g : InterferenceGraph L) (igNode1 igNode2 : Nat) : InterferenceGraph L :=
  let bitNum := getNodePairToBVIndex igNode1 igNode2
  if igNode1 ≠ igNode2 ∧ BitVector.get g.interferenceMatrix bitNum = false then
    let g := { g with interferenceMatrix := BitVector.set g.interferenceMatrix bitNum }
    let g := update g igNode2 fun n => { n with adjList := igNode1::n.adjList }
    let g := update g igNode1 fun n => { n with adjList := igNode2::n.adjList }
    let g := update g igNode2 fun n => { n with degree := incDegree n.degree }
    update g igNode1 fun n => { n with degree := incDegree n.degree }
  else g

def hasInterference (g : InterferenceGraph L) (igNode1 igNode2 : Nat) : Bool :=
  BitVector.get g.interferenceMatrix (getNodePairToBVIndex igNode1 igNode2)

def removeInterferenceBetween (g : InterferenceGraph L) (igNode1 igNode2 : Nat) : InterferenceGraph L :=
  let g := update g igNode1 fun n => { n with adjList := n.adjList.erase igNode2 }
  let g := update g igNode2 fun n => { n with adjList := n.adjList.erase igNode1 }
  let g := update g igNode1 fun n => { n with degree := decDegree n.degree }
  let g := update g igNode2 fun n => { n with degree := decDegree n.degree }
  { g with interferenceMatrix :=
      BitVector.reset g.interferenceMatrix (getNodePairToBVIndex igNode1 igNode2) true }

-- The bit that is reset is that of the node with itself.
def removeNeighbour (igNode : Nat) (g : InterferenceGraph L) (cursor : Nat) : InterferenceGraph L :=
  let g := update g cursor fun n => { n with adjList := n.adjList.erase igNode }
  let g := update g cursor fun n => { n with degree := decDegree n.degree }
  { g with interferenceMatrix :=
      BitVector.reset g.interferenceMatrix (getNodePairToBVIndex igNode igNode) true }

def removeAllInterferences (g : InterferenceGraph L) (igNode : Nat) : InterferenceGraph L :=
  let g := (g.nodeTable igNode).adjList.foldl (removeNeighbour igNode) g
  let g := update g igNode fun n => { n with degree := 0 }
  update g igNode fun n => { n with adjList := [] }

inductive Op where
  | add (entity : Nat) (ignoreDuplicates : Bool)
  | addInterferenceBetween (entity1 entity2 : Nat)
  | removeInterferenceBetween (entity1 entity2 : Nat)
  | removeAllInterferences (entity : Nat)
  deriving DecidableEq, Repr

-- An entity that is not in the graph has no node to work on.
def step (g : InterferenceGraph L) : Op → Option (InterferenceGraph L)
  | .add entity ignoreDuplicates => some (add g entity ignoreDuplicates)
  | .addInterferenceBetween entity1 entity2 => do
      let igNode1 ← getIGNodeForEntity g entity1
      let igNode2 ← getIGNodeForEntity g entity2
      some (addInterferenceBetween g igNode1 igNode2)
  | .removeInterferenceBetween entity1 entity2 => do
      let igNode1 ← getIGNodeForEntity g entity1
      let igNode2 ← getIGNodeForEntity g entity2
      some (removeInterferenceBetween g igNode1 igNode2)
  | .removeAllInterferences entity => do
      let igNode ← getIGNodeForEntity g entity
      some (removeAllInterferences g igNode)

end OmrCompiler.Interference
