import Mathlib.Data.List.Nodup

/-! The maps from a symbol to the symbols that define it, built for the blocks that an
on-stack replacement runs through, and merged along the calls up to the root method. -/
namespace OmrCompiler.OsrDefiningMap

-- A bit vector is the ascending list of its elements.
def setBit (j : Nat) : List Nat → List Nat
  | [] => [j]
  | a::rest => if j < a then j::a::rest else if j = a then a::rest else a::setBit j rest

def orBits (result other : List Nat) : List Nat := other.foldl (fun r j => setBit j r) result

-- The symbol is that of an auto or parameter the node loads.
inductive Node
  | node (symRef : Option Nat) (children : List Node)

-- To visit a shared node again would not change the set.
mutual
def collectSubTreeSymRefs : Node → List Nat → List Nat
  | .node none children,subTreeSymRefs => collectChildren children subTreeSymRefs
  | .node (some j) children,subTreeSymRefs => collectChildren children (setBit j subTreeSymRefs)
def collectChildren : List Node → List Nat → List Nat
  | [],subTreeSymRefs => subTreeSymRefs
  | child::rest,subTreeSymRefs => collectChildren rest (collectSubTreeSymRefs child subTreeSymRefs)
end

-- Entries in the order of their keys.
abbrev DefiningMap := List (Nat × List Nat)

def find (k : Nat) : DefiningMap → Option (List Nat)
  | [] => none
  | (a,d)::rest => if a = k then some d else find k rest

def insert (k : Nat) (d : List Nat) : DefiningMap → DefiningMap
  | [] => [(k,d)]
  | (a,e)::rest => if k < a then (k,d)::(a,e)::rest else if k = a then (k,d)::rest else (a,e)::insert k d rest

/- The map is read while the result grows, and the result may be one of its vectors: so
it is given for each state of the result. -/
def updateDefiningSymRefs (definingMap : List Nat → Nat → Option (List Nat)) : List Nat → List Nat → List Nat
  | [],result => result
  | j::rest,result =>
      updateDefiningSymRefs definingMap rest
        (match definingMap result j with
        | none => setBit j result
        | some [] => setBit j result
        | some defining => orBits result defining)

def apart (m : DefiningMap) (_ : List Nat) (j : Nat) : Option (List Nat) := find j m

def within (m : DefiningMap) (k : Nat) (result : List Nat) (j : Nat) : Option (List Nat) := if j = k then some result else find j m

structure Store where
  symRef : Nat
  value : Node

def Store.symRefs (s : Store) : List Nat := collectSubTreeSymRefs s.value []

-- The store kills previous definitions; a value without symbols leaves an empty vector or no entry.
def storeTree (blockMap : DefiningMap) (s : Store) : DefiningMap :=
  if s.symRefs = [] then
    match find s.symRef blockMap with
    | some _ => insert s.symRef [] blockMap
    | none => blockMap
  else insert s.symRef (updateDefiningSymRefs (within blockMap s.symRef) s.symRefs []) blockMap

-- A symbol under a prepareForOSR call and the node that loads it. Special temps are passed over.
structure Argument where
  loadNode : Node
  symRefNumber : Nat
  special : Bool

def Argument.symRefs (a : Argument) : List Nat := collectSubTreeSymRefs a.loadNode []

def prepareArgument (blockMap prepareForOSRCallMap : DefiningMap) (a : Argument) : DefiningMap :=
  if a.special then prepareForOSRCallMap
  else if a.symRefs = [] then prepareForOSRCallMap
  else insert a.symRefNumber (updateDefiningSymRefs (apart blockMap) a.symRefs []) prepareForOSRCallMap

inductive Tree
  | store (s : Store)
  | prepareForOSR (arguments : List Argument)

def buildTree (maps : DefiningMap × DefiningMap) : Tree → DefiningMap × DefiningMap
  | .store s => (storeTree maps.1 s,maps.2)
  | .prepareForOSR arguments => (maps.1,arguments.foldl (prepareArgument maps.1) maps.2)

def buildDefiningMap (trees : List Tree) : DefiningMap × DefiningMap := trees.foldl buildTree ([],[])

def buildDefiningMapForBlock (blockMap : DefiningMap) (stores : List Store) : DefiningMap := stores.foldl storeTree blockMap

-- The code block of a method, and the blocks from there to the next code block.
structure Level where
  codeBlock : List Tree
  following : List Store

def mergeEntry (firstMap : DefiningMap) (entry : Nat × List Nat) : DefiningMap :=
  match find entry.1 firstMap with
  | none => insert entry.1 (updateDefiningSymRefs (apart firstMap) entry.2 []) firstMap
  | some _ => insert entry.1 (updateDefiningSymRefs (within firstMap entry.1) entry.2 []) firstMap

def mergeDefiningMaps (firstMap secondMap : DefiningMap) : DefiningMap := secondMap.foldl mergeEntry firstMap

def publish (workingCatchBlockMap finalMap prepareForOSRCallMap : DefiningMap) : DefiningMap :=
  prepareForOSRCallMap.foldl (fun final entry => insert entry.1 (updateDefiningSymRefs (apart workingCatchBlockMap) entry.2 []) final) finalMap

-- The last level is the root method's.
def buildFinalMap (finalMap workingCatchBlockMap : DefiningMap) : List Level → DefiningMap
  | [] => finalMap
  | level::rest =>
      let (codeBlockMap,prepareForOSRCallMap) := buildDefiningMap level.codeBlock
      let finalMap := publish workingCatchBlockMap finalMap prepareForOSRCallMap
      match rest with
      | [] => finalMap
      | _::_ => buildFinalMap finalMap (mergeDefiningMaps workingCatchBlockMap (buildDefiningMapForBlock codeBlockMap level.following)) rest

def definingMap (catchBlock : List Store) (levels : List Level) : DefiningMap :=
  buildFinalMap [] (buildDefiningMapForBlock [] catchBlock) levels

section Influence

inductive Node.Uses : Node → Nat → Prop
  | here {j children} : Uses (.node (some j) children) j
  | child {symRef children n j} : n ∈ children → Uses n j → Uses (.node symRef children) j

-- Which symbols' values at the start can influence a symbol's value.
abbrev Influence := Nat → Nat → Prop

def Store.influence (s : Store) (influence : Influence) : Influence := fun x d =>
  if x = s.symRef then ∃ y, s.value.Uses y ∧ influence y d else influence x d

def runStores (stores : List Store) (influence : Influence) : Influence := stores.foldl (fun i s => s.influence i) influence

def Argument.Recorded (a : Argument) : Prop := a.special = false ∧ ∃ y, a.loadNode.Uses y

-- A recorded symbol and what can influence its value there.
inductive Records : Influence → List Tree → Nat → (Nat → Prop) → Prop
  | argument {influence arguments trees a} : a ∈ arguments → a.Recorded →
      Records influence (.prepareForOSR arguments::trees) a.symRefNumber fun d => ∃ y, a.loadNode.Uses y ∧ influence y d
  | afterStore {influence s trees x from'} : Records (s.influence influence) trees x from' → Records influence (.store s::trees) x from'
  | afterPrepare {influence arguments trees x from'} : Records influence trees x from' → Records influence (.prepareForOSR arguments::trees) x from'

def treeStores : List Tree → List Store
  | [] => []
  | .store s::rest => s::treeStores rest
  | .prepareForOSR _::rest => treeStores rest

inductive ChainRecords : Influence → List Level → Nat → (Nat → Prop) → Prop
  | here {influence level rest x from'} : Records influence level.codeBlock x from' → ChainRecords influence (level::rest) x from'
  | above {influence level rest x from'} : ChainRecords (runStores (treeStores level.codeBlock ++ level.following) influence) rest x from' →
      ChainRecords influence (level::rest) x from'

def recordedSymbols : List Tree → List Nat
  | [] => []
  | .store _::rest => recordedSymbols rest
  | .prepareForOSR arguments::rest =>
      ((arguments.filter fun a => !a.special && a.symRefs != []).map Argument.symRefNumber) ++ recordedSymbols rest

end Influence

section Clean

-- A store that uses its own target finds no entry for it, and comes to it first.
def CleanStore (blockMap : DefiningMap) (s : Store) : Prop :=
  s.symRef ∈ s.symRefs → find s.symRef blockMap = none ∧ s.symRefs.head? = some s.symRef

def CleanStores (blockMap : DefiningMap) : List Store → Prop
  | [] => True
  | s::rest => CleanStore blockMap s ∧ CleanStores (storeTree blockMap s) rest

/- No definition of the second map names a smaller key of that map, nor its own key
where the first map has it. -/
def CleanMerge (firstMap secondMap : DefiningMap) : Prop :=
  ∀ entry ∈ secondMap, ∀ j ∈ entry.2, (j < entry.1 → find j secondMap = none) ∧ (j = entry.1 → find j firstMap = none)

def levelMap (level : Level) : DefiningMap := buildDefiningMapForBlock (buildDefiningMap level.codeBlock).1 level.following

def CleanLevels (workingCatchBlockMap : DefiningMap) : List Level → Prop
  | [] => True
  | [root] => CleanStores [] (treeStores root.codeBlock)
  | level::rest =>
      CleanStores [] (treeStores level.codeBlock ++ level.following) ∧ CleanMerge workingCatchBlockMap (levelMap level) ∧
        CleanLevels (mergeDefiningMaps workingCatchBlockMap (levelMap level)) rest

end Clean

end OmrCompiler.OsrDefiningMap
