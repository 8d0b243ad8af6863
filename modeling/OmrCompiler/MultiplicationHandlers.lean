import OmrCompiler.IntReassociation

/-! The distribution and reassociation of multiplications, for long and for int. -/
namespace OmrCompiler.MultiplicationHandlers
open MachineInt Constraint SharedGraph MultiplyDistribution MultiplyNodes MultiplyRules MultiplySimplifier IntReassociation

-- On every node over operands without a cycle the handlers end and keep the value, also of what is used elsewhere.
theorem multiplicationsKept {others : DataType → Nat → List Int → Int} {g : Trees} {roots : Nat → Nat} {node : Nat} (formed : WellFormed g roots)
    (live : 0 < g.referenceCount node) (acyclic : ∀ m, m = node ∨ Below g m node → ¬ Below g m m) (honest : Honest others g) (env : Env) :
    (∃ v, Evaluates (meaning others) g node v) ∧
    (opCode g node = .lmul → ∃ g' n', lmulSimplifier env g node = some (g',n') ∧ Preserved (meaning others) g roots node g' n') ∧
    (opCode g node = .imul → Preserved (meaning others) g roots node (reassociate env g node) node) := by
  obtain ⟨v,evaluates⟩ : ∃ v, Evaluates (meaning others) g node v := formed.counted.evaluates (formed.counted.allocated live) acyclic
  refine ⟨⟨v,evaluates⟩,fun op => simplifierPreserved env formed live op honest evaluates,fun op => ?_⟩
  obtain ⟨f,s,two,_,_⟩ := binaryChildren formed live (by rw [op]; rfl)
  exact reassociatePreserved ⟨formed,live,two,evaluates⟩ op

section Sample

-- i2l (load + 7) * 5, whose sum cannot overflow.
def sampleNodes : List (Vertex Node) :=
  [⟨⟨.lmul,0,false,false,false⟩,[1,2],1⟩,⟨⟨.i2l,0,false,false,false⟩,[3],1⟩,⟨⟨.lconst,5,false,false,false⟩,[],1⟩,
    ⟨⟨.iadd,0,true,false,false⟩,[4,5],1⟩,⟨⟨.other .Int32 0,0,false,false,false⟩,[],1⟩,⟨⟨.iconst,7,false,false,false⟩,[],1⟩]

def sampleTrees : Trees := ⟨fun n => sampleNodes.getD n ⟨⟨.lconst,0,false,false,false⟩,[],0⟩,6⟩

def sampleRoots (n : Nat) : Nat := if n = 0 then 1 else 0

def sampleEnv : Env := ⟨fun _ => true,none,fun _ _ => false,true,true,false,⟨true,fun _ _ => true⟩⟩

theorem sampleBelow : ∀ c n, Below sampleTrees c n → n < c := by
  have edge : ∀ n c, c ∈ sampleTrees.children n → n < c := by
    intro n c on
    match n with
    | 0 => revert c; decide
    | 1 => revert c; decide
    | 2 => revert c; decide
    | 3 => revert c; decide
    | 4 => revert c; decide
    | 5 => revert c; decide
    | _ + 6 => cases on
  intro c n below
  induction below with
  | single on => exact edge _ _ on
  | tail _ on ih => exact Nat.lt_trans (edge _ _ on) ih

theorem sampleFormed : WellFormed sampleTrees sampleRoots := by
  refine ⟨⟨fun n => ?_,fun n outside => ?_,?_⟩,fun n live types fixed => ?_⟩
  · rcases n with _ | _ | _ | _ | _ | _ | n
    · decide
    · decide
    · decide
    · decide
    · decide
    · decide
    · simp [uses,Finset.sum_range_succ,sampleTrees,sampleNodes,sampleRoots,NodeGraph.children,NodeGraph.referenceCount]
  · obtain ⟨k,rfl⟩ := Nat.exists_eq_add_of_le outside
    rw [Nat.add_comm]
    rfl
  · decide
  · rcases n with _ | _ | _ | _ | _ | _ | n
    · cases fixed; rfl
    · cases fixed; rfl
    · cases fixed; rfl
    · cases fixed; rfl
    · cases fixed
    · cases fixed; rfl
    · cases live

theorem sampleHonest : Honest (fun _ _ _ => 10) sampleTrees := by
  intro n x c _ flagged two u w evalX evalC
  match n with
  | 0 => cases flagged
  | 1 => cases flagged
  | 2 => cases flagged
  | 3 =>
      cases two
      rw [evalX.ofLeaf rfl,evalC.ofLeaf rfl]
      decide
  | 4 => cases flagged
  | 5 => cases flagged
  | _ + 6 => cases flagged

theorem multiplicationsKeptSample : ∃ g' n', lmulSimplifier sampleEnv sampleTrees 0 = some (g',n') ∧
    Preserved (meaning fun _ _ _ => 10) sampleTrees sampleRoots 0 g' n' :=
  (multiplicationsKept sampleFormed (by decide) (fun m _ loop => Nat.lt_irrefl m (sampleBelow m m loop)) sampleHonest sampleEnv).2.1 rfl

end Sample

end OmrCompiler.MultiplicationHandlers
