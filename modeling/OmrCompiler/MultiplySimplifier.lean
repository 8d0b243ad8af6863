import OmrCompiler.MultiplyGraft

/-! lmulSimplifier as a whole: whichever of its steps applies, values stay. -/
namespace OmrCompiler.MultiplySimplifier
open MachineInt Constraint SharedGraph MultiplyDistribution MultiplyNodes MultiplyRules MultiplyGraft

-- A sum of ints that is flagged so does not overflow.
def Honest (others : DataType → Nat → List Int → Int) (g : Trees) : Prop :=
  ∀ n x c, 0 < g.referenceCount n → (g.payload n).cannotOverflow = true → g.children n = [x,c] → SumFits others g n x c

section Simplifier
variable {others : DataType → Nat → List Int → Int} {g g' : Trees} {roots : Nat → Nat} {node f s : Nat} {v : Int}

theorem reducePreserved (env : Env) (m : Multiplies others g roots node f s v) (honest : Honest others g) :
    ∃ g', reduceConstant env g node = some g' ∧ Preserved (meaning others) g roots node g' node := by
  obtain ⟨readF,readS⟩ := m.reads
  have same : Preserved (meaning others) g roots node g node := Preserved.refl _ _ _ _
  unfold reduceConstant
  simp only [readF,readS]
  split
  · rename_i product
    obtain ⟨isMul,once⟩ := product
    obtain ⟨x,c,two,_,_⟩ := binaryChildren m.formed m.first.live (by rw [isMul]; rfl)
    have readC : getSecondChild g f = c := by simp [getSecondChild,two]
    simp only [readC]
    split
    · rename_i constC
      split
      · rename_i constS
        refine ⟨_,rfl,?_⟩
        split
        · exact mergeConstantsPreserved m two isMul constC constS
        · exact same
      · refine ⟨_,rfl,?_⟩
        split
        · exact moveConstantUpPreserved m two isMul once
        · exact same
    · exact ⟨g,rfl,same⟩
  · split
    · rename_i sum
      obtain ⟨constS,isSum⟩ := sum
      have operands : (opCode g f).operands = some [.Int64,.Int64] := by
        rcases isSum with op | op <;> rw [op] <;> rfl
      obtain ⟨x,c,two,_,_⟩ := binaryChildren m.formed m.first.live operands
      have readC : getSecondChild g f = c := by simp [getSecondChild,two]
      refine ⟨_,rfl,?_⟩
      rw [readC]
      split
      · rename_i constC
        exact distributeLongPreserved m two isSum constC.1 constS
      · exact same
    · split
      · rename_i widened
        obtain ⟨constS,widens⟩ := widened
        obtain ⟨sum,one,_⟩ := unaryChild m.formed m.first.live (by rw [widens]; rfl)
        have readSum : getFirstChild g f = sum := by simp [getFirstChild,one]
        refine ⟨_,rfl,?_⟩
        rw [readSum]
        split
        · rename_i fits
          obtain ⟨isSum,flagged,constC,_⟩ := fits
          have operands : (opCode g sum).operands = some [.Int32,.Int32] := by
            rcases isSum with op | op <;> rw [op] <;> rfl
          have operandSum : Operand g node sum := m.first.step m.formed m.acyclic (by simp [one])
          obtain ⟨x,c,two,_,_⟩ := binaryChildren m.formed operandSum.live operands
          have readC : getSecondChild g sum = c := by simp [getSecondChild,two]
          rw [readC] at constC
          exact distributeWidenedPreserved m widens one isSum.symm two constC constS (honest sum x c operandSum.live flagged two)
        · exact same
      · split
        · rename_i target
          exact decomposePreserved env m target.2.1 target.2.2.2
        · exact ⟨g,rfl,same⟩

-- A reordering can be taken back.
theorem Reordered.back (reordered : Reordered others g roots node g') : Frame (meaning others) g' g node [] := by
  refine ⟨fun d inside other _ => ⟨fun values => by rw [reordered.payload],?_⟩,nofun⟩
  exact (reordered.frame.same d (reordered.size ▸ inside) other (by simp)).2.symm

theorem honestReordered (reordered : Reordered others g roots node g') (live : 0 < g.referenceCount node) (op : opCode g node = .lmul)
    (evaluates : Evaluates (meaning others) g node v) (honest : Honest others g) : Honest others g' := by
  have back := Reordered.back reordered
  have live' : 0 < g'.referenceCount node := by rw [reordered.count]; exact live
  have same : ∀ d, opCode g' d = opCode g d := fun d => by rw [opCode,reordered.payload,opCode]
  have again : ∀ w, Evaluates (meaning others) g' node w → Evaluates (meaning others) g node w := fun w evaluates' => by
    rw [evaluates'.unique (reordered.preserved.value v evaluates)]
    exact evaluates
  intro n x c liveN flagged two u w evalX evalC
  by_cases here : n = node
  · rw [here,same,op]
    exact ⟨fun isAdd => (by cases isAdd),fun isSub => (by cases isSub)⟩
  · have returned : ∀ d z, d ∈ g'.children n → Evaluates (meaning others) g' d z → Evaluates (meaning others) g d z := fun d z on =>
      back.kept reordered.formed.counted live' again (.inr ⟨n,here,liveN,on⟩)
    have two' : g.children n = [x,c] := (back.same n (reordered.formed.counted.allocated liveN) here (by simp)).2.trans two
    rw [reordered.payload] at flagged
    rw [reordered.count] at liveN
    rw [same]
    exact honest n x c liveN flagged two' u w (returned x u (by simp [two]) evalX) (returned c w (by simp [two]) evalC)

-- One step after another that each swap the operands or do nothing.
theorem reorderedEither (formed : WellFormed g roots) (live : 0 < g.referenceCount node) (op : opCode g node = .lmul)
    (either : g' = g ∨ g' = swapChildren g node) : Reordered others g roots node g' := by
  rcases either with rfl | rfl
  · exact reorderedRefl formed
  · exact reorderedSwap formed live (.inr op)

theorem orderedPreserved (env : Env) (formed : WellFormed g roots) (live : 0 < g.referenceCount node) (op : opCode g node = .lmul)
    (honest : Honest others g) (evaluates : Evaluates (meaning others) g node v) :
    ∃ g' n', simplifyOrdered env g node = some (g',n') ∧ Preserved (meaning others) g roots node g' n' := by
  obtain ⟨f,s,two,_,_⟩ := binaryChildren formed live (by rw [op]; rfl)
  have m : Multiplies others g roots node f s v := ⟨⟨formed,live,two,evaluates⟩,op⟩
  obtain ⟨readF,readS⟩ := m.reads
  unfold simplifyOrdered
  simp only [readF,readS]
  split
  · rename_i one
    exact ⟨_,_,rfl,replacePreserved env m one.1 one.2⟩
  · split
    · rename_i zero
      exact ⟨_,_,rfl,zeroPreserved m zero.1 zero.2.1⟩
    · obtain ⟨g',reduced,preserved⟩ := reducePreserved env m honest
      exact ⟨g',node,by rw [reduced]; rfl,preserved⟩

theorem simplifierPreserved (env : Env) (formed : WellFormed g roots) (live : 0 < g.referenceCount node) (op : opCode g node = .lmul)
    (honest : Honest others g) (evaluates : Evaluates (meaning others) g node v) :
    ∃ g' n', lmulSimplifier env g node = some (g',n') ∧ Preserved (meaning others) g roots node g' n' := by
  obtain ⟨f,s,two,_,_⟩ := binaryChildren formed live (by rw [op]; rfl)
  have m : Multiplies others g roots node f s v := ⟨⟨formed,live,two,evaluates⟩,op⟩
  obtain ⟨readF,readS⟩ := m.reads
  unfold lmulSimplifier
  simp only [readF,readS]
  split
  · exact ⟨g,node,rfl,Preserved.refl _ _ _ _⟩
  · split
    · rename_i both
      rw [Bool.and_eq_true] at both
      exact ⟨_,node,rfl,foldPreserved env m both.1 both.2⟩
    · have first : Reordered others g roots node (orderChildren env g node) := reorderedEither formed live op (orderedEither env g node)
      have live₁ : 0 < (orderChildren env g node).referenceCount node := by rw [first.count]; exact live
      have op₁ : opCode (orderChildren env g node) node = .lmul := by rw [opCode,first.payload]; exact op
      have evaluates₁ := first.preserved.value v evaluates
      have honest₁ := honestReordered first live op evaluates honest
      generalize orderChildren env g node = g₁ at *
      have second : Reordered others g₁ roots node (orderChildrenByHighWordZero g₁ node) :=
        reorderedEither first.formed live₁ op₁ (orderedWordEither g₁ node)
      have live₂ : 0 < (orderChildrenByHighWordZero g₁ node).referenceCount node := by rw [second.count]; exact live₁
      have op₂ : opCode (orderChildrenByHighWordZero g₁ node) node = .lmul := by rw [opCode,second.payload]; exact op₁
      have evaluates₂ := second.preserved.value v evaluates₁
      have honest₂ := honestReordered second live₁ op₁ evaluates₁ honest₁
      obtain ⟨g',n',simplified,preserved⟩ := orderedPreserved env second.formed live₂ op₂ honest₂ evaluates₂
      have together := second.frame.andThen first.formed.counted live₁ second.preserved preserved
      exact ⟨g',n',simplified,first.frame.andThen formed.counted live first.preserved together⟩

end Simplifier

end OmrCompiler.MultiplySimplifier
