import Mathlib.Data.BitVec
import OmrCompiler.MultiplyDecomposer

/-! The emitted multiply sequences compute the product: instructions act linearly
on the source value, so a sequence is followed by its coefficients alone. -/
namespace OmrCompiler.Multiply
open MachineInt
open BitCounts (trailingZeroes leadingZeroes populationCount)

-- Shift counts are taken modulo the operand width, as the processor does.
def execute {w : Nat} (regs : Nat → BitVec w) : Instruction → Nat → BitVec w
  | .movRegReg target source => Function.update regs target (regs source)
  | .addRegReg target source => Function.update regs target (regs target + regs source)
  | .subRegReg target source => Function.update regs target (regs target - regs source)
  | .shlRegImm1 target immediate => Function.update regs target (regs target <<< (immediate % w))
  | .leaRegMem target base index stride =>
      Function.update regs target ((base.map regs).getD 0 + regs index <<< stride)
  | .negReg target => Function.update regs target (-regs target)

def run {w : Nat} (regs : Nat → BitVec w) (is : List Instruction) : Nat → BitVec w := is.foldl execute regs

def scaled {w : Nat} (x : BitVec w) (c : Int) : BitVec w := BitVec.ofInt w c * x

theorem scaledOne {w : Nat} (x : BitVec w) : scaled x 1 = x := by
  rw [scaled,show BitVec.ofInt w 1 = 1#w from rfl,BitVec.one_mul]

theorem scaledAdd {w : Nat} (x : BitVec w) (a b : Int) : scaled x (a + b) = scaled x a + scaled x b := by
  simp only [scaled,BitVec.ofInt_add,BitVec.add_mul]

theorem scaledNeg {w : Nat} (x : BitVec w) (a : Int) : scaled x (-a) = -scaled x a := by
  simp only [scaled,BitVec.ofInt_neg,BitVec.neg_mul]

theorem scaledSub {w : Nat} (x : BitVec w) (a b : Int) : scaled x (a - b) = scaled x a - scaled x b := by
  rw [Int.sub_eq_add_neg,scaledAdd,scaledNeg,BitVec.sub_eq_add_neg]

theorem scaledShift {w : Nat} (x : BitVec w) (a : Int) (k : Nat) : scaled x (a * 2 ^ k) = scaled x a <<< k := by
  rw [scaled,scaled,BitVec.ofInt_mul,PowerOfTwo.powerBits,BitVec.shiftLeft_eq_mul_twoPow]
  ring

theorem scaledModulus {w : Nat} (x : BitVec w) {a b : Int} (same : a % 2 ^ w = b % 2 ^ w) : scaled x a = scaled x b := by
  have bits : BitVec.ofInt w a = BitVec.ofInt w b := by
    apply BitVec.eq_of_toNat_eq
    rw [BitVec.toNat_ofInt,BitVec.toNat_ofInt]
    push_cast
    rw [same]
  rw [scaled,scaled,bits]

-- The coefficient that a component leaves in its target, given those of the registers that are defined.
def coefficient (coefs : List (Option Int)) (component : ComponentOperation) : Option Int :=
  let read := fun i => (coefs[i]?).join
  match component.operation with
  | .shlRegImm => if component.baseOrImmed < 32 then (read component.target).map (· * 2 ^ component.baseOrImmed) else none
  | .addRegReg => return (← read component.target) + (← read component.baseOrImmed)
  | .subRegReg => return (← read component.target) - (← read component.baseOrImmed)
  | .movRegReg => read component.baseOrImmed
  | .leaRegReg2 => return (← read component.index) * 2 ^ 1
  | .leaRegReg4 => return (← read component.index) * 2 ^ 2
  | .leaRegReg8 => return (← read component.index) * 2 ^ 3
  | .leaRegRegReg => return (← read component.baseOrImmed) + (← read component.index) * 2 ^ 0
  | .leaRegRegReg2 => return (← read component.baseOrImmed) + (← read component.index) * 2 ^ 1
  | .leaRegRegReg4 => return (← read component.baseOrImmed) + (← read component.index) * 2 ^ 2
  | .leaRegRegReg8 => return (← read component.baseOrImmed) + (← read component.index) * 2 ^ 3
  | .done => none

-- The target index of the done component and the coefficients when it is reached.
def traceComponents : List ComponentOperation → List (Option Int) → Option (Nat × List (Option Int))
  | [],_ => none
  | component::rest,coefs =>
      if component.operation = .done then some (component.target,coefs)
      else if component.target < coefs.length then do
        let c ← coefficient coefs component
        traceComponents rest (coefs.set component.target (some c))
      else none

structure Tracks {w : Nat} (regs : Nat → BitVec w) (registerMap : List Nat) (coefs : List (Option Int)) (x : BitVec w) :
    Prop where
  value : ∀ (i : Nat) (c : Int) (r : Nat), coefs[i]? = some (some c) → registerMap[i]? = some r → regs r = scaled x c

theorem mapped {registerMap : List Nat} {coefs : List (Option Int)} (size : coefs.length = registerMap.length)
    {i : Nat} {c : Int} (known : (coefs[i]?).join = some c) :
    ∃ r, registerMap[i]? = some r ∧
      ∀ {w : Nat} (regs : Nat → BitVec w) (x : BitVec w), Tracks regs registerMap coefs x → regs r = scaled x c := by
  have here : coefs[i]? = some (some c) := Option.join_eq_some_iff.mp known
  obtain ⟨inside,_⟩ := List.getElem?_eq_some_iff.mp here
  have reach : registerMap[i]? = some registerMap[i] := List.getElem?_eq_getElem (size ▸ inside)
  exact ⟨registerMap[i],reach,fun regs x tracks => tracks.value i c _ here reach⟩

section
variable {w : Nat} {regs : Nat → BitVec w} {x : BitVec w} {target source base index : Nat} {a b : Int}

theorem executeAdd (left : regs target = scaled x a) (right : regs source = scaled x b) :
    execute regs (.addRegReg target source) = Function.update regs target (scaled x (a + b)) := by
  rw [execute,left,right,scaledAdd]

theorem executeSub (left : regs target = scaled x a) (right : regs source = scaled x b) :
    execute regs (.subRegReg target source) = Function.update regs target (scaled x (a - b)) := by
  rw [execute,left,right,scaledSub]

theorem executeMov (right : regs source = scaled x b) :
    execute regs (.movRegReg target source) = Function.update regs target (scaled x b) := by
  rw [execute,right]

theorem executeShl {k : Nat} (small : k < w) (left : regs target = scaled x a) :
    execute regs (.shlRegImm1 target k) = Function.update regs target (scaled x (a * 2 ^ k)) := by
  rw [execute,left,Nat.mod_eq_of_lt small,scaledShift]

theorem executeLea (k : Nat) (left : regs base = scaled x a) (right : regs index = scaled x b) :
    execute regs (.leaRegMem target (some base) index k) = Function.update regs target (scaled x (a + b * 2 ^ k)) := by
  rw [execute,Option.map_some,Option.getD_some,left,right,scaledAdd,scaledShift]

theorem executeLeaIndex (k : Nat) (right : regs index = scaled x b) :
    execute regs (.leaRegMem target none index k) = Function.update regs target (scaled x (b * 2 ^ k)) := by
  rw [execute,Option.map_none,Option.getD_none,right,scaledShift,zero_add]

theorem executeNeg (left : regs target = scaled x a) :
    execute regs (.negReg target) = Function.update regs target (scaled x (-a)) := by
  rw [execute,left,scaledNeg]

end

-- The instruction of a component whose operands are known: it sets its target and nothing else.
theorem componentStep {w : Nat} (wide : 32 ≤ w) {registerMap : List Nat} {coefs : List (Option Int)}
    {component : ComponentOperation} {c : Int} (size : coefs.length = registerMap.length)
    (inside : component.target < coefs.length) (found : coefficient coefs component = some c) :
    ∃ target i, registerMap[component.target]? = some target ∧ componentInstruction registerMap component = some i ∧
      ∀ (regs : Nat → BitVec w) (x : BitVec w), Tracks regs registerMap coefs x →
        execute regs i = Function.update regs target (scaled x c) := by
  obtain ⟨operation,t,baseOrImmed,index⟩ := component
  have aim : registerMap[t]? = some registerMap[t] := List.getElem?_eq_getElem (size ▸ inside)
  generalize registerMap[t] = target at aim
  refine ⟨target,?_⟩
  cases operation with
  | shlRegImm =>
    simp only [coefficient,Option.ite_none_right_eq_some,Option.map_eq_some_iff] at found
    obtain ⟨small,a,left,rfl⟩ := found
    obtain ⟨r,same,left⟩ := mapped size left
    cases aim.symm.trans same
    exact ⟨_,aim,by simp [componentInstruction,aim],fun regs x tracks => executeShl (by omega) (left regs x tracks)⟩
  | addRegReg =>
    simp only [coefficient,bind,pure,Option.bind_eq_some_iff,Option.some.injEq] at found
    obtain ⟨a,left,b,right,rfl⟩ := found
    obtain ⟨r,same,left⟩ := mapped size left
    obtain ⟨source,other,right⟩ := mapped size right
    cases aim.symm.trans same
    exact ⟨_,aim,by simp [componentInstruction,aim,other],fun regs x tracks =>
      executeAdd (left regs x tracks) (right regs x tracks)⟩
  | subRegReg =>
    simp only [coefficient,bind,pure,Option.bind_eq_some_iff,Option.some.injEq] at found
    obtain ⟨a,left,b,right,rfl⟩ := found
    obtain ⟨r,same,left⟩ := mapped size left
    obtain ⟨source,other,right⟩ := mapped size right
    cases aim.symm.trans same
    exact ⟨_,aim,by simp [componentInstruction,aim,other],fun regs x tracks =>
      executeSub (left regs x tracks) (right regs x tracks)⟩
  | movRegReg =>
    obtain ⟨source,other,right⟩ := mapped size found
    exact ⟨_,aim,by simp [componentInstruction,aim,other],fun regs x tracks => executeMov (right regs x tracks)⟩
  | leaRegReg2 | leaRegReg4 | leaRegReg8 =>
    simp only [coefficient,bind,pure,Option.bind_eq_some_iff,Option.some.injEq] at found
    obtain ⟨b,right,rfl⟩ := found
    obtain ⟨source,other,right⟩ := mapped size right
    exact ⟨_,aim,by simp [componentInstruction,aim,other],fun regs x tracks => executeLeaIndex _ (right regs x tracks)⟩
  | leaRegRegReg | leaRegRegReg2 | leaRegRegReg4 | leaRegRegReg8 =>
    simp only [coefficient,bind,pure,Option.bind_eq_some_iff,Option.some.injEq] at found
    obtain ⟨a,left,b,right,rfl⟩ := found
    obtain ⟨base,first,left⟩ := mapped size left
    obtain ⟨source,other,right⟩ := mapped size right
    exact ⟨_,aim,by simp [componentInstruction,aim,first,other],fun regs x tracks =>
      executeLea _ (left regs x tracks) (right regs x tracks)⟩
  | done => simp [coefficient] at found

theorem Tracks.update {w : Nat} {regs : Nat → BitVec w} {registerMap : List Nat} {coefs : List (Option Int)}
    {x : BitVec w} (tracks : Tracks regs registerMap coefs x) (distinct : registerMap.Nodup) {t target : Nat}
    (aim : registerMap[t]? = some target) (c : Int) :
    Tracks (Function.update regs target (scaled x c)) registerMap (coefs.set t (some c)) x := by
  refine ⟨fun i d r known here => ?_⟩
  rw [List.getElem?_set] at known
  split at known
  · rename_i same
    subst i
    obtain rfl : target = r := by simpa [aim] using here
    split at known
    · simp only [Option.some.injEq] at known
      rw [Function.update_self,known]
    · cases known
  · rename_i other
    have apart : r ≠ target := by
      intro same
      subst r
      obtain ⟨left,same⟩ := List.getElem?_eq_some_iff.mp aim
      obtain ⟨right,again⟩ := List.getElem?_eq_some_iff.mp here
      exact other ((distinct.getElem_inj_iff).mp (same.trans again.symm))
    rw [Function.update_of_ne apart]
    exact tracks.value i d r known here

theorem stopFold (rs : List (Nat × Nat)) (s : CodeState) :
    (rs.foldl (fun s r => stopUsingRegister s r.1) s).instructions = s.instructions ∧
      (rs.foldl (fun s r => stopUsingRegister s r.1) s).sourceRegister = s.sourceRegister := by
  induction rs generalizing s with
  | nil => exact ⟨rfl,rfl⟩
  | cons r rs ih => exact ih (stopUsingRegister s r.1)

theorem stopOthersInstructions (site : Site) (registerMap : List Nat) (component : ComponentOperation) (s : CodeState) :
    (stopOthers site registerMap component s).instructions = s.instructions := by
  simp only [stopOthers,(stopFold _ _).1]
  split <;> rfl

theorem runAppend {w : Nat} (regs : Nat → BitVec w) (is js : List Instruction) : run regs (is ++ js) = run (run regs is) js :=
  List.foldl_append

theorem componentsRun {w : Nat} (wide : 32 ≤ w) (site : Site) {registerMap : List Nat} (distinct : registerMap.Nodup)
    {components : List ComponentOperation} {coefs coefs' : List (Option Int)} {t : Nat}
    (size : coefs.length = registerMap.length) (traced : traceComponents components coefs = some (t,coefs'))
    (known : t < registerMap.length) (s : CodeState) :
    ∃ target s' is, registerMap[t]? = some target ∧
      generateComponents site registerMap components s = some (some target,s') ∧
      s'.instructions = s.instructions ++ is ∧
      ∀ (regs : Nat → BitVec w) (x : BitVec w), Tracks regs registerMap coefs x →
        Tracks (run regs is) registerMap coefs' x ∧ ∀ r, r ∉ registerMap → run regs is r = regs r := by
  induction components generalizing coefs s with
  | nil => cases traced
  | cons component rest ih =>
    rw [traceComponents] at traced
    by_cases finished : component.operation = .done
    · rw [if_pos finished,Option.some.injEq,Prod.mk.injEq] at traced
      obtain ⟨rfl,rfl⟩ := traced
      have aim : registerMap[component.target]? = some registerMap[component.target] := List.getElem?_eq_getElem known
      refine ⟨_,stopOthers site registerMap component s,[],aim,?_,?_,fun regs x tracks => ⟨tracks,fun _ _ => rfl⟩⟩
      · simp [generateComponents,finished,aim]
      · rw [stopOthersInstructions,List.append_nil]
    · rw [if_neg finished] at traced
      split at traced
      · rename_i inside
        obtain ⟨c,found,traced⟩ := Option.bind_eq_some_iff.mp traced
        obtain ⟨target,i,aim,emitted,effect⟩ := componentStep wide size inside found
        obtain ⟨last,s',is,final,ran,appended,sound⟩ := ih (by simpa using size) traced (emit s i)
        refine ⟨last,s',i::is,final,?_,?_,?_⟩
        · simp only [generateComponents,finished,if_false,emitted,bind,Option.bind_some]
          exact ran
        · rw [appended,emit,List.append_assoc]
          rfl
        · intro regs x tracks
          have next := tracks.update distinct aim c
          rw [← effect regs x tracks] at next
          obtain ⟨after,frame⟩ := sound (execute regs i) x next
          refine ⟨after,fun r out => (frame r out).trans ?_⟩
          rw [effect regs x tracks,Function.update_of_ne]
          rintro rfl
          exact out (List.mem_of_getElem? aim)
      · cases traced

-- The register that holds the source value when the sequence starts.
def home (site : Site) (s : CodeState) : Nat := s.sourceRegister.getD site.childRegister

-- The source register is to be left alone.
def Keeps (site : Site) (s : CodeState) : Prop :=
  match s.sourceRegister with
  | some _ => site.canClobberSource = false
  | none => site.canClobberChild = false

structure Prepared (site : Site) (s : CodeState) (copied : Prop) (source : Nat) (s' : CodeState) (is : List Instruction) :
    Prop where
  instructions : s'.instructions = s.instructions ++ is
  grown : s.nextRegister ≤ s'.nextRegister
  below : source < s'.nextRegister
  value : ∀ {w : Nat} (regs : Nat → BitVec w), run regs is source = regs (home site s)
  frame : ∀ {w : Nat} (regs : Nat → BitVec w) (r : Nat), r < s.nextRegister → run regs is r = regs r
  apart : copied → source ≠ home site s

theorem preparedStays {site : Site} {s s' : CodeState} (fresh : home site s < s.nextRegister) {copied : Prop}
    (never : ¬ copied) (instructions : s'.instructions = s.instructions) (next : s'.nextRegister = s.nextRegister) :
    Prepared site s copied (home site s) s' [] where
  instructions := by rw [instructions,List.append_nil]
  grown := le_of_eq next.symm
  below := next ▸ fresh
  value _ := rfl
  frame _ _ _ := rfl
  apart always := absurd always never

theorem preparedCopy {site : Site} {s s' : CodeState} (fresh : home site s < s.nextRegister) (copied : Prop)
    (instructions : s'.instructions = s.instructions ++ [.movRegReg s.nextRegister (home site s)])
    (next : s'.nextRegister = s.nextRegister + 1) :
    Prepared site s copied s.nextRegister s' [.movRegReg s.nextRegister (home site s)] where
  instructions := instructions
  grown := by omega
  below := by omega
  value regs := by simp [run,execute]
  frame regs r low := by
    have other : r ≠ s.nextRegister := by omega
    simp [run,execute,other]
  apart _ := by omega

theorem clobberableSourcePrepared {site : Site} {s : CodeState} (fresh : home site s < s.nextRegister) (copy : Bool) :
    ∃ is, Prepared site s (Keeps site s ∧ (copy = true ∨ s.sourceRegister = none)) (clobberableSource site copy s).1
      (clobberableSource site copy s).2 is := by
  cases given : s.sourceRegister with
  | some source =>
    have here : home site s = source := by simp [home,given]
    by_cases careful : site.canClobberSource = false ∧ copy = true
    · obtain ⟨guarded,rfl⟩ := careful
      refine ⟨[.movRegReg s.nextRegister (home site s)],?_⟩
      have result : clobberableSource site true s = (s.nextRegister,(clobberableSource site true s).2) := by
        simp [clobberableSource,given,guarded,allocateTemp,allocateRegister]
      rw [result]
      apply preparedCopy fresh <;> simp [clobberableSource,given,guarded,allocateTemp,allocateRegister,emit,here]
    · have result : clobberableSource site copy s = (source,s) := by
        simp only [clobberableSource,given]
        rw [if_neg]
        simpa using careful
      rw [result,← here]
      refine ⟨[],preparedStays fresh ?_ rfl rfl⟩
      rintro ⟨kept,copied | missing⟩
      · exact careful ⟨by simpa [Keeps,given] using kept,copied⟩
      · cases missing
  | none =>
    have here : home site s = site.childRegister := by simp [home,given]
    cases clobber : site.canClobberChild with
    | true =>
      refine ⟨[],?_⟩
      have result : (clobberableSource site copy s).1 = home site s := by
        simp [clobberableSource,given,gprClobberEvaluate,clobber,here]
      rw [result]
      apply preparedStays fresh
      · rintro ⟨kept,_⟩
        simp [Keeps,given,clobber] at kept
      · simp [clobberableSource,given,gprClobberEvaluate,clobber]
      · simp [clobberableSource,given,gprClobberEvaluate,clobber]
    | false =>
      refine ⟨[.movRegReg s.nextRegister (home site s)],?_⟩
      have result : (clobberableSource site copy s).1 = s.nextRegister := by
        simp [clobberableSource,given,gprClobberEvaluate,clobber,allocateRegister]
      rw [result]
      apply preparedCopy fresh <;> simp [clobberableSource,given,gprClobberEvaluate,clobber,allocateRegister,emit,here]

theorem allocateTempsSpec (n : Nat) (s : CodeState) :
    (allocateTemps n s).1 = List.range' s.nextRegister n ∧ (allocateTemps n s).2.instructions = s.instructions := by
  induction n generalizing s with
  | zero => exact ⟨rfl,rfl⟩
  | succ n ih =>
    obtain ⟨rest,kept⟩ := ih (allocateTemp s).2
    exact ⟨by simp only [allocateTemps,rest]; rfl,kept⟩

-- A sequence that leaves c times the value of `home` in `target`.
structure Computes (w : Nat) (is : List Instruction) (home target : Nat) (c : Int) (keeps : Prop) : Prop where
  value : ∀ regs : Nat → BitVec w, run regs is target = scaled (regs home) c
  kept : keeps → target ≠ home ∧ ∀ regs : Nat → BitVec w, run regs is home = regs home

-- What the table promises of a composition: its trace ends in done with the multiplier as coefficient.
structure Traced (composition : IntegerMultiplyComposition) (t : Nat) (coefs : List (Option Int)) : Prop where
  traced : traceComponents (allComponents composition)
    (some 1::List.replicate composition.numAdditionalRegistersNeeded none) = some (t,coefs)
  inside : t < composition.numAdditionalRegistersNeeded + 1
  product : coefs[t]? = some (some composition.multiplier)
  spared : composition.mustClobberSource = false → t ≠ 0 ∧ coefs[0]? = some (some 1)

def tracedTo (composition : IntegerMultiplyComposition) (t : Nat) (coefs : List (Option Int)) : Bool :=
  t < composition.numAdditionalRegistersNeeded + 1 && coefs[t]? == some (some composition.multiplier) &&
    (composition.mustClobberSource || t != 0 && coefs[0]? == some (some 1))

theorem solutionsChecked : ∀ composition ∈ integerMultiplySolutions,
    (traceComponents (allComponents composition)
      (some 1::List.replicate composition.numAdditionalRegistersNeeded none)).any
        (fun last => tracedTo composition last.1 last.2) = true := by
  decide

theorem solutionsTraced {composition : IntegerMultiplyComposition} (member : composition ∈ integerMultiplySolutions) :
    ∃ t coefs, Traced composition t coefs := by
  have checked := solutionsChecked composition member
  obtain ⟨⟨t,coefs⟩,traced,ends⟩ := (Option.any_eq_true _ _).mp checked
  simp only [tracedTo,Bool.and_eq_true,decide_eq_true_eq,beq_iff_eq,Bool.or_eq_true,bne_iff_ne] at ends
  obtain ⟨⟨inside,product⟩,spared⟩ := ends
  refine ⟨t,coefs,traced,inside,product,fun clean => spared.resolve_left ?_⟩
  rw [clean]
  decide

theorem startTracks {w : Nat} {regs : Nat → BitVec w} {source : Nat} {temps : List Nat} {x : BitVec w}
    (holds : regs source = x) : Tracks regs (source::temps) (some 1::List.replicate temps.length none) x := by
  refine ⟨fun i c r known here => ?_⟩
  cases i with
  | zero =>
    simp only [List.getElem?_cons_zero,Option.some.injEq] at known here
    rw [← here,← known,holds,scaledOne]
  | succ i =>
    rw [List.getElem?_cons_succ,List.getElem?_replicate] at known
    split at known <;> simp at known

-- The source register of a composition, as generateDecompositionInstructions chooses it.
def compositionSource (site : Site) (composition : IntegerMultiplyComposition) (s : CodeState) : Nat × CodeState :=
  if composition.mustClobberSource then clobberableSource site true s
  else match s.sourceRegister with
    | some source => (source,s)
    | none => (site.childRegister,{ s with sourceRegister := some site.childRegister })

theorem compositionSourcePrepared {site : Site} {s : CodeState} (fresh : home site s < s.nextRegister)
    (composition : IntegerMultiplyComposition) :
    ∃ is, Prepared site s (Keeps site s ∧ composition.mustClobberSource = true) (compositionSource site composition s).1
      (compositionSource site composition s).2 is := by
  cases clobbers : composition.mustClobberSource with
  | true =>
    obtain ⟨is,prepared⟩ := clobberableSourcePrepared fresh true
    have same : compositionSource site composition s = clobberableSource site true s := by
      simp [compositionSource,clobbers]
    rw [same]
    exact ⟨is,{ prepared with apart := fun both => prepared.apart ⟨both.1,Or.inl rfl⟩ }⟩
  | false =>
    have source : (compositionSource site composition s).1 = home site s := by
      cases given : s.sourceRegister <;> simp [compositionSource,clobbers,given,home]
    rw [source]
    refine ⟨[],preparedStays fresh (by simp) ?_ ?_⟩ <;>
      cases given : s.sourceRegister <;> simp [compositionSource,clobbers,given]

theorem generateSpec {w : Nat} (wide : 32 ≤ w) {site : Site} {s : CodeState} (fresh : home site s < s.nextRegister)
    {composition : IntegerMultiplyComposition} (member : composition ∈ integerMultiplySolutions) :
    ∃ target s' is, generateDecompositionInstructions site composition s = some (some target,s') ∧
      s'.instructions = s.instructions ++ is ∧
      Computes w is (home site s) target composition.multiplier (Keeps site s) := by
  obtain ⟨t,coefs,entry⟩ := solutionsTraced member
  obtain ⟨first,prepared⟩ := compositionSourcePrepared fresh composition
  generalize ready : compositionSource site composition s = start at prepared
  obtain ⟨source,s₁⟩ := start
  obtain ⟨registers,kept⟩ := allocateTempsSpec composition.numAdditionalRegistersNeeded s₁
  generalize allocated : allocateTemps composition.numAdditionalRegistersNeeded s₁ = temps at registers kept
  obtain ⟨temps,s₂⟩ := temps
  simp only at prepared registers kept
  have count : temps.length = composition.numAdditionalRegistersNeeded := by rw [registers,List.length_range']
  have beyond : ∀ r ∈ temps, s₁.nextRegister ≤ r := by
    intro r on
    rw [registers,List.mem_range'_1] at on
    exact on.1
  have distinct : (source::temps).Nodup := by
    refine List.nodup_cons.mpr ⟨fun on => ?_,registers ▸ List.nodup_range'⟩
    have := beyond source on
    have := prepared.below
    omega
  have size : (some (1 : Int)::List.replicate composition.numAdditionalRegistersNeeded none).length = (source::temps).length := by
    simp [count]
  obtain ⟨target,s',is,aim,ran,appended,sound⟩ :=
    componentsRun wide site distinct size entry.traced (by simpa [count] using entry.inside) s₂
  have outside : home site s ≠ source → home site s ∉ source::temps := by
    intro other on
    rcases List.mem_cons.mp on with same | later
    · exact other same
    · have := beyond _ later
      have := prepared.grown
      omega
  have final : ∀ regs : Nat → BitVec w, Tracks (run (run regs first) is) (source::temps) coefs (regs (home site s)) ∧
      ∀ r, r ∉ source::temps → run (run regs first) is r = run regs first r := by
    intro regs
    apply sound
    rw [← count]
    exact startTracks (prepared.value regs)
  refine ⟨target,s',first ++ is,?_,?_,?_,?_⟩
  · have unfolded : generateDecompositionInstructions site composition s =
        generateComponents site ((compositionSource site composition s).1::(allocateTemps
          composition.numAdditionalRegistersNeeded (compositionSource site composition s).2).1) (allComponents composition)
          (allocateTemps composition.numAdditionalRegistersNeeded (compositionSource site composition s).2).2 := rfl
    rw [unfolded,ready,allocated]
    exact ran
  · rw [appended,kept,prepared.instructions,List.append_assoc]
  · intro regs
    rw [runAppend]
    exact (final regs).1.value t _ target entry.product aim
  · intro keeps
    cases clobbers : composition.mustClobberSource with
    | true =>
      have apart := prepared.apart ⟨keeps,clobbers⟩
      have missing := outside (Ne.symm apart)
      refine ⟨fun same => missing (same ▸ List.mem_of_getElem? aim),fun regs => ?_⟩
      rw [runAppend,(final regs).2 _ missing,prepared.frame regs _ fresh]
    | false =>
      obtain ⟨positive,spared⟩ := entry.spared clobbers
      have source' : source = home site s := by
        have := congrArg Prod.fst ready
        simp only at this
        rw [← this]
        cases given : s.sourceRegister <;> simp [compositionSource,clobbers,given,home]
      refine ⟨?_,fun regs => ?_⟩
      · intro back
        apply positive
        obtain ⟨reach,same⟩ := List.getElem?_eq_some_iff.mp aim
        have first : (source::temps)[t] = (source::temps)[0] := same.trans (back.trans source'.symm)
        exact distinct.getElem_inj_iff.mp first
      · rw [runAppend,← source',(final regs).1.value 0 1 source spared rfl,scaledOne,source']

theorem findDecompositionSpec {site : Site} {multiplier : Int} {composition : IntegerMultiplyComposition}
    (found : findDecomposition site multiplier = some composition) :
    composition ∈ integerMultiplySolutions ∧ composition.multiplier = multiplier := by
  simp only [findDecomposition,bind,Option.bind_eq_some_iff,Option.ite_none_right_eq_some,Option.some.injEq] at found
  obtain ⟨candidate,searched,same,_,rfl⟩ := found
  refine ⟨?_,same⟩
  rcases List.mem_append.mp (List.mem_of_find?_eq_some searched) with inTable | zero
  · exact inTable
  · have none := (List.mem_replicate.mp zero).2
    rw [none] at same
    subst same
    have first : (solutionTable.find? fun c => ¬ c.multiplier < 0) = solutionTable.head? := by decide
    have head : solutionTable.head?.map (·.multiplier) = some 1 := by decide
    rw [← first] at head
    rw [searched,none] at head
    cases head

-- The entry for 1 needs no register beyond the source, so it is found whatever is live.
theorem findDecompositionOne (site : Site) : ∃ composition, findDecomposition site 1 = some composition ∧
    composition.subsequentShiftTooExpensive = false := by
  have first : solutionTable.find? (fun c => ¬ c.multiplier < 1) = some ⟨1,true,true,false,0,[⟨.done,0,0,0⟩]⟩ := by
    decide
  refine ⟨⟨1,true,true,false,0,[⟨.done,0,0,0⟩]⟩,?_,rfl⟩
  simp only [findDecomposition,first,bind,Option.bind_some]
  rw [if_pos trivial,if_pos]
  left
  split <;> decide

theorem solutionsPositive : ∀ composition ∈ integerMultiplySolutions, 0 < composition.multiplier := by
  decide

section
variable {w : Nat} {is : List Instruction} {home target : Nat} {c : Int} {keeps : Prop}

theorem Computes.after (computes : Computes w is home target c keeps) {i : Instruction} {d : Int}
    (effect : ∀ (regs : Nat → BitVec w) (x : BitVec w), regs target = scaled x c →
      execute regs i = Function.update regs target (scaled x d)) : Computes w (is ++ [i]) home target d keeps := by
  have result : ∀ regs : Nat → BitVec w, run regs (is ++ [i]) =
      Function.update (run regs is) target (scaled (regs home) d) := fun regs =>
    (runAppend regs is [i]).trans (effect _ _ (computes.value regs))
  refine ⟨fun regs => ?_,fun kept => ⟨(computes.kept kept).1,fun regs => ?_⟩⟩
  · rw [result,Function.update_self]
  · rw [result,Function.update_of_ne (Ne.symm (computes.kept kept).1)]
    exact (computes.kept kept).2 regs

theorem Computes.negated (computes : Computes w is home target c keeps) :
    Computes w (is ++ [.negReg target]) home target (-c) keeps := computes.after fun _ _ => executeNeg

theorem Computes.shifted (computes : Computes w is home target c keeps) {k : Nat} (small : k < w) :
    Computes w (is ++ [.shlRegImm1 target k]) home target (c * 2 ^ k) keeps := computes.after fun _ _ => executeShl small

theorem Computes.doubled (computes : Computes w is home target c keeps) (n : Nat) :
    Computes w (is ++ List.replicate n (.addRegReg target target)) home target (c * 2 ^ n) keeps := by
  induction n with
  | zero => simpa using computes
  | succ n ih =>
    have next : Computes w _ home target (c * 2 ^ n + c * 2 ^ n) keeps := ih.after fun _ _ left => executeAdd left left
    rw [List.append_assoc,← List.replicate_succ'] at next
    rwa [show c * 2 ^ n + c * 2 ^ n = c * 2 ^ (n + 1) by ring] at next

theorem Computes.congr (computes : Computes w is home target c keeps) {d : Int}
    (same : ∀ x : BitVec w, scaled x c = scaled x d) : Computes w is home target d keeps :=
  ⟨fun regs => (computes.value regs).trans (same _),computes.kept⟩

end

end OmrCompiler.Multiply
