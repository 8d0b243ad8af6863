import Mathlib.Algebra.BigOperators.Group.List.Basic
import OmrCompiler.MachineInt

/-! The sizes of the OSR buffers a compilation asks for (TR_OSRCompilationData in
OSRData.cpp), against the chains of inlined calls that a transition may have to
rebuild. -/
namespace OmrCompiler.OsrLimits

-- OSRFrameSizeInBytes of the method of the site, and the site's caller.
structure InlinedCallSite where
  frameSizeInBytes : BitVec 32
  callerIndex : Int

-- Method data is NULL or has the number of parameter slots of its method.
structure Compilation where
  osrMethodDataArray : List (Option (BitVec 32))
  sizeofReferenceAddress : BitVec 32
  rootFrameSize : BitVec 32
  inlinedCallSites : List InlinedCallSite
  frameSizeInBytes : BitVec 32

def getOSRStackFrameSize (comp : Compilation) (methodIndex : Nat) : BitVec 32 :=
  match comp.osrMethodDataArray[methodIndex]? with
  | some (some numParameterSlots) => (1 + numParameterSlots) * comp.sizeofReferenceAddress
  | _ => 0

def ofCaller (root : BitVec 32) (sizes : List (BitVec 32)) (callerIndex : Int) : BitVec 32 :=
  if callerIndex = -1 then root else sizes.getD callerIndex.toNat 0

-- One turn of the loop over the sites.
def addSizes (comp : Compilation) (sizes : List (BitVec 32) × List (BitVec 32)) (i : Nat) : List (BitVec 32) × List (BitVec 32) :=
  match comp.inlinedCallSites[i]? with
  | none => sizes
  | some callSite =>
      let (frameSizes,stackFrameSizes) := sizes
      let frameSizes := frameSizes.set i callSite.frameSizeInBytes
      let frameSizes := frameSizes.set i (frameSizes.getD i 0 + ofCaller comp.rootFrameSize frameSizes callSite.callerIndex)
      let stackFrameSizes := stackFrameSizes.set i (getOSRStackFrameSize comp (i + 1))
      -- The size just stored is overwritten.
      let stackFrameSizes := stackFrameSizes.set i (ofCaller (getOSRStackFrameSize comp 0) stackFrameSizes callSite.callerIndex)
      (frameSizes,stackFrameSizes)

def sizesBelow (comp : Compilation) (n : Nat) : List (BitVec 32) × List (BitVec 32) :=
  let zeroes := List.replicate comp.inlinedCallSites.length 0
  (List.range n).foldl (addSizes comp) (zeroes,zeroes)

def stdMax (a b : BitVec 32) : BitVec 32 := if a < b then b else a

-- The frame size and the stack frame size that ensureOSRBufferSize is called with.
def checkOSRLimits (comp : Compilation) : BitVec 32 × BitVec 32 :=
  let (frameSizes,stackFrameSizes) := sizesBelow comp comp.inlinedCallSites.length
  (frameSizes.foldl stdMax comp.rootFrameSize,
    stackFrameSizes.foldl stdMax (getOSRStackFrameSize comp 0) + comp.frameSizeInBytes)

/- Chains of calls. -/

def callerOf (comp : Compilation) (i : Nat) : Option Int := comp.inlinedCallSites[i]?.map InlinedCallSite.callerIndex

-- A caller is the method itself or an earlier site.
def Tree (comp : Compilation) : Prop := ∀ i caller, callerOf comp i = some caller → caller = -1 ∨ (0 ≤ caller ∧ caller < i)

-- The sites from one up to the method that is compiled.
inductive Chain (comp : Compilation) : Nat → List Nat → Prop where
  | root {i : Nat} (called : callerOf comp i = some (-1)) : Chain comp i [i]
  | inlined {i caller : Nat} {rest : List Nat} (called : callerOf comp i = some (caller : Int)) (above : Chain comp caller rest) :
      Chain comp i (i::rest)

def frameSizeAt (comp : Compilation) (i : Nat) : Nat := ((comp.inlinedCallSites[i]?.map InlinedCallSite.frameSizeInBytes).getD 0).toNat

def frameSum (comp : Compilation) (chain : List Nat) : Nat := (chain.map (frameSizeAt comp)).sum + comp.rootFrameSize.toNat

def stackSum (comp : Compilation) (chain : List Nat) : Nat :=
  (chain.map fun i => (getOSRStackFrameSize comp (i + 1)).toNat).sum + (getOSRStackFrameSize comp 0).toNat

structure Covers (comp : Compilation) (i : Nat) (chain : List Nat) : Prop where
  frame : frameSum comp chain ≤ (checkOSRLimits comp).1.toNat
  stack : stackSum comp chain + comp.frameSizeInBytes.toNat ≤ (checkOSRLimits comp).2.toNat

section
variable {comp : Compilation} {i n : Nat} {chain : List Nat}

theorem callerWithin {caller : Int} (called : callerOf comp i = some caller) : i < comp.inlinedCallSites.length := by
  obtain ⟨site,found,-⟩ := Option.map_eq_some_iff.mp called
  exact (List.getElem?_eq_some_iff.mp found).1

theorem Chain.within (chained : Chain comp i chain) : i < comp.inlinedCallSites.length := by
  cases chained with
  | root called => exact callerWithin called
  | inlined called above => exact callerWithin called

theorem chainExists (tree : Tree comp) (i : Nat) (within : i < comp.inlinedCallSites.length) : ∃ chain, Chain comp i chain := by
  induction i using Nat.strong_induction_on with
  | h i ih =>
    have called : callerOf comp i = some comp.inlinedCallSites[i].callerIndex := by
      rw [callerOf,List.getElem?_eq_getElem within]
      rfl
    rcases tree i _ called with outer | ⟨nonneg,below⟩
    · exact ⟨[i],.root (by rw [called,outer])⟩
    · obtain ⟨caller,same⟩ := Int.eq_ofNat_of_zero_le nonneg
      rw [same] at called below
      obtain ⟨rest,above⟩ := ih caller (by omega) (Nat.lt_trans (by omega) within)
      exact ⟨i::rest,.inlined called above⟩

/- What the two tables have for the sites below n. -/
structure Summed (comp : Compilation) (n : Nat) (sizes : List (BitVec 32) × List (BitVec 32)) : Prop where
  framesLength : sizes.1.length = comp.inlinedCallSites.length
  stacksLength : sizes.2.length = comp.inlinedCallSites.length
  frame : ∀ i chain, i < n → Chain comp i chain → (sizes.1.getD i 0).toNat = frameSum comp chain % 2 ^ 32
  stack : ∀ i chain, i < n → Chain comp i chain → sizes.2.getD i 0 = getOSRStackFrameSize comp 0

theorem getWithin {sizes : List (BitVec 32)} (within : i < sizes.length) : sizes.getD i 0 = sizes[i] := by
  rw [List.getD_eq_getElem?_getD,List.getElem?_eq_getElem within]
  rfl

theorem getSet {sizes : List (BitVec 32)} {j : Nat} {value : BitVec 32} (within : j < sizes.length) :
    (sizes.set j value).getD i 0 = if i = j then value else sizes.getD i 0 := by
  rw [List.getD_eq_getElem?_getD,List.getD_eq_getElem?_getD,List.getElem?_set]
  by_cases here : i = j
  · subst here
    rw [if_pos rfl,if_pos within,if_pos rfl]
    rfl
  · rw [if_neg (Ne.symm here),if_neg here]

theorem ofCallerChain {root : BitVec 32} {sizes : List (BitVec 32)} {caller : Nat} : ofCaller root sizes (caller : Int) = sizes.getD caller 0 := by
  rw [ofCaller,if_neg (by omega),Int.toNat_natCast]

theorem addSizesSummed (tree : Tree comp) {sizes : List (BitVec 32) × List (BitVec 32)} (summed : Summed comp n sizes) :
    Summed comp (n + 1) (addSizes comp sizes n) := by
  obtain ⟨frameSizes,stackFrameSizes⟩ := sizes
  cases found : comp.inlinedCallSites[n]? with
  | none =>
    simp only [addSizes,found]
    have outside : comp.inlinedCallSites.length ≤ n := List.getElem?_eq_none_iff.mp found
    exact ⟨summed.framesLength,summed.stacksLength,
      fun i chain _ chained => summed.frame i chain (Nat.lt_of_lt_of_le chained.within outside) chained,
      fun i chain _ chained => summed.stack i chain (Nat.lt_of_lt_of_le chained.within outside) chained⟩
  | some callSite =>
    have within := (List.getElem?_eq_some_iff.mp found).1
    have callerHere : callerOf comp n = some callSite.callerIndex := by rw [callerOf,found]; rfl
    have sizeHere : frameSizeAt comp n = callSite.frameSizeInBytes.toNat := by rw [frameSizeAt,found]; rfl
    have framesLength : frameSizes.length = _ := summed.framesLength
    have stacksLength : stackFrameSizes.length = _ := summed.stacksLength
    simp only [addSizes,found]
    refine ⟨by simp [framesLength],by simp [stacksLength],fun i chain below chained => ?_,fun i chain below chained => ?_⟩
    · dsimp only
      rw [getSet (by simpa [framesLength] using within),getSet (by simpa [framesLength] using within),
        getSet (by simpa [framesLength] using within)]
      by_cases here : i = n
      · subst here
        rw [if_pos rfl,if_pos rfl,BitVec.toNat_add]
        cases chained with
        | root called =>
          have rootCalled : callSite.callerIndex = -1 := Option.some.inj (callerHere.symm.trans called)
          rw [rootCalled,ofCaller,if_pos rfl,frameSum,List.map_singleton,List.sum_singleton,sizeHere]
        | @inlined _ caller rest called above =>
          have siteCalled : callSite.callerIndex = caller := Option.some.inj (callerHere.symm.trans called)
          have earlier : caller < i := by
            rcases tree i _ called with outer | ⟨_,before⟩ <;> omega
          have known := summed.frame caller rest earlier above
          rw [siteCalled,ofCallerChain,getSet (by simpa [framesLength] using within),if_neg (by omega),known,
            Nat.add_mod_mod]
          simp only [frameSum,List.map_cons,List.sum_cons,sizeHere,Nat.add_assoc]
      · rw [if_neg here,if_neg here]
        exact summed.frame i chain (by omega) chained
    · dsimp only
      rw [getSet (by simpa [stacksLength] using within),getSet (by simpa [stacksLength] using within)]
      by_cases here : i = n
      · subst here
        rw [if_pos rfl]
        cases chained with
        | root called =>
          have rootCalled : callSite.callerIndex = -1 := Option.some.inj (callerHere.symm.trans called)
          rw [rootCalled,ofCaller,if_pos rfl]
        | @inlined _ caller rest called above =>
          have siteCalled : callSite.callerIndex = caller := Option.some.inj (callerHere.symm.trans called)
          have earlier : caller < i := by
            rcases tree i _ called with outer | ⟨_,before⟩ <;> omega
          rw [siteCalled,ofCallerChain,getSet (by simpa [stacksLength] using within),if_neg (by omega)]
          exact summed.stack caller rest earlier above
      · rw [if_neg here,if_neg here]
        exact summed.stack i chain (by omega) chained

theorem sizesSummed (tree : Tree comp) (n : Nat) : Summed comp n (sizesBelow comp n) := by
  induction n with
  | zero =>
    exact ⟨List.length_replicate,List.length_replicate,fun _ _ below => absurd below (Nat.not_lt_zero _),
      fun _ _ below => absurd below (Nat.not_lt_zero _)⟩
  | succ n ih =>
    have step : sizesBelow comp (n + 1) = addSizes comp (sizesBelow comp n) n := by
      simp only [sizesBelow,List.range_succ,List.foldl_append,List.foldl_cons,List.foldl_nil]
    rw [step]
    exact addSizesSummed tree ih

theorem stdMaxToNat (a b : BitVec 32) : (stdMax a b).toNat = max a.toNat b.toNat := by
  rw [stdMax]
  split
  case isTrue less => have := BitVec.lt_def.mp less; omega
  case isFalse less => have := mt BitVec.lt_def.mpr less; omega

theorem foldlMax (sizes : List (BitVec 32)) (start bound : BitVec 32) :
    sizes.foldl stdMax start ≤ bound ↔ start ≤ bound ∧ ∀ size ∈ sizes, size ≤ bound := by
  induction sizes generalizing start with
  | nil => simp
  | cons size sizes ih =>
    rw [List.foldl_cons,ih,BitVec.le_def,stdMaxToNat,Nat.max_le,List.forall_mem_cons,and_assoc]
    rfl

theorem stackMaximum (tree : Tree comp) :
    (sizesBelow comp comp.inlinedCallSites.length).2.foldl stdMax (getOSRStackFrameSize comp 0) = getOSRStackFrameSize comp 0 := by
  have summed := sizesSummed tree comp.inlinedCallSites.length
  apply BitVec.le_antisymm
  · refine (foldlMax _ _ _).mpr ⟨BitVec.le_refl _,fun size member => ?_⟩
    obtain ⟨i,within,rfl⟩ := List.getElem_of_mem member
    obtain ⟨chain,chained⟩ := chainExists tree i (by rw [← summed.stacksLength]; exact within)
    have same := summed.stack i chain chained.within chained
    rw [getWithin within] at same
    rw [same]
    exact BitVec.le_refl _
  · exact ((foldlMax _ _ _).mp (BitVec.le_refl _)).1

theorem frameCovered (tree : Tree comp) (chained : Chain comp i chain) :
    frameSum comp chain ≤ (checkOSRLimits comp).1.toNat ↔ frameSum comp chain < 2 ^ 32 := by
  have summed := sizesSummed tree comp.inlinedCallSites.length
  constructor
  · exact fun covered => Nat.lt_of_le_of_lt covered (checkOSRLimits comp).1.isLt
  · intro fits
    have within : i < (sizesBelow comp comp.inlinedCallSites.length).1.length := by
      rw [summed.framesLength]
      exact chained.within
    have known := summed.frame i chain chained.within chained
    rw [Nat.mod_eq_of_lt fits,getWithin within] at known
    rw [← known]
    exact ((foldlMax _ _ _).mp (BitVec.le_refl _)).2 _ (List.getElem_mem within)

/- No site has parameter slots to keep, and the frame fits besides those of the method. -/
def NothingInlined (comp : Compilation) : Prop :=
  (∀ i < comp.inlinedCallSites.length, getOSRStackFrameSize comp (i + 1) = 0) ∧
    (getOSRStackFrameSize comp 0).toNat + comp.frameSizeInBytes.toNat < 2 ^ 32

theorem stackAbove (chained : Chain comp i chain) :
    (getOSRStackFrameSize comp (i + 1)).toNat + (getOSRStackFrameSize comp 0).toNat ≤ stackSum comp chain := by
  rw [stackSum]
  cases chained with
  | root called => rw [List.map_singleton,List.sum_singleton]
  | inlined called above =>
    rw [List.map_cons,List.sum_cons]
    omega

theorem siteNothing (nothing : NothingInlined comp) {caller : Int} (called : callerOf comp i = some caller) :
    (getOSRStackFrameSize comp (i + 1)).toNat = 0 := congrArg BitVec.toNat (nothing.1 i (callerWithin called))

theorem stackNothing (nothing : NothingInlined comp) (chained : Chain comp i chain) :
    stackSum comp chain = (getOSRStackFrameSize comp 0).toNat := by
  rw [stackSum]
  induction chained with
  | root called => rw [List.map_singleton,List.sum_singleton,siteNothing nothing called,Nat.zero_add]
  | inlined called above ih => rw [List.map_cons,List.sum_cons,siteNothing nothing called,Nat.zero_add,ih]

theorem limitsCover (tree : Tree comp) :
    (∀ i chain, Chain comp i chain → Covers comp i chain) ↔
      (∀ i chain, Chain comp i chain → frameSum comp chain < 2 ^ 32) ∧
        (comp.inlinedCallSites = [] ∨ NothingInlined comp) := by
  have limit : (checkOSRLimits comp).2 = getOSRStackFrameSize comp 0 + comp.frameSizeInBytes := by
    rw [checkOSRLimits]
    exact congrArg (· + comp.frameSizeInBytes) (stackMaximum tree)
  have limitValue := BitVec.toNat_add (getOSRStackFrameSize comp 0) comp.frameSizeInBytes
  have atMost := Nat.mod_le ((getOSRStackFrameSize comp 0).toNat + comp.frameSizeInBytes.toNat) (2 ^ 32)
  constructor
  · intro covers
    refine ⟨fun i chain chained => (frameCovered tree chained).mp (covers i chain chained).frame,?_⟩
    by_cases empty : comp.inlinedCallSites = []
    · exact .inl empty
    · right
      have covered : ∀ i < comp.inlinedCallSites.length,
          (getOSRStackFrameSize comp (i + 1)).toNat + (getOSRStackFrameSize comp 0).toNat + comp.frameSizeInBytes.toNat ≤
            ((getOSRStackFrameSize comp 0).toNat + comp.frameSizeInBytes.toNat) % 2 ^ 32 := by
        intro i within
        obtain ⟨chain,chained⟩ := chainExists tree i within
        have above := stackAbove chained
        have stack := (covers i chain chained).stack
        rw [limit,limitValue] at stack
        omega
      constructor
      · intro i within
        have := covered i within
        exact BitVec.eq_of_toNat_eq (Nat.eq_zero_of_le_zero (by omega))
      · have := covered 0 (List.length_pos_of_ne_nil empty)
        have := Nat.mod_lt ((getOSRStackFrameSize comp 0).toNat + comp.frameSizeInBytes.toNat) (Nat.two_pow_pos 32)
        omega
  · rintro ⟨fits,empty | nothing⟩ i chain chained
    · have within := chained.within
      rw [empty] at within
      exact absurd within (Nat.not_lt_zero _)
    · refine ⟨(frameCovered tree chained).mpr (fits i chain chained),?_⟩
      rw [limit,limitValue,Nat.mod_eq_of_lt nothing.2,stackNothing nothing chained]

end

/- A method with one inlined call, and that in turn with one. -/
def inlinedTwice (slots : Option (BitVec 32)) : Compilation :=
  ⟨[some 1,slots,slots],8,64,[⟨32,-1⟩,⟨48,0⟩],100⟩

theorem inlinedTwiceTree (slots : Option (BitVec 32)) : Tree (inlinedTwice slots) := by
  intro i caller called
  have within := callerWithin called
  rcases i with _ | _ | i
  · cases Option.some.inj called
    exact .inl rfl
  · cases Option.some.inj called
    exact .inr ⟨by decide,by decide⟩
  · simp only [inlinedTwice,List.length_cons,List.length_nil] at within
    omega

theorem limitsCoverSample : (∀ i chain, Chain (inlinedTwice none) i chain → Covers (inlinedTwice none) i chain) ↔
    (∀ i chain, Chain (inlinedTwice none) i chain → frameSum (inlinedTwice none) chain < 2 ^ 32) ∧
      ((inlinedTwice none).inlinedCallSites = [] ∨ NothingInlined (inlinedTwice none)) :=
  limitsCover (inlinedTwiceTree none)

theorem inlinedSlotsMissed : ¬∀ (comp : Compilation), Tree comp → ∀ i chain, Chain comp i chain → Covers comp i chain := by
  intro covers
  have called : callerOf (inlinedTwice (some 1)) 1 = some ((0 : Nat) : Int) := rfl
  have chained : Chain (inlinedTwice (some 1)) 1 [1,0] := .inlined called (.root rfl)
  exact absurd (covers _ (inlinedTwiceTree (some 1)) 1 [1,0] chained).stack (by decide)

end OmrCompiler.OsrLimits
