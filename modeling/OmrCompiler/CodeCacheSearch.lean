import Mathlib.Data.List.Perm.Lattice
import OmrCompiler.CodeCacheFree

/-! Taking a free block: the best fit, and the size of the largest block that is
left on its side of the code cache. -/
namespace OmrCompiler.CodeCache

-- The size of the largest block, 0 if there is none.
def largest (blocks : List Block) : Nat := (blocks.map Block.size).foldr max 0

section
variable {config : Config} {c : Cache} {size n : Nat} {best link : Block} {blocks seen others before after : List Block} {scan : Scan}

@[simp] theorem largestNil : largest [] = 0 := rfl

@[simp] theorem largestCons (b : Block) (blocks : List Block) : largest (b::blocks) = max b.size (largest blocks) := rfl

@[simp] theorem largestAppend (first second : List Block) : largest (first ++ second) = max (largest first) (largest second) := by
  induction first with
  | nil => simp
  | cons b rest ih => simp [ih,Nat.max_assoc]

theorem largestPerm (same : blocks.Perm others) : largest blocks = largest others := by
  induction same with
  | nil => rfl
  | cons b _ ih => simp [ih]
  | swap x y rest => simp [Nat.max_left_comm]
  | trans _ _ first second => rw [first,second]

theorem largestBound {b : Block} (on : b ∈ blocks) : b.size ≤ largest blocks := by
  induction blocks with
  | nil => simp at on
  | cons head rest ih =>
      rw [largestCons]
      rcases List.mem_cons.mp on with rfl | later
      · exact Nat.le_max_left _ _
      · exact Nat.le_trans (ih later) (Nat.le_max_right _ _)

theorem largestLe {bound : Nat} (all : ∀ b ∈ blocks, b.size ≤ bound) : largest blocks ≤ bound := by
  induction blocks with
  | nil => exact Nat.zero_le _
  | cons head rest ih =>
      rw [largestCons]
      exact Nat.max_le.mpr ⟨all head (by simp),ih fun b on => all b (List.mem_cons_of_mem _ on)⟩

theorem largestReached (positive : 0 < largest blocks) : ∃ b ∈ blocks, b.size = largest blocks := by
  induction blocks with
  | nil => simp at positive
  | cons head rest ih =>
      rw [largestCons] at positive ⊢
      rcases Nat.le_total (largest rest) head.size with small | large
      · exact ⟨head,by simp,(Nat.max_eq_left small).symm⟩
      · rw [Nat.max_eq_right large] at positive ⊢
        obtain ⟨b,on,same⟩ := ih positive
        exact ⟨b,List.mem_cons_of_mem _ on,same⟩

-- What the search knows of the blocks it has seen.
structure Scanned (size : Nat) (seen : List Block) (scan : Scan) : Prop where
  biggest : seen = [] ∧ scan.biggest = none ∧ scan.secondBiggest = none ∨ ∃ b others, scan.biggest = some b ∧ seen.Perm (b::others) ∧
    largest others ≤ b.size ∧ sizeOf scan.secondBiggest = largest others
  missing : scan.bestFit = none → ∀ b ∈ seen, b.size < size
  best : ∀ b, scan.bestFit = some b → b ∈ seen ∧ size ≤ b.size ∧ ∀ x ∈ seen, size ≤ x.size → b.size ≤ x.size

theorem scanNil : Scanned size [] ⟨none,none,none⟩ :=
  ⟨.inl ⟨rfl,rfl,rfl⟩,by simp,by simp⟩

theorem scanBestFit (scan : Scan) (curr : Block) : (scanBlock size scan curr).bestFit =
    if size ≤ curr.size then
      match scan.bestFit with
      | none => some curr
      | some best => if curr.size < best.size then some curr else some best
    else scan.bestFit := by
  unfold scanBlock
  cases scan.biggest with
  | none => rfl
  | some biggest =>
      by_cases larger : biggest.size ≤ curr.size
      · simp only [if_pos larger] <;> rfl
      · simp only [if_neg larger]
        cases scan.secondBiggest <;> rfl

theorem scanStep (scanned : Scanned size seen scan) (curr : Block) : Scanned size (seen ++ [curr]) (scanBlock size scan curr) := by
  refine ⟨.inr ?_,?_,?_⟩
  · rcases scanned.biggest with ⟨rfl,none,second⟩ | ⟨b,others,found,perm,smaller,second⟩
    · refine ⟨curr,[],?_,by simp,by simp,?_⟩ <;> simp [scanBlock,none,second,sizeOf]
    · by_cases larger : b.size ≤ curr.size
      · refine ⟨curr,b::others,?_,?_,?_,?_⟩
        · simp [scanBlock,found,larger]
        · exact (List.perm_append_comm.trans (List.Perm.cons curr perm))
        · exact Nat.max_le.mpr ⟨larger,Nat.le_trans smaller larger⟩
        · simp [scanBlock,found,larger,sizeOf,smaller]
      · refine ⟨b,curr::others,?_,?_,?_,?_⟩
        · cases held : scan.secondBiggest <;> simp [scanBlock,found,larger,held]
        · exact (List.perm_append_comm.trans (List.Perm.cons curr perm)).trans (List.Perm.swap b curr others)
        · simp only [largestCons]
          omega
        · cases held : scan.secondBiggest with
          | none =>
              rw [held] at second
              simp [scanBlock,found,larger,held,sizeOf,← second]
          | some s =>
              rw [held] at second
              simp only [sizeOf,Option.map_some,Option.getD_some] at second
              simp only [scanBlock,found,larger,held,sizeOf,if_false,Option.map_some,Option.getD_some,largestCons,← second]
              split <;> omega
  · intro none b on
    rw [scanBestFit] at none
    by_cases fits : size ≤ curr.size
    · rw [if_pos fits] at none
      cases held : scan.bestFit with
      | none => simp [held] at none
      | some best =>
          rw [held] at none
          simp only at none
          split at none <;> simp at none
    · rw [if_neg fits] at none
      rcases List.mem_append.mp on with old | new
      · exact scanned.missing none b old
      · rw [List.mem_singleton.mp new]
        omega
  · intro b best
    rw [scanBestFit] at best
    by_cases fits : size ≤ curr.size
    · rw [if_pos fits] at best
      cases held : scan.bestFit with
      | none =>
          rw [held] at best
          cases best
          refine ⟨by simp,fits,fun x on enough => ?_⟩
          rcases List.mem_append.mp on with old | new
          · have small := scanned.missing held x old
            omega
          · rw [List.mem_singleton.mp new]
      | some old =>
          rw [held] at best
          obtain ⟨on,enough,least⟩ := scanned.best old held
          simp only at best
          split at best <;> cases best
          · refine ⟨by simp,fits,fun x on enough => ?_⟩
            rcases List.mem_append.mp on with before | new
            · have above := least x before enough
              omega
            · rw [List.mem_singleton.mp new]
          · refine ⟨by simp [on],enough,fun x on enough => ?_⟩
            rcases List.mem_append.mp on with before | new
            · exact least x before enough
            · rw [List.mem_singleton.mp new]
              omega
    · rw [if_neg fits] at best
      obtain ⟨on,enough,least⟩ := scanned.best b best
      refine ⟨by simp [on],enough,fun x on enough => ?_⟩
      rcases List.mem_append.mp on with before | new
      · exact least x before enough
      · rw [List.mem_singleton.mp new] at enough
        omega

theorem scanAll (blocks : List Block) (scanned : Scanned size seen scan) :
    Scanned size (seen ++ blocks) (blocks.foldl (scanBlock size) scan) := by
  induction blocks generalizing seen scan with
  | nil => simpa using scanned
  | cons b rest ih =>
      have next := ih (scanStep scanned b)
      rwa [List.append_assoc] at next

theorem removeFreeBlockSplit (after : List Block) (left : Option Block) (distinct : ∀ b ∈ before, b.start ≠ best.start) :
    removeFreeBlock best.start left (before ++ best::after) = before ++ (left.toList ++ after) := by
  induction before with
  | nil => simp [removeFreeBlock]
  | cons head rest ih =>
      have other := distinct head (by simp)
      simp only [List.cons_append,removeFreeBlock,if_neg other]
      rw [ih fun b on => distinct b (List.mem_cons_of_mem _ on)]

-- Blocks of the list that start at one address are one block.
theorem sameStart {x y : Block} (sorted : blocks.Pairwise (Apart c)) (wide : ∀ b ∈ blocks, 0 < b.size) (first : x ∈ blocks) (second : y ∈ blocks)
    (same : x.start = y.start) : x = y := by
  have loose : ∀ {x y : Block}, x ∈ blocks → Apart c x y → x.start ≠ y.start := by
    intro x y on apart
    have below := apart.startBelow
    have positive := wide x on
    rw [Block.stop] at below
    omega
  by_contra differ
  have all := List.Pairwise.forall_of_forall_of_flip (R := fun x y => x = y ∨ x.start ≠ y.start) (l := blocks)
    (fun _ _ => .inl rfl) (sorted.imp_of_mem fun on _ apart => .inr (loose on apart))
    (sorted.imp_of_mem fun on _ apart => .inr (loose on apart).symm)
  rcases all first second with equal | other
  · exact differ equal
  · exact other same

def sizeOfLargestFreeBlock (isCold : Bool) (c : Cache) : Nat :=
  if isCold then c.sizeOfLargestFreeColdBlock else c.sizeOfLargestFreeWarmBlock

def onSide (isCold : Bool) (c : Cache) (b : Block) : Bool :=
  if isCold then c.coldCodeAlloc ≤ b.start else b.start < c.warmCodeAlloc

-- The two sizes are those of the largest blocks.
def Exact (c : Cache) : Prop := ∀ isCold, sizeOfLargestFreeBlock isCold c = largest (searched isCold c)

theorem searchedEq (isCold : Bool) (c : Cache) : searched isCold c = c.freeBlockList.filter (onSide isCold c) := by
  cases isCold <;> rfl

-- What a search leaves of the cache; best is the block it has found.
structure Taken (size : Nat) (isCold : Bool) (c : Cache) (best : Block) (c' : Cache) : Prop where
  list : ∃ before after, c.freeBlockList = before ++ best::after ∧ c'.freeBlockList = before ++ ((leftBlock size best).toList ++ after)
  side : onSide isCold c best
  enough : size ≤ best.size
  least : ∀ b ∈ searched isCold c, size ≤ b.size → best.size ≤ b.size
  warm : c'.warmCodeAlloc = c.warmCodeAlloc
  cold : c'.coldCodeAlloc = c.coldCodeAlloc
  recorded : c'.recorded = c.recorded
  other : sizeOfLargestFreeBlock (!isCold) c' = sizeOfLargestFreeBlock (!isCold) c
  rest : searched (!isCold) c' = searched (!isCold) c
  exact : Exact c → Exact c'

theorem leftSide (isCold : Bool) (fits : Fits config c best) (order : c.warmCodeAlloc ≤ c.coldCodeAlloc) {left : Block}
    (split : leftBlock size best = some left) : onSide isCold c left = onSide isCold c best := by
  have region := fits.region
  have wide := fits.some
  unfold leftBlock at split
  split at split <;> cases split
  rename_i enough
  have least : 96 ≤ minSizeBlock := by decide
  cases isCold <;> simp only [onSide,Block.stop] at * <;> simp <;> omega

theorem otherSide {isCold : Bool} (fits : Fits config c best) (order : c.warmCodeAlloc ≤ c.coldCodeAlloc)
    (side : onSide isCold c best = true) : onSide (!isCold) c best = false := by
  have region := fits.region
  have wide := fits.some
  cases isCold <;> simp [onSide,Block.stop] at * <;> omega

theorem leftSmaller {left : Block} (split : leftBlock size best = some left) : left.size ≤ best.size := by
  unfold leftBlock at split
  split at split <;> cases split
  exact Nat.sub_le _ _

theorem largestLeft (left : Option Block) : largest left.toList = sizeOf left := by
  cases left <;> simp [sizeOf]

-- The blocks of one side, after best has given way to what is left of it.
theorem searchedLeft {c' : Cache} (isCold : Bool) (fits : Fits config c best) (order : c.warmCodeAlloc ≤ c.coldCodeAlloc)
    (warm : c'.warmCodeAlloc = c.warmCodeAlloc) (cold : c'.coldCodeAlloc = c.coldCodeAlloc)
    (list : c'.freeBlockList = before ++ ((leftBlock size best).toList ++ after)) :
    searched isCold c' = before.filter (onSide isCold c) ++
      ((if onSide isCold c best then (leftBlock size best).toList else []) ++ after.filter (onSide isCold c)) := by
  have same : onSide isCold c' = onSide isCold c := by
    funext b
    simp [onSide,warm,cold]
  have kept : (leftBlock size best).toList.filter (onSide isCold c) = if onSide isCold c best then (leftBlock size best).toList else [] := by
    cases split : leftBlock size best with
    | none => simp
    | some left =>
        have side := leftSide isCold fits order split
        simp [List.filter_cons,side]
  rw [searchedEq,list,same,List.filter_append,List.filter_append,kept]

-- The largest block of the side after best has been taken, when another is as large.
theorem largestKept {b : Block} (on : b ∈ before ++ after) (all : ∀ x ∈ before ++ best::after, x.size ≤ b.size)
    (smaller : ∀ left, leftBlock size best = some left → left.size ≤ best.size) :
    largest (before ++ ((leftBlock size best).toList ++ after)) = b.size := by
  refine Nat.le_antisymm (largestLe fun x on' => ?_) (largestBound ?_)
  · rw [List.mem_append,List.mem_append] at on'
    rcases on' with early | left | late
    · exact all x (by simp [early])
    · exact Nat.le_trans (smaller x (by simpa using left)) (all best (by simp))
    · exact all x (by simp [late])
  · rcases List.mem_append.mp on with early | late
    · simp [early]
    · simp [late]

theorem setLargestOther {isCold : Bool} (n : Nat) (c : Cache) :
    sizeOfLargestFreeBlock (!isCold) (setLargest isCold n c) = sizeOfLargestFreeBlock (!isCold) c := by
  cases isCold <;> rfl

theorem setLargestSame {isCold : Bool} (n : Nat) (c : Cache) : sizeOfLargestFreeBlock isCold (setLargest isCold n c) = n := by
  cases isCold <;> rfl

/- The size of the largest block on the side of the search: if best was the
biggest, the second biggest or what is left of best has taken its place. -/
theorem largestAfter (scanned : Scanned size (before ++ best::after) scan) (exact : largest (before ++ best::after) = n)
    (distinct : ∀ b ∈ before ++ best::after, b.start = best.start → b = best) :
    (if scan.biggest.map Block.start = some best.start then
      if sizeOf (leftBlock size best) > sizeOf scan.secondBiggest then sizeOf (leftBlock size best) else sizeOf scan.secondBiggest
    else n) = largest (before ++ ((leftBlock size best).toList ++ after)) := by
  rcases scanned.biggest with ⟨empty,-,-⟩ | ⟨b,others,found,perm,smaller,second⟩
  · simp at empty
  · have on : b ∈ before ++ best::after := perm.mem_iff.mpr (by simp)
    rw [found]
    by_cases same : b.start = best.start
    · have equal := distinct b on same
      subst equal
      have rest : (before ++ after).Perm others := (List.perm_middle.symm.trans perm).cons_inv
      have sizes := largestPerm rest
      rw [if_pos (by simp),second,← sizes,largestAppend,largestAppend,largestAppend,largestLeft]
      split <;> omega
    · rw [if_neg (by simpa using same)]
      have all : ∀ x ∈ before ++ best::after, x.size ≤ b.size := by
        intro x on'
        rcases List.mem_cons.mp (perm.mem_iff.mp on') with rfl | other
        · exact Nat.le_refl _
        · exact Nat.le_trans (largestBound other) smaller
      have other : b ∈ before ++ after := by
        rw [List.mem_append,List.mem_cons] at on
        rcases on with early | rfl | late
        · simp [early]
        · exact absurd rfl same
        · simp [late]
      rw [largestKept other all fun left => leftSmaller,← exact]
      exact Nat.le_antisymm (largestLe all) (largestBound on)

theorem findTaken {isCold : Bool} (isMethodHeaderNeeded : Bool) (sorted : c.freeBlockList.Pairwise (Apart c))
    (fits : ∀ b ∈ c.freeBlockList, Fits config c b) (order : c.warmCodeAlloc ≤ c.coldCodeAlloc) (positive : 0 < size)
    (enough : size ≤ largest (searched isCold c)) : ∃ best c', Taken size isCold c best c' ∧
      findFreeBlock size isCold isMethodHeaderNeeded c =
        some (usedBlock size best,writeMethodHeader isMethodHeaderNeeded (usedBlock size best) c') := by
  have scanned : Scanned size (searched isCold c) ((searched isCold c).foldl (scanBlock size) ⟨none,none,none⟩) := by
    simpa using scanAll (searched isCold c) scanNil
  set scan := (searched isCold c).foldl (scanBlock size) ⟨none,none,none⟩ with scanIs
  have exists_best : ∃ best, scan.bestFit = some best := by
    cases found : scan.bestFit with
    | some best => exact ⟨best,rfl⟩
    | none =>
        obtain ⟨b,on,same⟩ := largestReached (Nat.lt_of_lt_of_le positive enough)
        have small := scanned.missing found b on
        omega
  obtain ⟨best,found⟩ := exists_best
  obtain ⟨on,large,least⟩ := scanned.best best found
  obtain ⟨member,side⟩ := List.mem_filter.mp (searchedEq isCold c ▸ on)
  obtain ⟨before,after,list⟩ := List.append_of_mem member
  have distinct : ∀ b ∈ before, b.start ≠ best.start := by
    intro b early
    rw [list,List.pairwise_append] at sorted
    have below := (sorted.2.2 b early best (by simp)).startBelow
    have wide := (fits b (by simp [list,early])).some
    rw [Block.stop] at below
    omega
  have removed := removeFreeBlockSplit after (leftBlock size best) distinct
  rw [← list] at removed
  set taken : Cache := { c with freeBlockList := removeFreeBlock best.start (leftBlock size best) c.freeBlockList } with takenIs
  set next : Cache :=
    if scan.biggest.map Block.start = some best.start then
      setLargest isCold (if sizeOf (leftBlock size best) > sizeOf scan.secondBiggest then sizeOf (leftBlock size best) else sizeOf scan.secondBiggest)
        taken
    else taken with nextIs
  have same : next.freeBlockList = taken.freeBlockList ∧ next.warmCodeAlloc = c.warmCodeAlloc ∧ next.coldCodeAlloc = c.coldCodeAlloc ∧
      next.recorded = c.recorded := by
    rw [nextIs]
    split
    · cases isCold <;> exact ⟨rfl,rfl,rfl,rfl⟩
    · exact ⟨rfl,rfl,rfl,rfl⟩
  have split : next.freeBlockList = before ++ ((leftBlock size best).toList ++ after) := same.1.trans removed
  have fit := fits best member
  have aside : sizeOfLargestFreeBlock (!isCold) next = sizeOfLargestFreeBlock (!isCold) c := by
    rw [nextIs]
    split
    · exact setLargestOther _ _
    · cases isCold <;> rfl
  have rest : searched (!isCold) next = searched (!isCold) c := by
    rw [searchedLeft (!isCold) fit order same.2.1 same.2.2.1 split,otherSide fit order side,searchedEq,list,List.filter_append,List.filter_cons,
      otherSide fit order side]
    simp
  refine ⟨best,next,⟨⟨before,after,list,split⟩,side,large,least,same.2.1,same.2.2.1,same.2.2.2,aside,rest,?_⟩,?_⟩
  · intro exact other
    have sided := searchedLeft other fit order same.2.1 same.2.2.1 split
    by_cases own : other = isCold
    · subst own
      have was := exact other
      rw [searchedEq,list,List.filter_append,List.filter_cons,if_pos side] at was
      rw [sided,if_pos side]
      rw [searchedEq,list,List.filter_append,List.filter_cons,if_pos side] at scanned
      have after' := largestAfter scanned was.symm fun b on equal =>
        sameStart sorted (fun b on => (fits b on).some) (by
          rw [list]
          rcases List.mem_append.mp on with early | late
          · exact List.mem_append_left _ (List.mem_of_mem_filter early)
          · rcases List.mem_cons.mp late with rfl | later
            · simp
            · exact List.mem_append_right _ (List.mem_cons_of_mem _ (List.mem_of_mem_filter later))) member equal
      rw [← after',nextIs]
      split
      · exact setLargestSame _ _
      · rfl
    · have flipped : other = !isCold := by
        cases other <;> cases isCold <;> simp_all
      subst flipped
      rw [aside,rest]
      exact exact (!isCold)
  · unfold findFreeBlock
    simp only [← scanIs,found,Option.bind_eq_bind,Option.bind_some]
    rfl

end

end OmrCompiler.CodeCache
