import OmrCompiler.SparseElements

/-! What the loops over the cursors visit. -/
namespace OmrCompiler.SparseBits

section
variable {v w l r : List Segment} {s : Segment} {c c1 c2 m : Cursor} {before after left a b : List Nat} {x y k n limit limit' fuel moves : Nat}

/- Backward. -/

-- A cursor with the bits that it has still to visit, the last one first.
def Behind (v : List Segment) (c : Cursor) : List Nat → Prop
  | [] => Past v c
  | x::rest => ∃ after, Stands v c rest.reverse x after

theorem Behind.valid (behind : Behind v c left) : c.valid v = !left.isEmpty := by
  cases left with
  | nil => exact behind
  | cons x rest =>
      obtain ⟨after,stands⟩ := behind
      exact stands.valid

theorem lastStands (well : WellFormed limit v) (shape : v = l ++ s::r) (here : c.segmentIndex = l.length) :
    ∃ c', c.enter v = some c' ∧ Behind v { c' with offset := c'.popCount } (SparseBits.elements (l ++ [s])).reverse := by
  have formed := well.formed s (shape ▸ List.mem_append_right _ List.mem_cons_self)
  obtain ⟨js,y,split⟩ : ∃ js y, s.indices = js ++ [y] := ⟨_,_,(List.dropLast_append_getLast formed.nonempty).symm⟩
  have entered := @enterAt v l r s c js [] y limit well shape split here
  refine ⟨_,entered,?_⟩
  have reversed : (SparseBits.elements (l ++ [s])).reverse = (s.index + y)::(SparseBits.elements l ++ s.bits js).reverse := by
    rw [elementsAppend,elementsCons,split,elementsNil,List.append_nil,bitsAppend,bitsCons,bitsNil,← List.append_assoc,List.reverse_append,List.reverse_singleton,
      List.singleton_append]
  rw [reversed]
  exact ⟨_,l,s,r,js,y,[],shape,split,rfl,List.reverse_reverse _,rfl,rfl⟩

theorem previousBehind (well : WellFormed limit v) (behind : Behind v c (x::left)) :
    ∃ c', c.setToPreviousOne v = some (!left.isEmpty,c') ∧ Behind v c' left := by
  obtain ⟨after,l,s,r,js,y,ks,shape,split,rfl,before,-,rfl⟩ := behind
  unfold Cursor.setToPreviousOne
  rcases List.eq_nil_or_concat js with rfl | ⟨js,k,rfl⟩
  · rw [if_neg (by simp)]
    rw [bitsNil,List.append_nil] at before
    have short := well.short
    have small : halfWord < word := by decide
    have length := congrArg List.length shape
    rw [List.length_append,List.length_cons] at length
    rcases List.eq_nil_or_concat l with rfl | ⟨l,t,rfl⟩
    · -- The index of the first segment wraps.
      have wraps : previous 0 = word - 1 := by decide
      have past : ∀ c' : Cursor, c'.segmentIndex = previous 0 → c'.valid v = false := by
        intro c' first
        simp only [Cursor.valid,decide_eq_false_iff_not,first,wraps]
        omega
      have none' : left = [] := List.reverse_eq_nil_iff.mp before
      subst none'
      rw [if_neg (by rw [past _ rfl]; exact Bool.false_ne_true)]
      exact ⟨_,rfl,past _ rfl⟩
    · rw [List.concat_eq_append] at shape before length ⊢
      have index : previous (l ++ [t]).length = l.length := by
        rw [List.length_append,List.length_singleton] at length ⊢
        rw [previous,show l.length + 1 + (word - 1) = l.length + word by omega,Nat.add_mod_right,Nat.mod_eq_of_lt (by omega)]
      have shape' : v = l ++ t::(s::r) := by rw [shape]; simp
      obtain ⟨c',entered,behind⟩ := @lastStands v l (s::r) t ⟨l.length,ks.length,s.index,0,s.indices⟩ limit well shape' rfl
      have reversed : left = (SparseBits.elements (l ++ [t])).reverse := by rw [← before,List.reverse_reverse]
      have inhabited : left.isEmpty = false := by
        have formed := well.formed t (shape' ▸ List.mem_append_right _ List.mem_cons_self)
        rw [List.isEmpty_eq_false_iff,reversed]
        intro empty
        rw [List.reverse_eq_nil_iff,elementsAppend,elementsCons,elementsNil,List.append_nil] at empty
        exact formed.nonempty (List.map_eq_nil_iff.mp (List.append_eq_nil_iff.mp empty).2)
      have valid : Cursor.valid v { segmentIndex := l.length, popCount := ks.length, highBits := s.index, offset := 0, indices := s.indices } = true := by
        rw [List.length_append] at length
        simp only [Cursor.valid,decide_eq_true_eq]
        omega
      simp only [index,List.length_nil,Nat.zero_add]
      rw [if_pos valid,entered,inhabited,reversed]
      exact ⟨_,rfl,behind⟩
  · rw [List.concat_eq_append] at split before ⊢
    rw [bitsAppend,bitsCons,bitsNil,← List.append_assoc] at before
    have reversed := congrArg List.reverse before
    rw [List.reverse_reverse,List.reverse_append,List.reverse_singleton,List.singleton_append] at reversed
    rw [if_pos (by simp),reversed]
    refine ⟨_,rfl,_,l,s,r,js,k,y::ks,shape,by rw [split]; simp,?_,List.reverse_reverse _,rfl,rfl⟩
    simp only [List.length_append,List.length_cons,List.length_nil,Cursor.mk.injEq,true_and,and_true]
    omega

/- The loop over one cursor. -/

theorem visitsAhead (well : WellFormed limit v) (ahead : Ahead v c left) (enough : left.length < fuel) : visits v (·.setToNextOne v) fuel c = some left := by
  induction fuel generalizing c left with
  | zero => omega
  | succ fuel ih =>
      rw [visits,ahead.valid]
      cases left with
      | nil => rfl
      | cons x after =>
          obtain ⟨c',ran,next⟩ := nextAhead well ahead
          obtain ⟨before,stands⟩ := ahead
          rw [if_pos (show (!(x::_).isEmpty) = true from rfl),stands.value]
          simp only [Option.bind_eq_bind,Option.bind_some,ran]
          rw [ih next (by simpa using enough)]
          rfl

theorem visitsBehind (well : WellFormed limit v) (behind : Behind v c left) (enough : left.length < fuel) : visits v (·.setToPreviousOne v) fuel c = some left := by
  induction fuel generalizing c left with
  | zero => omega
  | succ fuel ih =>
      rw [visits,behind.valid]
      cases left with
      | nil => rfl
      | cons x rest =>
          obtain ⟨c',ran,next⟩ := previousBehind well behind
          obtain ⟨after,stands⟩ := behind
          rw [if_pos (show (!(x::_).isEmpty) = true from rfl),stands.value]
          simp only [Option.bind_eq_bind,Option.bind_some,ran]
          rw [ih next (by simpa using enough)]
          rfl

theorem forwardElements (well : WellFormed limit v) (c : Cursor) (enough : (elements v).length < fuel) : visitsForward v fuel c = some (elements v) := by
  obtain ⟨c',ran,ahead⟩ := firstAhead well c
  rw [visitsForward,ran]
  exact visitsAhead well ahead enough

theorem backwardElements (well : WellFormed limit v) (c : Cursor) (enough : (elements v).length < fuel) : visitsBackward v fuel c = some (elements v).reverse := by
  rw [visitsBackward,Cursor.setToLastOne]
  rcases List.eq_nil_or_concat v with rfl | ⟨l,s,rfl⟩
  · rw [if_neg (by simp)]
    have past : Behind [] { c with segmentIndex := 0 } [] := rfl
    exact visitsBehind well past (by simpa using enough)
  · rw [List.concat_eq_append] at well enough ⊢
    rw [if_pos (by simp)]
    have index : (l ++ [s]).length - 1 = l.length := by simp
    obtain ⟨c',entered,behind⟩ := @lastStands (l ++ [s]) l [] s { c with segmentIndex := (l ++ [s]).length - 1 } limit well rfl index
    rw [entered]
    exact visitsBehind well behind (by rw [List.length_reverse]; exact enough)

/- The common bits. -/

def common (a b : List Nat) : List Nat := a.filter (· ∈ b)

theorem commonDropLeft (above : ∀ z ∈ b, n ≤ z) : common a b = common (a.dropWhile (· < n)) b := by
  conv => lhs; rw [common,← List.takeWhile_append_dropWhile (p := (· < n)) (l := a),List.filter_append]
  have none' : (a.takeWhile (· < n)).filter (· ∈ b) = [] := by
    refine List.filter_eq_nil_iff.mpr fun z on => ?_
    have less := List.mem_takeWhile_imp on
    have off : z ∉ b := fun inB => by
      have upon := above z inB
      simp only [decide_eq_true_eq] at less
      omega
    simpa using off
  rw [none',List.nil_append]
  rfl

theorem commonDropRight (above : ∀ z ∈ a, n ≤ z) : common a b = common a (b.dropWhile (· < n)) := by
  refine List.filter_congr fun z on => ?_
  have upon := above z on
  rw [decide_eq_decide]
  refine ⟨fun inB => ?_,fun inDrop => (List.dropWhile_sublist _).subset inDrop⟩
  rw [← List.takeWhile_append_dropWhile (p := (· < n)) (l := b),List.mem_append] at inB
  refine inB.resolve_left fun first => ?_
  have less := List.mem_takeWhile_imp first
  simp only [decide_eq_true_eq] at less
  omega

theorem previousNext (small : y < word) : (previous y + 1) % word = y := by
  have positive : 0 < word := by decide
  rw [previous,Nat.mod_add_mod,show y + (word - 1) + 1 = y + word by omega,Nat.add_mod_right,Nat.mod_eq_of_lt small]

theorem Ahead.small (ahead : Ahead v c left) (well : WellFormed limit v) (on : x ∈ left) : x < word := by
  obtain ⟨s,inV,bit⟩ := List.mem_flatMap.mp (ahead.sub.subset on)
  obtain ⟨y,inSeg,rfl⟩ := List.mem_map.mp bit
  exact (well.formed s inV).below ((well.formed s inV).small y inSeg)

theorem Ahead.ascending (ahead : Ahead v c left) (well : WellFormed limit v) : Ascending left := (elementsAscending well).sublist ahead.sub.sublist

theorem dropWhileShorter (less : x < n) : ((x::a).dropWhile (· < n)).length < (x::a).length := by
  rw [List.dropWhile_cons_of_pos (by simpa using less)]
  have short := (List.dropWhile_sublist (p := (· < n)) (l := a)).length_le
  simp only [List.length_cons]
  omega

-- Where the two cursors meet: at a common bit, or one of them is past its end.
structure Meets (v w : List Segment) (c : IntersectionCursor) (a b : List Nat) : Prop where
  first : Ahead v c.c1 a
  second : Ahead w c.c2 b
  met : a = [] ∨ b = [] ∨ ∃ x a' b', a = x::a' ∧ b = x::b'

theorem findCommonMeets (well : WellFormed limit v) (well' : WellFormed limit' w) {c : IntersectionCursor} {a b : List Nat} (ahead : Ahead v c.c1 a) (ahead' : Ahead w c.c2 b)
    (some' : a ≠ []) (some'' : b ≠ []) (enough : a.length + b.length < fuel) :
    ∃ ok c' a' b', c.findNextCommonItem v w fuel = some (ok,c') ∧ Meets v w c' a' b' ∧ common a b = common a' b' ∧ a'.length ≤ a.length ∧ b'.length ≤ b.length := by
  induction fuel generalizing c a b with
  | zero => omega
  | succ fuel ih =>
      obtain ⟨x,a,rfl⟩ := List.exists_cons_of_ne_nil some'
      obtain ⟨y,b,rfl⟩ := List.exists_cons_of_ne_nil some''
      have smallX := ahead.small well (show x ∈ x::a from List.mem_cons_self)
      have smallY := ahead'.small well' (show y ∈ y::b from List.mem_cons_self)
      have least := (ahead.ascending well).headLeast
      have least' := (ahead'.ascending well').headLeast
      obtain ⟨before,stands⟩ := id ahead
      obtain ⟨before',stands'⟩ := id ahead'
      rw [IntersectionCursor.findNextCommonItem,stands.value,stands'.value]
      simp only [Option.bind_eq_bind,Option.bind_some]
      rcases Nat.lt_trichotomy x y with less | same | more
      · obtain ⟨c1,ran,next⟩ := afterAhead well ahead (Nat.le_of_lt less) (previousNext smallY)
        have shorter := @dropWhileShorter a x y less
        rw [if_neg (Nat.ne_of_lt less),if_pos less,ran]
        simp only [Option.bind_some]
        rw [commonDropLeft least']
        by_cases ended : (x::a).dropWhile (· < y) = []
        · rw [ended] at next ⊢
          exact ⟨_,_,[],y::b,rfl,⟨next,ahead',.inl rfl⟩,rfl,by simp,Nat.le_refl _⟩
        · rw [List.isEmpty_eq_false_iff.mpr ended]
          obtain ⟨ok,c',a',b',found,meets,same,short,short'⟩ := @ih ⟨c1,c.c2⟩ _ _ next ahead' ended some'' (by omega)
          exact ⟨ok,c',a',b',found,meets,same,by omega,short'⟩
      · rw [if_pos same]
        exact ⟨_,c,x::a,y::b,rfl,⟨ahead,ahead',.inr (.inr ⟨x,a,b,rfl,by rw [same]⟩)⟩,rfl,Nat.le_refl _,Nat.le_refl _⟩
      · obtain ⟨c2,ran,next⟩ := afterAhead well' ahead' (Nat.le_of_lt more) (previousNext smallX)
        have shorter := @dropWhileShorter b y x more
        rw [if_neg (Nat.ne_of_gt more),if_neg (Nat.lt_asymm more),ran]
        simp only [Option.bind_some]
        rw [commonDropRight least]
        by_cases ended : (y::b).dropWhile (· < x) = []
        · rw [ended] at next ⊢
          exact ⟨_,_,x::a,[],rfl,⟨ahead,next,.inr (.inl rfl)⟩,rfl,Nat.le_refl _,by simp⟩
        · rw [List.isEmpty_eq_false_iff.mpr ended]
          obtain ⟨ok,c',a',b',found,meets,same,short,short'⟩ := @ih ⟨c.c1,c2⟩ _ _ ahead next some' ended (by omega)
          exact ⟨ok,c',a',b',found,meets,same,short,by omega⟩

theorem commonNone (a : List Nat) : common a [] = [] := List.filter_eq_nil_iff.mpr fun z _ => by simp

theorem commonCons (asc : Ascending (x::a)) (b : List Nat) : common (x::a) (x::b) = x::common a (x::b) ∧ common a (x::b) = common a b := by
  refine ⟨List.filter_cons_of_pos (by simp),List.filter_congr fun z on => ?_⟩
  have less := (List.pairwise_cons.mp asc).1 z on
  rw [decide_eq_decide,List.mem_cons]
  exact ⟨fun either => either.resolve_left (by omega),.inr⟩

theorem visitsMeets (well : WellFormed limit v) (well' : WellFormed limit' w) {c : IntersectionCursor} (meets : Meets v w c a b) (enough : a.length < fuel)
    (enough' : a.length + b.length < moves) : visitsCommon v w moves fuel c = some (common a b) := by
  induction fuel generalizing c a b with
  | zero => omega
  | succ fuel ih =>
      rw [visitsCommon,IntersectionCursor.valid,meets.first.valid,meets.second.valid]
      rcases meets.met with rfl | rfl | ⟨x,a,b,rfl,rfl⟩
      · rfl
      · rw [commonNone]
        simp
      · have first := meets.first
        have asc := first.ascending well
        obtain ⟨c1,ran,next⟩ := nextAhead well first
        obtain ⟨before,stands⟩ := id first
        obtain ⟨before',stands'⟩ := id meets.second
        rw [if_pos (show (!(x::a).isEmpty && !(x::b).isEmpty) = true from rfl),stands.value,(commonCons asc b).1,IntersectionCursor.setToNextOne,stands.value,stands'.value]
        simp only [Option.bind_eq_bind,Option.bind_some,Nat.le_refl,if_true,ran]
        simp only [List.length_cons] at enough enough'
        by_cases ended : a = []
        · subst ended
          simp only [List.isEmpty_nil,Bool.not_true,Bool.false_eq_true,if_false,Option.bind_some]
          have ended' : Meets v w ⟨c1,c.c2⟩ [] (x::b) := ⟨next,meets.second,.inl rfl⟩
          rw [ih ended' (by simp only [List.length_nil]; omega) (by simp only [List.length_nil,List.length_cons]; omega)]
          rfl
        · obtain ⟨ok,c',a',b',found,meets',same,short,short'⟩ := @findCommonMeets v w limit limit' moves well well' ⟨c1,c.c2⟩ a (x::b) next meets.second ended (List.cons_ne_nil _ _)
            (by simp only [List.length_cons]; omega)
          simp only [List.length_cons] at short'
          rw [List.isEmpty_eq_false_iff.mpr ended]
          simp only [Bool.not_false,if_true,found,Option.bind_some]
          rw [ih meets' (by omega) (by omega),← same]
          rfl

theorem intersectionElements (well : WellFormed limit v) (well' : WellFormed limit' w) (c : IntersectionCursor) (enough : (elements v).length < fuel)
    (enough' : (elements v).length + (elements w).length < moves) : visitsIntersection v w moves fuel c = some (common (elements v) (elements w)) := by
  obtain ⟨c1,ran,ahead⟩ := firstAhead well c.c1
  obtain ⟨c2,ran',ahead'⟩ := firstAhead well' c.c2
  rw [visitsIntersection,IntersectionCursor.setToFirstOne,ran,ran']
  simp only [Option.bind_eq_bind,Option.bind_some,IntersectionCursor.valid,ahead.valid,ahead'.valid]
  by_cases ended : elements v = []
  · simp only [ended,List.isEmpty_nil,Bool.not_true,Bool.false_and,Bool.false_eq_true,if_false,Option.bind_some]
    rw [ended] at ahead enough enough'
    exact visitsMeets well well' ⟨ahead,ahead',.inl rfl⟩ enough enough'
  · by_cases ended' : elements w = []
    · simp only [ended',List.isEmpty_nil,Bool.not_true,Bool.and_false,Bool.false_eq_true,if_false,Option.bind_some]
      rw [ended'] at ahead' enough'
      exact visitsMeets well well' ⟨ahead,ahead',.inr (.inl rfl)⟩ enough enough'
    · obtain ⟨ok,c',a',b',found,meets,same,short,short'⟩ := @findCommonMeets v w limit limit' moves well well' ⟨c1,c2⟩ _ _ ahead ahead' ended ended' enough'
      rw [List.isEmpty_eq_false_iff.mpr ended,List.isEmpty_eq_false_iff.mpr ended']
      simp only [Bool.not_false,Bool.and_self,if_true,found,Option.bind_some]
      rw [same]
      exact visitsMeets well well' meets (by omega) (by omega)

/- The bits of one that are not in the other. -/

def unmasked (a b : List Nat) : List Nat := a.filter (· ∉ b)

theorem unmaskedDrop (above : ∀ z ∈ a, n ≤ z) : unmasked a b = unmasked a (b.dropWhile (· < n)) := by
  refine List.filter_congr fun z on => ?_
  have upon := above z on
  rw [decide_eq_decide]
  refine not_congr ⟨fun inB => ?_,fun inDrop => (List.dropWhile_sublist _).subset inDrop⟩
  rw [← List.takeWhile_append_dropWhile (p := (· < n)) (l := b),List.mem_append] at inB
  refine inB.resolve_left fun first => ?_
  have less := List.mem_takeWhile_imp first
  simp only [decide_eq_true_eq] at less
  omega

-- The cursor is at a bit that is not masked, or past its end.
structure Clears (v w : List Segment) (c : MaskCursor) (a b : List Nat) : Prop where
  first : Ahead v c.c a
  second : Ahead w c.m b
  clear : ∀ x ∈ a.head?, x ∉ b

theorem findLoopClears (well : WellFormed limit v) (well' : WellFormed limit' w) {c : MaskCursor} {a b : List Nat} (ahead : Ahead v c.c a) (ahead' : Ahead w c.m b)
    (some' : a ≠ []) (some'' : b ≠ []) (enough : b.length < fuel) :
    ∃ ok c' a' b', c.findLoop v w fuel = some (ok,c') ∧ Clears v w c' a' b' ∧ unmasked a b = unmasked a' b' ∧ a'.length ≤ a.length ∧ b'.length ≤ b.length := by
  induction fuel generalizing c a b with
  | zero => omega
  | succ fuel ih =>
      obtain ⟨x,a,rfl⟩ := List.exists_cons_of_ne_nil some'
      obtain ⟨y,b,rfl⟩ := List.exists_cons_of_ne_nil some''
      have least := (ahead.ascending well).headLeast
      have asc := List.pairwise_cons.mp (ahead.ascending well)
      have asc' := List.pairwise_cons.mp (ahead'.ascending well')
      obtain ⟨before,stands⟩ := id ahead
      obtain ⟨before',stands'⟩ := id ahead'
      rw [MaskCursor.findLoop,stands.value,stands'.value]
      simp only [Option.bind_eq_bind,Option.bind_some]
      -- The mask moves up to a bit of the vector that is beyond its own.
      have follow : ∀ {cc : Cursor} {z : Nat} {rest : List Nat}, Ahead v cc (z::rest) → y < z → (z::rest).length ≤ (x::a).length →
          ∃ ok c' a' b', (cc.value.bind fun x => (c.m.setToNextOneAfter w (previous x)).bind fun next =>
              if next.1 then MaskCursor.findLoop v w fuel ⟨cc,next.2⟩ else some (true,⟨cc,next.2⟩)) = some (ok,c') ∧ Clears v w c' a' b' ∧
              unmasked (z::rest) (y::b) = unmasked a' b' ∧ a'.length ≤ (x::a).length ∧ b'.length ≤ (y::b).length := by
        intro cc z rest next beyond length
        have smallZ := next.small well (show z ∈ z::rest from List.mem_cons_self)
        obtain ⟨m,ran,next'⟩ := afterAhead well' ahead' (Nat.le_of_lt beyond) (previousNext smallZ)
        have shorter := @dropWhileShorter b y z beyond
        obtain ⟨before'',stands''⟩ := id next
        rw [stands''.value,Option.bind_some,ran,Option.bind_some,unmaskedDrop (next.ascending well).headLeast]
        by_cases ended : (y::b).dropWhile (· < z) = []
        · rw [ended] at next' ⊢
          exact ⟨_,_,z::rest,[],rfl,⟨next,next',by simp⟩,rfl,length,by simp⟩
        · rw [List.isEmpty_eq_false_iff.mpr ended]
          obtain ⟨ok,c',a',b',found,clears,same,short,short'⟩ := @ih ⟨cc,m⟩ _ _ next next' (List.cons_ne_nil _ _) ended (by omega)
          exact ⟨ok,c',a',b',found,clears,same,by omega,by omega⟩
      rcases Nat.lt_trichotomy x y with less | same | more
      · rw [if_neg (by omega)]
        refine ⟨_,c,x::a,y::b,rfl,⟨ahead,ahead',fun z on => ?_⟩,rfl,Nat.le_refl _,Nat.le_refl _⟩
        cases on
        intro inB
        rcases List.mem_cons.mp inB with equal | later
        · omega
        · have more := asc'.1 x later
          omega
      · obtain ⟨cc,ran,next⟩ := nextAhead well ahead
        have masked : unmasked (x::a) (y::b) = unmasked a (y::b) := List.filter_cons_of_neg (by simp [same])
        rw [if_pos (by omega),if_pos same,ran,masked]
        simp only [Option.bind_some]
        cases a with
        | nil => exact ⟨_,_,[],y::b,rfl,⟨next,ahead',by simp⟩,rfl,by simp,Nat.le_refl _⟩
        | cons z rest =>
            have beyond := asc.1 z List.mem_cons_self
            exact follow next (by omega) (by simp)
      · rw [if_pos (by omega),if_neg (by omega)]
        simp only [if_true]
        exact follow ahead more (Nat.le_refl _)

theorem findMaskedClears (well : WellFormed limit v) (well' : WellFormed limit' w) {c : MaskCursor} {a b : List Nat} (ahead : Ahead v c.c a) (ahead' : Ahead w c.m b)
    (some' : a ≠ []) (enough : b.length < fuel) :
    ∃ ok c' a' b', c.findNextMaskedItem v w fuel = some (ok,c') ∧ Clears v w c' a' b' ∧ unmasked a b = unmasked a' b' ∧ a'.length ≤ a.length ∧ b'.length ≤ b.length := by
  rw [MaskCursor.findNextMaskedItem,ahead'.valid]
  by_cases ended : b = []
  · subst ended
    exact ⟨_,c,a,[],rfl,⟨ahead,ahead',by simp⟩,rfl,Nat.le_refl _,Nat.le_refl _⟩
  · rw [List.isEmpty_eq_false_iff.mpr ended]
    exact findLoopClears well well' ahead ahead' some' ended enough

theorem visitsClears (well : WellFormed limit v) (well' : WellFormed limit' w) {c : MaskCursor} (clears : Clears v w c a b) (enough : a.length < fuel)
    (enough' : b.length < moves) : visitsUnmasked v w moves fuel c = some (unmasked a b) := by
  induction fuel generalizing c a b with
  | zero => omega
  | succ fuel ih =>
      rw [visitsUnmasked,clears.first.valid]
      cases a with
      | nil => rfl
      | cons x a =>
          obtain ⟨cc,ran,next⟩ := nextAhead well clears.first
          obtain ⟨before,stands⟩ := id clears.first
          have off : x ∉ b := clears.clear x rfl
          have taken : unmasked (x::a) b = x::unmasked a b := List.filter_cons_of_pos (by simpa using off)
          simp only [List.length_cons] at enough
          rw [if_pos (show (!(x::a).isEmpty) = true from rfl),stands.value,taken,MaskCursor.setToNextOne,ran]
          simp only [Option.bind_eq_bind,Option.bind_some]
          by_cases ended : a = []
          · subst ended
            have ended' : Clears v w ⟨cc,c.m⟩ [] b := ⟨next,clears.second,by simp⟩
            simp only [List.isEmpty_nil,Bool.not_true,Bool.false_eq_true,if_false,Option.bind_some]
            rw [ih ended' (by simp only [List.length_nil]; omega) enough']
            rfl
          · obtain ⟨ok,c',a',b',found,clears',same,short,short'⟩ := @findMaskedClears v w limit limit' moves well well' ⟨cc,c.m⟩ a b next clears.second ended enough'
            rw [List.isEmpty_eq_false_iff.mpr ended]
            simp only [Bool.not_false,if_true,found,Option.bind_some]
            rw [ih clears' (by omega) (by omega),← same]
            rfl

theorem maskElements (well : WellFormed limit v) (well' : WellFormed limit' w) (c : MaskCursor) (enough : (elements v).length < fuel)
    (enough' : (elements w).length < moves) : visitsMask v w moves fuel c = some (unmasked (elements v) (elements w)) := by
  obtain ⟨cc,ran,ahead⟩ := firstAhead well c.c
  obtain ⟨m,ran',ahead'⟩ := firstAhead well' c.m
  rw [visitsMask,MaskCursor.setToFirstOne,ran,ran']
  simp only [Option.bind_eq_bind,Option.bind_some,ahead.valid]
  by_cases ended : elements v = []
  · simp only [ended,List.isEmpty_nil,Bool.not_true,Bool.false_eq_true,if_false,Option.bind_some]
    rw [ended] at ahead enough
    exact visitsClears well well' ⟨ahead,ahead',by simp⟩ enough enough'
  · obtain ⟨ok,c',a',b',found,clears,same,short,short'⟩ := @findMaskedClears v w limit limit' moves well well' ⟨cc,m⟩ _ _ ahead ahead' ended enough'
    rw [List.isEmpty_eq_false_iff.mpr ended]
    simp only [Bool.not_false,if_true,found,Option.bind_some]
    rw [same]
    exact visitsClears well well' clears (by omega) (by omega)

/- The cursors enumerate. -/

-- A loop ends, and visits the bits of P in the order of R.
def Visits (ran : Nat → Option (List Nat)) (R : Nat → Nat → Prop) (P : Nat → Prop) : Prop :=
  ∃ bits enough, (∀ fuel, enough < fuel → ran fuel = some bits) ∧ bits.Pairwise R ∧ ∀ x, x ∈ bits ↔ P x

def At (v : List Segment) (c : Cursor) (x : Nat) : Prop := ∃ before after, Stands v c before x after

-- To the least bit above k, or past the end if there is none.
def MovesAfter (v : List Segment) (c : Cursor) (k : Nat) : Prop :=
  ∃ ok c', c.setToNextOneAfter v k = some (ok,c') ∧
    if ok then ∃ q, At v c' q ∧ Member v q ∧ k < q ∧ ∀ z, Member v z → k < z → q ≤ z else c'.valid v = false ∧ ∀ z, Member v z → z ≤ k

theorem movesAfter (well : WellFormed limit v) (here : At v c x) (reach : x ≤ k) (small : k + 1 < word) : MovesAfter v c k := by
  obtain ⟨before,after,stands⟩ := here
  have ahead : Ahead v c (x::after) := ⟨before,stands⟩
  have asc := elementsAscending well
  rw [stands.elements,Ascending,List.pairwise_append] at asc
  obtain ⟨c',ran,next⟩ := afterAhead well ahead (show x ≤ k + 1 by omega) (Nat.mod_eq_of_lt small)
  -- What is above k comes after the position.
  have above : ∀ z, Member v z → k < z → z ∈ (x::after).dropWhile (· < k + 1) := by
    intro z on more
    rw [← memElements well,stands.elements,List.mem_append] at on
    rcases on with first | second
    · have less := asc.2.2 z first x List.mem_cons_self
      omega
    · rw [← List.takeWhile_append_dropWhile (p := (· < k + 1)) (l := x::after),List.mem_append] at second
      refine second.resolve_left fun early => ?_
      have less := List.mem_takeWhile_imp early
      simp only [decide_eq_true_eq] at less
      omega
  refine ⟨_,c',ran,?_⟩
  cases left : (x::after).dropWhile (· < k + 1) with
  | nil =>
      rw [left] at next above
      refine ⟨next,fun z on => ?_⟩
      by_contra more
      exact absurd (above z on (by omega)) List.not_mem_nil
  | cons q rest =>
      rw [left] at next above
      have order := (next.ascending well).headLeast
      obtain ⟨before',stands'⟩ := id next
      have upon := List.head_dropWhile_not (· < k + 1) (l := x::after) (by rw [left]; simp)
      simp only [left,List.head_cons,decide_eq_false_iff_not] at upon
      refine ⟨q,⟨before',rest,stands'⟩,?_,by omega,fun z on more => order z (above z on more)⟩
      rw [← memElements well,stands'.elements]
      simp

/- The callers compute k as one below an unsigned position: 0xFFFFFFFF is the place before
bit 0. -/
structure CursorsExact (v w : List Segment) : Prop where
  forward : ∀ c, Visits (fun fuel => visitsForward v fuel c) (· < ·) (Member v)
  backward : ∀ c, Visits (fun fuel => visitsBackward v fuel c) (· > ·) (Member v)
  after : ∀ c p k, At v c p → p ≤ k → k < word - 1 → MovesAfter v c k
  beforeZero : ∀ c, At v c 0 → ∃ c', c.setToNextOneAfter v (word - 1) = some (true,c') ∧ At v c' 0
  intersection : ∀ c, Visits (fun fuel => visitsIntersection v w fuel fuel c) (· < ·) (fun x => Member v x ∧ Member w x)
  mask : ∀ c, Visits (fun fuel => visitsMask v w fuel fuel c) (· < ·) (fun x => Member v x ∧ ¬ Member w x)

theorem sparseCursors {v w : List Segment} (well : WellFormed halfWord v) (well' : WellFormed halfWord w) : CursorsExact v w := by
  have asc := elementsAscending well
  refine ⟨fun c => ?_,fun c => ?_,fun c p k here reach small => movesAfter well here reach (by omega),fun c here => ?_,fun c => ?_,fun c => ?_⟩
  · exact ⟨_,_,fun fuel enough => forwardElements well c enough,asc,fun x => memElements well⟩
  · refine ⟨_,_,fun fuel enough => backwardElements well c enough,List.pairwise_reverse.mpr asc,fun x => ?_⟩
    rw [List.mem_reverse]
    exact memElements well
  · obtain ⟨before,after,stands⟩ := here
    have ahead : Ahead v c (0::after) := ⟨before,stands⟩
    obtain ⟨c',ran,before',stands'⟩ := afterAhead well ahead (Nat.le_refl 0) (show (word - 1 + 1) % word = 0 by decide)
    exact ⟨c',ran,before',_,stands'⟩
  · refine ⟨_,(elements v).length + (elements w).length,fun fuel enough => intersectionElements well well' c (by omega) enough,asc.sublist List.filter_sublist,fun x => ?_⟩
    simp only [common,List.mem_filter,decide_eq_true_eq,memElements well,memElements well']
  · refine ⟨_,(elements v).length + (elements w).length,fun fuel enough => maskElements well well' c (by omega) (by omega),asc.sublist List.filter_sublist,fun x => ?_⟩
    simp only [unmasked,List.mem_filter,decide_eq_true_eq,memElements well,memElements well']

theorem sparseCursorsSample : CursorsExact [⟨0,4,4,[1,3]⟩] [⟨0,4,4,[2,3]⟩] :=
  sparseCursors (fourWellFormed (by decide) (by unfold Ascending; decide) (by decide) (by decide))
    (fourWellFormed (by decide) (by unfold Ascending; decide) (by decide) (by decide))

-- There is nothing above 0xFFFFFFFF, and yet the cursor stays where it is.
theorem afterLastStays : ∃ c, At [⟨0,4,4,[5]⟩] c 5 ∧ 5 ≤ word - 1 ∧ c.setToNextOneAfter [⟨0,4,4,[5]⟩] (word - 1) = some (true,c) ∧ ¬ MovesAfter [⟨0,4,4,[5]⟩] c (word - 1) := by
  have ran : Cursor.setToNextOneAfter [⟨0,4,4,[5]⟩] (word - 1) ⟨0,0,0,0,[5]⟩ = some (true,⟨0,0,0,0,[5]⟩) := by decide
  refine ⟨⟨0,0,0,0,[5]⟩,⟨[],[],[],⟨0,4,4,[5]⟩,[],[],5,[],rfl,rfl,rfl,rfl,rfl,rfl⟩,by decide,ran,?_⟩
  rintro ⟨ok,c',ran',moved⟩
  rw [ran] at ran'
  cases ran'
  obtain ⟨q,-,member,above,-⟩ := moved
  obtain ⟨s,on,high,low⟩ := member
  rw [List.mem_singleton.mp on] at high low
  have five := List.mem_singleton.mp low
  have whole := wholeBit q
  simp only at high
  have last : word - 1 > 5 := by decide
  rw [five,← high] at whole
  omega

end

end OmrCompiler.SparseBits
