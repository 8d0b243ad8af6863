import OmrCompiler.Constraint

/-! Merging constraints of one type (logical OR): merge, merge1 and the list
loops shortMerge, intMerge and longMerge of VPConstraint.cpp. The loop is a fold
of the union sweep over the two lists in order of their lower bounds. -/
namespace OmrCompiler.ConstraintMerge
open MachineInt Constraint IntervalList

/- VPIntConstraint::merge1 and VPLongConstraint::merge1 keep two ranges that do
not touch as a list, VPShortConstraint::merge1 generalizes them. -/
def mergeApart (t : DataType) (this other : IntegralConstraint) : Option VPConstraint :=
  match t with
  | .Int16 => none
  | .Int32 => some (VPMergedConstraints.create2 this other)
  | .Int64 => some (VPMergedConstraints.create2 this other)

-- The upper bound is below the other one where it is incremented, so it cannot overflow.
def mergeOrdered (t : DataType) (this other : IntegralConstraint) : Option VPConstraint :=
  if other.getHigh ≤ this.getHigh then some (.integral this)
  else if other.getLow ≤ this.getHigh + 1 then
    if this.getLow = t.getMinSigned ∧ other.getHigh = t.getMaxSigned then none
    else (rangeOf t this.getLow other.getHigh).map .integral
  else mergeApart t this other

def integralMerge1 (t : DataType) (this other : IntegralConstraint) : Option VPConstraint :=
  if other.getLow < this.getLow then mergeOrdered t other this else mergeOrdered t this other

def VPShortConstraint.merge1 := integralMerge1 .Int16

def VPIntConstraint.merge1 := integralMerge1 .Int32

def VPLongConstraint.merge1 := integralMerge1 .Int64

/- lastResult->merge(cur) inside a list loop: the two are of one type, so of one
priority, and what the loop joins is never kept apart. -/
def mergeEntry (t : DataType) (lastResult cur : IntegralConstraint) : Option IntegralConstraint :=
  if lastResult = cur then some lastResult else (integralMerge1 t lastResult cur).bind (·.asIntegral t)

-- The result list is held last entry first.
def mergeLoop (t : DataType) : List IntegralConstraint → List IntegralConstraint → List IntegralConstraint →
    Option (List IntegralConstraint)
  | [], [], result => some result
  | cur :: next, [], result => do
      let result ← push (·.getLow) (·.getHigh) t.getMaxSigned (mergeEntry t) result cur
      mergeLoop t next [] result
  | [], otherCur :: otherNext, result => do
      let result ← push (·.getLow) (·.getHigh) t.getMaxSigned (mergeEntry t) result otherCur
      mergeLoop t [] otherNext result
  | cur :: next, otherCur :: otherNext, result =>
      if cur.getLow ≤ otherCur.getLow then do
        let result ← push (·.getLow) (·.getHigh) t.getMaxSigned (mergeEntry t) result cur
        mergeLoop t next (otherCur :: otherNext) result
      else do
        let result ← push (·.getLow) (·.getHigh) t.getMaxSigned (mergeEntry t) result otherCur
        mergeLoop t (cur :: next) otherNext result

def listMerge (t : DataType) (list others : List IntegralConstraint) : Option VPConstraint :=
  (mergeLoop t list others []).map (fun result => collapse result.reverse)

def VPMergedConstraints.shortMerge := listMerge .Int16

def VPMergedConstraints.intMerge := listMerge .Int32

def VPMergedConstraints.longMerge := listMerge .Int64

def VPMergedConstraints.merge1 (list : List IntegralConstraint) (other : VPConstraint) : Option VPConstraint :=
  match VPConstraint.listType list with
  | .Int16 => VPMergedConstraints.shortMerge list other.entries
  | .Int32 => VPMergedConstraints.intMerge list other.entries
  | .Int64 => VPMergedConstraints.longMerge list other.entries

def merge1 (this other : VPConstraint) : Option VPConstraint :=
  match this, other with
  | .merged list, other => VPMergedConstraints.merge1 list other
  | .integral _, .merged _ => none
  | .integral c, .integral other =>
      match c.type with
      | .Int16 => VPShortConstraint.merge1 c other
      | .Int32 => VPIntConstraint.merge1 c other
      | .Int64 => VPLongConstraint.merge1 c other

def merge (this other : VPConstraint) : Option VPConstraint :=
  if this = other then some this
  else if other.priority > this.priority then merge1 other this
  else merge1 this other

/- The union of two sets as a merge reports it: nothing is lost, nothing is added
except by the short code, and the representation is kept. -/
structure Union (t : DataType) (values : Int → Prop) (result : Option VPConstraint) : Prop where
  covers : ∀ v, values v → Allows t result v
  exact : t ≠ .Int16 → ∀ v, Allows t result v → values v
  valid : ∀ c, result = some c → c.Valid t

theorem unionCongr {t : DataType} {p q : Int → Prop} {result : Option VPConstraint} (same : ∀ v, p v ↔ q v)
    (h : Union t p result) : Union t q result :=
  ⟨fun v hv => h.covers v ((same v).mpr hv),fun ne v hv => (same v).mp (h.exact ne v hv),h.valid⟩

theorem unionSome {t : DataType} {p : Int → Prop} {c : VPConstraint} (valid : c.Valid t)
    (same : ∀ v, c.Contains v ↔ p v) : Union t p (some c) := by
  refine ⟨fun v hv => (same v).mpr hv,fun _ v hv => (same v).mp hv,fun d hd => ?_⟩
  cases Option.some.inj hd
  exact valid

theorem unionNone {t : DataType} {p : Int → Prop} (inside : ∀ v, p v → InRange t.bits v)
    (full : t ≠ .Int16 → ∀ v, InRange t.bits v → p v) : Union t p none :=
  ⟨inside,full,fun c hc => by cases hc⟩

/- Two ranges in order that touch. -/
theorem mergeOrderedTouching {t : DataType} {this other : IntegralConstraint} (type : this.type = t)
    (touch : other.getLow ≤ this.getHigh + 1) :
    (∃ c, mergeOrdered t this other = some (.integral c) ∧ c.type = t ∧ c.getLow = this.getLow ∧
      c.getHigh = max this.getHigh other.getHigh) ∨
    (mergeOrdered t this other = none ∧ this.getLow = t.getMinSigned ∧
      max this.getHigh other.getHigh = t.getMaxSigned) := by
  unfold mergeOrdered
  by_cases within : other.getHigh ≤ this.getHigh
  · rw [if_pos within]
    exact .inl ⟨this,rfl,type,rfl,by omega⟩
  · rw [if_neg within,if_pos touch]
    have high : max this.getHigh other.getHigh = other.getHigh := by omega
    rw [high]
    by_cases full : this.getLow = t.getMinSigned ∧ other.getHigh = t.getMaxSigned
    · rw [if_pos full]
      exact .inr ⟨rfl,full⟩
    · rw [if_neg full]
      cases made : rangeOf t this.getLow other.getHigh with
      | none => exact absurd (rangeOfFull made) full
      | some c =>
        obtain ⟨type,low,top⟩ := rangeOfBounds made
        exact .inl ⟨c,rfl,type,low,top⟩

theorem mergeOrderedUnion {t : DataType} {this other : IntegralConstraint} (left : this.Valid t)
    (right : other.Valid t) (order : this.getLow ≤ other.getLow) :
    Union t (fun v => this.Contains v ∨ other.Contains v) (mergeOrdered t this other) := by
  have leftBounds := left.2
  have rightBounds := right.2
  by_cases touch : other.getLow ≤ this.getHigh + 1
  · rcases mergeOrderedTouching left.1 touch with ⟨c,made,type,low,high⟩ | ⟨made,low,high⟩
    · rw [made]
      refine unionSome ⟨type,by omega,by omega,by omega⟩ fun v => ?_
      simp only [VPConstraint.Contains,IntegralConstraint.Contains,low,high]
      omega
    · rw [made]
      refine unionNone (fun v hv => ?_) fun _ v hv => ?_
      · exact hv.elim (integralInRange left) (integralInRange right)
      · simp only [InRange] at hv
        simp only [IntegralConstraint.Contains]
        simp only [DataType.getMinSigned,DataType.getMaxSigned] at low high
        omega
  · have apart : mergeOrdered t this other = mergeApart t this other := by
      rw [mergeOrdered,if_neg (by omega),if_neg touch]
    rw [apart]
    have both : Union t (fun v => this.Contains v ∨ other.Contains v)
        (some (VPMergedConstraints.create2 this other)) := by
      refine unionSome ⟨Nat.le_refl 2,?_,?_⟩ fun v => ?_
      · simp [left,right]
      · simp
        omega
      · simp [VPMergedConstraints.create2,VPConstraint.Contains]
    cases t with
    | Int16 =>
      refine unionNone (fun v hv => ?_) fun ne => absurd rfl ne
      exact hv.elim (integralInRange left) (integralInRange right)
    | Int32 => exact both
    | Int64 => exact both

theorem integralMerge1Union {t : DataType} {this other : IntegralConstraint} (left : this.Valid t)
    (right : other.Valid t) :
    Union t (fun v => this.Contains v ∨ other.Contains v) (integralMerge1 t this other) := by
  unfold integralMerge1
  split
  · rename_i swap
    exact unionCongr (fun v => Or.comm) (mergeOrderedUnion right left (Int.le_of_lt swap))
  · rename_i keep
    exact mergeOrderedUnion left right (Int.not_lt.mp keep)

theorem integralMerge1Touching {t : DataType} {this other : IntegralConstraint} (left : this.Valid t)
    (order : this.getLow ≤ other.getLow) (touch : other.getLow ≤ this.getHigh + 1) :
    (∃ c, integralMerge1 t this other = some (.integral c) ∧ c.type = t ∧ c.getLow = this.getLow ∧
      c.getHigh = max this.getHigh other.getHigh) ∨
    (integralMerge1 t this other = none ∧ this.getLow = t.getMinSigned ∧
      max this.getHigh other.getHigh = t.getMaxSigned) := by
  rw [integralMerge1,if_neg (Int.not_lt.mpr order)]
  exact mergeOrderedTouching left.1 touch

theorem mergeEntryJoining (t : DataType) :
    Joining (·.getLow) (·.getHigh) t.getMinSigned t.getMaxSigned (IntegralConstraint.Valid t) (mergeEntry t) := by
  refine ⟨fun h => ⟨h.2.2.1,h.2.1,h.2.2.2⟩,fun {a b j} ha hb order touch made => ?_,
    fun {a b} ha hb order touch made => ?_⟩
  · unfold mergeEntry at made
    split at made
    · rename_i same
      cases Option.some.inj made
      subst b
      exact ⟨ha,rfl,by simp⟩
    · rcases integralMerge1Touching ha order touch with ⟨c,eq,type,low,high⟩ | ⟨eq,_,_⟩
      · simp only [eq,Option.bind_some,VPConstraint.asIntegral,type,if_true] at made
        cases Option.some.inj made
        have leftBounds := ha.2
        have rightBounds := hb.2
        exact ⟨⟨type,by omega,by omega,by omega⟩,low,high⟩
      · simp [eq] at made
  · unfold mergeEntry at made
    split at made
    · cases made
    · rcases integralMerge1Touching ha order touch with ⟨c,eq,type,_,_⟩ | ⟨_,low,high⟩
      · simp [eq,VPConstraint.asIntegral,type] at made
      · exact ⟨low,high⟩

def lowerFirst (a b : IntegralConstraint) : Bool := decide (a.getLow ≤ b.getLow)

theorem mergeLoopFold (t : DataType) (list others result : List IntegralConstraint) :
    mergeLoop t list others result =
      (List.merge list others lowerFirst).foldlM (push (·.getLow) (·.getHigh) t.getMaxSigned (mergeEntry t)) result := by
  fun_induction mergeLoop t list others result with
  | case1 result => simp [pure]
  | case2 result cur next ih => simp [List.foldlM_cons,ih]
  | case3 result otherCur otherNext ih => simp [List.foldlM_cons,ih]
  | case4 result cur next otherCur otherNext first ih =>
    rw [List.cons_merge_cons_pos _ _ _ (by simpa [lowerFirst] using first),List.foldlM_cons]
    simp [ih]
  | case5 result cur next otherCur otherNext first ih =>
    rw [List.cons_merge_cons_neg _ _ _ (by simpa [lowerFirst] using first),List.foldlM_cons]
    simp [ih]

theorem mergedAscending {list others : List IntegralConstraint} (left : Ascending (·.getLow) list)
    (right : Ascending (·.getLow) others) : Ascending (·.getLow) (List.merge list others lowerFirst) := by
  have trans : ∀ a b c, lowerFirst a b = true → lowerFirst b c = true → lowerFirst a c = true := by
    simp only [lowerFirst,decide_eq_true_eq]
    exact fun a b c => Int.le_trans
  have total : ∀ a b, (lowerFirst a b || lowerFirst b a) = true := by
    simp only [lowerFirst,Bool.or_eq_true,decide_eq_true_eq]
    exact fun a b => Int.le_total _ _
  have toBool : ∀ {xs}, Ascending (·.getLow) xs → xs.Pairwise (fun a b => lowerFirst a b = true) :=
    fun h => h.imp fun le => decide_eq_true le
  exact (List.pairwise_merge trans total list others (toBool left) (toBool right)).imp of_decide_eq_true

theorem mergedCovers (list others : List IntegralConstraint) (v : Int) :
    Covers (·.getLow) (·.getHigh) (List.merge list others lowerFirst) v ↔
      Covers (·.getLow) (·.getHigh) list v ∨ Covers (·.getLow) (·.getHigh) others v := by
  simp only [Covers,List.mem_merge,or_and_right,exists_or]

theorem listMergeUnion {t : DataType} {this other : VPConstraint} (left : this.Valid t) (right : other.Valid t) :
    Union t (fun v => this.Contains v ∨ other.Contains v) (listMerge t this.entries other.entries) := by
  have ascending := mergedAscending (separatedAscending (entriesSeparated left))
    (separatedAscending (entriesSeparated right))
  have inside : ∀ e ∈ List.merge this.entries other.entries lowerFirst, e.Valid t := by
    intro e he
    exact (List.mem_merge.mp he).elim (entriesValid left e) (entriesValid right e)
  obtain ⟨found,lost⟩ := pushAll (mergeEntryJoining t) (growingStart _) ascending inside
  have both : ∀ v, Covers (·.getLow) (·.getHigh) (List.merge this.entries other.entries lowerFirst) v ↔
      this.Contains v ∨ other.Contains v := by
    intro v
    rw [mergedCovers,containsEntries this,containsEntries other]
  unfold listMerge
  rw [mergeLoopFold]
  cases run : (List.merge this.entries other.entries lowerFirst).foldlM
      (push (·.getLow) (·.getHigh) t.getMaxSigned (mergeEntry t)) [] with
  | none =>
    refine unionNone (fun v hv => hv.elim (containsInRange left) (containsInRange right)) fun _ v hv => ?_
    exact (both v).mp ((lost run v hv.1 hv.2).resolve_left (coversNil v))
  | some out =>
    obtain ⟨⟨separated,fine⟩,covers⟩ := found out run
    have same : ∀ v, (collapse out.reverse).Contains v ↔ this.Contains v ∨ other.Contains v := by
      intro v
      rw [containsEntries,collapseEntries,← both v]
      simpa [Covers] using covers v
    refine unionSome (collapseValid (fun empty => ?_) (fun e he => fine e (List.mem_reverse.mp he)) separated) same
    obtain ⟨v,hv⟩ := validInhabited left
    have := (same v).mpr (.inl hv)
    rw [empty,containsEntries,collapseEntries] at this
    exact coversNil v this

theorem merge1Union {t : DataType} {this other : VPConstraint} (left : this.Valid t) (right : other.Valid t)
    (order : other.priority ≤ this.priority) :
    Union t (fun v => this.Contains v ∨ other.Contains v) (merge1 this other) := by
  cases this with
  | merged list =>
    have run : merge1 (.merged list) other = listMerge t list other.entries := by
      have type := listTypeValid left
      cases t <;> simp [merge1,VPMergedConstraints.merge1,type] <;> rfl
    rw [run]
    exact listMergeUnion left right
  | integral c =>
    cases other with
    | merged list => exact absurd order (by simp [VPConstraint.priority]; split <;> omega)
    | integral other =>
      have run : merge1 (.integral c) (.integral other) = integralMerge1 t c other := by
        have type := left.1
        cases t <;> simp [merge1,type] <;> rfl
      rw [run]
      exact integralMerge1Union left right

theorem mergeUnion {t : DataType} {this other : VPConstraint} (left : this.Valid t) (right : other.Valid t) :
    Union t (fun v => this.Contains v ∨ other.Contains v) (merge this other) := by
  unfold merge
  split
  · rename_i same
    subst other
    exact unionSome left fun v => (or_self_iff).symm
  · split
    · rename_i higher
      exact unionCongr (fun v => Or.comm) (merge1Union right left (Nat.le_of_lt higher))
    · rename_i lower
      exact merge1Union left right (Nat.not_lt.mp lower)

/- Same-width merge is union: exact for the int and long code, and a superset in
every case. NULL allows the whole type. -/
theorem mergeExact {t : DataType} {a b : VPConstraint} (left : a.Valid t) (right : b.Valid t) :
    (∀ v, a.Contains v ∨ b.Contains v → Allows t (merge a b) v) ∧
    (t ≠ .Int16 → ∀ v, Allows t (merge a b) v ↔ a.Contains v ∨ b.Contains v) ∧
    ∀ c, merge a b = some c → c.Valid t := by
  obtain ⟨covers,exact,valid⟩ := mergeUnion left right
  exact ⟨covers,fun ne v => ⟨exact ne v,covers v⟩,valid⟩

def mergeSampleLeft : VPConstraint := .merged [.range .Int32 0 5 .no false,.const .Int32 8,.range .Int32 20 2147483647 .no false]

def mergeSampleRight : VPConstraint := .merged [.range .Int32 (-9) (-3) .no false,.range .Int32 6 7 .no false]

theorem mergeExactSample :
    mergeSampleLeft.Valid .Int32 ∧ mergeSampleRight.Valid .Int32 ∧
    ∀ c, merge mergeSampleLeft mergeSampleRight = some c → c.Valid .Int32 :=
  ⟨by decide,by decide,(mergeExact (by decide) (by decide)).2.2⟩

end OmrCompiler.ConstraintMerge
