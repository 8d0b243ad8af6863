import OmrCompiler.Constraint

/-! The bound accessors of a constant, a range and a merged list: what they
return bounds every value of the constraint, read as signed and as unsigned, or
does not. The accessors of a list go by its first or its last entry. -/
namespace OmrCompiler.Constraint
open MachineInt

namespace VPConstraint

-- The accessors of the base class, from the signed bounds of a constraint.
def unsignedLow (t : DataType) (low high : Int) : Int := if xorNegative t.bits low high then 0 else toUnsigned t.bits low

def unsignedHigh (t : DataType) (low high : Int) : Int :=
  if xorNegative t.bits low high then modulus t.bits - 1 else toUnsigned t.bits high

def integralUnsignedLow (t : DataType) (c : IntegralConstraint) : Int := unsignedLow t (integralLow t c) (integralHigh t c)

def integralUnsignedHigh (t : DataType) (c : IntegralConstraint) : Int := unsignedHigh t (integralLow t c) (integralHigh t c)

def headUnsignedLow (t : DataType) : VPConstraint → Int
  | integral c => integralUnsignedLow t c
  | merged list => (list.head?.map (integralUnsignedLow t)).getD 0

def getUnsignedLowShort := headUnsignedLow .Int16

def getUnsignedLowInt := headUnsignedLow .Int32

def getUnsignedLowLong := headUnsignedLow .Int64

def getUnsignedHighShort : VPConstraint → Int
  | integral c => integralUnsignedHigh .Int16 c
  | merged list => (list.head?.map (integralUnsignedHigh .Int16)).getD (modulus 16 - 1)

-- The int accessor of a list asks its last entry for the signed bound.
def getUnsignedHighInt : VPConstraint → Int
  | integral c => integralUnsignedHigh .Int32 c
  | merged list => (list.getLast?.map fun c => toUnsigned 32 (integralHigh .Int32 c)).getD (modulus 32 - 1)

def getUnsignedHighLong : VPConstraint → Int
  | integral c => integralUnsignedHigh .Int64 c
  | merged list => (list.getLast?.map (integralUnsignedHigh .Int64)).getD (modulus 64 - 1)

-- The accessors that are asked about a constraint of one type.
def getLow : DataType → VPConstraint → Int
  | .Int16 => getLowShort
  | .Int32 => getLowInt
  | .Int64 => getLowLong

def getHigh : DataType → VPConstraint → Int
  | .Int16 => getHighShort
  | .Int32 => getHighInt
  | .Int64 => getHighLong

def getUnsignedLow : DataType → VPConstraint → Int
  | .Int16 => getUnsignedLowShort
  | .Int32 => getUnsignedLowInt
  | .Int64 => getUnsignedLowLong

def getUnsignedHigh : DataType → VPConstraint → Int
  | .Int16 => getUnsignedHighShort
  | .Int32 => getUnsignedHighInt
  | .Int64 => getUnsignedHighLong

theorem getLowHead (t : DataType) (c : VPConstraint) : getLow t c = headLow t c := by cases t <;> rfl

theorem getUnsignedLowHead (t : DataType) (c : VPConstraint) : getUnsignedLow t c = headUnsignedLow t c := by cases t <;> rfl

theorem getHighIntegral (t : DataType) (c : IntegralConstraint) : getHigh t (integral c) = integralHigh t c := by cases t <;> rfl

theorem getUnsignedHighIntegral (t : DataType) (c : IntegralConstraint) :
    getUnsignedHigh t (integral c) = integralUnsignedHigh t c := by cases t <;> rfl

def Bounded (t : DataType) (c : VPConstraint) (v : Int) : Prop :=
  (getLow t c ≤ v ∧ v ≤ getHigh t c) ∧ getUnsignedLow t c ≤ toUnsigned t.bits v ∧ toUnsigned t.bits v ≤ getUnsignedHigh t c

instance (t : DataType) (c : VPConstraint) (v : Int) : Decidable (Bounded t c v) := inferInstanceAs (Decidable ((_ ∧ _) ∧ _ ∧ _))

-- No list of shorts, and a list of ints or longs without values of both signs.
def OneSided (t : DataType) : VPConstraint → Prop
  | integral _ => True
  | merged list => t ≠ .Int16 ∧ ((∀ c ∈ list, 0 ≤ c.getLow) ∨ ∀ c ∈ list, c.getHigh < 0)

section Intervals
variable {t : DataType} {low high v : Int}

theorem unsignedSame (hl : InRange t.bits low) (hh : InRange t.bits high) (same : low < 0 ↔ high < 0) :
    unsignedLow t low high = toUnsigned t.bits low ∧ unsignedHigh t low high = toUnsigned t.bits high := by
  have sign : xorNegative t.bits low high = false := by
    rw [xorNegativeSigns t.bitsPos hl hh]
    simp [same]
  simp only [unsignedLow,unsignedHigh,sign,Bool.false_eq_true,if_false,and_self]

-- The unsigned order agrees with the signed one among values of one sign.
theorem unsignedMono (hl : InRange t.bits low) (hh : InRange t.bits high) (same : low < 0 ↔ high < 0) (order : low ≤ high) :
    toUnsigned t.bits low ≤ toUnsigned t.bits high := by
  rw [unsignedOfSigned t.bitsPos hl,unsignedOfSigned t.bitsPos hh]
  split <;> split <;> omega

theorem unsignedBetween (hl : InRange t.bits low) (hh : InRange t.bits high) (lower : low ≤ v) (upper : v ≤ high) :
    unsignedLow t low high ≤ toUnsigned t.bits v ∧ toUnsigned t.bits v ≤ unsignedHigh t low high := by
  have hv : InRange t.bits v := ⟨Int.le_trans hl.1 lower,Int.le_trans upper hh.2⟩
  by_cases same : low < 0 ↔ high < 0
  · obtain ⟨least,greatest⟩ := unsignedSame hl hh same
    rw [least,greatest]
    exact ⟨unsignedMono hl hv (by omega) lower,unsignedMono hv hh (by omega) upper⟩
  · have sign : xorNegative t.bits low high = true := by
      rw [xorNegativeSigns t.bitsPos hl hh]
      by_cases first : low < 0 <;> by_cases second : high < 0 <;> simp_all
    have range := toUnsignedRange t.bitsPos v
    simp only [unsignedLow,unsignedHigh,sign,if_true]
    omega

end Intervals

section Lists
variable {t : DataType} {c : IntegralConstraint} {list : List IntegralConstraint}

theorem validLow (valid : c.Valid t) : integralLow t c = c.getLow := if_pos valid.1

theorem validHigh (valid : c.Valid t) : integralHigh t c = c.getHigh := if_pos valid.1

theorem validRanges (valid : c.Valid t) : InRange t.bits c.getLow ∧ InRange t.bits c.getHigh :=
  ⟨⟨valid.2.1,Int.le_trans valid.2.2.1 valid.2.2.2⟩,Int.le_trans valid.2.1 valid.2.2.1,valid.2.2.2⟩

theorem integralBounded (valid : c.Valid t) {v : Int} (inside : c.Contains v) : Bounded t (integral c) v := by
  obtain ⟨hl,hh⟩ := validRanges valid
  have unsigned := unsignedBetween hl hh inside.1 inside.2
  refine ⟨?_,?_⟩
  · rw [getLowHead,getHighIntegral,headLow,validLow valid,validHigh valid]
    exact inside
  · rw [getUnsignedLowHead,getUnsignedHighIntegral,headUnsignedLow,integralUnsignedLow,integralUnsignedHigh,validLow valid,
      validHigh valid]
    exact unsigned

-- The entries between the first and the last lie between their bounds.
theorem canonicalEnds (canonical : Canonical t list) : ∃ a mid z, list = a::(mid ++ [z]) ∧ a.Valid t ∧ z.Valid t ∧
    a.getHigh + 1 < z.getLow ∧ ∀ c ∈ list, a.getLow ≤ c.getLow ∧ c.getHigh ≤ z.getHigh := by
  obtain ⟨long,valid,apart⟩ := canonical
  obtain ⟨a,rest,rfl⟩ := List.exists_cons_of_length_pos (Nat.lt_of_lt_of_le Nat.zero_lt_two long)
  rcases List.eq_nil_or_concat rest with rfl | ⟨mid,z,rfl⟩
  · exact absurd long (by simp)
  rw [List.concat_eq_append] at long valid apart ⊢
  have validA := valid a List.mem_cons_self
  have validZ := valid z (by simp)
  rw [List.pairwise_cons,List.pairwise_append] at apart
  have after := apart.1 z (by simp)
  refine ⟨a,mid,z,rfl,validA,validZ,after,fun c on => ?_⟩
  have validC := (valid c on).2.2.1
  rcases List.mem_cons.mp on with rfl | inRest
  · exact ⟨Int.le_refl _,by have := validZ.2.2.1; omega⟩
  · have above := apart.1 c inRest
    have first := validA.2.2.1
    refine ⟨by omega,?_⟩
    rcases List.mem_append.mp inRest with inMid | last
    · have below := apart.2.2.2 c inMid z (by simp)
      have := validZ.2.2.1
      omega
    · rw [List.mem_singleton.mp last]

theorem mergedUnsignedLow {a : IntegralConstraint} {rest : List IntegralConstraint} (valid : a.Valid t) :
    getUnsignedLow t (merged (a::rest)) = unsignedLow t a.getLow a.getHigh := by
  rw [getUnsignedLowHead,← validLow valid,← validHigh valid]
  rfl

theorem mergedHigh {a z : IntegralConstraint} {mid : List IntegralConstraint} (wide : t ≠ .Int16) (valid : z.Valid t) :
    getHigh t (merged (a::(mid ++ [z]))) = z.getHigh := by
  rw [← validHigh valid,← List.cons_append]
  cases t with
  | Int16 => exact absurd rfl wide
  | Int32 => simp only [getHigh,getHighInt,lastHigh,List.getLast?_concat,Option.map_some,Option.getD_some]
  | Int64 => simp only [getHigh,getHighLong,lastHigh,List.getLast?_concat,Option.map_some,Option.getD_some]

theorem mergedUnsignedHighInt {a z : IntegralConstraint} {mid : List IntegralConstraint} (valid : z.Valid .Int32) :
    getUnsignedHigh .Int32 (merged (a::(mid ++ [z]))) = toUnsigned 32 z.getHigh := by
  rw [← validHigh valid,← List.cons_append]
  simp only [getUnsignedHigh,getUnsignedHighInt,List.getLast?_concat,Option.map_some,Option.getD_some]

theorem mergedUnsignedHighLong {a z : IntegralConstraint} {mid : List IntegralConstraint} (valid : z.Valid .Int64) :
    getUnsignedHigh .Int64 (merged (a::(mid ++ [z]))) = unsignedHigh .Int64 z.getLow z.getHigh := by
  rw [← validHigh valid,← validLow valid,← List.cons_append]
  simp only [getUnsignedHigh,getUnsignedHighLong,List.getLast?_concat,Option.map_some,Option.getD_some]
  rfl

theorem oneSidedBounded (canonical : Canonical t list) (oneSided : OneSided t (merged list)) {v : Int} (inside : (merged list).Contains v) :
    Bounded t (merged list) v := by
  obtain ⟨wide,sides⟩ := oneSided
  obtain ⟨a,mid,z,rfl,validA,validZ,-,between⟩ := canonicalEnds canonical
  obtain ⟨c,on,lower,upper⟩ := inside
  obtain ⟨first,last⟩ := between c on
  obtain ⟨rangeA,rangeA'⟩ := validRanges validA
  obtain ⟨rangeZ,rangeZ'⟩ := validRanges validZ
  have orderA := validA.2.2.1
  have orderZ := validZ.2.2.1
  have outside : (0 ≤ a.getLow ∧ 0 ≤ z.getLow) ∨ (a.getHigh < 0 ∧ z.getHigh < 0) := by
    rcases sides with above | below
    · exact .inl ⟨above a List.mem_cons_self,above z (by simp)⟩
    · exact .inr ⟨below a List.mem_cons_self,below z (by simp)⟩
  have range : InRange t.bits v := ⟨Int.le_trans rangeA.1 (Int.le_trans first lower),Int.le_trans upper (Int.le_trans last rangeZ'.2)⟩
  have least := (unsignedSame rangeA rangeA' (by omega)).1
  have greatest := (unsignedSame rangeZ rangeZ' (by omega)).2
  have low : getUnsignedLow t (merged (a::(mid ++ [z]))) ≤ toUnsigned t.bits v := by
    rw [mergedUnsignedLow validA,least]
    exact unsignedMono rangeA range (by omega) (Int.le_trans first lower)
  have high : getUnsignedHigh t (merged (a::(mid ++ [z]))) = toUnsigned t.bits z.getHigh := by
    cases t with
    | Int16 => exact absurd rfl wide
    | Int32 => exact mergedUnsignedHighInt validZ
    | Int64 => rw [mergedUnsignedHighLong validZ,greatest]
  refine ⟨⟨?_,?_⟩,low,?_⟩
  · rw [getLowHead]
    exact Int.le_trans (Int.le_of_eq (validLow validA)) (Int.le_trans first lower)
  · rw [mergedHigh wide validZ]
    exact Int.le_trans upper last
  · rw [high]
    exact unsignedMono range rangeZ' (by omega) (Int.le_trans upper last)

-- A list with values of both signs, by its least and its greatest value.
theorem twoSidedUnbounded (canonical : Canonical t list) (wide : t ≠ .Int16) (bounded : ∀ v, (merged list).Contains v → Bounded t (merged list) v) :
    (∀ c ∈ list, 0 ≤ c.getLow) ∨ ∀ c ∈ list, c.getHigh < 0 := by
  obtain ⟨a,mid,z,rfl,validA,validZ,apart,between⟩ := canonicalEnds canonical
  by_contra neither
  simp only [not_or,not_forall] at neither
  obtain ⟨⟨c,on,negative⟩,c',on',nonneg⟩ := neither
  obtain ⟨rangeA,rangeA'⟩ := validRanges validA
  obtain ⟨rangeZ,rangeZ'⟩ := validRanges validZ
  have orderA := validA.2.2.1
  have orderZ := validZ.2.2.1
  have first := (between c on).1
  have last := (between c' on').2
  have lowest := (bounded a.getLow ⟨a,List.mem_cons_self,Int.le_refl _,orderA⟩).2.2
  have highest := (bounded z.getHigh ⟨z,by simp,orderZ,Int.le_refl _⟩).2.1
  have mod := modulusHalf t.bitsPos
  have below : toUnsigned t.bits a.getLow = a.getLow + modulus t.bits := toUnsignedNegative t.bitsPos rangeA (by omega)
  have above : toUnsigned t.bits z.getHigh = z.getHigh := unsignedNonneg t.bitsPos rangeZ' (by omega)
  have wrong : ¬ toUnsigned t.bits a.getLow ≤ toUnsigned t.bits z.getHigh := by
    have low := rangeA.1
    have high := rangeZ'.2
    simp only [minSigned,maxSigned] at low high
    rw [below,above]
    omega
  cases t with
  | Int16 => exact wide rfl
  | Int32 =>
    rw [mergedUnsignedHighInt validZ] at lowest
    exact wrong lowest
  | Int64 =>
    by_cases spans : z.getLow < 0
    · rw [mergedUnsignedLow validA,(unsignedSame rangeA rangeA' (by omega)).1] at highest
      exact wrong highest
    · rw [mergedUnsignedHighLong validZ,(unsignedSame rangeZ rangeZ' (by omega)).2] at lowest
      exact wrong lowest

end Lists

theorem boundsSound {t : DataType} {c : VPConstraint} (valid : c.Valid t) : (∀ v, c.Contains v → Bounded t c v) ↔ OneSided t c := by
  cases c with
  | integral c => exact ⟨fun _ => trivial,fun _ v inside => integralBounded valid inside⟩
  | merged list =>
    refine ⟨fun bounded => ?_,fun oneSided v inside => oneSidedBounded valid oneSided inside⟩
    have wide : t ≠ .Int16 := by
      rintro rfl
      obtain ⟨a,mid,z,rfl,validA,validZ,apart,-⟩ := canonicalEnds valid
      have high := (bounded z.getLow ⟨z,by simp,Int.le_refl _,validZ.2.2.1⟩).1.2
      have first : getHigh .Int16 (merged (a::(mid ++ [z]))) = a.getHigh := validHigh validA
      omega
    exact ⟨wide,twoSidedUnbounded valid wide bounded⟩

theorem boundsSoundSample :
    (merged [.range .Int32 1 5 .no false,.const .Int32 9]).Valid .Int32 ∧
      ∀ v, (merged [.range .Int32 1 5 .no false,.const .Int32 9]).Contains v →
        Bounded .Int32 (merged [.range .Int32 1 5 .no false,.const .Int32 9]) v := by
  have valid : (merged [.range .Int32 1 5 .no false,.const .Int32 9]).Valid .Int32 := by decide
  exact ⟨valid,(boundsSound valid).mpr ⟨by decide,.inl (by decide)⟩⟩

-- The upper bound of a list of shorts is that of its first entry.
theorem boundsMissed :
    ¬ ∀ (t : DataType) (c : VPConstraint), c.Valid t → ∀ v, c.Contains v → Bounded t c v := by
  intro sound
  exact absurd (sound .Int16 (merged [.range .Int16 1 5 .no false,.const .Int16 9]) (by decide) 9 (by decide)) (by decide)

end VPConstraint

end OmrCompiler.Constraint
