import Mathlib.Data.Nat.Bitwise
import OmrCompiler.MachineInt
import OmrCompiler.CodeCacheRepository

/-! The layout that the initialization of a code cache computes from its segment,
with addresses and sizes of 64 bits. -/
namespace OmrCompiler.CodeCacheInitialize
open MachineInt
open Repository (Config clear sizeofPointer)

-- A pointer or a size_t.
def address (x : Int) : Nat := (toUnsigned 64 x).toNat

def align (ptr alignmentMask : Nat) : Nat :=
  let mask := alignmentMask % 2 ^ 32
  clear mask (address (ptr + mask))

-- What the initialization gets from its callbacks and allocators.
structure Available where
  hashEntrySlab : Bool
  mutex : Bool
  tempTrampolineSyncBlock : Bool
  hashTables : Bool

structure TempTrampolines where
  top : Nat
  base : Nat
  next : Nat
  max : Nat

-- The temporary trampolines are left unset where there are no trampolines.
structure Marks where
  helperTop : Nat
  helperBase : Nat
  trampolineBase : Nat
  trampolineReservationMark : Nat
  trampolineAllocationMark : Nat
  tempTrampolines : Option TempTrampolines
  ccPreLoadedCodeTop : Nat
  ccPreLoadedCodeBase : Nat
  coldCodeAlloc : Nat
  warmCodeAlloc : Nat

-- The product of a difference of pointers and a percentage, as a 64-bit integer.
def percent (distance : Int) (percentage : Nat) : Int := (wrap 64 (wrap 64 distance * percentage)).tdiv 100

-- The marks, and what is taken from the free space of the repository.
def initializeCodeCache (config : Config) (available : Available) (segmentBase segmentTop allocatedCodeCacheSizeInBytes : Nat) :
    Option (Marks × Nat) :=
  let helperTop := address (segmentBase + allocatedCodeCacheSizeInBytes)
  if !available.hashEntrySlab then none
  else if !available.mutex then none
  else
    let warmCodeAlloc := align (address (segmentBase + sizeofPointer)) (config.cache.alignment - 1)
    if config.trampolineCodeSize = 0 then
      let ccPreLoadedCodeTop := clear config.codeCacheHelperAlignmentMask helperTop
      let ccPreLoadedCodeBase := address (ccPreLoadedCodeTop - config.ccPreLoadedCodeSize)
      some (⟨helperTop,helperTop,helperTop,helperTop,helperTop,none,ccPreLoadedCodeTop,ccPreLoadedCodeBase,ccPreLoadedCodeBase,warmCodeAlloc⟩,0)
    else
      let trampolineSpaceSize := address (config.trampolineCodeSize * config.numRuntimeHelpers)
      -- the mask is the alignment itself and not the alignment less one
      let helperBase := clear config.codeCacheTrampolineAlignmentBytes (address (helperTop - trampolineSpaceSize))
      let trampolineBase :=
        if !config.needsMethodTrampolines then helperBase
        else address (helperBase - percent (helperBase - segmentBase) config.trampolineSpacePercentage)
      let tempTrampolinesMax := if !config.needsMethodTrampolines then 0 else config.tempTrampolines (address (helperTop - segmentBase))
      let tempTrampolineTop := helperBase
      let tempTrampolineBase := address (tempTrampolineTop - address (config.trampolineCodeSize * tempTrampolinesMax))
      let tempTrampolineNext := tempTrampolineBase
      if tempTrampolineNext ≤ trampolineBase ∧ config.needsMethodTrampolines = true then none
      else
        let ccPreLoadedCodeTop := clear config.codeCacheHelperAlignmentMask trampolineBase
        let ccPreLoadedCodeBase := address (ccPreLoadedCodeTop - config.ccPreLoadedCodeSize)
        if tempTrampolinesMax ≠ 0 ∧ available.tempTrampolineSyncBlock = false then none
        else if config.needsMethodTrampolines && !available.hashTables then none
        else
          some (⟨helperTop,helperBase,trampolineBase,tempTrampolineBase,tempTrampolineBase,
            some ⟨tempTrampolineTop,tempTrampolineBase,tempTrampolineNext,tempTrampolinesMax⟩,
            ccPreLoadedCodeTop,ccPreLoadedCodeBase,ccPreLoadedCodeBase,warmCodeAlloc⟩,
            address (warmCodeAlloc - segmentBase + (segmentTop - trampolineBase)))

-- The trampolines of a cache, from low to high addresses; without trampolines they are at the top.
def Trampolines (config : Config) (m : Marks) : Prop :=
  if config.trampolineCodeSize = 0 then
    m.trampolineBase = m.helperTop ∧ m.trampolineReservationMark = m.helperTop ∧ m.trampolineAllocationMark = m.helperTop ∧ m.helperBase = m.helperTop
  else ∃ temp, m.tempTrampolines = some temp ∧
    m.trampolineBase ≤ m.trampolineReservationMark ∧ m.trampolineReservationMark = m.trampolineAllocationMark ∧
    m.trampolineAllocationMark = temp.base ∧ temp.base ≤ temp.top ∧ temp.top = m.helperBase ∧
    m.helperBase + config.trampolineCodeSize * config.numRuntimeHelpers ≤ m.helperTop ∧
    config.codeCacheTrampolineAlignmentBytes ∣ m.helperBase

structure WellFormed (config : Config) (m : Marks) : Prop where
  warm : m.warmCodeAlloc ≤ m.coldCodeAlloc
  cold : m.coldCodeAlloc ≤ m.ccPreLoadedCodeTop
  preLoaded : m.ccPreLoadedCodeTop ≤ m.trampolineBase
  trampolines : Trampolines config m

-- The first address at or above n that is a multiple of the alignment; the alignment is 32 bits wide.
def roundUp (shift n : Nat) : Nat := (n + (2 ^ min shift 32 - 1)) / 2 ^ min shift 32 * 2 ^ min shift 32

-- What the helpers leave of a segment: a multiple of twice the alignment.
def belowHelpers (config : Config) (top : Nat) : Nat :=
  (top - config.trampolineCodeSize * config.numRuntimeHelpers) / (2 * config.codeCacheTrampolineAlignmentBytes) *
    (2 * config.codeCacheTrampolineAlignmentBytes)

-- What the trampolines leave of a segment.
def belowTrampolines (config : Config) (base top : Nat) : Nat :=
  if config.trampolineCodeSize = 0 then top
  else if config.needsMethodTrampolines then
    belowHelpers config top - (belowHelpers config top - base) * config.trampolineSpacePercentage / 100
  else belowHelpers config top

/- The segment [base, base + size) has room for what its configuration asks for,
and the helpers end at a multiple of the alignment. -/
structure Roomy (config : Config) (base size : Nat) : Prop where
  helpers : config.trampolineCodeSize * config.numRuntimeHelpers ≤ base + size
  aligned : config.trampolineCodeSize ≠ 0 →
    config.codeCacheTrampolineAlignmentBytes ∣ base + size - config.trampolineCodeSize * config.numRuntimeHelpers
  temporary : config.trampolineCodeSize ≠ 0 → config.needsMethodTrampolines = true →
    config.trampolineCodeSize * config.tempTrampolines size % 2 ^ 64 ≤ belowHelpers config (base + size)
  room : roundUp config.cache.shift (base + sizeofPointer) + config.ccPreLoadedCodeSize ≤
    belowTrampolines config base (base + size) / (config.codeCacheHelperAlignmentMask + 1) * (config.codeCacheHelperAlignmentMask + 1)

-- A segment of the address space; the product with the percentage does not overflow.
structure Addressed (config : Config) (base size : Nat) : Prop where
  inside : base + size < 2 ^ 64
  start : base + sizeofPointer + 2 ^ min config.cache.shift 32 ≤ 2 ^ 64
  product : size * config.trampolineSpacePercentage < 2 ^ 63
  preLoaded : config.ccPreLoadedCodeSize < 2 ^ 64

section
variable {config : Config} {available : Available} {base size segmentTop lost : Nat} {m : Marks}

theorem addressBelow (x : Int) : address x < 2 ^ 64 := by
  have range := toUnsignedRange (show 0 < 64 by decide) x
  simp only [modulus] at range
  unfold address
  omega

theorem addressSelf {n : Nat} (short : n < 2 ^ 64) : address n = n := by
  have same := @unsignedBelow 64 n (by omega) (by simp only [modulus]; omega)
  rw [address,same]
  rfl

theorem addressSub {a b : Nat} (short : a < 2 ^ 64) (less : b ≤ a) : address (a - b) = a - b := by
  rw [← Int.ofNat_sub less]
  exact addressSelf (by omega)

-- A difference of addresses that wraps is larger than the greater one.
theorem addressWraps {a b : Nat} (short : b < 2 ^ 64) (less : a < b) : a < address (a - b) := by
  have turned : toUnsigned 64 ((a : Int) - b) = a - b + 2 ^ 64 := by
    rw [toUnsigned,modulus,← Int.add_emod_right]
    exact Int.emod_eq_of_lt (by omega) (by omega)
  rw [address,turned]
  omega

theorem clearLow (h n : Nat) : clear (2 ^ h - 1) n = n / 2 ^ h * 2 ^ h := by
  rw [clear,Nat.and_two_pow_sub_one_eq_mod]
  have split := Nat.div_add_mod' n (2 ^ h)
  omega

theorem clearBelow (mask n : Nat) : clear mask n ≤ n := Nat.sub_le _ _

-- To clear the bit of a power of two is to stay at a multiple of it, or away from one.
theorem clearBitMultiple (j n : Nat) : 2 ^ j ∣ clear (2 ^ j) n ↔ 2 ^ j ∣ n := by
  rw [clear,Nat.and_two_pow]
  cases on : n.testBit j with
  | false => simp
  | true =>
      have enough : 2 ^ j ≤ n := Nat.ge_two_pow_of_testBit on
      simp only [Bool.toNat_true,Nat.one_mul]
      rw [Nat.dvd_sub_self_right]
      refine ⟨fun either => either.elim id fun less => ?_,.inl⟩
      rw [Nat.le_antisymm less enough]

theorem clearBitDown {j n : Nat} (multiple : 2 ^ j ∣ n) : clear (2 ^ j) n = n / (2 * 2 ^ j) * (2 * 2 ^ j) := by
  obtain ⟨q,rfl⟩ := multiple
  have pos : 0 < 2 ^ j := Nat.two_pow_pos j
  have bit : (2 ^ j * q).testBit j = decide (q % 2 = 1) := by
    rw [Nat.testBit_eq_decide_div_mod_eq,Nat.mul_div_cancel_left q pos]
  have half : 2 ^ j * q / (2 * 2 ^ j) = q / 2 := by
    rw [Nat.mul_comm 2,Nat.mul_div_mul_left _ _ pos]
  have cleared : (decide (q % 2 = 1)).toNat = q % 2 := by
    rcases Nat.mod_two_eq_zero_or_one q with even | odd
    · simp [even]
    · simp [odd]
  have split : q = 2 * (q / 2) + q % 2 := (Nat.div_add_mod q 2).symm
  rw [clear,Nat.and_two_pow,bit,cleared,half]
  calc 2 ^ j * q - q % 2 * 2 ^ j = 2 ^ j * (q - q % 2) := by rw [Nat.mul_sub,Nat.mul_comm (q % 2)]
    _ = 2 ^ j * (2 * (q / 2)) := by rw [show q - q % 2 = 2 * (q / 2) by omega]
    _ = q / 2 * (2 * 2 ^ j) := by rw [Nat.mul_comm (2 ^ j),Nat.mul_assoc 2,Nat.mul_left_comm]

theorem alignRoundUp {shift n : Nat} (inside : n + 2 ^ min shift 32 ≤ 2 ^ 64) : align n (2 ^ shift - 1) = roundUp shift n := by
  have mask : (2 ^ shift - 1) % 2 ^ 32 = 2 ^ min shift 32 - 1 := by
    rcases Nat.le_total shift 32 with low | high
    · rw [Nat.min_eq_left low]
      have less : 2 ^ shift ≤ 2 ^ 32 := Nat.pow_le_pow_right (by decide) low
      have pos : 0 < 2 ^ shift := Nat.two_pow_pos shift
      exact Nat.mod_eq_of_lt (by omega)
    · rw [Nat.min_eq_right high]
      obtain ⟨k,rfl⟩ := Nat.exists_eq_add_of_le high
      have pos : 0 < 2 ^ k := Nat.two_pow_pos k
      rw [Nat.pow_add]
      omega
  have pos : 0 < 2 ^ min shift 32 := Nat.two_pow_pos _
  have same : (n : Int) + (2 ^ min shift 32 - 1 : Nat) = (n + (2 ^ min shift 32 - 1) : Nat) := by push_cast; rfl
  rw [align,mask,roundUp,same,addressSelf (by omega),clearLow]

-- What the initialization has computed where there are trampolines.
structure Computed (config : Config) (base size : Nat) (m : Marks) (max : Nat) : Prop where
  helperTop : m.helperTop = address (base + size)
  helperBase : m.helperBase = clear config.codeCacheTrampolineAlignmentBytes
    (address (m.helperTop - address (config.trampolineCodeSize * config.numRuntimeHelpers)))
  trampolineBase : m.trampolineBase = if !config.needsMethodTrampolines then m.helperBase
    else address (m.helperBase - percent (m.helperBase - base) config.trampolineSpacePercentage)
  most : max = if !config.needsMethodTrampolines then 0 else config.tempTrampolines (address (m.helperTop - base))
  temporary : m.tempTrampolines = some ⟨m.helperBase,m.trampolineAllocationMark,m.trampolineAllocationMark,max⟩
  allocation : m.trampolineAllocationMark = address (m.helperBase - address (config.trampolineCodeSize * max))
  reservation : m.trampolineReservationMark = m.trampolineAllocationMark
  enough : ¬(m.trampolineAllocationMark ≤ m.trampolineBase ∧ config.needsMethodTrampolines = true)
  preLoaded : m.ccPreLoadedCodeTop = clear config.codeCacheHelperAlignmentMask m.trampolineBase
  cold : m.coldCodeAlloc = address (m.ccPreLoadedCodeTop - config.ccPreLoadedCodeSize)
  warm : m.warmCodeAlloc = align (address (base + sizeofPointer)) (config.cache.alignment - 1)

theorem computed (trampolines : config.trampolineCodeSize ≠ 0)
    (ran : initializeCodeCache config available base segmentTop size = some (m,lost)) : ∃ max, Computed config base size m max := by
  unfold initializeCodeCache at ran
  extract_lets helperTop warmCodeAlloc unusedTop unusedBase space helperBase trampolineBase max tempTop tempBase tempNext top base' at ran
  rw [if_neg trampolines] at ran
  split_ifs at ran with _ _ few
  obtain ⟨rfl,rfl⟩ := Prod.mk.inj (Option.some.inj ran)
  exact ⟨max,rfl,rfl,rfl,rfl,rfl,rfl,rfl,few,rfl,rfl,rfl⟩

theorem startMarks (ran : initializeCodeCache config available base segmentTop size = some (m,lost)) :
    m.warmCodeAlloc = align (address (base + sizeofPointer)) (config.cache.alignment - 1) ∧ ∃ n, m.coldCodeAlloc = address n := by
  by_cases none : config.trampolineCodeSize = 0
  · unfold initializeCodeCache at ran
    extract_lets helperTop warmCodeAlloc top base' at ran
    rw [if_pos none] at ran
    split_ifs at ran
    obtain ⟨rfl,rfl⟩ := Prod.mk.inj (Option.some.inj ran)
    exact ⟨rfl,_,rfl⟩
  · obtain ⟨max,c⟩ := computed none ran
    exact ⟨c.warm,_,c.cold⟩

theorem addressModulo (n : Nat) : address n = n % 2 ^ 64 := by
  simp only [address,toUnsigned,modulus]
  omega

theorem subLe {a b : Nat} (short : a < 2 ^ 64) (short' : b < 2 ^ 64) : address (a - b) ≤ a ↔ b ≤ a := by
  refine ⟨fun below => Nat.le_of_not_lt fun less => ?_,fun less => ?_⟩
  · have wraps := addressWraps short' less
    omega
  · rw [addressSub short less]
    omega

theorem percentExact {d p : Nat} (short : d * p < 2 ^ 63) : percent d p = (d * p / 100 : Nat) := by
  have inner : wrap 64 d * p = (d * p : Nat) := by
    rcases Nat.eq_zero_or_pos p with rfl | pos
    · simp
    · have low : d ≤ d * p := Nat.le_mul_of_pos_right d pos
      rw [wrapSelf (by decide) ⟨by simp only [minSigned,half]; omega,by simp only [maxSigned,half]; omega⟩]
      push_cast
      rfl
  rw [percent,inner,wrapSelf (by decide) ⟨by simp only [minSigned,half]; omega,by simp only [maxSigned,half]; omega⟩]
  rfl

theorem baseBelow (shift base : Nat) : base ≤ roundUp shift (base + sizeofPointer) := by
  have pos : 0 < 2 ^ min shift 32 := Nat.two_pow_pos _
  have split := Nat.div_add_mod' (base + sizeofPointer + (2 ^ min shift 32 - 1)) (2 ^ min shift 32)
  have short := Nat.mod_lt (base + sizeofPointer + (2 ^ min shift 32 - 1)) pos
  unfold roundUp
  omega

section
variable {j k max : Nat} (inside : Addressed config base size) (power : config.codeCacheTrampolineAlignmentBytes = 2 ^ j)
  (mask : config.codeCacheHelperAlignmentMask = 2 ^ k - 1)

include inside in
theorem warmRoundUp : align (address (base + sizeofPointer)) (config.cache.alignment - 1) = roundUp config.cache.shift (base + sizeofPointer) := by
  have start := inside.start
  have pos : 0 < 2 ^ min config.cache.shift 32 := Nat.two_pow_pos _
  have same := @addressSelf (base + sizeofPointer) (by omega)
  push_cast at same
  rw [same]
  exact alignRoundUp start

include inside in
theorem topExact : address (base + size) = base + size := by
  have same := @addressSelf (base + size) inside.inside
  push_cast at same
  exact same

include mask in
theorem maskDown (n : Nat) : clear config.codeCacheHelperAlignmentMask n =
    n / (config.codeCacheHelperAlignmentMask + 1) * (config.codeCacheHelperAlignmentMask + 1) := by
  have pos : 0 < 2 ^ k := Nat.two_pow_pos k
  have whole : 2 ^ k - 1 + 1 = 2 ^ k := Nat.sub_add_cancel pos
  rw [mask,clearLow,whole]

include inside in
theorem helpersEnd (c : Computed config base size m max) (fit : config.trampolineCodeSize * config.numRuntimeHelpers ≤ base + size) :
    m.helperBase = clear config.codeCacheTrampolineAlignmentBytes (base + size - config.trampolineCodeSize * config.numRuntimeHelpers) := by
  have short := inside.inside
  have space := @addressSelf (config.trampolineCodeSize * config.numRuntimeHelpers) (by omega)
  push_cast at space
  rw [c.helperBase,c.helperTop,topExact inside,space,addressSub short fit]

include inside power in
theorem helpersDown (c : Computed config base size m max) (fit : config.trampolineCodeSize * config.numRuntimeHelpers ≤ base + size)
    (multiple : config.codeCacheTrampolineAlignmentBytes ∣ base + size - config.trampolineCodeSize * config.numRuntimeHelpers) :
    m.helperBase = belowHelpers config (base + size) := by
  rw [power] at multiple
  rw [helpersEnd inside c fit,belowHelpers,power,clearBitDown multiple]

theorem belowHelpersLe (top : Nat) : belowHelpers config top ≤ top := (Nat.div_mul_le_self _ _).trans (Nat.sub_le _ _)

include inside in
theorem trampolinesEnd (trampolines : config.trampolineCodeSize ≠ 0) (c : Computed config base size m max)
    (same : m.helperBase = belowHelpers config (base + size)) (low : base ≤ m.helperBase) (high : m.trampolineBase ≤ m.helperBase) :
    m.trampolineBase = belowTrampolines config base (base + size) := by
  have short := inside.inside
  have below := @belowHelpersLe config (base + size)
  rw [c.trampolineBase] at high
  rw [c.trampolineBase,belowTrampolines,if_neg trampolines]
  cases needs : config.needsMethodTrampolines with
  | false => simpa using same
  | true =>
      simp only [needs,Bool.not_true,Bool.false_eq_true,if_false,if_true] at high ⊢
      rw [← same] at below ⊢
      have product : (m.helperBase - base) * config.trampolineSpacePercentage < 2 ^ 63 :=
        Nat.lt_of_le_of_lt (Nat.mul_le_mul_right _ (by omega)) inside.product
      rw [← Int.ofNat_sub low,percentExact product] at high ⊢
      have part := (subLe (by omega) (by omega)).mp high
      exact addressSub (by omega) part

include inside in
theorem tempSpace (c : Computed config base size m max) (needs : config.needsMethodTrampolines = true) :
    address (config.trampolineCodeSize * max) = config.trampolineCodeSize * config.tempTrampolines size % 2 ^ 64 := by
  have whole := addressSub inside.inside (Nat.le_add_right base size)
  have modulo := addressModulo (config.trampolineCodeSize * config.tempTrampolines size)
  rw [Nat.cast_mul] at modulo
  rw [Nat.cast_add] at whole
  have most : max = config.tempTrampolines size := by
    rw [c.most,needs,c.helperTop,topExact inside]
    push_cast
    rw [whole,Nat.add_sub_cancel_left]
    rfl
  rw [most,modulo]

include inside power mask in
theorem wellFormedRoomy (trampolines : config.trampolineCodeSize ≠ 0) (c : Computed config base size m max) (well : WellFormed config m) :
    Roomy config base size := by
  obtain ⟨warm,cold,preLoaded,area⟩ := well
  have short := inside.inside
  rw [Trampolines,if_neg trampolines] at area
  obtain ⟨temp,found,low,-,equal,order,same,fit,multiple⟩ := area
  rw [c.temporary] at found
  obtain rfl := Option.some.inj found
  rw [c.helperTop,topExact inside] at fit
  have fit' : config.trampolineCodeSize * config.numRuntimeHelpers ≤ base + size := by omega
  rw [helpersEnd inside c fit',power,clearBitMultiple,← power] at multiple
  have helpers := helpersDown inside power c fit' multiple
  have start := baseBelow config.cache.shift base
  have reserved := c.reservation
  rw [c.warm,warmRoundUp inside] at warm
  have low' : m.trampolineBase ≤ m.helperBase := by simp only at order; omega
  have below := @belowHelpersLe config (base + size)
  have area := trampolinesEnd inside trampolines c helpers (by omega) low'
  have belowMask := clearBelow config.codeCacheHelperAlignmentMask m.trampolineBase
  rw [c.cold] at cold warm
  have room := (subLe (by rw [c.preLoaded]; omega) inside.preLoaded).mp cold
  rw [addressSub (by rw [c.preLoaded]; omega) room] at warm
  refine ⟨fit',fun _ => multiple,fun _ needs => ?_,?_⟩
  · simp only at order
    rw [c.allocation] at order
    have fits := (subLe (by omega) (addressBelow _)).mp order
    rwa [tempSpace inside c needs,helpers] at fits
  · rw [c.preLoaded,area,maskDown mask] at warm room
    omega

include inside power mask in
theorem roomyWellFormed (trampolines : config.trampolineCodeSize ≠ 0) (c : Computed config base size m max) (roomy : Roomy config base size) :
    WellFormed config m := by
  have short := inside.inside
  have helpers := helpersDown inside power c roomy.helpers (roomy.aligned trampolines)
  have below := @belowHelpersLe config (base + size)
  have start := baseBelow config.cache.shift base
  have order : m.trampolineAllocationMark ≤ m.helperBase := by
    rw [c.allocation]
    refine (subLe (by omega) (addressBelow _)).mpr ?_
    cases needs : config.needsMethodTrampolines with
    | true =>
        rw [tempSpace inside c needs,helpers]
        exact roomy.temporary trampolines needs
    | false =>
        rw [c.most,needs]
        simp [address,toUnsigned]
  have low : m.trampolineBase ≤ m.trampolineAllocationMark := by
    cases needs : config.needsMethodTrampolines with
    | true => exact Nat.le_of_not_le fun few => c.enough ⟨few,needs⟩
    | false =>
        have none : max = 0 := by rw [c.most,needs]; rfl
        have all := @addressSelf m.helperBase (by omega)
        rw [c.trampolineBase,c.allocation,needs,none]
        simp [address,toUnsigned] at all ⊢
        omega
  have room := roomy.room
  rw [← maskDown mask] at room
  have belowMask := clearBelow config.codeCacheHelperAlignmentMask (belowTrampolines config base (base + size))
  have belowArea : belowTrampolines config base (base + size) ≤ belowHelpers config (base + size) := by
    rw [belowTrampolines,if_neg trampolines]
    split
    · exact Nat.sub_le _ _
    · exact Nat.le_refl _
  have area := trampolinesEnd inside trampolines c helpers (by omega) (by omega)
  have cold : m.coldCodeAlloc = m.ccPreLoadedCodeTop - config.ccPreLoadedCodeSize := by
    rw [c.cold]
    refine addressSub ?_ ?_
    · rw [c.preLoaded,area]
      omega
    · rw [c.preLoaded,area]
      omega
  refine ⟨?_,by omega,?_,?_⟩
  · rw [cold,c.warm,warmRoundUp inside,c.preLoaded,area]
    omega
  · rw [c.preLoaded]
    exact clearBelow _ _
  · rw [Trampolines,if_neg trampolines]
    refine ⟨_,c.temporary,by rw [c.reservation]; exact low,c.reservation,rfl,order,rfl,?_,?_⟩
    · have fit := roomy.helpers
      have cleared := clearBelow config.codeCacheTrampolineAlignmentBytes (base + size - config.trampolineCodeSize * config.numRuntimeHelpers)
      rw [helpersEnd inside c fit,c.helperTop,topExact inside]
      omega
    · rw [helpersEnd inside c roomy.helpers,power,clearBitMultiple,← power]
      exact roomy.aligned trampolines

include inside mask in
theorem noTrampolines (none : config.trampolineCodeSize = 0)
    (ran : initializeCodeCache config available base segmentTop size = some (m,lost)) : WellFormed config m ↔ Roomy config base size := by
  have short := inside.inside
  unfold initializeCodeCache at ran
  extract_lets helperTop warmCodeAlloc top base' at ran
  rw [if_pos none] at ran
  split_ifs at ran
  obtain ⟨rfl,rfl⟩ := Prod.mk.inj (Option.some.inj ran)
  have helperTopIs : helperTop = base + size := topExact inside
  have warmIs : warmCodeAlloc = roundUp config.cache.shift (base + sizeofPointer) := warmRoundUp inside
  have below := clearBelow config.codeCacheHelperAlignmentMask helperTop
  have topIs : top = belowTrampolines config base (base + size) / (config.codeCacheHelperAlignmentMask + 1) * (config.codeCacheHelperAlignmentMask + 1) := by
    rw [belowTrampolines,if_pos none,← maskDown mask,← helperTopIs]
  have inverse : base' ≤ top ↔ config.ccPreLoadedCodeSize ≤ top := subLe (by omega) inside.preLoaded
  have difference : config.ccPreLoadedCodeSize ≤ top → base' = top - config.ccPreLoadedCodeSize := addressSub (by omega)
  constructor
  · rintro ⟨warm,cold,-,-⟩
    simp only at warm cold
    have less := inverse.mp cold
    have value := difference less
    refine ⟨by simp [none],fun some => absurd none some,fun some => absurd none some,?_⟩
    rw [← topIs]
    omega
  · intro roomy
    have room := roomy.room
    rw [← topIs] at room
    have value := difference (by omega)
    refine ⟨by simp only; omega,by simp only; omega,by simp only; omega,?_⟩
    rw [Trampolines,if_pos none]
    exact ⟨rfl,rfl,rfl,rfl⟩

end

-- The layout is as documented exactly where the segment is roomy.
theorem layoutWellFormed {j k : Nat} (inside : Addressed config base size) (power : config.codeCacheTrampolineAlignmentBytes = 2 ^ j)
    (mask : config.codeCacheHelperAlignmentMask = 2 ^ k - 1)
    (ran : initializeCodeCache config available base segmentTop size = some (m,lost)) : WellFormed config m ↔ Roomy config base size := by
  by_cases none : config.trampolineCodeSize = 0
  · exact noTrampolines inside mask none ran
  · obtain ⟨max,c⟩ := computed none ran
    exact ⟨wellFormedRoomy inside power mask none c,roomyWellFormed inside power mask none c⟩

end

def sampleConfig (trampolineCodeSize : Nat) : Config := ⟨CodeCache.sampleConfig,trampolineCodeSize,3,8,31,64,true,5,0,fun _ => 4⟩

theorem sampleAddressed : Addressed (sampleConfig 16) (2 ^ 20) (2 ^ 16) := ⟨by decide,by decide,by decide,by decide⟩

theorem layoutWellFormedSample : ∃ m lost, initializeCodeCache (sampleConfig 16) ⟨true,true,true,true⟩ (2 ^ 20) (2 ^ 20 + 2 ^ 16) (2 ^ 16) = some (m,lost) ∧
    WellFormed (sampleConfig 16) m := by
  obtain ⟨m,lost,ran⟩ : ∃ m lost,
    initializeCodeCache (sampleConfig 16) ⟨true,true,true,true⟩ (2 ^ 20) (2 ^ 20 + 2 ^ 16) (2 ^ 16) = some (m,lost) := ⟨_,_,rfl⟩
  have power : (sampleConfig 16).codeCacheTrampolineAlignmentBytes = 2 ^ 3 := rfl
  have mask : (sampleConfig 16).codeCacheHelperAlignmentMask = 2 ^ 5 - 1 := rfl
  exact ⟨m,lost,ran,(layoutWellFormed sampleAddressed power mask ran).mpr ⟨by decide,by decide,by decide,by decide⟩⟩

-- Three helpers of 12 bytes end four bytes after a multiple of eight.
theorem helpersMisaligned : ∃ m lost, initializeCodeCache (sampleConfig 12) ⟨true,true,true,true⟩ (2 ^ 20) (2 ^ 20 + 2 ^ 16) (2 ^ 16) = some (m,lost) ∧
    ¬(sampleConfig 12).codeCacheTrampolineAlignmentBytes ∣ m.helperBase ∧ ¬WellFormed (sampleConfig 12) m := by
  refine ⟨_,_,rfl,by decide,fun well => ?_⟩
  have area := well.trampolines
  rw [Trampolines,if_neg (by decide)] at area
  obtain ⟨temp,-,-,-,-,-,-,-,multiple⟩ := area
  revert multiple
  decide

end OmrCompiler.CodeCacheInitialize
