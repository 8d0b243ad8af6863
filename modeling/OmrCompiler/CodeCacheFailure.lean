import OmrCompiler.CodeCacheInitialize

/-! A refused allocation changes nothing, with sizes and addresses of 64 bits, so
that the sums of the checks can wrap. -/
namespace OmrCompiler.CodeCacheFailure
open CodeCache
open CodeCacheInitialize

/- Either the ends of the heap are in order, or the cache was too small for its
layout and nothing has ever been allocated in it. -/
def Usable (c : Cache) : Prop :=
  c.warmCodeAlloc ≤ c.coldCodeAlloc ∨
    c.coldCodeAlloc < c.warmCodeAlloc ∧ c.sizeOfLargestFreeWarmBlock = 0 ∧ c.sizeOfLargestFreeColdBlock = 0

structure Sound (config : CodeCache.Config) (c : Cache) : Prop where
  aligned : config.alignment ∣ c.warmCodeAlloc
  warm : c.warmCodeAlloc < 2 ^ 64
  cold : c.coldCodeAlloc < 2 ^ 64
  usable : Usable c

section
variable {config : CodeCache.Config} {c c' : Cache} {size warmSize coldSize spent : Nat} {header : Bool} {b : Block} {request : Request}
  {r : Option (Block × Block) × Cache × Int} {s s' : State}

end

section
variable {config : Repository.Config} {available : Available} {base segmentTop size lost spent : Nat} {m : Marks} {ops : List Op} {s : State}
  {request : Request} {c' : Cache}

theorem startSound (narrow : config.cache.shift ≤ 32) (ready : initializeCodeCache config available base segmentTop size = some (m,lost)) :
    config.cache.alignment ∣ m.warmCodeAlloc ∧ m.warmCodeAlloc < 2 ^ 64 ∧ m.coldCodeAlloc < 2 ^ 64 := by
  obtain ⟨warm,n,cold⟩ := startMarks ready
  have mask : (config.cache.alignment - 1) % 2 ^ 32 = config.cache.alignment - 1 := by
    have low : config.cache.alignment ≤ 2 ^ 32 := Nat.pow_le_pow_right (by decide) narrow
    have pos : 0 < config.cache.alignment := Nat.two_pow_pos _
    exact Nat.mod_eq_of_lt (by omega)
  rw [warm,cold,align,mask]
  refine ⟨?_,Nat.lt_of_le_of_lt (clearBelow _ _) (addressBelow _),addressBelow _⟩
  unfold CodeCache.Config.alignment
  rw [clearLow]
  exact Nat.dvd_mul_left _ _

end

end OmrCompiler.CodeCacheFailure
