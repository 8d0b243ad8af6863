import Mathlib.Algebra.Ring.Nat

/-! Numbers as bytes, the lowest byte first. -/
namespace OmrCompiler.LittleEndian

abbrev Byte := BitVec 8

def bytesOf : Nat → Nat → List Byte
  | 0,_ => []
  | k + 1,n => BitVec.ofNat 8 n :: bytesOf k (n / 256)

def valueOf : List Byte → Nat
  | [] => 0
  | b::rest => b.toNat + 256 * valueOf rest

theorem lengthBytes (k n : Nat) : (bytesOf k n).length = k := by
  induction k generalizing n with
  | zero => rfl
  | succ k ih => rw [bytesOf,List.length_cons,ih]

theorem valueBytes (k n : Nat) : valueOf (bytesOf k n) = n % 256 ^ k := by
  induction k generalizing n with
  | zero => rw [Nat.pow_zero,Nat.mod_one]; rfl
  | succ k ih =>
      have low : (BitVec.ofNat 8 n).toNat = n % 256 := BitVec.toNat_ofNat n 8
      rw [bytesOf,valueOf,ih,low,Nat.pow_succ',Nat.mod_mul]

-- The first bytes and what is left.
def take (k : Nat) (bytes : List Byte) : Option (List Byte × List Byte) :=
  if k ≤ bytes.length then some (bytes.take k,bytes.drop k) else none

theorem takeAppend (bytes more : List Byte) : take bytes.length (bytes ++ more) = some (bytes,more) := by
  rw [take,if_pos (by simp),List.take_left,List.drop_left]

def read (k : Nat) (bytes : List Byte) : Option (Nat × List Byte) := do
  let (first,rest) ← take k bytes
  some (valueOf first,rest)

theorem readBytes {k n : Nat} (fits : n < 256 ^ k) (more : List Byte) : read k (bytesOf k n ++ more) = some (n,more) := by
  have taken := takeAppend (bytesOf k n) more
  rw [lengthBytes] at taken
  rw [read,taken]
  change some (valueOf (bytesOf k n),more) = _
  rw [valueBytes,Nat.mod_eq_of_lt fits]

end OmrCompiler.LittleEndian
