-- Byte strings: little-endian words, padding, overwriting a range and finding one string inside
-- another.

namespace Backend

/-- The lowest `n` bytes of a word, the least significant first. -/
def littleEndian : Nat → Nat → List UInt8
  | 0, _ => []
  | n + 1, v => UInt8.ofNat v :: littleEndian n (v / 256)

theorem length_littleEndian (n v : Nat) : (littleEndian n v).length = n := by
  induction n generalizing v with
  | zero => rfl
  | succ n ih => simp [littleEndian, ih]

/-- The bytes followed by zeros up to a length. -/
def padTo (n : Nat) (bytes : List UInt8) : List UInt8 :=
  bytes ++ List.replicate (n - bytes.length) 0

/-- The bytes with those from `start` on replaced by `patch`, as far as they reach. -/
def overwrite (bytes : List UInt8) (start : Nat) (patch : List UInt8) : List UInt8 :=
  bytes.take start ++ patch.take (bytes.length - start) ++ bytes.drop (start + patch.length)

/-- The position of the first occurrence of `part`, counted from `start`. -/
def indexOfFrom? (part : List UInt8) : Nat → List UInt8 → Option Nat
  | start, [] => if part.isEmpty then some start else none
  | start, b :: rest =>
    if part.isPrefixOf (b :: rest) then some start else indexOfFrom? part (start + 1) rest

/-- The position of the first occurrence of `part`. -/
def indexOf? (part bytes : List UInt8) : Option Nat := indexOfFrom? part 0 bytes

/-- The least multiple of `a` that is at least `n`. -/
def alignUp (n a : Nat) : Nat := if a ≤ 1 then n else (n + a - 1) / a * a

end Backend
