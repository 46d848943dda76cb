/-
Sixty-four-bit words, held as natural numbers below `bound`: their bit counts, the depth of the
tree that has room for a number of leaves, and their bytes.
-/
import SszMerkle.Failure

namespace SszMerkle.Word

/-- The first number past the words. -/
def bound : Nat := 0x10000000000000000

/-- A power of two. -/
def pow2 (d : Nat) : Nat := Nat.pow 2 d

theorem pow2_lt_bound {d : Nat} (h : d < 64) : pow2 d < bound :=
  show 2 ^ d < 2 ^ 64 from Nat.pow_lt_pow_right (by decide) h

/-- The next word. After the last there is none, and checked arithmetic halts. -/
def next (n : Nat) : Result Nat :=
  if n + 1 < bound then .ok (n + 1) else .error (.breach .overflow)

/-- How many bits are needed to write `v`; none for zero. -/
def bitLength (v : Nat) : Nat := if v = 0 then 0 else v.log2 + 1

/-- The zeros in front of the highest one when `v` is written with all sixty-four bits. -/
def leadingZeros (v : Nat) : Nat := 64 - bitLength v

/-- The position of the highest one of `v`, and 0 for zero. -/
def topBit (v : Nat) : Nat := v.log2

/-- The least depth whose tree has room for `v` leaves. -/
def depthFor (v : Nat) : Nat := if v ≤ 1 then 0 else (v - 1).log2 + 1

/-- Whether exactly one bit of `v` is set. -/
def isPowerOfTwo (v : Nat) : Bool := v != 0 && pow2 v.log2 == v

/-- The first `size` little-endian bytes of `v`. -/
def toBytes : (v size : Nat) → List UInt8
  | _, 0 => []
  | v, n + 1 => UInt8.ofNat v :: toBytes (v / 256) n

/-- All eight bytes of a word, most significant first. -/
def bytesBE (v : Nat) : List UInt8 := (toBytes v 8).reverse

/-- The number that little-endian bytes write. -/
def ofBytes (bs : List UInt8) : Nat := bs.foldr (fun b v => b.toNat + 256 * v) 0

@[simp] theorem length_toBytes (v size : Nat) : (toBytes v size).length = size := by
  induction size generalizing v with
  | zero => rfl
  | succ n ih => rw [toBytes, List.length_cons, ih]

end SszMerkle.Word
