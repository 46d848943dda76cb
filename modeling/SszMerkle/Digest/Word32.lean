/-
What the two digests share: rotation of 32-bit words and the constants they start from.
-/

namespace SszMerkle.Digest

/-- Rotation to the right by `k` bits, `0 < k < 32`. -/
def rotateRight (x k : UInt32) : UInt32 := (x >>> k) ||| (x <<< (32 - k))

/-- The first thirty-two bits of the fractions of the square roots of the first eight primes. -/
def squareRoots : Vector UInt32 8 :=
  #v[0x6a09e667, 0xbb67ae85, 0x3c6ef372, 0xa54ff53a, 0x510e527f, 0x9b05688c, 0x1f83d9ab, 0x5be0cd19]

end SszMerkle.Digest
