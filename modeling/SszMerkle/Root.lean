/-
Roots, the 32-byte values a Merkle tree is made of: chunks at its leaves, digests above them.
-/

namespace SszMerkle

/-- Thirty-two bytes: a chunk at the bottom of a tree, or the digest of two such values. -/
structure Root where
  bytes : Vector UInt8 32
deriving DecidableEq

namespace Root

/-- The chunk of thirty-two zero bytes. -/
def zero : Root := ⟨Vector.replicate 32 0⟩

instance : Inhabited Root := ⟨zero⟩

/-- The first thirty-two bytes of a list, with zero bytes where it is shorter. -/
def ofBytes (bs : List UInt8) : Root := ⟨Vector.ofFn fun k => bs.getD k 0⟩

/-- The bytes, first to last. -/
def toList (r : Root) : List UInt8 := r.bytes.toList

@[simp] theorem length_toList (r : Root) : r.toList.length = 32 := by simp [toList]

end Root

end SszMerkle
