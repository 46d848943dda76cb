/-
Hash functions for Merkle trees. A hasher combines two roots into the root above them and carries
the roots of the all-zero trees of depth 0 to 64, which it computes once.
-/
import SszMerkle.Failure
import SszMerkle.Digest.Sha256
import SszMerkle.Digest.Blake3

namespace SszMerkle

/-- The root of the tree of depth `d` whose leaves are all zero. -/
def zeroRoot (combine : Root → Root → Root) : (d : Nat) → Root
  | 0 => .zero
  | d + 1 =>
    let below := zeroRoot combine d
    combine below below

/-- The roots of the all-zero trees of depth 0 to 64. -/
structure ZeroTable (combine : Root → Root → Root) where
  roots : Vector Root 65
  getElem_roots : ∀ d (h : d < 65), roots[d] = zeroRoot combine d

namespace ZeroTable

/-- The first `n + 1` roots, each made from the one before. -/
def grow (combine : Root → Root → Root) : (n : Nat) → Vector Root (n + 1)
  | 0 => #v[.zero]
  | n + 1 =>
    let table := grow combine n
    table.push (combine table.back table.back)

theorem getElem_grow (combine : Root → Root → Root) :
    ∀ n d (h : d < n + 1), (grow combine n)[d] = zeroRoot combine d
  | 0, 0, _ => rfl
  | n + 1, d, h => by
    have last : (grow combine n).back = zeroRoot combine n := by
      rw [Vector.back_eq_getElem]; exact getElem_grow combine n n (by omega)
    by_cases e : d = n + 1
    · subst e; simp [grow, last, zeroRoot]
    · have lt : d < n + 1 := by omega
      simpa [grow, Vector.getElem_push, lt] using getElem_grow combine n d lt

/-- The table of a function. -/
def build (combine : Root → Root → Root) : ZeroTable combine :=
  ⟨grow combine 64, getElem_grow combine 64⟩

/-- The table as it is shown to a developer: how many roots, and the last. -/
def describe {combine : Root → Root → Root} (t : ZeroTable combine) : String :=
  "ZeroHashes \x7b depths: 65, top: " ++ t.roots[64].toHex ++ " \x7d"

end ZeroTable

/-- A hash function for trees. -/
structure Hasher where
  /-- Hashers of one name share their stand-ins for zero trees. -/
  name : String
  /-- The root above two roots. -/
  combine : Root → Root → Root
  /-- The digest of any byte string. -/
  digest : List UInt8 → Root
  zeros : ZeroTable combine

namespace Hasher

/-- The hasher that digests the sixty-four bytes of two roots. -/
def ofDigest (name : String) (digest : List UInt8 → Root) : Hasher :=
  let combine l r := digest (l.toList ++ r.toList)
  ⟨name, combine, digest, .build combine⟩

def sha256 : Hasher := ofDigest "sha256" Digest.Sha256.digest

def blake3 : Hasher := ofDigest "blake3" Digest.Blake3.digest

/-- The root of the all-zero tree of depth `d`, known up to depth 64. -/
def zero (h : Hasher) (d : Nat) : Result Root :=
  if lt : d < 65 then .ok h.zeros.roots[d] else .error (.breach (.zeroDepth d))

theorem zero_eq {h : Hasher} {d : Nat} (le : d ≤ 64) : h.zero d = .ok (zeroRoot h.combine d) := by
  have lt : d < 65 := by omega
  simp [zero, lt, h.zeros.getElem_roots]

end Hasher

end SszMerkle
