/-
Merkle proofs. A proof of a node holds the sibling of every node on the way from it up to the
root, and the root; it is checked by folding the node's own root upward through those siblings.
-/
import SszMerkle.Chunk
import SszMerkle.Gindex
import SszMerkle.Hasher

namespace SszMerkle

/-- Folds a root upward from a node through the siblings on its way. -/
def foldBranch (h : Hasher) : (branch : List Root) → Gindex → Root → Root
  | [], _, node => node
  | sibling :: rest, g, node =>
    foldBranch h rest g.parent
      (if g.isLeftChild then h.combine node sibling else h.combine sibling node)

/-- Whether the branch leads from `leaf` at `g` to `root`. A branch of another length than the depth
of `g` leads nowhere. -/
def verifyBranch (h : Hasher) (branch : List Root) (g : Gindex) (root leaf : Root) : Bool :=
  branch.length == g.depth && foldBranch h branch g leaf == root

/-- The way from a node to its root. -/
structure Proof where
  /-- One sibling a level, the node's own first. -/
  branch : List Root
  root : Root
deriving DecidableEq

namespace Proof

/-- The depth of the nodes that the proof can be for. -/
def depth (p : Proof) : Nat := p.branch.length

/-- The bytes that the proof takes. -/
def size (p : Proof) : Nat := (p.branch.length + 1) * 32

/-- Whether `leaf` sits at `g` under the proof's root. -/
def verify (h : Hasher) (p : Proof) (g : Gindex) (leaf : Root) : Bool :=
  verifyBranch h p.branch g p.root leaf

/-- The root that the branch gives for `leaf` at `g`. -/
def rootFor (h : Hasher) (p : Proof) (g : Gindex) (leaf : Root) : Result Root :=
  if p.branch.length = g.depth then .ok (foldBranch h p.branch g leaf)
  else .error (.invalidProof (.branchLength p.branch.length g.val g.depth))

/-- The proof of the same node under the pair of the root and a chunk to its right. -/
def mixIn (h : Hasher) (p : Proof) (chunk : Root) : Proof :=
  ⟨p.branch ++ [chunk], h.combine p.root chunk⟩

/-- The proof of a node of a list's content, under the root that its length is mixed into. -/
def mixInLength (h : Hasher) (p : Proof) (length : Nat) : Proof := p.mixIn h (Chunk.ofLength length)

/-- The proof of a node of a union's value, under the root that its selector is mixed into. -/
def mixInSelector (h : Hasher) (p : Proof) (selector : UInt8) : Proof :=
  p.mixIn h (Chunk.ofSelector selector)

/-- Extends a proof of the node `proven` downward by a proof of a node below it. -/
def extend (p inner : Proof) (proven : Root) : Result Proof :=
  if inner.root = proven then .ok ⟨inner.branch ++ p.branch, p.root⟩
  else .error (.invalidProof (.rootMismatch inner.root proven))

end Proof

/-- A root with a length mixed in. -/
def mixInLength (h : Hasher) (root : Root) (length : Nat) : Root :=
  h.combine root (Chunk.ofLength length)

/-- A root with a selector mixed in. -/
def mixInSelector (h : Hasher) (root : Root) (selector : UInt8) : Root :=
  h.combine root (Chunk.ofSelector selector)

end SszMerkle
