/-
Views of a tree as the row of nodes at one depth, addressed by position.
-/
import SszMerkle.Chunk
import SszMerkle.Node.Graft
import SszMerkle.Node.Hash

namespace SszMerkle

/-- A tree and the depth of the nodes to address. -/
structure LevelView where
  backing : Node
  depth : Nat

namespace LevelView

/-- The node at position `i`. -/
def get (v : LevelView) (i : Nat) : Result Node := do
  let g ← Gindex.ofPosition i v.depth
  v.backing.get g

/-- The view with the node at position `i` replaced. -/
def set (v : LevelView) (i : Nat) (n : Node) : TreeM LevelView := do
  let g ← Gindex.ofPosition i v.depth
  let graft ← v.backing.graftAt g
  let backing ← graft.apply n
  return { v with backing }

/-- The chunk at position `i`. -/
def chunkAt (v : LevelView) (i : Nat) : Result Root := do
  let g ← Gindex.ofPosition i v.depth
  match ← v.backing.get g with
  | .leaf _ c => return c
  | .pair _ _ _ => .error (.notALeaf g.val)

/-- The chunks of `n` positions from `i` on. -/
def chunksFrom (v : LevelView) (i : Nat) : (n : Nat) → Result (List Root)
  | 0 => .ok []
  | n + 1 => do
    let c ← v.chunkAt i
    let cs ← v.chunksFrom (i + 1) n
    return c :: cs

/-- The first `size` bytes of the chunks, left to right. -/
def read (v : LevelView) (size : Nat) : Result (List UInt8) := do
  let chunks ← v.chunksFrom 0 (Chunk.countOfBytes size)
  return (chunks.flatMap Root.toList).take size

/-- The root of the whole tree. -/
def root (h : Hasher) (v : LevelView) : StateM Store Root := v.backing.root h

end LevelView

end SszMerkle
