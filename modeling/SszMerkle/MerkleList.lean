/-
Lists that live in a tree: the content under gindex 2, the length chunk at gindex 3. The content
starts as one stand-in for the zero tree of the limit's depth, and an append spells out only the
path to the new element.
-/
import SszMerkle.LevelView

namespace SszMerkle

/-- A list of nodes with room for `limit` of them. -/
structure MerkleList where
  hasher : Hasher
  view : LevelView
  limit : Nat
  length : Nat

namespace MerkleList

/-- The place of the length chunk. -/
def lengthGindex : Gindex := ⟨3, by decide⟩

/-- The tree with the length chunk replaced. -/
def withLength (backing : Node) (length : Nat) : TreeM Node := do
  let graft ← backing.graftAt lengthGindex
  let chunk ← Node.newLeaf (Chunk.ofLength length)
  graft.apply chunk

/-- The list without elements. -/
def empty (h : Hasher) (limit : Nat) : TreeM MerkleList := do
  let depth := Word.depthFor limit
  let content ← h.zeroLeaf depth
  let chunk ← h.zeroLeaf 0
  let backing ← Node.newPair content chunk
  return ⟨h, ⟨backing, depth + 1⟩, limit, 0⟩

/-- The list that a tree holds. The length is read from its chunk and must keep to the limit. -/
def ofBacking (h : Hasher) (backing : Node) (limit : Nat) : Result MerkleList := do
  match ← backing.get lengthGindex with
  | .pair _ _ _ => .error (.notALeaf lengthGindex.val)
  | .leaf _ c =>
    let length := Chunk.lengthOf c
    if limit < length then .error (.overCapacity length limit)
    else .ok ⟨h, ⟨backing, Word.depthFor limit + 1⟩, limit, length⟩

/-- The tree that holds the list. -/
def backing (l : MerkleList) : Node := l.view.backing

/-- Refuses an index past the last element. -/
def checkIndex (l : MerkleList) (i : Nat) : Result Unit :=
  if l.length ≤ i then .error (.outOfBounds i l.length) else .ok ()

/-- Element `i`. -/
def get (l : MerkleList) (i : Nat) : Result Node := do
  l.checkIndex i
  l.view.get i

/-- The list with element `i` replaced. -/
def set (l : MerkleList) (i : Nat) (n : Node) : TreeM MerkleList := do
  l.checkIndex i
  let view ← l.view.set i n
  return { l with view }

/-- The list with one more element. -/
def append (l : MerkleList) (n : Node) : TreeM MerkleList := do
  if l.limit ≤ l.length then
    let length ← Word.next l.length
    throw (.overCapacity length l.limit)
  let g ← Gindex.ofPosition l.length l.view.depth
  let graft ← l.backing.graftInto l.hasher g
  let grown ← graft.apply n
  let backing ← withLength grown (l.length + 1)
  return { l with view := { l.view with backing }, length := l.length + 1 }

/-- The last element, and the list without it; its place is zero again. -/
def pop (l : MerkleList) : TreeM (Node × MerkleList) := do
  if l.length = 0 then throw (.outOfBounds 0 0)
  let last := l.length - 1
  let g ← Gindex.ofPosition last l.view.depth
  let popped ← l.backing.get g
  let graft ← l.backing.graftAt g
  let zero ← l.hasher.zeroLeaf 0
  let cleared ← graft.apply zero
  let backing ← withLength cleared last
  return (popped, { l with view := { l.view with backing }, length := last })

/-- The root of the list, its length mixed in. -/
def root (l : MerkleList) : StateM Store Root := l.view.root l.hasher

end MerkleList

end SszMerkle
