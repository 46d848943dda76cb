/-
What can be hashed and proven. A `Provable` gives the root of a value and the proof of any node
below it; the combinators build those of vectors, lists, containers and unions from those of their
parts. Lists and unions are mixed with a chunk to their right: the content lies under gindex 2 and
the chunk is gindex 3.
-/
import SszMerkle.Node.Hash
import SszMerkle.Opening

namespace SszMerkle

/-- A value that has a root and can prove the nodes below it. -/
structure Provable where
  root : TreeM Root
  prove : Gindex → TreeM Proof

namespace Provable

/-- A chunk, which has nothing below it. -/
def chunk (c : Root) : Provable where
  root := return c
  prove g := if g.isRoot then return ⟨[], c⟩ else throw (.navigation g.val g.depth)

/-- A tree of nodes. -/
def node (h : Hasher) (n : Node) : Provable where
  root := n.root h
  prove := n.prove h

/-- A tree over leaves that have nothing below them. -/
def flat (h : Hasher) (count limit : Nat) (leaf : Nat → TreeM Root) : Provable where
  root := merkleize h count limit leaf
  prove g := openTree h count limit g leaf fun _ _ => return none

/-- The root of part `i`. -/
def rootAt (parts : List Provable) (i : Nat) : TreeM Root :=
  match parts[i]? with
  | some p => p.root
  | none => throw (.breach (.element i))

/-- The proof of a node in part `i`. -/
def proveAt (parts : List Provable) (i : Nat) (g : Gindex) : TreeM (Option Proof) :=
  match parts[i]? with
  | some p => some <$> p.prove g
  | none => throw (.breach (.element i))

/-- A tree with room for `limit` parts. -/
def parts (h : Hasher) (limit : Nat) (ps : List Provable) : Provable where
  root := merkleize h ps.length limit (rootAt ps)
  prove g := openTree h ps.length limit g (rootAt ps) (proveAt ps)

/-- The root of a container. Without fields it is zero, and one field is its own root. -/
def containerRoot (h : Hasher) : List Provable → TreeM Root
  | [] => return .zero
  | [p] => p.root
  | [p, q] => do
    let a ← p.root
    let b ← q.root
    return h.combine a b
  | ps => merkleize h ps.length ps.length (rootAt ps)

/-- A container of fields. -/
def container (h : Hasher) (fields : List Provable) : Provable where
  root := containerRoot h fields
  prove := (parts h fields.length fields).prove

/-- A vector of elements. -/
def vector (h : Hasher) (elements : List Provable) : Provable := parts h elements.length elements

/-- A content tree with a chunk mixed in. -/
def mixed (h : Hasher) (content : Provable) (mixin : Root) : Provable where
  root := return h.combine (← content.root) mixin
  prove g := do
    match g.tail? with
    | none =>
      let p ← content.prove .root
      return ⟨[], h.combine p.root mixin⟩
    | some inner =>
      if g.startsLeft then
        let p ← content.prove inner
        return p.mixIn h mixin
      else if inner.isRoot then
        let p ← content.prove .root
        return ⟨[p.root], h.combine p.root mixin⟩
      else throw (.navigation g.val inner.depth)

/-- A list of elements with room for `limit`. -/
def list (h : Hasher) (limit : Nat) (elements : List Provable) : Provable :=
  mixed h (parts h limit elements) (Chunk.ofLength elements.length)

/-- A vector of packed values, down to its chunks. -/
def basicVector (h : Hasher) (t : BasicType) (vs : List t.Carrier) : Provable :=
  let chunks := Chunk.countOf t vs.length
  flat h chunks chunks fun i => return Chunk.packed t vs i

/-- A list of packed values with room for `limit` of them, down to its chunks. -/
def basicList (h : Hasher) (t : BasicType) (limit : Nat) (vs : List t.Carrier) : Provable :=
  mixed h
    (flat h (Chunk.countOf t vs.length) (Chunk.countOf t limit) fun i => return Chunk.packed t vs i)
    (Chunk.ofLength vs.length)

/-- A bitlist with room for `limit` bits: its content without the delimiter, and its length. -/
def bitlist (h : Hasher) (limit : Nat) (bits : List UInt8) : Provable :=
  let size := Bitlist.size bits
  mixed h
    (flat h (Chunk.countOfBits size) (Chunk.countOfBits limit) fun i =>
      return Chunk.ofBitlist bits size i)
    (Chunk.ofLength size)

/-- One variant of a union. -/
def union (h : Hasher) (selector : UInt8) (value : Provable) : Provable :=
  mixed h value (Chunk.ofSelector selector)

end Provable

end SszMerkle
