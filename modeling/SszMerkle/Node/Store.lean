/-
The store behind all nodes: it records the nodes that are made, in order, and keeps for each pair
the root that was first computed for it. That root is kept for good, whichever hasher asked for
it.
-/
import SszMerkle.Node
import Std.Data.HashMap

namespace SszMerkle

/-- The nodes made so far, each at its serial number, and the roots of the pairs that
were hashed. -/
structure Store where
  made : Array Node
  roots : Std.HashMap Nat Root

/-- Work on trees: it may make nodes and hash them, and it may fail. What it made and hashed before
it failed stays. -/
abbrev TreeM := ExceptT Failure (StateM Store)

namespace Store

/-- No node made yet. -/
def empty : Store := ⟨#[], ∅⟩

/-- The root kept for a node; a leaf has none. -/
def cached (s : Store) : Node → Option Root
  | .leaf _ _ => none
  | .pair serial _ _ => s.roots[serial]?

/-- Makes the node that `build` gives for the next serial number. -/
def make (build : Nat → Node) : StateM Store Node :=
  modifyGet fun s =>
    let n := build s.made.size
    (n, { s with made := s.made.push n })

/-- The root kept under a serial number. -/
def kept (serial : Nat) : StateM Store (Option Root) := return (← get).roots[serial]?

/-- Keeps a root for a pair that has none, and answers with the root that is kept. -/
def keep (serial : Nat) (root : Root) : StateM Store Root :=
  modifyGet fun s => match s.roots[serial]? with
    | some kept => (kept, s)
    | none => (root, { s with roots := s.roots.insert serial root })

end Store

namespace Node

/-- A new leaf. -/
def newLeaf (chunk : Root) : StateM Store Node := Store.make fun serial => leaf (.made serial) chunk

/-- A new pair of two nodes. -/
def newPair (left right : Node) : StateM Store Node :=
  Store.make fun serial => pair serial left right

end Node

end SszMerkle
