/-
Nodes of persistent binary trees. A node is a leaf, which holds a chunk or the root of a tree that
is not spelled out, or a pair of nodes. Nodes never change, and trees share them: a node carries
an identity, so that two trees can be told to hold the very same node and not just an equal one.
An all-zero tree is never built: one leaf for each hasher and depth stands in for it.
-/
import SszMerkle.Gindex
import SszMerkle.Hasher

namespace SszMerkle

/-- What tells a node from every other. -/
inductive Ident where
  /-- The stand-in of a hasher for the zero tree of a depth. -/
  | zero (hasher : String) (depth : Nat)
  /-- A node made to order, by its serial number. -/
  | made (serial : Nat)
deriving DecidableEq

/-- A tree node. -/
inductive Node where
  | leaf (ident : Ident) (chunk : Root)
  | pair (serial : Nat) (left right : Node)

/-- The leaf that stands in for the all-zero tree of depth `d`, known up to depth 64. -/
def Hasher.zeroLeaf (h : Hasher) (d : Nat) : Result Node := do
  let chunk ← h.zero d
  return .leaf (.zero h.name d) chunk

namespace Node

def ident : Node → Ident
  | leaf i _ => i
  | pair s _ _ => .made s

/-- Whether two nodes are one. -/
def same (a b : Node) : Bool := a.ident == b.ident

/-- The root of a tree by its structure alone. -/
def digest (h : Hasher) : Node → Root
  | leaf _ c => c
  | pair _ l r => h.combine (l.digest h) (r.digest h)

/-- The node that a path leads to. `target` is what the path was taken from, and is only
reported. -/
def follow (target : Gindex) : (path : List Bool) → Node → Result Node
  | [], n => .ok n
  | right :: rest, pair _ l r => follow target rest (if right then r else l)
  | _ :: rest, leaf _ _ => .error (.navigation target.val (rest.length + 1))

/-- The node at a gindex. -/
def get (n : Node) (g : Gindex) : Result Node := n.follow g g.path

end Node

end SszMerkle
