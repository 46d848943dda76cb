/-
Hashing trees and proving their nodes. Every pair is hashed once: its root is kept in the store,
and a tree that shares nodes costs no more than the nodes it has.
-/
import SszMerkle.Node.Store
import SszMerkle.Proof

namespace SszMerkle.Node

/-- The root of a tree. The root kept for a pair is taken as it is. -/
def root (h : Hasher) : Node → StateM Store Root
  | leaf _ c => return c
  | pair serial l r => do
    match ← Store.kept serial with
    | some kept => return kept
    | none =>
      let a ← l.root h
      let b ← r.root h
      Store.keep serial (h.combine a b)

/-- The root of a tree with the halves of its top `levels` hashed apart. `rightFirst` says of each
pair which half comes first. -/
def rootInHalves (h : Hasher) (rightFirst : Nat → Bool) :
    (levels : Nat) → Node → StateM Store Root
  | _, leaf _ c => return c
  | 0, n => n.root h
  | levels + 1, pair serial l r => do
    match ← Store.kept serial with
    | some kept => return kept
    | none =>
      if rightFirst serial then
        let b ← r.rootInHalves h rightFirst levels
        let a ← l.rootInHalves h rightFirst levels
        Store.keep serial (h.combine a b)
      else
        let a ← l.rootInHalves h rightFirst levels
        let b ← r.rootInHalves h rightFirst levels
        Store.keep serial (h.combine a b)

/-- The zero roots beside a path through an all-zero tree, lowest first. -/
def zeroBranch (h : Hasher) (depth : Nat) : Result (List Root) := (List.range depth).mapM h.zero

/-- The roots beside a path, lowest first. A leaf on the way must stand in for the zero tree of the
depth that is left. -/
def branch (h : Hasher) (target : Gindex) : (path : List Bool) → Node → TreeM (List Root)
  | [], _ => return []
  | right :: rest, pair _ l r => do
    let sibling ← (if right then l else r).root h
    let below ← (if right then r else l).branch h target rest
    return below ++ [sibling]
  | _ :: rest, leaf _ c => do
    let zero ← h.zero (rest.length + 1)
    if c ≠ zero then throw (.navigation target.val (rest.length + 1))
    zeroBranch h (rest.length + 1)

/-- The proof of the node at a gindex. -/
def prove (h : Hasher) (n : Node) (g : Gindex) : TreeM Proof := do
  let branch ← n.branch h g g.path
  let root ← n.root h
  return ⟨branch, root⟩

end SszMerkle.Node
