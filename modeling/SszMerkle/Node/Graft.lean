/-
Grafts: how a tree is rebuilt around a replaced node. Going down to a node, the sibling passed at
each level is recorded; put around another node, those siblings give a new tree that shares all
else with the old one.
-/
import SszMerkle.Node.Store

namespace SszMerkle

/-- The way from a replaced node up to its root. -/
inductive Graft where
  /-- The node is the root. -/
  | identity
  /-- The node is the left child beside `right`. -/
  | asLeft (right : Node)
  /-- The node is the right child beside `left`. -/
  | asRight (left : Node)
  /-- `inner` first, then `outer` around its result. -/
  | seq (inner outer : Graft)

namespace Graft

/-- `inner`, then `outer`; an identity on either side is left out. -/
def comp (inner outer : Graft) : Graft :=
  match inner, outer with
  | identity, outer => outer
  | inner, identity => inner
  | inner, outer => seq inner outer

/-- The new root over a node. -/
def apply : Graft → Node → StateM Store Node
  | identity, n => return n
  | asLeft right, n => Node.newPair n right
  | asRight left, n => Node.newPair left n
  | seq inner outer, n => do
    let m ← inner.apply n
    outer.apply m

/-- The levels between the node and the root. -/
def depth : Graft → Nat
  | identity => 0
  | asLeft _ => 1
  | asRight _ => 1
  | seq inner outer => inner.depth + outer.depth

/-- The graft of the steps down a path, the root's first. -/
def ofSteps (steps : List Graft) : Graft := steps.foldl (fun upper step => comp step upper) identity

/-- The step to a child of a pair keeps the other child. -/
def step (right : Bool) (l r : Node) : Graft := if right then asRight l else asLeft r

end Graft

namespace Node

/-- The steps down a path of pairs. -/
def stepsTo (target : Gindex) : (path : List Bool) → Node → Result (List Graft)
  | [], _ => .ok []
  | right :: rest, pair _ l r => do
    let steps ← (if right then r else l).stepsTo target rest
    return Graft.step right l r :: steps
  | _ :: rest, leaf _ _ => .error (.navigation target.val (rest.length + 1))

/-- The graft that replaces the node at a gindex. -/
def graftAt (n : Node) (g : Gindex) : Result Graft := do
  let steps ← n.stepsTo g g.path
  return .ofSteps steps

/-- The steps down a path through an all-zero tree: every sibling is a stand-in. -/
def zeroSteps (h : Hasher) : (path : List Bool) → Result (List Graft)
  | [] => .ok []
  | right :: rest => do
    let sibling ← h.zeroLeaf rest.length
    let steps ← zeroSteps h rest
    return Graft.step right sibling sibling :: steps

/-- The steps down a path that may leave the pairs at a stand-in for the zero tree of the depth
left. -/
def stepsInto (h : Hasher) (target : Gindex) : (path : List Bool) → Node → Result (List Graft)
  | [], _ => .ok []
  | right :: rest, pair _ l r => do
    let steps ← (if right then r else l).stepsInto h target rest
    return Graft.step right l r :: steps
  | right :: rest, leaf _ c => do
    let zero ← h.zero (rest.length + 1)
    if c = zero then zeroSteps h (right :: rest)
    else .error (.navigation target.val (rest.length + 1))

/-- The graft that replaces the node at a gindex, spelling out an all-zero tree on the way. -/
def graftInto (h : Hasher) (n : Node) (g : Gindex) : Result Graft := do
  let steps ← n.stepsInto h g g.path
  return .ofSteps steps

end Node

end SszMerkle
