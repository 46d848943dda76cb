/-
Opening a tree at a node while its leaves stream by. The branch of a target is filled from the
visits of the pass that computes the root; what no visit reaches lies among zeros, so it starts as
zero roots. A target below the leaves is reached through the proof of one leaf's own content.
-/
import SszMerkle.Frontier
import SszMerkle.Proof

namespace SszMerkle

/-- What is known of a target while the pass goes on: the branch so far, and the root of
the target. -/
structure Opening where
  branch : List Root
  proven : Root

namespace Opening

/-- Before the pass, all of it is zero. -/
def start (h : Hasher) (limitDepth : Nat) (target : Gindex) : Result Opening := do
  let height := limitDepth - target.depth
  let branch ← (List.range target.depth).mapM fun k => h.zero (height + k)
  let proven ← h.zero height
  return ⟨branch, proven⟩

/-- Keeps the root of a visit on the branch of the target or at the target. A node sixty-four levels
down has no gindex, so it is on no branch. -/
def watch (limitDepth : Nat) (target : Gindex) (o : Opening) (v : Visit) : Result Opening :=
  if limitDepth < v.level then .error (.breach (.level v.level))
  else match Gindex.ofPosition v.position (limitDepth - v.level) with
    | .error _ => .ok o
    | .ok node =>
      if node.isProofOf target then
        if target.depth - node.depth < o.branch.length then
          .ok { o with branch := o.branch.set (target.depth - node.depth) v.root }
        else .error (.breach (.level (target.depth - node.depth)))
      else if node = target then .ok { o with proven := v.root }
      else .ok o

end Opening

/-- The proof of `target` in the tree that `merkleize` computes the root of. For a target below leaf
`i`, `below i rest` gives the proof of the node at `rest` in that leaf's own tree, if it has one. -/
def openTree {m : Type → Type} [Monad m] (h : Hasher) (count limit : Nat) (target : Gindex)
    (leaf : Nat → ExceptT Failure m Root)
    (below : Nat → Gindex → ExceptT Failure m (Option Proof)) : ExceptT Failure m Proof := do
  let count := min count limit
  let limitDepth := Word.depthFor limit
  let (outer, inner) := target.splitAt limitDepth
  let watch := Opening.watch limitDepth outer
  let o ← Opening.start h limitDepth outer
  let (f, o) ← Frontier.feed watch leaf count (.start h limit) o
  let (root, visits) ← f.finish
  let o ← (visits.foldlM watch o : Result Opening)
  let proof : Proof := ⟨o.branch, root⟩
  if inner.isRoot then return proof
  if count ≤ outer.position then throw (.navigation target.val inner.depth)
  match ← below outer.position inner with
  | some sub => proof.extend sub o.proven
  | none => throw (.navigation target.val inner.depth)

end SszMerkle
