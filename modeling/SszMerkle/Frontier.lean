/-
The frontier of a growing tree: leaves arrive from the left, and of all that lies to the left only
one partial root a level is kept. A new leaf is carried upward like a one in binary addition:
where it is a right child it is combined with the root kept at that level, and it comes to rest at
the first level where it is a left child. Sealing the frontier pads with zero roots, first to a
full tree and then to the depth of the limit.

Each step also says which nodes it settled, as `Visit`s.
-/
import SszMerkle.Hasher
import SszMerkle.Word

namespace SszMerkle

/-- A node whose root a step settled: its level above the leaves, its place there, and the root. -/
structure Visit where
  level : Nat
  position : Nat
  root : Root
  /-- The two roots it was combined from, unless it was given. -/
  parts : Option (Root × Root)
deriving DecidableEq

/-- The visit of a leaf or a zero tree. -/
def Visit.given (level position : Nat) (root : Root) : Visit := ⟨level, position, root, none⟩

/-- The visit of a node above two others. -/
def Visit.above (h : Hasher) (level position : Nat) (left right : Root) : Visit :=
  ⟨level, position, h.combine left right, some (left, right)⟩

/-- A tree under construction with room for `limit` leaves. -/
structure Frontier where
  hasher : Hasher
  limit : Nat
  /-- The leaves taken so far. -/
  count : Nat
  /-- The partial root kept at each level, the leaves' first. -/
  stack : List Root

namespace Frontier

/-- The frontier before the first leaf. -/
def start (h : Hasher) (limit : Nat) : Frontier :=
  ⟨h, limit, 0, List.replicate (Word.depthFor limit + 1) .zero⟩

/-- The level of the root of the whole tree. -/
def limitDepth (f : Frontier) : Nat := Word.depthFor f.limit

/-- Carries `node`, at `position` of `level`, up the stack from that level. Below level `pad` a
missing right sibling is a zero root. -/
def carry (h : Hasher) (pad : Nat) : (level position : Nat) → (node : Root) →
    (stack : List Root) → Result (List Root × List Visit)
  | level, _, _, [] => .error (.breach (.level level))
  | level, position, node, kept :: above =>
    if position % 2 = 1 then do
      let up := Visit.above h (level + 1) (position / 2) kept node
      let (above, visits) ← carry h pad (level + 1) (position / 2) up.root above
      return (kept :: above, up :: visits)
    else if level < pad then do
      let zero ← h.zero level
      let up := Visit.above h (level + 1) (position / 2) node zero
      let (above, visits) ← carry h pad (level + 1) (position / 2) up.root above
      return (kept :: above, .given level (position + 1) zero :: up :: visits)
    else return (node :: above, [])

/-- Takes the next leaf. -/
def absorb (f : Frontier) (leaf : Root) : Result (Frontier × List Visit) := do
  let (stack, visits) ← carry f.hasher 0 0 f.count leaf f.stack
  let count ← Word.next f.count
  return ({ f with count, stack }, .given 0 f.count leaf :: visits)

/-- Puts a zero tree to the right of `top`, `levels` times. -/
def rise (h : Hasher) : (level levels : Nat) → (top : Root) → Result (Root × List Visit)
  | _, 0, top => .ok (top, [])
  | level, levels + 1, top => do
    let zero ← h.zero level
    let up := Visit.above h (level + 1) 0 top zero
    let (root, visits) ← rise h (level + 1) levels up.root
    return (root, .given level 1 zero :: up :: visits)

/-- Completes the last partial tree to a full one. -/
def complete (f : Frontier) : Result (List Root × List Visit) :=
  if Word.isPowerOfTwo f.count then .ok (f.stack, [])
  else do
    let zero ← f.hasher.zero 0
    let (stack, visits) ← carry f.hasher (Word.depthFor f.count) 0 f.count zero f.stack
    return (stack, .given 0 f.count zero :: visits)

/-- The root of the whole tree, zero where no leaf arrived. -/
def finish (f : Frontier) : Result (Root × List Visit) := do
  let depth := Word.depthFor f.count
  let (stack, completed) ← f.complete
  match stack[depth]? with
  | none => .error (.breach (.level depth))
  | some top =>
    let (root, risen) ← rise f.hasher depth (f.limitDepth - depth) top
    return (root, completed ++ risen)

/-- Takes the next leaf if there is room for it. -/
def push (f : Frontier) (leaf : Root) : Result Frontier :=
  if f.limit ≤ f.count then do
    let length ← Word.next f.count
    .error (.overCapacity length f.limit)
  else do
    let (f, _) ← f.absorb leaf
    return f

/-- The root of the whole tree, were no further leaf to come. -/
def root (f : Frontier) : Result Root := do
  let (root, _) ← f.finish
  return root

/-- Takes `n` leaves, each asked for by its number, and shows every visit to `watch`. -/
def feed {m : Type → Type} [Monad m] {σ : Type} (watch : σ → Visit → Result σ)
    (leaf : Nat → ExceptT Failure m Root) :
    (n : Nat) → Frontier → σ → ExceptT Failure m (Frontier × σ)
  | 0, f, s => return (f, s)
  | n + 1, f, s => do
    let r ← leaf f.count
    let (f, visits) ← f.absorb r
    let s ← (visits.foldlM watch s : Result σ)
    feed watch leaf n f s

end Frontier

/-- The root of the tree with room for `limit` leaves whose first `count` are given and whose others
are zero; leaves past the limit are left out. -/
def merkleize {m : Type → Type} [Monad m] (h : Hasher) (count limit : Nat)
    (leaf : Nat → ExceptT Failure m Root) : ExceptT Failure m Root := do
  let (f, _) ← Frontier.feed (fun _ _ => .ok ()) leaf (min count limit) (.start h limit) ()
  f.root

end SszMerkle
