/-
Balanced trees of a given depth over given bottom nodes, zero where the nodes run out.
-/
import SszMerkle.Node.Store

namespace SszMerkle.Node

/-- The tree of depth `d` with one node at every bottom place; each level is a single pair. -/
def replicate (bottom : Node) : (d : Nat) → StateM Store Node
  | 0 => return bottom
  | d + 1 => do
    let below ← replicate bottom d
    newPair below below

/-- The bottom places of a tree of depth `d`, as far as their number is a word. -/
def places? (d : Nat) : Option Nat := if d < 64 then some (Word.pow2 d) else none

/-- Refuses more nodes than there are bottom places. -/
def checkRoom (length d : Nat) : Result Unit :=
  match places? d with
  | some room => if room < length then .error (.overCapacity length room) else .ok ()
  | none => .ok ()

/-- The number that splits the bottom of a tree of depth `d + 1` in halves. Where it is no word, the shift
that gives it overflows, and checked arithmetic halts. -/
def pivot (d : Nat) : Result Nat :=
  match places? d with
  | some half => .ok half
  | none => .error (.breach .overflow)

/-- The tree of depth `d` with one node at the first `length` bottom places. -/
def replicatePad (h : Hasher) (bottom : Node) : (d length : Nat) → TreeM Node
  | d, length => do
    checkRoom length d
    if places? d = some length then replicate bottom d
    else if length = 0 then h.zeroLeaf d
    else match d with
      | 0 => throw (.breach .overflow)
      | d + 1 =>
        let half ← pivot d
        if length ≤ half then
          let left ← replicatePad h bottom d length
          let right ← h.zeroLeaf d
          newPair left right
        else
          let left ← replicate bottom d
          let right ← replicatePad h bottom d (length - half)
          newPair left right

/-- The tree of depth `d` over some nodes, left to right. -/
def ofList (h : Hasher) : (d : Nat) → (nodes : List Node) → TreeM Node
  | _, [] => throw .emptyContents
  | 0, n :: rest => do
    checkRoom (n :: rest).length 0
    return n
  | d + 1, n :: rest => do
    checkRoom (n :: rest).length (d + 1)
    let half ← pivot d
    if (n :: rest).length ≤ half then
      let left ← ofList h d (n :: rest)
      let right ← h.zeroLeaf d
      newPair left right
    else
      let left ← ofList h d ((n :: rest).take half)
      let right ← ofList h d ((n :: rest).drop half)
      newPair left right

end SszMerkle.Node
