/-
Sessions: named nodes, grafts, lists and views over one store. What is stored under a name is
replaced, never changed, so two names of one list go their own ways; the store they share only
gains nodes and roots.
-/
import SszMerkle.MerkleList
import SszMerkle.Node.Balanced

namespace SszMerkle

/-- What a name can stand for. -/
inductive Held where
  | node (n : Node)
  | graft (g : Graft)
  | list (l : MerkleList)
  | view (v : LevelView)

namespace Held

def node? : Held → Option Node
  | node n => some n
  | _ => none

def graft? : Held → Option Graft
  | graft g => some g
  | _ => none

def list? : Held → Option MerkleList
  | list l => some l
  | _ => none

def view? : Held → Option LevelView
  | view v => some v
  | _ => none

/-- The tree behind a list or a view. -/
def backing? : Held → Option Node
  | list l => some l.backing
  | view v => some v.backing
  | _ => none

end Held

/-- A store and the names in use. -/
structure Session where
  store : Store
  held : Std.HashMap String Held

/-- Work in a session. What was stored and hashed before it failed stays. -/
abbrev SessionM := ExceptT Failure (StateM Session)

namespace Session

/-- No node made and no name in use. -/
def empty : Session := ⟨.empty, ∅⟩

/-- Runs work on trees against the session's store. -/
def onStore {α : Type} (x : TreeM α) : SessionM α :=
  ExceptT.mk do
    let s ← get
    let (r, store) := x.run.run s.store
    set { s with store }
    return r

instance : MonadLift TreeM SessionM := ⟨onStore⟩

/-- Stores under a name. -/
def put (name : String) (x : Held) : SessionM Unit :=
  modifyThe Session fun s => { s with held := s.held.insert name x }

/-- Stores under a name, if there is one. -/
def put? (name : Option String) (x : Held) : SessionM Unit :=
  match name with
  | some name => put name x
  | none => return ()

/-- What a name stands for, if `select` takes it. -/
def find {α : Type} (select : Held → Option α) (name : String) : SessionM α := do
  match (← getThe Session).held[name]? >>= select with
  | some x => return x
  | none => throw (.breach (.unheld name))

end Session

/-- A gindex to be read: a number, refused if zero, or a word taken as it is. -/
inductive Address where
  | number (v : Nat)
  | word (g : Gindex)

def Address.read : Address → Result Gindex
  | number v => Gindex.ofNat v
  | word g => .ok g

/-- How to come by a node. -/
inductive NodeExpr where
  | held (name : String)
  | leaf (chunk : Root)
  | pair (left right : NodeExpr)
  | zero (h : Hasher) (depth : Nat)
  | replicate (bottom : NodeExpr) (depth : Nat)
  | replicatePad (h : Hasher) (bottom : NodeExpr) (depth length : Nat)
  | ofList (h : Hasher) (nodes : List NodeExpr) (depth : Nat)
  | get (tree : NodeExpr) (place : Address)
  | backing (name : String)

namespace NodeExpr

mutual

/-- The node, made where need be. Trees come before the address to be followed in them. -/
def eval : NodeExpr → SessionM Node
  | held name => Session.find Held.node? name
  | leaf c => Node.newLeaf c
  | pair l r => do
    let l ← l.eval
    let r ← r.eval
    Node.newPair l r
  | zero h d => h.zeroLeaf d
  | replicate bottom d => do
    let bottom ← bottom.eval
    bottom.replicate d
  | replicatePad h bottom d length => do
    let bottom ← bottom.eval
    bottom.replicatePad h d length
  | ofList h nodes d => do
    let nodes ← evalAll nodes
    Node.ofList h d nodes
  | get tree place => do
    let tree ← tree.eval
    let g ← place.read
    tree.get g
  | backing name => Session.find Held.backing? name

/-- The nodes, first to last. -/
def evalAll : List NodeExpr → SessionM (List Node)
  | [] => return []
  | e :: es => do
    let n ← e.eval
    let ns ← evalAll es
    return n :: ns

end

end NodeExpr

end SszMerkle
