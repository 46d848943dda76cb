/-
The commands of a session: each public operation on trees, grafts, lists and views, between names.
A command that fails stores nothing under any name, but for the elements a run of appends had
already placed.
-/
import SszMerkle.Session.Basic

namespace SszMerkle

/-- What a tree looks like down to some depth, with the roots kept for its pairs. -/
inductive Sketch where
  | leaf (chunk : Root)
  /-- A pair whose halves are left out. -/
  | pair (kept : Option Root)
  | split (left right : Sketch) (kept : Option Root)

/-- The sketch of the top `levels` of a tree. -/
def Store.sketch (s : Store) : (levels : Nat) → Node → Sketch
  | _, .leaf _ c => .leaf c
  | 0, n => .pair (s.cached n)
  | levels + 1, n@(.pair _ l r) => .split (s.sketch levels l) (s.sketch levels r) (s.cached n)

/-- A graft to be used: the identity, or what a name stands for. -/
inductive GraftName where
  | identity
  | held (name : String)

/-- A request. What it makes is stored under the name `as`, if there is one. -/
inductive Command where
  | define (node : NodeExpr) (as : Option String)
  | get (tree : NodeExpr) (place : Address) (as : Option String)
  | root (tree : NodeExpr) (h : Hasher)
  | rootInHalves (tree : NodeExpr) (h : Hasher) (levels : Nat)
  | sketch (tree : NodeExpr) (levels : Nat)
  | same (a b : NodeExpr)
  | prove (tree : NodeExpr) (h : Hasher) (place : Address)
  | graftAt (tree : NodeExpr) (place : Address) (as : Option String)
  | graftInto (tree : NodeExpr) (h : Hasher) (place : Address) (as : Option String)
  | comp (inner outer : GraftName) (as : Option String)
  | apply (graft : GraftName) (node : NodeExpr) (as : Option String)
  | copy (name : String) (as : Option String)
  | newList (h : Hasher) (limit : Nat) (as : Option String)
  | openList (backing : NodeExpr) (h : Hasher) (limit : Nat) (as : Option String)
  | append (list : String) (node : NodeExpr)
  /-- Appends `n` new leaves, each chosen by the length of the list before it. -/
  | appendLeaves (list : String) (n : Nat) (chunk : Nat → TreeM Root)
  | pop (list : String) (as : Option String)
  | listGet (list : String) (i : Nat) (as : Option String)
  | listSet (list : String) (i : Nat) (node : NodeExpr)
  | newView (backing : NodeExpr) (depth : Nat) (as : Option String)
  | viewGet (view : String) (i : Nat) (as : Option String)
  | viewSet (view : String) (i : Nat) (node : NodeExpr)
  | viewRead (view : String) (size : Nat)
  | viewRoot (view : String) (h : Hasher)

/-- The answer to a command that succeeds. -/
inductive Reply where
  | done
  | flag (b : Bool)
  | root (r : Root)
  | sketch (s : Sketch)
  | proof (p : Proof)
  | graft (g : Graft)
  | bytes (bs : List UInt8)
  | levelRoot (depth : Nat) (r : Root)

/-- What a list looks like from outside. -/
structure ListStatus where
  length : Nat
  limit : Nat
  root : Root

namespace Session

/-- A node stored under a name, if there is one, and answered with. -/
def show? (as : Option String) (n : Node) : SessionM Reply := do
  put? as (.node n)
  return .sketch ((← getThe Session).store.sketch 0 n)

/-- The graft that is meant. -/
def graft : GraftName → SessionM Graft
  | .identity => return .identity
  | .held name => find Held.graft? name

/-- Appends new leaves one by one; each is in place before the next is tried. -/
def appendLeaves (name : String) (chunk : Nat → TreeM Root) : (n : Nat) → SessionM Unit
  | 0 => return ()
  | n + 1 => do
    let l ← find Held.list? name
    let c ← chunk l.length
    let leaf ← Node.newLeaf c
    let l ← l.append leaf
    put name (.list l)
    appendLeaves name chunk n

/-- Carries out a command. -/
def run : Command → SessionM Reply
  | .define node as => do
    let n ← node.eval
    show? as n
  | .get tree place as => do
    let tree ← tree.eval
    let g ← place.read
    let n ← tree.get g
    show? as n
  | .root tree h => do
    let tree ← tree.eval
    return .root (← tree.root h)
  | .rootInHalves tree h levels => do
    let tree ← tree.eval
    return .root (← tree.rootInHalves h (fun _ => false) levels)
  | .sketch tree levels => do
    let tree ← tree.eval
    return .sketch ((← getThe Session).store.sketch levels tree)
  | .same a b => do
    let a ← a.eval
    let b ← b.eval
    return .flag (a.same b)
  | .prove tree h place => do
    let g ← place.read
    let tree ← tree.eval
    return .proof (← tree.prove h g)
  | .graftAt tree place as => do
    let tree ← tree.eval
    let g ← place.read
    let graft ← tree.graftAt g
    put? as (.graft graft)
    return .graft graft
  | .graftInto tree h place as => do
    let tree ← tree.eval
    let g ← place.read
    let graft ← tree.graftInto h g
    put? as (.graft graft)
    return .graft graft
  | .comp inner outer as => do
    let inner ← graft inner
    let outer ← graft outer
    let both := Graft.comp inner outer
    put? as (.graft both)
    return .graft both
  | .apply name node as => do
    let n ← node.eval
    let g ← graft name
    let root ← g.apply n
    show? as root
  | .copy name as => do
    let x ← find some name
    put? as x
    return .done
  | .newList h limit as => do
    let l ← MerkleList.empty h limit
    put? as (.list l)
    return .done
  | .openList backing h limit as => do
    let backing ← backing.eval
    let l ← MerkleList.ofBacking h backing limit
    put? as (.list l)
    return .done
  | .append name node => do
    let n ← node.eval
    let l ← find Held.list? name
    let l ← l.append n
    put name (.list l)
    return .done
  | .appendLeaves name n chunk => do
    appendLeaves name chunk n
    return .done
  | .pop name as => do
    let l ← find Held.list? name
    let (n, l) ← l.pop
    put name (.list l)
    show? as n
  | .listGet name i as => do
    let l ← find Held.list? name
    let n ← l.get i
    show? as n
  | .listSet name i node => do
    let n ← node.eval
    let l ← find Held.list? name
    let l ← l.set i n
    put name (.list l)
    return .done
  | .newView backing depth as => do
    let backing ← backing.eval
    put? as (.view ⟨backing, depth⟩)
    return .done
  | .viewGet name i as => do
    let v ← find Held.view? name
    let n ← v.get i
    show? as n
  | .viewSet name i node => do
    let n ← node.eval
    let v ← find Held.view? name
    let v ← v.set i n
    put name (.view v)
    return .done
  | .viewRead name size => do
    let v ← find Held.view? name
    return .bytes (← v.read size)
  | .viewRoot name h => do
    let v ← find Held.view? name
    return .levelRoot v.depth (← v.root h)

/-- The state of the list of a name, if it has one; its root is computed. -/
def listStatus (name : String) : SessionM (Option ListStatus) := do
  match (← getThe Session).held[name]? with
  | some (.list l) => return some ⟨l.length, l.limit, ← l.root⟩
  | _ => return none

end Session

end SszMerkle
