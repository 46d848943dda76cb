/-
Trees as values stand for them, spelled out: chunks, the leaves of node trees, and pairs. Seeking a
path gives the root it leads to. A leaf of a node tree may stand in for a zero tree, so a path of the
right length leads through it to zero; any other path ends at the leaf. Under a balanced tree a path
is sought in two parts, to an inner node and on from there.
-/
import SszMerkle.Node
import SszMerkle.Proofs.Padded

namespace SszMerkle

inductive Tree where
  /-- A chunk, which has nothing below it. -/
  | chunk (c : Root)
  /-- A leaf that stands in for the zero tree whose root it holds. -/
  | leaf (c : Root)
  | pair (left right : Tree)

namespace Tree

def root (h : Hasher) : Tree → Root
  | chunk c => c
  | leaf c => c
  | pair l r => h.combine (l.root h) (r.root h)

/-- The root at the end of a path, or how many steps of the path are left where the tree ends. -/
def seek (h : Hasher) : (path : List Bool) → Tree → Except Nat Root
  | [], t => .ok (t.root h)
  | right :: path, pair l r => seek h path (if right then r else l)
  | _ :: path, chunk _ => .error (path.length + 1)
  | _ :: path, leaf c =>
    if c = zeroRoot h.combine (path.length + 1) then .ok .zero else .error (path.length + 1)

/-- The tree that a node is the root of. -/
def ofNode : Node → Tree
  | .leaf _ c => leaf c
  | .pair _ l r => pair (ofNode l) (ofNode r)

/-- The subtree at a position of a level, over the trees given. -/
def grid (below : Nat → Tree) : (level position : Nat) → Tree
  | 0, p => below p
  | l + 1, p => pair (grid below l (2 * p)) (grid below l (2 * p + 1))

/-- Tree `i` of a row, zero past its end. -/
def place (ts : List Tree) (i : Nat) : Tree := ts.getD i (.chunk .zero)

/-- The tree with room for `limit` parts, zero where the parts run out; parts past the limit are
left out. -/
def balanced (limit : Nat) (ts : List Tree) : Tree :=
  grid (place (ts.take limit)) (Word.depthFor limit) 0

variable {h : Hasher} {below : Nat → Tree} {ts : List Tree} {i limit : Nat}

/-- The answer to a request for what is at a path: where the path can be sought it is as described,
and else it is a refusal with the steps left. -/
def Grants {α : Type} (h : Hasher) (t : Tree) (path : List Bool) (P : Root → α → Prop) (r : Result α) :
    Prop :=
  match t.seek h path with
  | .ok node => ∃ a, r = .ok a ∧ P node a
  | .error left => ∃ n, r = .error (.navigation n left)

section Grants

variable {α β : Type} {t u : Tree} {path path' : List Bool} {P : Root → α → Prop} {P' : Root → β → Prop}
  {a : α} {b : β} {e : Failure}

theorem grants_ok : t.Grants h path P (.ok a) ↔ ∃ node, t.seek h path = .ok node ∧ P node a := by
  unfold Grants
  split
  · rename_i node hn
    simp [hn]
  · rename_i left hn
    simp [hn]

theorem grants_error : t.Grants h path P (.error e) ↔
    ∃ left n, t.seek h path = .error left ∧ e = .navigation n left := by
  unfold Grants
  split
  · rename_i node hn
    simp [hn]
  · rename_i left hn
    simp [hn]

/-- Where paths are sought alike, an answer to the one request may be turned into one to the other,
and a refusal is passed on. -/
theorem Grants.ok (ha : u.Grants h path' P (.ok a)) (hseek : t.seek h path = u.seek h path')
    (hb : ∀ node, P node a → P' node b) : t.Grants h path P' (.ok b) := by
  obtain ⟨node, hnode, hP⟩ := grants_ok.1 ha
  exact grants_ok.2 ⟨node, hseek.trans hnode, hb node hP⟩

theorem Grants.error (he : u.Grants h path' P (.error e)) (hseek : t.seek h path = u.seek h path') :
    t.Grants h path P' (.error e) := by
  obtain ⟨left, n, hleft, hn⟩ := grants_error.1 he
  exact grants_error.2 ⟨left, n, hseek.trans hleft, hn⟩

end Grants

theorem root_ofNode : ∀ n : Node, (ofNode n).root h = n.digest h
  | .leaf _ _ => rfl
  | .pair _ l r => by rw [ofNode, root, root_ofNode l, root_ofNode r, Node.digest]

theorem seek_chunk {c : Root} {path : List Bool} (hp : path ≠ []) :
    (chunk c).seek h path = .error path.length := by
  cases path with
  | nil => exact absurd rfl hp
  | cons _ _ => rfl

/-- A step through a pair of nodes is a step to one of them. -/
theorem seek_ofNode_pair (serial : Nat) (l r : Node) (right : Bool) (path : List Bool) :
    (ofNode (.pair serial l r)).seek h (right :: path) =
      (ofNode (if right then r else l)).seek h path := by
  rw [ofNode, seek]
  split <;> rfl

theorem root_grid : ∀ l p : Nat,
    (grid below l p).root h = Padded.node h (fun i => (below i).root h) l p
  | 0, _ => rfl
  | l + 1, p => by rw [grid, root, root_grid l, root_grid l, Padded.node]

/-- A path that goes on from a gindex is sought on from the subtree there. -/
theorem seek_grid {depth : Nat} : ∀ {d : Nat} {g : Gindex} (path : List Bool), 0 < g.val →
    g.depth = d → g.depth ≤ depth → (grid below depth 0).seek h (g.path ++ path) =
      (grid below (depth - g.depth) g.position).seek h path
  | 0, g, path, hg, hd, _ => by
    rw [Gindex.eq_root hg hd]
    rfl
  | d + 1, g, path, hg, hd, hle => by
    obtain ⟨hpd, hpp⟩ := g.depth_position_parent hg hd
    have hl := g.isLeftChild_iff hg hd
    rw [g.path_parent hg hd, List.append_assoc, List.singleton_append,
      seek_grid _ (g.parent_pos hg hd) hpd (by omega), hpd, hpp,
      show depth - d = depth - g.depth + 1 by omega, grid, seek]
    cases hb : g.isLeftChild with
    | true =>
      rw [show 2 * (g.position / 2) = g.position by have := hl.1 hb; omega]
      rfl
    | false =>
      have odd : ¬ g.position % 2 = 0 := fun e => by simp [hl.2 e] at hb
      rw [show 2 * (g.position / 2) + 1 = g.position by omega]
      rfl

theorem place_take (hi : i < ts.length) (hl : i < limit) : place (ts.take limit) i = ts[i] := by
  simp [place, hi, hl]

theorem place_take_of_le (hi : min ts.length limit ≤ i) :
    place (ts.take limit) i = .chunk .zero := by
  simp only [place, List.getD_eq_getElem?_getD, List.getElem?_take]
  split
  · rw [List.getElem?_eq_none (by omega)]
    rfl
  · rfl

/-- The roots of a row of node trees are their digests, zero past its end. -/
theorem root_place_ofNode (ns : List Node) (i : Nat) :
    (place (ns.map ofNode) i).root h = Padded.row (ns.map (Node.digest h)) i := by
  unfold place Padded.row
  rcases Nat.lt_or_ge i ns.length with hi | hi
  · simp [hi, root_ofNode]
  · simp [hi, root]

theorem root_place_take_ofNode {ns : List Node} (room : ns.length ≤ limit) :
    (fun i => (place ((ns.map ofNode).take limit) i).root h) = Padded.row (ns.map (Node.digest h)) := by
  rw [List.take_of_length_le (by rwa [List.length_map])]
  exact funext fun i => root_place_ofNode ns i

/-- The leaves of a balanced tree are the roots of its parts, clipped to the limit. -/
theorem root_place_take : (fun i => (place (ts.take limit) i).root h) =
    Padded.clip (min ts.length limit) fun i => (place ts i).root h := by
  funext i
  unfold Padded.clip
  split
  · rename_i hi
    rw [place_take (by omega) (by omega)]
    simp [place, show i < ts.length by omega]
  · rename_i hi
    rw [place_take_of_le (by omega)]
    rfl

theorem root_balanced : (balanced limit ts).root h =
    Padded.root h (Word.depthFor limit)
      (Padded.clip (min ts.length limit) fun i => (place ts i).root h) := by
  rw [balanced, root_grid, root_place_take, Padded.root]

/-- A path to a node of the balanced tree itself leads to the reference root there. -/
theorem seek_balanced_of_le {g : Gindex} (hg : 0 < g.val) (hd : g.depth ≤ Word.depthFor limit) :
    (balanced limit ts).seek h g.path = .ok (Padded.rootAt h (Word.depthFor limit)
      (fun i => (place (ts.take limit) i).root h) g) := by
  rw [← List.append_nil g.path, balanced, seek_grid [] hg rfl hd, seek, root_grid]
  rfl

/-- A path that goes deeper is sought on in one of the parts. -/
theorem seek_balanced_of_split {g outer inner : Gindex} (hg : 0 < g.val)
    (hs : g.splitAt (Word.depthFor limit) = (outer, inner)) (hv : 0 < outer.val)
    (hd : outer.depth = Word.depthFor limit) :
    (balanced limit ts).seek h g.path = (place (ts.take limit) outer.position).seek h inner.path := by
  rw [Gindex.path_append_of_splitAt hg hs, balanced, seek_grid _ hv hd hd.le, hd, Nat.sub_self, grid]

end Tree

end SszMerkle
