/-
The reference tree: over a function that gives every leaf, `node` is the root at each level and
position, an inner node being the hash of its two children. The tree of a finite row of leaves is
the one whose other leaves are zero; where a subtree holds zero leaves only, its root is the zero
root of its level.
-/
import SszMerkle.Frontier
import SszMerkle.Proofs.Address

namespace SszMerkle.Padded

/-- The root at a position of a level, over the leaves given. -/
def node (h : Hasher) (leaf : Nat → Root) : (level position : Nat) → Root
  | 0, p => leaf p
  | l + 1, p => h.combine (node h leaf l (2 * p)) (node h leaf l (2 * p + 1))

/-- A row of leaves, zero past its end. -/
def row (rs : List Root) (i : Nat) : Root := rs.getD i .zero

/-- The first `n` leaves of a row, zero past them. -/
def clip (n : Nat) (leaf : Nat → Root) (i : Nat) : Root := if i < n then leaf i else .zero

/-- The root of the whole tree of a depth. -/
def root (h : Hasher) (depth : Nat) (leaf : Nat → Root) : Root := node h leaf depth 0

/-- The root at a gindex of the tree of a depth. -/
def rootAt (h : Hasher) (depth : Nat) (leaf : Nat → Root) (g : Gindex) : Root :=
  node h leaf (depth - g.depth) g.position

variable {h : Hasher} {leaf : Nat → Root}

theorem node_congr {other : Nat → Root} :
    ∀ {l p : Nat}, (∀ i, p * 2 ^ l ≤ i → i < (p + 1) * 2 ^ l → leaf i = other i) →
      node h leaf l p = node h other l p
  | 0, p, e => e p (by simp) (by simp)
  | l + 1, p, e => by
    have lo : (2 * p) * 2 ^ l = p * 2 ^ (l + 1) := by ring
    have mid : (2 * p + 1) * 2 ^ l = p * 2 ^ (l + 1) + 2 ^ l := by ring
    have hi : (2 * p + 1 + 1) * 2 ^ l = (p + 1) * 2 ^ (l + 1) := by ring
    have up : (p + 1) * 2 ^ (l + 1) = p * 2 ^ (l + 1) + 2 ^ l + 2 ^ l := by ring
    have left : node h leaf l (2 * p) = node h other l (2 * p) :=
      node_congr fun i h1 h2 => e i (by omega) (by omega)
    have right : node h leaf l (2 * p + 1) = node h other l (2 * p + 1) :=
      node_congr fun i h1 h2 => e i (by omega) (by omega)
    rw [node, node, left, right]

theorem node_zero (l p : Nat) : node h (fun _ => .zero) l p = zeroRoot h.combine l := by
  induction l generalizing p with
  | zero => rfl
  | succ l ih => rw [node, ih, ih, zeroRoot]

/-- A subtree of zero leaves has the zero root of its level. -/
theorem node_eq_zeroRoot {l p : Nat} (e : ∀ i, p * 2 ^ l ≤ i → leaf i = .zero) :
    node h leaf l p = zeroRoot h.combine l := by
  rw [← node_zero (h := h) l p]
  exact node_congr fun i h1 _ => e i h1

theorem combine_odd {l p : Nat} (hp : p % 2 = 1) :
    h.combine (node h leaf l (p - 1)) (node h leaf l p) = node h leaf (l + 1) (p / 2) := by
  rw [node, show 2 * (p / 2) = p - 1 by omega, show p - 1 + 1 = p by omega]

theorem combine_even {l p : Nat} (hp : p % 2 = 0) :
    h.combine (node h leaf l p) (node h leaf l (p + 1)) = node h leaf (l + 1) (p / 2) := by
  rw [node, show 2 * (p / 2) = p by omega]

theorem row_of_le {rs : List Root} {i : Nat} (hi : rs.length ≤ i) : row rs i = .zero := by
  unfold row
  rw [List.getD_eq_getElem?_getD, List.getElem?_eq_none hi]
  rfl

theorem row_map_range (n : Nat) : row ((List.range n).map leaf) = clip n leaf := by
  funext i
  unfold row clip
  rw [List.getD_eq_getElem?_getD, List.getElem?_map]
  split
  · rename_i hi
    rw [List.getElem?_range hi]
    rfl
  · rename_i hi
    rw [List.getElem?_eq_none (by simpa using hi)]
    rfl

/-- A node and its sibling, in the order of their positions, give the parent. -/
theorem rootAt_parent {depth d : Nat} {g : Gindex} (hg : 0 < g.val) (hd : g.depth = d + 1)
    (hle : g.depth ≤ depth) :
    rootAt h depth leaf g.parent =
      if g.isLeftChild then h.combine (rootAt h depth leaf g) (rootAt h depth leaf g.sibling)
      else h.combine (rootAt h depth leaf g.sibling) (rootAt h depth leaf g) := by
  obtain ⟨hpd, hpp⟩ := g.depth_position_parent hg hd
  obtain ⟨hsd, hsp⟩ := g.depth_position_sibling hg hd
  have hl := g.isLeftChild_iff hg hd
  unfold rootAt
  rw [hpd, hpp, hsd, hsp, hd, show depth - d = depth - (d + 1) + 1 by omega, xor_one_eq]
  rcases Nat.mod_two_eq_zero_or_one g.position with e | e
  · rw [if_pos (hl.2 e), show 2 * (g.position / 2) + (1 - g.position % 2) = g.position + 1 by omega]
    exact (combine_even e).symm
  · have hn : ¬ g.isLeftChild = true := fun c => by have := hl.1 c; omega
    rw [if_neg hn, show 2 * (g.position / 2) + (1 - g.position % 2) = g.position - 1 by omega]
    exact (combine_odd e).symm

end SszMerkle.Padded
