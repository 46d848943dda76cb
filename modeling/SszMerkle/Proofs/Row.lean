/-
Rows of nodes: a tree of a depth that holds some nodes at its first bottom places and is zero at the
others. Zero subtrees may be spelled out or not, so a row is the same however its tree grew. The
nodes of a row are found at the digits of their positions, a graft at one position changes the row
there, and the digest of the tree is the reference root over the digests of the row.
-/
import SszMerkle.Proofs.Graft

namespace SszMerkle

variable {h : Hasher}

/-! ## Halves of the reference tree -/

namespace Padded

theorem node_shift : ∀ (leaf : Nat → Root) (l p : Nat),
    node h leaf l p = node h (fun i => leaf (p * 2 ^ l + i)) l 0
  | leaf, 0, p => by simp [node]
  | leaf, l + 1, p => by
    rw [node, node, node_shift leaf l (2 * p), node_shift leaf l (2 * p + 1), node_shift _ l (2 * 0 + 1)]
    congr 2 <;> funext i <;> congr 1 <;> ring

theorem root_succ (d : Nat) (leaf : Nat → Root) :
    root h (d + 1) leaf = h.combine (root h d leaf) (root h d fun i => leaf (2 ^ d + i)) := by
  rw [root, node, node_shift leaf d (2 * 0 + 1)]
  simp [root]

section Halves

variable {α : Type} {f : α → Root} {xs ys : List α} {n : Nat} (hfull : ys = [] ∨ xs.length = n)
include hfull

/-- Of `n` leaves and what comes behind them, the first `n` are as they were. -/
theorem row_append_left {i : Nat} (hi : i < n) : row ((xs ++ ys).map f) i = row (xs.map f) i := by
  rcases hfull with rfl | rfl
  · rw [List.append_nil]
  · simp only [row, List.map_append, List.getD_eq_getElem?_getD]
    rw [List.getElem?_append_left (by simpa using hi)]

theorem row_append_right (hle : xs.length ≤ n) :
    (fun i => row ((xs ++ ys).map f) (n + i)) = row (ys.map f) := by
  funext i
  rcases hfull with rfl | rfl
  · rw [List.append_nil, row_of_le (by simp; omega), row_of_le (by simp)]
  · simp only [row, List.map_append, List.getD_eq_getElem?_getD]
    rw [List.getElem?_append_right (by simp), List.length_map, Nat.add_sub_cancel_left]

end Halves

/-- The root over a row is combined of those over its left part, where that is full, and over the rest. -/
theorem root_row_append {α : Type} {f : α → Root} {xs ys : List α} {d : Nat}
    (hfull : ys = [] ∨ xs.length = 2 ^ d) (hle : xs.length ≤ 2 ^ d) :
    root h (d + 1) (row ((xs ++ ys).map f)) =
      h.combine (root h d (row (xs.map f))) (root h d (row (ys.map f))) := by
  rw [root_succ, row_append_right hfull hle]
  congr 1
  refine node_congr fun i _ hi => ?_
  rw [Nat.zero_add, one_mul] at hi
  exact row_append_left hfull hi

end Padded

namespace Node

/-- The tree of depth `d` with some nodes at its first bottom places, and zero at the others. -/
inductive Row (h : Hasher) : (d : Nat) → Node → List Node → Prop
  | zero {d i} : Row h d (.leaf i (zeroRoot h.combine d)) []
  | element {n} : Row h 0 n [n]
  | pair {d serial l r xs ys} : Row h d l xs → Row h d r ys → (ys = [] ∨ xs.length = 2 ^ d) →
      Row h (d + 1) (.pair serial l r) (xs ++ ys)

namespace Row

variable {d p : Nat} {n m n' : Node} {xs zs : List Node}

theorem length_le (hn : Row h d n xs) : xs.length ≤ 2 ^ d := by
  induction hn with
  | zero => simp
  | element => simp
  | pair _ _ _ ihl ihr =>
    rw [List.length_append, pow_succ]
    omega

/-- The digest of a row is the root over its digests, zero past its end. -/
theorem digest (hn : Row h d n xs) :
    n.digest h = Padded.root h d (Padded.row (xs.map (Node.digest h))) := by
  induction hn with
  | zero => exact (Padded.node_eq_zeroRoot fun _ _ => Padded.row_of_le (by simp)).symm
  | element => rfl
  | pair hl _ hfull ihl ihr => rw [Node.digest, ihl, ihr, Padded.root_row_append hfull hl.length_le]

/-- Every position of a row can be sought, as zeros count as spelled out. -/
theorem seek (hn : Row h d n xs) (hp : p < 2 ^ d) :
    ∃ c, (Tree.ofNode n).seek h (Gindex.digits d p) = .ok c := by
  induction hn generalizing p with
  | @zero d i =>
    cases d with
    | zero => exact ⟨_, rfl⟩
    | succ d =>
      refine ⟨.zero, ?_⟩
      have hlen := Gindex.length_digits d p
      rw [Gindex.digits, List.range_succ, List.reverse_append, List.reverse_singleton,
        List.singleton_append, List.map_cons, ← Gindex.digits, Tree.ofNode, Tree.seek, hlen]
      exact if_pos rfl
  | element => exact ⟨_, rfl⟩
  | @pair d serial l r xs ys _ _ _ ihl ihr =>
    rcases Nat.lt_or_ge p (2 ^ d) with hlt | hge
    · rw [Gindex.digits_of_lt hlt]
      exact ihl hlt
    · rw [Gindex.digits_of_le hge hp]
      exact ihr (by rw [pow_succ] at hp; omega)

/-- Position `p` leads to node `p` of the row. -/
theorem follow {target : Gindex} (hn : Row h d n xs) (hp : p < xs.length) :
    n.follow target (Gindex.digits d p) = .ok xs[p] := by
  induction hn generalizing p with
  | zero => simp at hp
  | element =>
    have : p = 0 := by simpa using hp
    subst this
    rename_i n
    cases n <;> rfl
  | @pair d serial l r xs ys hl hr hfull ihl ihr =>
    have hx := hl.length_le
    have hy := hr.length_le
    rw [List.length_append] at hp
    rcases Nat.lt_or_ge p (2 ^ d) with hlt | hge
    · have hp' : p < xs.length := by
        rcases hfull with rfl | hfull
        · simpa using hp
        · omega
      rw [Gindex.digits_of_lt hlt, List.getElem_append_left hp']
      exact ihl hp'
    · have hfull' : xs.length = 2 ^ d := by
        rcases hfull with rfl | hfull
        · rw [List.length_nil] at hp; omega
        · exact hfull
      rw [Gindex.digits_of_le hge (by rw [pow_succ]; omega), List.getElem_append_right (by omega)]
      simp only [hfull']
      exact ihr (by omega)

theorem clean {s : Store} (hn : Row h d n xs) (hc : n.Clean h s) : ∀ x ∈ xs, x.Clean h s := by
  induction hn with
  | zero => simp
  | element => simpa using hc
  | pair _ _ _ ihl ihr =>
    obtain ⟨-, -, hl, hr⟩ := hc
    intro x hx
    rcases List.mem_append.1 hx with hx | hx
    · exact ihl hl x hx
    · exact ihr hr x hx

/-- The row with what is at a position replaced. -/
def splice (xs zs : List Node) (p : Nat) : List Node := xs.take p ++ zs ++ xs.drop (p + 1)

theorem splice_append_left {ys : List Node} (hp : p ≤ xs.length) (hy : ys = [] ∨ p < xs.length) :
    splice (xs ++ ys) zs p = splice xs zs p ++ ys := by
  unfold splice
  rw [List.take_append_of_le_length hp]
  rcases hy with rfl | hy
  · simp
  · rw [List.drop_append_of_le_length (by omega), List.append_assoc _ _ ys]

theorem splice_append_right {ys : List Node} (hp : xs.length ≤ p) :
    splice (xs ++ ys) zs p = xs ++ splice ys zs (p - xs.length) := by
  unfold splice
  rw [List.take_append, List.take_of_length_le hp, List.drop_append, List.drop_of_length_le (by omega),
    List.nil_append, show p + 1 - xs.length = p - xs.length + 1 by omega]
  simp only [List.append_assoc]

theorem length_splice (hp : p < xs.length) (hz : zs.length = 1) :
    (splice xs zs p).length = xs.length := by
  simp [splice]
  omega

/-- A graft at a path that enters a row enters one of its halves, spelled out if need be. -/
theorem halves {path : List Bool} (hn : Row h (d + 1) n xs) (hd : path.length = d + 1)
    (hg : Grafted h path n m n') : ∃ serial l r ys ws, xs = ys ++ ws ∧ Row h d l ys ∧ Row h d r ws ∧
      (ws = [] ∨ ys.length = 2 ^ d) ∧ Grafted h path (.pair serial l r) m n' := by
  cases hn with
  | @zero _ i =>
    cases path with
    | nil => simp at hd
    | cons right path =>
      obtain ⟨serial, hg⟩ := hg.of_leaf
      rw [List.length_cons, Nat.add_right_cancel_iff] at hd
      rw [hd] at hg
      exact ⟨serial, _, _, [], [], rfl, .zero, .zero, .inl rfl, hg⟩
  | @pair _ serial l r ys ws hl hr hfull => exact ⟨serial, l, r, ys, ws, rfl, hl, hr, hfull, hg⟩

/-- A graft at a position replaces what the row has there: by a node, or past all others by zero. -/
theorem graft (hn : Row h d n xs) (hp : p < 2 ^ d) (hle : p ≤ xs.length) (hm : Row h 0 m zs)
    (hz : zs = [] → xs.length ≤ p + 1) (hg : Grafted h (Gindex.digits d p) n m n') :
    Row h d n' (splice xs zs p) := by
  induction d generalizing p n xs n' with
  | zero =>
    have hx := hn.length_le
    obtain rfl : p = 0 := by simpa using hp
    cases hg
    rw [splice, List.take_zero, List.nil_append, List.drop_of_length_le (by simpa using hx),
      List.append_nil]
    exact hm
  | succ d ih =>
    obtain ⟨serial, l, r, ys, ws, rfl, hl, hr, hfull, hside⟩ :=
      hn.halves (Gindex.length_digits _ p) hg
    have hy := hl.length_le
    rw [List.length_append] at hle hz
    rcases Nat.lt_or_ge p (2 ^ d) with hlt | hge
    · rw [Gindex.digits_of_lt hlt] at hside
      have hp' : p ≤ ys.length ∧ (ws = [] ∨ p < ys.length) := by
        rcases hfull with rfl | hfull
        · exact ⟨by simpa using hle, .inl rfl⟩
        · exact ⟨by omega, .inr (by omega)⟩
      rw [splice_append_left hp'.1 hp'.2]
      cases hside with
      | left hside =>
        refine .pair (ih hl hlt hp'.1 (fun e => by have := hz e; omega) hside) hr ?_
        rcases hp'.2 with rfl | hin
        · exact .inl rfl
        cases zs with
        | nil =>
          -- zero comes past all others, so there are none in the right half
          have := hz rfl
          exact .inl (List.length_eq_zero_iff.1 (by omega))
        | cons z zs =>
          have one := hm.length_le
          have hlen : (z :: zs).length = 1 := by simp at one ⊢; omega
          exact hfull.imp_right fun full => (length_splice hin hlen).trans full
    · rw [Gindex.digits_of_le hge hp] at hside
      have full : ys.length = 2 ^ d := by
        rcases hfull with rfl | hfull
        · rw [List.length_nil] at hle; omega
        · exact hfull
      rw [splice_append_right (by omega), full]
      rw [pow_succ] at hp
      cases hside with
      | right hside =>
        refine .pair hl (ih hr (by omega) (by omega) (fun e => ?_) hside) (.inr full)
        have := hz e
        omega

end Row

end Node

end SszMerkle
