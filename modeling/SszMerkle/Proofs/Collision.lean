/-
What an accepted proof binds. Folding a branch hands one pair of roots a level to the hasher, in the
order of the two siblings. Going down from the root, two folds that end alike part at a level only
where two different pairs have one digest, so of one gindex and root there is one proof, or a
collision among the hashes that checking two of them computes.
-/
import SszMerkle.Proof
import SszMerkle.Proofs.Address

namespace SszMerkle

/-- Two different pairs of roots, left before right, have one digest. -/
def Hasher.Collides (h : Hasher) (p q : Root × Root) : Prop :=
  p ≠ q ∧ h.combine p.1 p.2 = h.combine q.1 q.2

variable {h : Hasher} {branch branch' : List Root} {g : Gindex} {root leaf leaf' : Root} {k n : Nat}

/-- The pair that folding hands to the hasher at level `k`: the root folded from the siblings below,
and the sibling there. -/
def foldPair (h : Hasher) (branch : List Root) (g : Gindex) (leaf : Root) (k : Nat) : Root × Root :=
  let node := foldBranch h (branch.take k) g leaf
  let sibling := branch.getD k .zero
  if (Gindex.parent^[k] g).isLeftChild then (node, sibling) else (sibling, node)

/-- One more sibling folds to the digest of the pair at its level. -/
theorem foldBranch_take_succ (hk : k < branch.length) : foldBranch h (branch.take (k + 1)) g leaf =
    h.combine (foldPair h branch g leaf k).1 (foldPair h branch g leaf k).2 := by
  induction branch generalizing g leaf k with
  | nil => simp at hk
  | cons sibling rest ih =>
    cases k with
    | zero =>
      unfold foldPair
      rw [List.take_succ_cons, List.take_zero, List.take_zero, foldBranch, foldBranch, foldBranch,
        List.getD_cons_zero, Function.iterate_zero, id]
      split <;> rfl
    | succ k =>
      rw [List.take_succ_cons, foldBranch, ih (by simpa using hk)]
      rfl

/-- A level hands over the same pair only for the same node and the same sibling. -/
theorem node_sibling_of_foldPair (e : foldPair h branch g leaf k = foldPair h branch' g leaf' k) :
    foldBranch h (branch.take k) g leaf = foldBranch h (branch'.take k) g leaf' ∧
      branch.getD k .zero = branch'.getD k .zero := by
  unfold foldPair at e
  split at e
  · exact Prod.mk.inj e
  · exact (Prod.mk.inj e).symm

/-- Two folds of `n` siblings that give one root have the same leaf and siblings, or collide. -/
theorem foldBranch_binds (hn : n ≤ branch.length) (hn' : n ≤ branch'.length)
    (e : foldBranch h (branch.take n) g leaf = foldBranch h (branch'.take n) g leaf') :
    (leaf = leaf' ∧ branch.take n = branch'.take n) ∨
      ∃ k < n, h.Collides (foldPair h branch g leaf k) (foldPair h branch' g leaf' k) := by
  -- from the root down: what is equal above level `n` is the digest of the two pairs there
  induction n with
  | zero => exact .inl ⟨e, rfl⟩
  | succ n ih =>
    rw [foldBranch_take_succ hn, foldBranch_take_succ hn'] at e
    by_cases hp : foldPair h branch g leaf n = foldPair h branch' g leaf' n
    · obtain ⟨hnode, hsibling⟩ := node_sibling_of_foldPair hp
      rcases ih (by omega) (by omega) hnode with ⟨hleaf, hbelow⟩ | ⟨k, hk, hc⟩
      · refine .inl ⟨hleaf, ?_⟩
        rw [List.getD_eq_getElem?_getD, List.getD_eq_getElem?_getD, List.getElem?_eq_getElem hn,
          List.getElem?_eq_getElem hn', Option.getD_some, Option.getD_some] at hsibling
        rw [← List.take_append_getElem hn, ← List.take_append_getElem hn', hbelow, hsibling]
      · exact .inr ⟨k, by omega, hc⟩
    · exact .inr ⟨n, by omega, hp, e⟩

/-- Of one gindex and root there is one leaf and one branch to be accepted; else there is a level
between them at which the two folds hand different pairs to the hasher and get one digest. -/
theorem verifyBranch_binds (hv : verifyBranch h branch g root leaf = true)
    (hv' : verifyBranch h branch' g root leaf' = true) : (leaf = leaf' ∧ branch = branch') ∨
      ∃ k < g.depth, h.Collides (foldPair h branch g leaf k) (foldPair h branch' g leaf' k) := by
  unfold verifyBranch at hv hv'
  rw [Bool.and_eq_true, beq_iff_eq, beq_iff_eq] at hv hv'
  obtain ⟨hl, hf⟩ := hv
  obtain ⟨hl', hf'⟩ := hv'
  have e : foldBranch h (branch.take g.depth) g leaf = foldBranch h (branch'.take g.depth) g leaf' := by
    rw [List.take_of_length_le hl.le, List.take_of_length_le hl'.le, hf, hf']
  have bound := foldBranch_binds hl.ge hl'.ge e
  rw [List.take_of_length_le hl.le, List.take_of_length_le hl'.le] at bound
  exact bound

/-- Under a hasher with one digest for all, the proofs of two leaves at one place are accepted, and
the pairs at the first level collide. -/
theorem verifyBranch_of_one_digest :
    let h : Hasher := ⟨"constant", fun _ _ => .zero, fun _ => .zero, .build _⟩
    let g : Gindex := ⟨5, by decide⟩
    let one := Root.ofBytes [1]
    verifyBranch h [one, one] g .zero .zero = true ∧ verifyBranch h [one, one] g .zero one = true ∧
      ∃ k < 2, h.Collides (foldPair h [one, one] g .zero k) (foldPair h [one, one] g one k) := by
  intro h g one
  have hv : verifyBranch h [one, one] g .zero .zero = true := by decide
  have hv' : verifyBranch h [one, one] g .zero one = true := by decide
  refine ⟨hv, hv', ?_⟩
  rcases verifyBranch_binds hv hv' with ⟨e, -⟩ | collision
  · exact absurd e (by decide)
  · rw [show g.depth = 2 by decide] at collision
    exact collision

end SszMerkle
