/-
The branch of a node. From parent to parent every node leads to the root, and the siblings passed on the
way are its branch: there is one in each level from the root's children down to the node's own, and none
of them is the node or an ancestor of it. So an opening that keeps what lies on the branch has one place
for each level, and never takes the target's own path for a sibling.
-/
import SszMerkle.Proofs.Address

namespace SszMerkle.Gindex

variable {c t : Gindex} {k : Nat}

/-! ## The way up -/

@[simp] theorem iterate_parent_root (k : Nat) : parent^[k] root = root := Function.iterate_fixed rfl k

/-- The way to the root has as many steps as the node is deep, and ends there. -/
theorem iterate_parent_eq_root_iff (ht : 0 < t.val) : parent^[k] t = root ↔ t.depth ≤ k := by
  constructor
  · intro e
    by_contra! hk
    obtain ⟨-, hd, -⟩ := depth_position_ancestor ht hk.le
    rw [e, depth_root] at hd
    omega
  · intro hk
    obtain ⟨hv, hd, -⟩ := depth_position_ancestor ht le_rfl
    have top : parent^[t.depth] t = root := eq_root hv (by omega)
    rw [← Nat.sub_add_cancel hk, Function.iterate_add_apply, top, iterate_parent_root]

/-- The sibling of an ancestor lies in the level of the ancestor, and is not the ancestor. -/
theorem depth_sibling_ancestor (ht : 0 < t.val) (hk : k < t.depth) :
    (parent^[k] t).sibling.depth = t.depth - k ∧ (parent^[k] t).sibling ≠ parent^[k] t := by
  obtain ⟨hv, hd, -⟩ := depth_position_ancestor ht hk.le
  have hd' : (parent^[k] t).depth = (t.depth - k - 1) + 1 := by omega
  obtain ⟨hsd, hsp⟩ := depth_position_sibling hv hd'
  refine ⟨by omega, fun e => ?_⟩
  rw [e, xor_one_eq] at hsp
  omega

/-! ## The branch -/

section Branch

variable (ht : 0 < t.val)
include ht

theorem isProofOf_sibling_ancestor (hk : k < t.depth) : (parent^[k] t).sibling.isProofOf t = true := by
  obtain ⟨hd, -⟩ := depth_sibling_ancestor ht hk
  rw [isProofOf_iff_sibling ht, hd]
  refine ⟨by omega, by omega, ?_⟩
  rw [Nat.sub_sub_self hk.le]

/-- What lies on the branch is what the way up passes by. -/
theorem isProofOf_iff_passed :
    c.isProofOf t = true ↔ ∃ k, parent^[k] t ≠ root ∧ c = (parent^[k] t).sibling := by
  constructor
  · intro h
    obtain ⟨h0, hle, e⟩ := (isProofOf_iff_sibling ht).1 h
    refine ⟨t.depth - c.depth, ?_, e⟩
    rw [ne_eq, iterate_parent_eq_root_iff ht]
    omega
  · rintro ⟨k, hk, rfl⟩
    rw [ne_eq, iterate_parent_eq_root_iff ht, not_le] at hk
    exact isProofOf_sibling_ancestor ht hk

theorem existsUnique_isProofOf {d : Nat} (h0 : 0 < d) (hd : d ≤ t.depth) :
    ∃! c : Gindex, c.depth = d ∧ c.isProofOf t = true := by
  have hk : t.depth - d < t.depth := by omega
  refine ⟨(parent^[t.depth - d] t).sibling, ⟨?_, isProofOf_sibling_ancestor ht hk⟩, ?_⟩
  · rw [(depth_sibling_ancestor ht hk).1, Nat.sub_sub_self hd]
  · rintro c ⟨rfl, h⟩
    exact ((isProofOf_iff_sibling ht).1 h).2.2

/-- The ancestor in a level is not the sibling of the ancestor in that level. -/
theorem not_isProofOf_ancestor (k : Nat) : (parent^[k] t).isProofOf t = false := by
  rw [Bool.eq_false_iff]
  intro h
  obtain ⟨h0, -, e⟩ := (isProofOf_iff_sibling ht).1 h
  have hk : k < t.depth := by
    by_contra! hk
    rw [(iterate_parent_eq_root_iff ht).2 hk, depth_root] at h0
    omega
  -- it would be the sibling of the ancestor in its own level, which it is itself
  obtain ⟨-, hd, -⟩ := depth_position_ancestor ht hk.le
  rw [hd, Nat.sub_sub_self hk.le] at e
  exact (depth_sibling_ancestor ht hk).2 e.symm

end Branch

/-- The way up from a node ends at the root, and what lies on the branch of the node is the sibling of a
node on the way below the root. Each level down to the node's own has one such sibling, no other level has
any, and no node on the way is one. -/
theorem isProofOf_once_per_level (ht : 0 < t.val) :
    (∀ k, parent^[k] t = root ↔ t.depth ≤ k) ∧
    (∀ c : Gindex, c.isProofOf t = true ↔ ∃ k, parent^[k] t ≠ root ∧ c = (parent^[k] t).sibling) ∧
    (∀ d, 0 < d → d ≤ t.depth → ∃! c : Gindex, c.depth = d ∧ c.isProofOf t = true) ∧
    (∀ c : Gindex, c.isProofOf t = true → 0 < c.depth ∧ c.depth ≤ t.depth) ∧
    ∀ k, (parent^[k] t).isProofOf t = false := by
  refine ⟨fun _ => iterate_parent_eq_root_iff ht, fun _ => isProofOf_iff_passed ht,
    fun _ h0 hd => existsUnique_isProofOf ht h0 hd, fun c h => ?_, not_isProofOf_ancestor ht⟩
  obtain ⟨h0, hle, -⟩ := (isProofOf_iff_sibling ht).1 h
  exact ⟨h0, hle⟩

/-- Node 11 has the branch 10, 4, 3: the siblings of 11, of its parent 5 and of the parent's parent 2. -/
theorem isProofOf_eleven :
    let eleven : Gindex := ⟨11, by decide⟩
    0 < eleven.val ∧ ∀ c : Gindex, c.isProofOf eleven = true ↔
      c = ⟨10, by decide⟩ ∨ c = ⟨4, by decide⟩ ∨ c = ⟨3, by decide⟩ := by
  intro eleven
  have pos : 0 < eleven.val := by decide
  have three : eleven.depth = 3 := by decide
  obtain ⟨top, passed, -⟩ := isProofOf_once_per_level pos
  refine ⟨pos, fun c => ?_⟩
  simp only [passed, ne_eq, top, three, not_le]
  constructor
  · rintro ⟨k, hk, rfl⟩
    interval_cases k <;> decide
  · rintro (rfl | rfl | rfl)
    · exact ⟨0, by decide, by decide⟩
    · exact ⟨1, by decide, by decide⟩
    · exact ⟨2, by decide, by decide⟩

end SszMerkle.Gindex
