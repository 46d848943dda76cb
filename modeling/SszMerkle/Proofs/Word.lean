/-
What the depth of a number of leaves means: `depthFor v` is the least depth whose tree has room for
`v` leaves. A power of two fills its tree.
-/
import SszMerkle.Word
import Mathlib.Tactic

namespace SszMerkle.Word

@[simp] theorem pow2_eq (d : Nat) : pow2 d = 2 ^ d := rfl

theorem bound_eq : bound = 2 ^ 64 := rfl

theorem next_eq {n : Nat} (h : n + 1 < bound) : next n = .ok (n + 1) := if_pos h

/-! ## The depth of a number of leaves -/

/-- A tree of depth `d` has room for `v` leaves exactly if `d` reaches the depth for `v`. -/
theorem depthFor_le_iff {v d : Nat} : depthFor v ≤ d ↔ v ≤ 2 ^ d := by
  unfold depthFor
  have one := Nat.one_le_two_pow (n := d)
  split
  · omega
  · rename_i h
    have : v - 1 ≠ 0 := by omega
    rw [Nat.succ_le_iff, Nat.log2_lt this]
    omega

theorem le_two_pow_depthFor (v : Nat) : v ≤ 2 ^ depthFor v := depthFor_le_iff.1 le_rfl

theorem depthFor_mono {v w : Nat} (h : v ≤ w) : depthFor v ≤ depthFor w :=
  depthFor_le_iff.2 (h.trans (le_two_pow_depthFor w))

theorem depthFor_le_64 {v : Nat} (h : v < bound) : depthFor v ≤ 64 :=
  depthFor_le_iff.2 (by rw [bound_eq] at h; omega)

@[simp] theorem depthFor_zero : depthFor 0 = 0 := rfl

@[simp] theorem depthFor_one : depthFor 1 = 0 := rfl

theorem depthFor_two_pow (d : Nat) : depthFor (2 ^ d) = d := by
  apply le_antisymm (depthFor_le_iff.2 le_rfl)
  have := le_two_pow_depthFor (2 ^ d)
  exact (Nat.pow_le_pow_iff_right (by norm_num)).1 this

/-! ## Powers of two -/

theorem isPowerOfTwo_iff {v : Nat} : isPowerOfTwo v = true ↔ ∃ d, v = 2 ^ d := by
  unfold isPowerOfTwo
  simp only [Bool.and_eq_true, bne_iff_ne, ne_eq, pow2_eq, beq_iff_eq]
  constructor
  · rintro ⟨-, h⟩
    exact ⟨_, h.symm⟩
  · rintro ⟨d, rfl⟩
    simp

/-- A number that is no power of two leaves room in its tree. -/
theorem lt_two_pow_depthFor {v : Nat} (h : isPowerOfTwo v = false) : v < 2 ^ depthFor v := by
  refine lt_of_le_of_ne (le_two_pow_depthFor v) fun e => ?_
  rw [isPowerOfTwo_iff.2 ⟨_, e⟩] at h
  cases h

theorem eq_two_pow_depthFor {v : Nat} (h : isPowerOfTwo v = true) : v = 2 ^ depthFor v := by
  obtain ⟨d, rfl⟩ := isPowerOfTwo_iff.1 h
  rw [depthFor_two_pow]

end SszMerkle.Word
