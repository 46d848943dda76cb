/-
Generalized indices as a depth and a position: a gindex other than zero is `2 ^ depth + position`
with `position < 2 ^ depth`, and that determines both. Parent, sibling, tail and split are read off
the two numbers, and the path holds the binary digits of the position.
-/
import SszMerkle.Gindex
import SszMerkle.Proofs.Word
import Mathlib.Tactic

namespace SszMerkle

theorem xor_one_eq (p : Nat) : p ^^^ 1 = 2 * (p / 2) + (1 - p % 2) := by
  have hd : (p ^^^ 1) / 2 = p / 2 := by rw [Nat.xor_div_two]; simp
  have hm : (p ^^^ 1) % 2 = 1 ↔ ¬ p % 2 = 1 := by
    rw [Nat.xor_mod_two_eq_one]
    omega
  omega

theorem two_pow_or {d p : Nat} (hp : p < 2 ^ d) : 2 ^ d ||| p = 2 ^ d + p := by
  simpa using (Nat.two_pow_add_eq_or_of_lt hp 1).symm

namespace Gindex

variable {g : Gindex}

@[ext] theorem ext {a b : Gindex} (h : a.val = b.val) : a = b := by
  cases a; cases b; cases h; rfl

/-! ## Depth and position -/

theorem log2_two_pow_add {d p : Nat} (hp : p < 2 ^ d) : (2 ^ d + p).log2 = d := by
  rw [Nat.log2_eq_iff (by omega), pow_succ]
  omega

/-- Depth and position are those of any way to write the number. -/
theorem depth_position_of_val {d p : Nat} (h : g.val = 2 ^ d + p) (hp : p < 2 ^ d) :
    g.depth = d ∧ g.position = p := by
  have hd : g.depth = d := by unfold depth; rw [h, log2_two_pow_add hp]
  refine ⟨hd, ?_⟩
  unfold position
  rw [hd, Word.pow2_eq, h, ← two_pow_or hp]
  -- bit by bit: the exclusive or clears the leading one and nothing else
  apply Nat.eq_of_testBit_eq
  intro i
  rw [Nat.testBit_xor, Nat.testBit_or]
  by_cases hi : d = i
  · subst hi
    simp [Nat.testBit_lt_two_pow hp]
  · simp [Nat.testBit_two_pow_of_ne hi]

theorem exists_val (hg : 0 < g.val) : ∃ p, g.val = 2 ^ g.depth + p ∧ p < 2 ^ g.depth := by
  have lo : 2 ^ g.depth ≤ g.val := Nat.log2_self_le hg.ne'
  have hi : g.val < 2 ^ (g.depth + 1) := Nat.lt_log2_self
  rw [pow_succ] at hi
  exact ⟨g.val - 2 ^ g.depth, by omega, by omega⟩

theorem val_eq (hg : 0 < g.val) : g.val = 2 ^ g.depth + g.position := by
  obtain ⟨p, h, hp⟩ := exists_val hg
  rw [(depth_position_of_val h hp).2]
  exact h

theorem position_lt_two_pow (hg : 0 < g.val) : g.position < 2 ^ g.depth := by
  obtain ⟨p, h, hp⟩ := exists_val hg
  rw [(depth_position_of_val h hp).2]
  exact hp

theorem eq_of_depth_position {a b : Gindex} (ha : 0 < a.val) (hb : 0 < b.val)
    (hd : a.depth = b.depth) (hp : a.position = b.position) : a = b := by
  ext
  rw [val_eq ha, val_eq hb, hd, hp]

@[simp] theorem val_root : root.val = 1 := rfl

@[simp] theorem depth_root : root.depth = 0 := rfl

@[simp] theorem position_root : root.position = 0 := rfl

theorem isRoot_iff (hg : 0 < g.val) : g.isRoot = true ↔ g.depth = 0 := by
  unfold isRoot
  rw [beq_iff_eq]
  constructor
  · intro h
    unfold depth
    rw [h]
    rfl
  · intro h
    have hp := position_lt_two_pow hg
    rw [h, pow_zero, Nat.lt_one_iff] at hp
    rw [val_eq hg, h, hp]
    rfl

theorem not_isRoot {d : Nat} (hg : 0 < g.val) (hd : g.depth = d + 1) : g.isRoot = false := by
  rw [Bool.eq_false_iff, ne_eq, isRoot_iff hg]
  omega

theorem eq_root (hg : 0 < g.val) (hd : g.depth = 0) : g = root :=
  ext (beq_iff_eq.1 ((isRoot_iff hg).2 hd))

/-- The node at a position of a level: there is one for each position below the level's width, and
no gindex reaches below level 63. -/
theorem ofPosition_eq {p d : Nat} (hd : d < 64) (hp : p < 2 ^ d) :
    ∃ g, ofPosition p d = .ok g ∧ 0 < g.val ∧ g.depth = d ∧ g.position = p := by
  have hv : Word.pow2 d ||| p = 2 ^ d + p := two_pow_or hp
  have lt : d < 64 ∧ p < Word.pow2 d := ⟨hd, hp⟩
  refine ⟨_, dif_pos lt, ?_, depth_position_of_val hv hp⟩
  show 0 < Word.pow2 d ||| p
  rw [hv]
  positivity

theorem ofPosition_error {p d : Nat} (h : ¬ (d < 64 ∧ p < 2 ^ d)) :
    ofPosition p d = .error (.malformedIndex p d) := dif_neg h

theorem ofPosition_ok {p d : Nat} (h : ofPosition p d = .ok g) :
    0 < g.val ∧ g.depth = d ∧ g.position = p := by
  by_cases hc : d < 64 ∧ p < 2 ^ d
  · obtain ⟨g', hg', hv, hd, hp⟩ := ofPosition_eq hc.1 hc.2
    rw [hg'] at h
    cases h
    exact ⟨hv, hd, hp⟩
  · rw [ofPosition_error hc] at h
    cases h

theorem ofPosition_self (hg : 0 < g.val) : ofPosition g.position g.depth = .ok g := by
  obtain ⟨c, hc, hv, hd, hp⟩ := ofPosition_eq g.depth_lt (position_lt_two_pow hg)
  rw [hc, eq_of_depth_position hv hg hd hp]

/-- Gindex 0 has no levels above it. -/
theorem val_pos_of_depth (hd : 0 < g.depth) : 0 < g.val := by
  rcases Nat.eq_zero_or_pos g.val with h0 | hpos
  · unfold depth at hd
    rw [h0] at hd
    exact absurd hd (by decide)
  · exact hpos

/-! ## Parent and sibling -/

section Step

variable {d : Nat} (hg : 0 < g.val) (hd : g.depth = d + 1)
include hg hd

theorem val_parent : g.parent.val = 2 ^ d + g.position / 2 := by
  have hv := val_eq hg
  rw [hd, pow_succ] at hv
  unfold parent
  rw [not_isRoot hg hd, if_neg Bool.false_ne_true]
  show g.val / 2 = _
  omega

theorem parent_pos : 0 < g.parent.val := by
  rw [val_parent hg hd]
  positivity

theorem depth_position_parent : g.parent.depth = d ∧ g.parent.position = g.position / 2 := by
  have hp := position_lt_two_pow hg
  rw [hd, pow_succ] at hp
  exact depth_position_of_val (val_parent hg hd) (by omega)

theorem val_sibling : g.sibling.val = 2 ^ (d + 1) + (g.position ^^^ 1) := by
  have hv := val_eq hg
  rw [hd, pow_succ] at hv
  unfold sibling
  rw [not_isRoot hg hd, if_neg Bool.false_ne_true]
  show g.val ^^^ 1 = _
  rw [xor_one_eq, xor_one_eq, hv, pow_succ]
  omega

theorem sibling_pos : 0 < g.sibling.val := by
  rw [val_sibling hg hd]
  positivity

theorem depth_position_sibling : g.sibling.depth = d + 1 ∧ g.sibling.position = g.position ^^^ 1 := by
  have hp := position_lt_two_pow hg
  rw [hd] at hp
  refine depth_position_of_val (val_sibling hg hd) ?_
  rw [pow_succ] at hp ⊢
  rw [xor_one_eq]
  omega

theorem isLeftChild_iff : g.isLeftChild = true ↔ g.position % 2 = 0 := by
  have hv := val_eq hg
  rw [hd, pow_succ] at hv
  unfold isLeftChild
  rw [Nat.testBit_zero, Bool.not_eq_true', decide_eq_false_iff_not]
  omega

end Step

theorem depth_position_ancestor (hg : 0 < g.val) {k : Nat} (hk : k ≤ g.depth) :
    0 < (parent^[k] g).val ∧ (parent^[k] g).depth = g.depth - k ∧
      (parent^[k] g).position = g.position / 2 ^ k := by
  induction k with
  | zero => exact ⟨hg, rfl, by simp⟩
  | succ k ih =>
    obtain ⟨hv, hd, hp⟩ := ih (by omega)
    have hd' : (parent^[k] g).depth = (g.depth - (k + 1)) + 1 := by omega
    obtain ⟨hd'', hp''⟩ := depth_position_parent hv hd'
    rw [Function.iterate_succ_apply']
    exact ⟨parent_pos hv hd', hd'', by rw [hp'', hp, Nat.div_div_eq_div_mul, pow_succ]⟩

/-- The sibling of an ancestor below the root lies in its level. -/
theorem position_sibling_lt (hg : 0 < g.val) {k : Nat} (hk : k < g.depth) :
    g.position / 2 ^ k ^^^ 1 < 2 ^ (g.depth - k) := by
  obtain ⟨hv, hd, hp⟩ := depth_position_ancestor hg hk.le
  have hd' : (parent^[k] g).depth = (g.depth - k - 1) + 1 := by omega
  obtain ⟨hsd, hsp⟩ := depth_position_sibling hv hd'
  have hlt := position_lt_two_pow (sibling_pos hv hd')
  rwa [hsp, hp, hsd, show g.depth - k - 1 + 1 = g.depth - k by omega] at hlt

theorem val_ancestor (hg : 0 < g.val) {k : Nat} (hk : k ≤ g.depth) :
    (parent^[k] g).val = g.val >>> k := by
  obtain ⟨hv, hd, hp⟩ := depth_position_ancestor hg hk
  have e : 2 ^ g.depth = 2 ^ k * 2 ^ (g.depth - k) := by rw [← pow_add]; congr 1; omega
  rw [val_eq hv, hd, hp, Nat.shiftRight_eq_div_pow, val_eq hg, e, Nat.mul_add_div (by positivity)]

/-- A node is on the branch of a target exactly if it is the sibling of the target or of one of its
ancestors, and its depth says of which. -/
theorem isProofOf_iff_sibling {c t : Gindex} (ht : 0 < t.val) :
    c.isProofOf t = true ↔
      0 < c.depth ∧ c.depth ≤ t.depth ∧ c = (parent^[t.depth - c.depth] t).sibling := by
  unfold isProofOf
  simp only [Bool.and_eq_true, decide_eq_true_eq, beq_iff_eq, and_assoc]
  refine and_congr_right fun h0 => and_congr_right fun hle => ?_
  obtain ⟨hv, hd, -⟩ := depth_position_ancestor ht (k := t.depth - c.depth) (by omega)
  have hd' : (parent^[t.depth - c.depth] t).depth = (c.depth - 1) + 1 := by omega
  rw [← val_ancestor ht (by omega), Gindex.ext_iff, sibling, not_isRoot hv hd', if_neg Bool.false_ne_true]

theorem isProofOf_iff {c t : Gindex} (hc : 0 < c.val) (ht : 0 < t.val) :
    c.isProofOf t = true ↔
      0 < c.depth ∧ c.depth ≤ t.depth ∧ c.position = (t.position / 2 ^ (t.depth - c.depth)) ^^^ 1 := by
  rw [isProofOf_iff_sibling ht]
  refine and_congr_right fun h0 => and_congr_right fun hle => ?_
  obtain ⟨hv, hd, hp⟩ := depth_position_ancestor ht (k := t.depth - c.depth) (by omega)
  have hd' : (parent^[t.depth - c.depth] t).depth = (c.depth - 1) + 1 := by omega
  obtain ⟨hsd, hsp⟩ := depth_position_sibling hv hd'
  rw [← hp, ← hsp]
  constructor
  · exact fun h => congrArg position h
  · exact fun h => eq_of_depth_position hc (sibling_pos hv hd') (by omega) h

/-! ## Tail and split -/

/-- The first step is the highest digit of the position, the tail has the others. -/
theorem tail?_eq {d : Nat} (hg : 0 < g.val) (hd : g.depth = d + 1) :
    ∃ t, g.tail? = some t ∧ 0 < t.val ∧ t.depth = d ∧ t.position = g.position % 2 ^ d := by
  have hp := position_lt_two_pow hg
  have hlt : g.position % 2 ^ d < 2 ^ d := Nat.mod_lt _ (by positivity)
  have hv : g.position ||| Word.pow2 g.depth / 2 = 2 ^ d + g.position % 2 ^ d := by
    rw [hd, Word.pow2_eq, pow_succ, Nat.mul_div_cancel _ (by norm_num), ← two_pow_or hlt]
    -- bit by bit: the leading one moves down onto the highest digit of the position
    apply Nat.eq_of_testBit_eq
    intro i
    rw [Nat.testBit_or, Nat.testBit_or, Nat.testBit_mod_two_pow, Nat.testBit_two_pow]
    rcases lt_trichotomy i d with h | rfl | h
    · simp [h, h.ne']
    · simp
    · have : g.position.testBit i = false :=
        Nat.testBit_lt_two_pow (lt_of_lt_of_le hp (Nat.pow_le_pow_right (by norm_num) (by omega)))
      simp [this, h.ne]
  unfold tail?
  rw [not_isRoot hg hd, if_neg Bool.false_ne_true]
  refine ⟨_, rfl, ?_, depth_position_of_val hv hlt⟩
  show 0 < g.position ||| Word.pow2 g.depth / 2
  rw [hv]
  positivity

theorem splitAt_of_le {b : Nat} (h : g.depth ≤ b) : g.splitAt b = (g, root) := if_pos h

/-- A split hands the first `b` digits of the position to the ancestor, the others to the rest. -/
theorem splitAt_eq {b : Nat} (hg : 0 < g.val) (hb : b < g.depth) :
    ∃ outer inner, g.splitAt b = (outer, inner) ∧
      0 < outer.val ∧ outer.depth = b ∧ outer.position = g.position / 2 ^ (g.depth - b) ∧
      0 < inner.val ∧ inner.depth = g.depth - b ∧ inner.position = g.position % 2 ^ (g.depth - b) := by
  obtain ⟨hv, hd, hp⟩ := depth_position_ancestor hg (k := g.depth - b) (by omega)
  have hlt : g.position % 2 ^ (g.depth - b) < 2 ^ (g.depth - b) := Nat.mod_lt _ (by positivity)
  have hm : g.val % Word.pow2 (g.depth - b) ||| Word.pow2 (g.depth - b) =
      2 ^ (g.depth - b) + g.position % 2 ^ (g.depth - b) := by
    have e : 2 ^ g.depth = 2 ^ (g.depth - b) * 2 ^ b := by rw [← pow_add]; congr 1; omega
    rw [Word.pow2_eq, val_eq hg, e, Nat.mul_add_mod, Nat.or_comm, two_pow_or hlt]
  have ho := val_ancestor hg (k := g.depth - b) (by omega)
  unfold splitAt
  rw [if_neg (by omega)]
  refine ⟨_, _, rfl, ?_, ?_, ?_, ?_, depth_position_of_val hm hlt⟩
  · show 0 < g.val >>> (g.depth - b)
    rw [← ho]
    exact hv
  · show (g.val >>> (g.depth - b)).log2 = b
    rw [← ho]
    show (parent^[g.depth - b] g).depth = b
    omega
  · rw [← hp]
    congr 1
    exact ext ho.symm
  · show 0 < g.val % Word.pow2 (g.depth - b) ||| Word.pow2 (g.depth - b)
    rw [hm]
    positivity

/-- The depths of the two parts of a split add up, and the first is at most the boundary. -/
theorem splitAt_depths (hg : 0 < g.val) (b : Nat) : ∃ outer inner, g.splitAt b = (outer, inner) ∧
    0 < outer.val ∧ 0 < inner.val ∧ outer.depth ≤ b ∧ outer.depth + inner.depth = g.depth := by
  rcases Nat.lt_or_ge b g.depth with hb | hb
  · obtain ⟨outer, inner, h, hov, hod, -, hiv, hid, -⟩ := splitAt_eq hg hb
    exact ⟨outer, inner, h, hov, hiv, hod.le, by omega⟩
  · exact ⟨g, root, splitAt_of_le hb, hg, Nat.one_pos, hb, rfl⟩

/-! ## The path -/

theorem getElem_path {i : Nat} (hg : 0 < g.val) (h : i < g.path.length) :
    g.path[i] = g.position.testBit (g.depth - 1 - i) := by
  have hi : i < g.depth := by simpa using h
  have : g.depth - 1 - i < g.depth := by omega
  simp only [path, List.getElem_map, List.getElem_reverse, List.getElem_range, List.length_range]
  rw [val_eq hg, Nat.testBit_two_pow_add_gt this]

@[simp] theorem path_root : root.path = [] := rfl

theorem path_ne_nil {d : Nat} (hd : g.depth = d + 1) : g.path ≠ [] := by
  rw [← List.length_pos_iff, length_path, hd]
  exact d.succ_pos

/-- The `d` binary digits of a position, highest first. -/
def digits (d p : Nat) : List Bool := (List.range d).reverse.map p.testBit

@[simp] theorem digits_zero (p : Nat) : digits 0 p = [] := rfl

@[simp] theorem length_digits (d p : Nat) : (digits d p).length = d := by simp [digits]

theorem digits_of_lt {d p : Nat} (hp : p < 2 ^ d) : digits (d + 1) p = false :: digits d p := by
  simp [digits, List.range_succ, Nat.testBit_lt_two_pow hp]

theorem digits_of_le {d p : Nat} (hle : 2 ^ d ≤ p) (hp : p < 2 ^ (d + 1)) :
    digits (d + 1) p = true :: digits d (p - 2 ^ d) := by
  obtain ⟨q, rfl⟩ := Nat.exists_eq_add_of_le hle
  have hq : q < 2 ^ d := by rw [pow_succ] at hp; omega
  rw [Nat.add_sub_cancel_left]
  simp only [digits, List.range_succ, List.reverse_append, List.reverse_singleton,
    List.singleton_append, List.map_cons, Nat.testBit_two_pow_add_eq, Nat.testBit_lt_two_pow hq,
    Bool.not_false]
  refine congrArg _ (List.map_congr_left fun i hi => ?_)
  rw [List.mem_reverse, List.mem_range] at hi
  exact Nat.testBit_two_pow_add_gt hi q

theorem path_eq_digits (hg : 0 < g.val) : g.path = digits g.depth g.position := by
  refine List.map_congr_left fun i hi => ?_
  rw [List.mem_reverse, List.mem_range] at hi
  rw [val_eq hg, Nat.testBit_two_pow_add_gt hi]

/-- The path to a position writes the position. -/
theorem ofPosition_path {d p : Nat} (hd : d < 64) (hp : p < 2 ^ d) :
    ∃ g, ofPosition p d = .ok g ∧ g.path = digits d p := by
  obtain ⟨g, hg, hv, rfl, rfl⟩ := ofPosition_eq hd hp
  exact ⟨g, hg, path_eq_digits hv⟩

/-- The path of the parent lacks the last step. -/
theorem path_parent {d : Nat} (hg : 0 < g.val) (hd : g.depth = d + 1) :
    g.path = g.parent.path ++ [!g.isLeftChild] := by
  obtain ⟨hpd, hpp⟩ := depth_position_parent hg hd
  have hl := isLeftChild_iff hg hd
  apply List.ext_getElem
  · simp [hpd, hd]
  · intro i h1 h2
    rw [getElem_path hg, List.getElem_append]
    split
    · rename_i h
      have hi : i < d := by simpa [hpd] using h
      rw [getElem_path (parent_pos hg hd), hpp, hpd, hd, Nat.testBit_div_two]
      congr 1
      omega
    · rename_i h
      have hi : i = d := by
        simp only [length_path, hpd, hd, not_lt] at h h1
        omega
      rw [hd, show d + 1 - 1 - i = 0 by omega, Nat.testBit_zero, List.getElem_singleton]
      cases hb : g.isLeftChild <;> simp [hb] at hl ⊢ <;> omega

/-- The path of the tail lacks the first step. -/
theorem path_tail? {d : Nat} {t : Gindex} (hg : 0 < g.val) (hd : g.depth = d + 1)
    (ht : g.tail? = some t) : g.path = (!g.startsLeft) :: t.path := by
  obtain ⟨t', ht', hv, htd, htp⟩ := tail?_eq hg hd
  rw [ht] at ht'
  cases ht'
  apply List.ext_getElem
  · simp [htd, hd]
  · intro i h1 h2
    rw [getElem_path hg, List.getElem_cons]
    split
    · subst i
      have : g.val.testBit d = g.position.testBit d := by
        rw [val_eq hg, hd, Nat.testBit_two_pow_add_gt (by omega)]
      simp [startsLeft, hd, this]
    · have hi : i - 1 < d := by simp at h1; omega
      rw [getElem_path hv, htp, htd, hd, Nat.testBit_mod_two_pow]
      have : d - 1 - (i - 1) < d := by omega
      rw [show d + 1 - 1 - i = d - 1 - (i - 1) by omega]
      simp [this]

/-- The paths of a split, one after the other, are the whole path. -/
theorem path_splitAt {b : Nat} (hg : 0 < g.val) :
    (g.splitAt b).1.path = g.path.take b ∧ (g.splitAt b).2.path = g.path.drop b := by
  by_cases hb : g.depth ≤ b
  · rw [splitAt_of_le hb]
    constructor
    · exact (List.take_of_length_le (by simpa using hb)).symm
    · exact (List.drop_of_length_le (by simpa using hb)).symm
  obtain ⟨outer, inner, h, hov, hod, hop, hiv, hid, hip⟩ := splitAt_eq hg (b := b) (by omega)
  rw [h]
  constructor
  · apply List.ext_getElem
    · simp [hod]; omega
    · intro i h1 h2
      rw [getElem_path hov, List.getElem_take, getElem_path hg, hop, hod, Nat.testBit_div_two_pow]
      congr 1
      simp [hod] at h1
      omega
  · apply List.ext_getElem
    · simp [hid]
    · intro i h1 h2
      simp only [length_path, hid] at h1
      rw [getElem_path hiv, List.getElem_drop, getElem_path hg, hip, hid, Nat.testBit_mod_two_pow]
      have : g.depth - b - 1 - i < g.depth - b := by omega
      rw [show g.depth - 1 - (b + i) = g.depth - b - 1 - i by omega]
      simp [this]

theorem path_append_of_splitAt {b : Nat} {outer inner : Gindex} (hg : 0 < g.val)
    (hs : g.splitAt b = (outer, inner)) : g.path = outer.path ++ inner.path := by
  have := path_splitAt (b := b) hg
  rw [hs] at this
  rw [this.1, this.2, List.take_append_drop]

end Gindex

end SszMerkle
