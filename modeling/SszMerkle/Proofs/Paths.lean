/-
The path of a gindex. Its steps, read as binary digits behind a leading one, write the number, so that
there is one gindex for every path of at most sixty-three steps. What the arithmetic does to the numbers
it does to the paths: a child has one step more and the parent one less, the sibling has the last step the
other way and the tail lacks the first one, and a split cuts the path in two.
-/
import SszMerkle.Proofs.Address

namespace SszMerkle.Gindex

variable {g a b c : Gindex} {path : List Bool} {right : Bool} {position d : Nat}

/-! ## The number of a path -/

/-- The number that the steps of a path write behind a leading one. -/
def numberOf (path : List Bool) : Nat := path.foldl (fun v right => 2 * v + right.toNat) 1

@[simp] theorem numberOf_nil : numberOf [] = 1 := rfl

@[simp] theorem numberOf_concat (path : List Bool) (right : Bool) :
    numberOf (path ++ [right]) = 2 * numberOf path + right.toNat := by
  simp [numberOf]

theorem val_parent_eq_div (hd : g.depth = d + 1) : g.parent.val = g.val / 2 := by
  unfold parent
  rw [not_isRoot (val_pos_of_depth (by omega)) hd]
  rfl

/-- A gindex is the number of its path. -/
theorem val_eq_numberOf : ∀ {d : Nat} {g : Gindex}, 0 < g.val → g.depth = d → g.val = numberOf g.path
  | 0, g, hg, hd => by rw [eq_root hg hd, val_root, path_root, numberOf_nil]
  | d + 1, g, hg, hd => by
    -- the parent has the path without its last digit, and half the number
    obtain ⟨hpd, -⟩ := depth_position_parent hg hd
    have above := val_eq_numberOf (parent_pos hg hd) hpd
    rw [val_parent_eq_div hd] at above
    rw [path_parent hg hd, numberOf_concat, ← above, isLeftChild, Bool.not_not, Nat.testBit_zero]
    rcases Nat.mod_two_eq_zero_or_one g.val with e | e <;> simp [e] <;> omega

/-- A path leads to one node only. -/
theorem eq_of_path (ha : 0 < a.val) (hb : 0 < b.val) (e : a.path = b.path) : a = b := by
  ext
  rw [val_eq_numberOf ha rfl, val_eq_numberOf hb rfl, e]

/-- A step below a node doubles its number, and adds one if it goes right. -/
theorem path_of_val (hg : 0 < g.val) (hc : c.val = 2 * g.val + right.toNat) :
    0 < c.val ∧ c.path = g.path ++ [right] := by
  have bit : right.toNat ≤ 1 := right.toNat_le
  have pos : 0 < c.val := by omega
  have hp := position_lt_two_pow hg
  have value : c.val = 2 ^ (g.depth + 1) + (2 * g.position + right.toNat) := by
    rw [hc, val_eq hg, pow_succ]
    omega
  obtain ⟨hcd, -⟩ := depth_position_of_val value (by rw [pow_succ]; omega)
  have parent : c.parent = g := by
    ext
    rw [val_parent_eq_div hcd]
    omega
  have last : (!c.isLeftChild) = right := by
    rw [isLeftChild, Bool.not_not, Nat.testBit_zero, hc]
    cases right <;> simp
  refine ⟨pos, ?_⟩
  rw [path_parent pos hcd, parent, last]

theorem exists_child (hg : 0 < g.val) (hd : g.depth < 63) (right : Bool) :
    ∃ c : Gindex, 0 < c.val ∧ c.path = g.path ++ [right] := by
  have room := two_mul_add_one_lt hd
  have bit : right.toNat ≤ 1 := right.toNat_le
  exact ⟨⟨2 * g.val + right.toNat, by omega⟩, path_of_val hg rfl⟩

/-- A path of at most sixty-three steps leads to a node that has a gindex. -/
theorem exists_path (path : List Bool) (hlen : path.length ≤ 63) :
    ∃ g : Gindex, 0 < g.val ∧ g.path = path := by
  -- from the root downward, one step a time
  induction path using List.reverseRecOn with
  | nil => exact ⟨root, Nat.one_pos, rfl⟩
  | append_singleton path right ih =>
    rw [List.length_append, List.length_singleton] at hlen
    obtain ⟨g, hg, rfl⟩ := ih (by omega)
    rw [length_path] at hlen
    exact exists_child hg (by omega) right

theorem bijOn_path :
    Set.BijOn Gindex.path {g : Gindex | 0 < g.val} {path : List Bool | path.length ≤ 63} := by
  refine ⟨fun g _ => ?_, fun a ha b hb e => eq_of_path ha hb e, fun path hlen => exists_path path hlen⟩
  show g.path.length ≤ 63
  rw [length_path]
  exact Nat.le_of_lt_succ g.depth_lt

/-! ## One step more or less -/

section Steps

variable (hg : 0 < g.val)
include hg

theorem child?_eq_some_iff (right : Bool) :
    (if right then g.right? else g.left?) = some c ↔ 0 < c.val ∧ c.path = g.path ++ [right] := by
  have made : ∀ {c}, (if right then g.right? else g.left?) = some c →
      0 < c.val ∧ c.path = g.path ++ [right] := by
    intro c e
    refine path_of_val hg ?_
    unfold right? left? at e
    cases right <;> simp at e <;> obtain ⟨-, rfl⟩ := e <;> rfl
  constructor
  · exact made
  · rintro ⟨hc, hpath⟩
    -- the child is deep enough to be addressed, so it is there
    have deeper : c.depth = g.depth + 1 := by simpa using congrArg List.length hpath
    have room : g.depth < 63 := by
      have := c.depth_lt
      omega
    obtain ⟨c', hc'⟩ : ∃ c', (if right then g.right? else g.left?) = some c' := by
      unfold right? left?
      cases right <;> simp [room]
    obtain ⟨pos, hpath'⟩ := made hc'
    rw [hc', eq_of_path pos hc (hpath'.trans hpath.symm)]

omit hg in
theorem child?_eq_none_iff (right : Bool) :
    (if right then g.right? else g.left?) = none ↔ g.path.length = 63 := by
  have deep := g.depth_lt
  rw [length_path]
  unfold right? left?
  cases right <;> simp <;> omega

/-- The parent lacks the last step, the sibling has it the other way. -/
theorem parent_sibling_of_path (e : g.path = path ++ [right]) :
    (0 < g.parent.val ∧ g.parent.path = path) ∧ 0 < g.sibling.val ∧ g.sibling.path = path ++ [!right] := by
  have hd : g.depth = path.length + 1 := by simpa using congrArg List.length e
  have pos := parent_pos hg hd
  have last := path_parent hg hd
  rw [e] at last
  obtain ⟨above, hright⟩ := List.append_inj' last rfl
  rw [above]
  refine ⟨⟨pos, rfl⟩, path_of_val pos ?_⟩
  obtain rfl : right = !g.isLeftChild := by simpa using hright
  unfold sibling
  rw [not_isRoot hg hd, val_parent_eq_div hd, if_neg Bool.false_ne_true, isLeftChild, Bool.not_not,
    Nat.testBit_zero]
  show g.val ^^^ 1 = _
  rw [xor_one_eq]
  rcases Nat.mod_two_eq_zero_or_one g.val with h | h <;> simp [h]

/-- The tail lacks the first step. -/
theorem tail?_of_path (e : g.path = right :: path) : ∃ t, g.tail? = some t ∧ 0 < t.val ∧ t.path = path := by
  have hd : g.depth = path.length + 1 := by simpa using congrArg List.length e
  obtain ⟨t, ht, hv, -⟩ := tail?_eq hg hd
  have first := path_tail? hg hd ht
  rw [e, List.cons.injEq] at first
  exact ⟨t, ht, hv, first.2.symm⟩

/-- The root is where nothing changes. -/
theorem root_of_path (e : g.path = []) : g.parent = g ∧ g.sibling = g ∧ g.tail? = none := by
  obtain rfl : g = root := eq_of_path hg Nat.one_pos e
  exact ⟨rfl, rfl, rfl⟩

theorem splitAt_pos (boundary : Nat) : 0 < (g.splitAt boundary).1.val ∧ 0 < (g.splitAt boundary).2.val := by
  rcases Nat.lt_or_ge boundary g.depth with hb | hb
  · obtain ⟨outer, inner, hs, hov, -, -, hiv, -⟩ := splitAt_eq hg hb
    rw [hs]
    exact ⟨hov, hiv⟩
  · rw [splitAt_of_le hb]
    exact ⟨hg, Nat.one_pos⟩

end Steps

/-! ## The arithmetic -/

/-- What the arithmetic on a gindex does to its path. -/
structure OnPath (g : Gindex) : Prop where
  /-- The number is the path behind a leading one. -/
  value : g.val = numberOf g.path
  depth : g.depth = g.path.length
  child : ∀ (right : Bool) (c : Gindex),
    (if right then g.right? else g.left?) = some c ↔ 0 < c.val ∧ c.path = g.path ++ [right]
  childless : ∀ right : Bool, (if right then g.right? else g.left?) = none ↔ g.path.length = 63
  /-- The root is its own parent and its own sibling, and has no tail. -/
  root : g.path = [] → g.parent = g ∧ g.sibling = g ∧ g.tail? = none
  parent : ∀ path right, g.path = path ++ [right] → 0 < g.parent.val ∧ g.parent.path = path
  sibling : ∀ path right, g.path = path ++ [right] → 0 < g.sibling.val ∧ g.sibling.path = path ++ [!right]
  tail : ∀ right path, g.path = right :: path → ∃ t, g.tail? = some t ∧ 0 < t.val ∧ t.path = path
  /-- A split cuts the path at the boundary, if it reaches that far. -/
  split : ∀ boundary, 0 < (g.splitAt boundary).1.val ∧ (g.splitAt boundary).1.path = g.path.take boundary ∧
    0 < (g.splitAt boundary).2.val ∧ (g.splitAt boundary).2.path = g.path.drop boundary
  /-- No other node has both paths of the split in a row. -/
  rejoin : ∀ boundary c, 0 < c.val →
    (c.path = (g.splitAt boundary).1.path ++ (g.splitAt boundary).2.path ↔ c = g)

theorem onPath (hg : 0 < g.val) : g.OnPath where
  value := val_eq_numberOf hg rfl
  depth := g.length_path.symm
  child right _ := child?_eq_some_iff hg right
  childless right := child?_eq_none_iff right
  root e := root_of_path hg e
  parent _ _ e := (parent_sibling_of_path hg e).1
  sibling _ _ e := (parent_sibling_of_path hg e).2
  tail _ _ e := tail?_of_path hg e
  split boundary := by
    obtain ⟨upper, lower⟩ := path_splitAt (b := boundary) hg
    obtain ⟨hu, hl⟩ := splitAt_pos hg boundary
    exact ⟨hu, upper, hl, lower⟩
  rejoin boundary c hc := by
    have whole := path_append_of_splitAt (b := boundary) hg rfl
    constructor
    · exact fun e => eq_of_path hc hg (e.trans whole.symm)
    · rintro rfl
      exact whole

/-- The gindices are the paths of at most sixty-three steps, each once. The gindex of a position has the
digits of the position for its path, there is one for each position of a level down to the sixty-third and
no other, and it gives back level and position. And the arithmetic on gindices is that of paths. -/
theorem path_bijOn_and_arithmetic :
    Set.BijOn Gindex.path {g : Gindex | 0 < g.val} {path : List Bool | path.length ≤ 63} ∧
    (∀ p d, d < 64 → p < 2 ^ d → ∃ g, ofPosition p d = .ok g ∧ 0 < g.val ∧ g.path = digits d p ∧
      g.position = p ∧ g.depth = d) ∧
    (∀ p d, ¬ (d < 64 ∧ p < 2 ^ d) → ofPosition p d = .error (.malformedIndex p d)) ∧
    ∀ g : Gindex, 0 < g.val → g.OnPath := by
  refine ⟨bijOn_path, fun p d hd hp => ?_, fun p d h => ofPosition_error h, fun g hg => onPath hg⟩
  obtain ⟨g, hg, pos, rfl, rfl⟩ := ofPosition_eq hd hp
  exact ⟨g, hg, pos, path_eq_digits pos, rfl, rfl⟩

/-- The last gindex of all leads right at each of sixty-three steps: it has no children, its parent leads
right sixty-two times, and its sibling is one less. -/
theorem arithmetic_of_last :
    let last : Gindex := ⟨2 ^ 64 - 1, by decide⟩
    0 < last.val ∧ last.path = List.replicate 63 true ∧ last.left? = none ∧ last.right? = none ∧
      last.parent.path = List.replicate 62 true ∧ last.sibling.path = List.replicate 62 true ++ [false] := by
  intro last
  obtain ⟨-, -, -, laws⟩ := path_bijOn_and_arithmetic
  have hl := laws last (by decide)
  have path : last.path = List.replicate 62 true ++ [true] := by decide
  have deepest : last.path.length = 63 := by decide
  exact ⟨by decide, by decide, (hl.childless false).2 deepest, (hl.childless true).2 deepest,
    (hl.parent _ _ path).2, (hl.sibling _ _ path).2⟩

end SszMerkle.Gindex
