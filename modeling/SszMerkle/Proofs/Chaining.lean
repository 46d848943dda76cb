/-
Going down a path in two legs. A split cuts the way to a node in two, at a node in between: what the whole
way leads to is what the lower leg leads to from there, and a graft for the whole way is the graft of the
lower leg put under that of the upper one. Both make the same pairs in the same order, so it is not just an
equal tree that comes of them but the very same one.
-/
import SszMerkle.Proofs.Address
import SszMerkle.Proofs.Replaced

namespace SszMerkle

/-! ## Grafts one around the other -/

namespace Graft

theorem comp_assoc_apply (a b c : Graft) (n : Node) :
    (comp (comp a b) c).apply n = (comp a (comp b c)).apply n := by
  rw [comp_apply, comp_apply, comp_apply, bind_assoc]
  exact bind_congr fun m => (comp_apply b c m).symm

/-- Going back up two runs of steps is going up the lower ones and then the upper ones. -/
theorem rebuild_append (above below : List Graft) (n : Node) :
    rebuild (above ++ below) n = rebuild below n >>= rebuild above := by
  induction above with
  | nil => simp [rebuild]
  | cons step above ih => simp only [List.cons_append, rebuild, ih, bind_assoc]

end Graft

namespace Node

variable {target target' : Gindex} {n t s x : Node} {upper lower : List Bool} {above below : List Graft}

/-! ## A path in two legs -/

theorem follow_append_iff : n.follow target (upper ++ lower) = .ok x ↔
    ∃ s, n.follow target upper = .ok s ∧ s.follow target lower = .ok x := by
  induction upper generalizing n with
  | nil => cases n <;> simp [follow]
  | cons right upper ih =>
    cases n with
    | leaf i c => simp [follow]
    | pair serial l r => simpa only [List.cons_append, follow] using ih

/-- The steps down a path are the same whatever the path was taken from. -/
theorem stepsTo_ok {path : List Bool} {steps : List Graft} (e : n.stepsTo target path = .ok steps) :
    n.stepsTo target' path = .ok steps := by
  induction path generalizing n steps with
  | nil => cases n <;> exact e
  | cons right path ih =>
    cases n with
    | leaf i c => cases e
    | pair serial l r =>
      obtain ⟨rest, hrest, e⟩ := bind_eq_ok e
      rw [stepsTo, ih hrest]
      exact e

theorem stepsTo_append (hs : n.follow target upper = .ok s) (ha : n.stepsTo target upper = .ok above)
    (hb : s.stepsTo target lower = .ok below) : n.stepsTo target (upper ++ lower) = .ok (above ++ below) := by
  induction upper generalizing n above with
  | nil => cases n <;> cases hs <;> cases ha <;> exact hb
  | cons right upper ih =>
    cases n with
    | leaf i c => cases hs
    | pair serial l r =>
      obtain ⟨rest, hrest, e⟩ := bind_eq_ok ha
      cases e
      rw [List.cons_append, stepsTo, ih hs hrest]
      rfl

/-! ## A gindex in two legs -/

theorem exists_graftAt_iff {g : Gindex} : (∃ graft, n.graftAt g = .ok graft) ↔ ∃ x, n.get g = .ok x := by
  constructor
  · rintro ⟨graft, hgraft⟩
    cases hx : n.get g with
    | ok x => exact ⟨x, rfl⟩
    | error e =>
      rw [graftAt_error_iff.2 hx] at hgraft
      cases hgraft
  · rintro ⟨x, hx⟩
    cases hgraft : n.graftAt g with
    | ok graft => exact ⟨graft, rfl⟩
    | error e =>
      rw [graftAt_error_iff.1 hgraft] at hx
      cases hx

section Legs

variable {g outer inner : Gindex} {boundary : Nat}
variable (hg : 0 < g.val) (hs : g.splitAt boundary = (outer, inner))
include hg hs

theorem get_splitAt_iff : t.get g = .ok x ↔ ∃ s, t.get outer = .ok s ∧ s.get inner = .ok x := by
  unfold get
  rw [Gindex.path_append_of_splitAt hg hs, follow_append_iff]
  exact exists_congr fun s => and_congr follow_ok_iff follow_ok_iff

/-- The graft of the whole way goes up the lower leg and from there up the upper one. -/
theorem graftAt_splitAt {upper lower : Graft} (hx : t.get outer = .ok s)
    (hupper : t.graftAt outer = .ok upper) (hlower : s.graftAt inner = .ok lower) :
    ∃ graft, t.graftAt g = .ok graft ∧ ∀ n, graft.apply n = lower.apply n >>= upper.apply := by
  obtain ⟨above, habove, e⟩ := bind_eq_ok hupper
  cases e
  obtain ⟨below, hbelow, e⟩ := bind_eq_ok hlower
  cases e
  have whole : t.stepsTo g g.path = .ok (above ++ below) := by
    rw [Gindex.path_append_of_splitAt hg hs]
    exact stepsTo_append (follow_ok_iff.1 hx) (stepsTo_ok habove) (stepsTo_ok hbelow)
  refine ⟨.ofSteps (above ++ below), by rw [graftAt, whole]; rfl, fun n => ?_⟩
  rw [Graft.ofSteps_apply, Graft.ofSteps_apply, Graft.rebuild_append]
  exact bind_congr fun m => (Graft.ofSteps_apply above m).symm

end Legs

/-- A node is got in two legs, and so is the graft in its place: whole or in legs, one by one or put
together, it makes the same tree with the same store. Putting grafts together is applying them in turn, in
whatever groups, and their depths add up. -/
theorem graftAt_in_legs {g outer inner : Gindex} {boundary : Nat} (hg : 0 < g.val)
    (hs : g.splitAt boundary = (outer, inner)) (t : Node) :
    (∀ x, t.get g = .ok x ↔ ∃ s, t.get outer = .ok s ∧ s.get inner = .ok x) ∧
    ((∃ graft, t.graftAt g = .ok graft) ↔ ∃ s x, t.get outer = .ok s ∧ s.get inner = .ok x) ∧
    (∀ graft s, t.graftAt g = .ok graft → t.get outer = .ok s → ∃ upper lower : Graft,
      t.graftAt outer = .ok upper ∧ s.graftAt inner = .ok lower ∧ ∀ n,
        graft.apply n = lower.apply n >>= upper.apply ∧
        graft.apply n = (Graft.comp lower upper).apply n ∧
        ∀ u, ∃ m v, (graft.apply n).run u = (m, v) ∧ u.Builds v ∧ Replaced g.path t n m) ∧
    (∀ (a b : Graft) n, (Graft.comp a b).apply n = a.apply n >>= b.apply) ∧
    (∀ (a b c : Graft) n, (Graft.comp (Graft.comp a b) c).apply n = (Graft.comp a (Graft.comp b c)).apply n) ∧
    ∀ a b : Graft, (Graft.comp a b).depth = a.depth + b.depth := by
  refine ⟨fun x => get_splitAt_iff hg hs, ?_, fun graft s hgraft hx => ?_, Graft.comp_apply,
    Graft.comp_assoc_apply, Graft.depth_comp⟩
  · simp only [exists_graftAt_iff, get_splitAt_iff hg hs]
    exact exists_comm
  · -- since there is a graft for the whole way, there is one for the lower leg too
    obtain ⟨upper, hupper⟩ := exists_graftAt_iff.2 ⟨s, hx⟩
    obtain ⟨x, hwhole⟩ := exists_graftAt_iff.1 ⟨graft, hgraft⟩
    obtain ⟨s', hx', hinner⟩ := (get_splitAt_iff hg hs).1 hwhole
    obtain rfl : s = s' := Except.ok.inj (hx.symm.trans hx')
    obtain ⟨lower, hlower⟩ := exists_graftAt_iff.2 ⟨x, hinner⟩
    obtain ⟨graft', hgraft', legs⟩ := graftAt_splitAt hg hs hx hupper hlower
    obtain rfl : graft = graft' := Except.ok.inj (hgraft.symm.trans hgraft')
    refine ⟨upper, lower, hupper, hlower, fun n => ⟨legs n, ?_, fun u => apply_replaces hgraft u n⟩⟩
    rw [Graft.comp_apply, legs]

/-- Three steps down, the first one right and the others left, in legs of one step and of two. -/
theorem graftAt_in_legs_below_right :
    let leaf (i : Nat) : Node := .leaf (.made i) (Chunk.ofLength i)
    let lowest : Node := .pair 2 (leaf 0) (leaf 1)
    let right : Node := .pair 4 lowest (leaf 3)
    let t : Node := .pair 6 (leaf 5) right
    0 < (Gindex.mk 12 (by decide)).val ∧
      Gindex.splitAt ⟨12, by decide⟩ 1 = (⟨3, by decide⟩, ⟨4, by decide⟩) ∧
      t.get ⟨12, by decide⟩ = .ok (leaf 0) ∧ ∃ graft upper lower : Graft,
        t.graftAt ⟨12, by decide⟩ = .ok graft ∧ t.graftAt ⟨3, by decide⟩ = .ok upper ∧
          right.graftAt ⟨4, by decide⟩ = .ok lower ∧
            ∀ n, graft.apply n = (Graft.comp lower upper).apply n := by
  intro leaf lowest right t
  have split : Gindex.splitAt ⟨12, by decide⟩ 1 = (⟨3, by decide⟩, ⟨4, by decide⟩) := by decide
  obtain ⟨whole, -, legs, -⟩ := graftAt_in_legs (by decide) split t
  have there : t.get ⟨3, by decide⟩ = .ok right := rfl
  obtain ⟨graft, hgraft⟩ : ∃ graft, t.graftAt ⟨12, by decide⟩ = .ok graft := ⟨_, rfl⟩
  obtain ⟨upper, lower, hupper, hlower, same⟩ := legs graft right hgraft there
  exact ⟨by decide, split, (whole _).2 ⟨right, there, rfl⟩, graft, upper, lower, hgraft, hupper, hlower,
    fun n => (same n).2.1⟩

end Node

end SszMerkle
