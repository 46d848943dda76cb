/-
What is seen of a tree after a node of it was replaced. Below the place there is the new node and what
the new node has; beside it there are the very nodes that were there before; only the pairs on the way
down are new. The tree that was written to is as it was, and so is every other: writing makes pairs and
does nothing else.
-/
import SszMerkle.Proofs.Given
import SszMerkle.Proofs.Graft

namespace SszMerkle

namespace Node

/-! ## The tree after the write -/

/-- `result` is `old` with `new` at the end of the path. -/
inductive Replaced : (path : List Bool) → (old new result : Node) → Prop
  | here {old new} : Replaced [] old new new
  | left {path i j l l' r new} : Replaced path l new l' →
      Replaced (false :: path) (.pair i l r) new (.pair j l' r)
  | right {path i j l r r' new} : Replaced path r new r' →
      Replaced (true :: path) (.pair i l r) new (.pair j l r')

namespace Replaced

variable {path rest : List Bool} {old new m : Node}

/-- Past the end of the path there is what the new node has. -/
theorem follow_below (target : Gindex) (hm : Replaced path old new m) :
    m.follow target (path ++ rest) = new.follow target rest := by
  induction hm with
  | here => rfl
  | left _ ih => exact ih
  | right _ ih => exact ih

/-- A path that parts from it leads where it led before. -/
theorem follow_beside (target : Gindex) (hm : Replaced path old new m) {q : List Bool}
    (notAbove : ¬ q <+: path) (notBelow : ¬ path <+: q) : m.follow target q = old.follow target q := by
  induction hm generalizing q with
  | here => exact absurd List.nil_prefix notBelow
  | left _ ih =>
    rcases q with _ | ⟨_ | _, q⟩
    · exact absurd List.nil_prefix notAbove
    · exact ih (mt (List.cons_prefix_cons.2 ⟨rfl, ·⟩) notAbove)
        (mt (List.cons_prefix_cons.2 ⟨rfl, ·⟩) notBelow)
    · rfl
  | right _ ih =>
    rcases q with _ | ⟨_ | _, q⟩
    · exact absurd List.nil_prefix notAbove
    · rfl
    · exact ih (mt (List.cons_prefix_cons.2 ⟨rfl, ·⟩) notAbove)
        (mt (List.cons_prefix_cons.2 ⟨rfl, ·⟩) notBelow)

end Replaced

/-! ## Writing -/

/-- Back up the steps of a path there is a new pair for each of them. -/
theorem rebuild_replaces {target : Gindex} : ∀ {path : List Bool} {old : Node} {steps : List Graft},
    old.stepsTo target path = .ok steps → ∀ (s : Store) (new : Node), ∃ m t,
      (Graft.rebuild steps new).run s = (m, t) ∧ s.Builds t ∧ Replaced path old new m
  | [], old, steps, e, s, new => by
    obtain rfl : [] = steps := by cases old <;> exact Except.ok.inj e
    exact ⟨new, s, rfl, .refl s, .here⟩
  | _ :: _, .leaf _ _, _, e, _, _ => by cases e
  | right :: path, .pair i l r, _, e, s, new => by
    obtain ⟨steps, hsteps, e⟩ := bind_eq_ok e
    cases e
    obtain ⟨m, t, hrun, st, hm⟩ := rebuild_replaces hsteps s new
    cases right with
    | false =>
      let top : Node := .pair t.made.size m r
      refine ⟨top, _, ?_, st.trans (.push t top), .left hm⟩
      rw [Graft.rebuild, StateT.run_bind, hrun]
      rfl
    | true =>
      let top : Node := .pair t.made.size l m
      refine ⟨top, _, ?_, st.trans (.push t top), .right hm⟩
      rw [Graft.rebuild, StateT.run_bind, hrun]
      rfl

/-- The steps down a path are refused where following it is. -/
theorem stepsTo_error_iff {target : Gindex} {e : Failure} : ∀ {path : List Bool} {n : Node},
    n.stepsTo target path = .error e ↔ n.follow target path = .error e
  | [], n => by cases n <;> exact ⟨nofun, nofun⟩
  | _ :: _, .leaf _ _ => by rw [stepsTo, follow, Except.error.injEq, Except.error.injEq]
  | right :: path, .pair _ l r => by
    rw [follow, ← stepsTo_error_iff, stepsTo, bind_pure_eq_error]

theorem graftAt_error_iff {n : Node} {g : Gindex} {e : Failure} :
    n.graftAt g = .error e ↔ n.get g = .error e := by
  rw [get, ← stepsTo_error_iff, graftAt, bind_pure_eq_error]

/-- A path leads to the same node whatever it was taken from. -/
theorem follow_ok_iff {target target' : Gindex} {x : Node} : ∀ {path : List Bool} {n : Node},
    n.follow target path = .ok x ↔ n.follow target' path = .ok x
  | [], n => by cases n <;> exact .rfl
  | _ :: _, .leaf _ _ => ⟨nofun, nofun⟩
  | right :: _, .pair _ l r => by
    show (if right then r else l).follow target _ = _ ↔ _
    exact follow_ok_iff

/-- A graft puts the new node in the place it was taken at, and makes pairs only. -/
theorem apply_replaces {n : Node} {g : Gindex} {graft : Graft} (hgraft : n.graftAt g = .ok graft)
    (s : Store) (new : Node) : ∃ m t,
      (graft.apply new).run s = (m, t) ∧ s.Builds t ∧ Replaced g.path n new m := by
  obtain ⟨steps, hsteps, e⟩ := bind_eq_ok hgraft
  cases e
  rw [Graft.ofSteps_apply]
  exact rebuild_replaces hsteps s new

/-- A graft can be taken at a gindex wherever a node can be got there, and is refused for the same
reason elsewhere. What it makes of another node has at and below that gindex what the other node has,
and beside it what the tree has; and no node or root that there was is touched. -/
theorem graftAt_replaces (n : Node) (g : Gindex) :
    (∀ e, n.graftAt g = .error e ↔ n.get g = .error e) ∧
      ∀ graft, n.graftAt g = .ok graft → ∀ (s : Store) (new : Node), ∃ m t,
        (graft.apply new).run s = (m, t) ∧ s.Builds t ∧
          (∀ q p : Gindex, q.path = g.path ++ p.path → ∀ x, m.get q = .ok x ↔ new.get p = .ok x) ∧
            ∀ q : Gindex, ¬ q.path <+: g.path → ¬ g.path <+: q.path → m.get q = n.get q := by
  refine ⟨fun e => graftAt_error_iff, fun graft hgraft s new => ?_⟩
  obtain ⟨m, t, hrun, st, hm⟩ := apply_replaces hgraft s new
  refine ⟨m, t, hrun, st, fun q p hq x => ?_, fun q above below => ?_⟩
  · rw [get, hq, hm.follow_below]
    exact follow_ok_iff
  · exact hm.follow_beside q above below

/-- In a tree of two pairs the right leaf of the left one is replaced by that very pair. -/
theorem graftAt_of_own_pair :
    let leaf (i : Nat) : Node := .leaf (.made i) (Chunk.ofLength i)
    let lower : Node := .pair 2 (leaf 0) (leaf 1)
    let upper : Node := .pair 4 lower (leaf 3)
    let s : Store := ⟨#[leaf 0, leaf 1, lower, leaf 3, upper], ∅⟩
    ∃ graft m t, upper.graftAt ⟨5, by decide⟩ = .ok graft ∧ (graft.apply lower).run s = (m, t) ∧
      m.get ⟨10, by decide⟩ = .ok (leaf 0) ∧ m.get ⟨4, by decide⟩ = .ok (leaf 0) ∧
      m.get ⟨3, by decide⟩ = .ok (leaf 3) ∧ (∀ x, m.get ⟨20, by decide⟩ ≠ .ok x) ∧
      t.made[4]? = some upper := by
  intro leaf lower upper s
  obtain ⟨-, replaces⟩ := graftAt_replaces upper ⟨5, by decide⟩
  obtain ⟨m, t, hrun, st, below, beside⟩ := replaces _ rfl s lower
  refine ⟨_, m, t, rfl, hrun, ?_, ?_, ?_, ?_, st.made rfl⟩
  · exact (below ⟨10, by decide⟩ ⟨2, by decide⟩ (by decide) _).2 rfl
  · exact beside ⟨4, by decide⟩ (by decide) (by decide)
  · exact beside ⟨3, by decide⟩ (by decide) (by decide)
  · intro x hx
    cases (below ⟨20, by decide⟩ ⟨4, by decide⟩ (by decide) x).1 hx

end Node

end SszMerkle
