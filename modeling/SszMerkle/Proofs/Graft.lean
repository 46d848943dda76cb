/-
What a graft makes: the tree that has another node at the end of a path, a new pair for each step of
it, and everything beside the path shared with the tree it was taken from. Where the path leaves the
pairs at the stand-in of a zero tree, the zero tree counts as spelled out. A graft is made wherever a
path can be followed, one that spells out zero trees wherever a path can be sought.
-/
import SszMerkle.Node.Graft
import SszMerkle.Proofs.Store
import SszMerkle.Proofs.Tree

namespace SszMerkle

variable {h : Hasher} {s : Store}

/-- The leaf that stands in for the zero tree of a depth. -/
def Hasher.standIn (h : Hasher) (d : Nat) : Node := .leaf (.zero h.name d) (zeroRoot h.combine d)

theorem Hasher.zeroLeaf_eq {d : Nat} (hd : d ≤ 64) : h.zeroLeaf d = .ok (h.standIn d) := by
  rw [zeroLeaf, zero_eq hd]
  rfl

/-! ## Grafts step by step -/

namespace Graft

/-- Goes back up the steps of a path, the last one first. -/
def rebuild : List Graft → Node → StateM Store Node
  | [], n => return n
  | g :: gs, n => do
    let m ← rebuild gs n
    g.apply m

theorem comp_apply (inner outer : Graft) (n : Node) :
    (comp inner outer).apply n = inner.apply n >>= outer.apply := by
  cases inner <;> cases outer <;> simp [comp, apply]

theorem depth_comp (inner outer : Graft) : (comp inner outer).depth = inner.depth + outer.depth := by
  cases inner <;> cases outer <;> simp [comp, depth]

/-- A graft of steps goes back up them. -/
theorem ofSteps_apply (steps : List Graft) (n : Node) : (ofSteps steps).apply n = rebuild steps n := by
  suffices above : ∀ upper : Graft, (steps.foldl (fun upper step => comp step upper) upper).apply n =
      rebuild steps n >>= upper.apply by
    rw [ofSteps, above]
    simp [apply]
  -- the fold has the graft of the steps above so far, and puts the next step under it
  induction steps with
  | nil => simp [rebuild]
  | cons g gs ih =>
    intro upper
    rw [List.foldl_cons, ih, rebuild, bind_assoc]
    exact bind_congr fun m => comp_apply g upper m

end Graft

namespace Node

/-! ## The tree that a graft makes -/

/-- `result` is `old` with `new` at the end of the path. -/
inductive Grafted (h : Hasher) : (path : List Bool) → (old new result : Node) → Prop
  | here {old new} : Grafted h [] old new new
  | left {path serial serial' l l' r new} : Grafted h path l new l' →
      Grafted h (false :: path) (.pair serial l r) new (.pair serial' l' r)
  | right {path serial serial' l r r' new} : Grafted h path r new r' →
      Grafted h (true :: path) (.pair serial l r) new (.pair serial' l r')
  | zero {path right i serial new result} :
      Grafted h (right :: path) (.pair serial (h.standIn path.length) (h.standIn path.length)) new
        result →
      Grafted h (right :: path) (.leaf i (zeroRoot h.combine (path.length + 1))) new result

/-- Through a leaf a graft goes as through the pair of stand-ins. -/
theorem Grafted.of_leaf {path : List Bool} {right : Bool} {i : Ident} {c : Root} {new result : Node}
    (hg : Grafted h (right :: path) (.leaf i c) new result) : ∃ serial, Grafted h (right :: path)
      (.pair serial (h.standIn path.length) (h.standIn path.length)) new result := by
  cases hg with
  | zero hg => exact ⟨_, hg⟩

/-- Going back up from a clean node, the steps make a clean graft. -/
def Makes (h : Hasher) (path : List Bool) (old : Node) (steps : List Graft) : Prop :=
  ∀ {s : Store} {new : Node}, s.Tidy → old.Clean h s → new.Clean h s →
    Gives h s (Graft.rebuild steps new) fun n t => n.Clean h t ∧ Grafted h path old new n

theorem makes_nil {old : Node} : Makes h [] old [] := fun _ _ hnew => .pure ⟨hnew, .here⟩

/-- One step further up, beside clean nodes. -/
theorem rebuild_step {right : Bool} {path : List Bool} {l r new : Node} {steps : List Graft}
    (below : Makes h path (if right then r else l) steps) (hs : s.Tidy) (hl : l.Clean h s)
    (hr : r.Clean h s) (hnew : new.Clean h s) :
    Gives h s (Graft.rebuild (Graft.step right l r :: steps) new) fun n t =>
      n.Clean h t ∧ ∀ serial, Grafted h (right :: path) (.pair serial l r) new n := by
  rw [Graft.rebuild]
  cases right with
  | false =>
    refine (below hs hl hnew).bind fun m t st hm => ?_
    refine (newPair_gives (hs.later st) hm.1 (hr.later st)).mono ?_
    rintro _ u _ ⟨hn, serial', rfl⟩
    exact ⟨hn, fun _ => .left hm.2⟩
  | true =>
    refine (below hs hr hnew).bind fun m t st hm => ?_
    refine (newPair_gives (hs.later st) (hl.later st) hm.1).mono ?_
    rintro _ u _ ⟨hn, serial', rfl⟩
    exact ⟨hn, fun _ => .right hm.2⟩

theorem makes_step {right : Bool} {path : List Bool} {serial : Nat} {l r : Node} {steps : List Graft}
    (below : Makes h path (if right then r else l) steps) :
    Makes h (right :: path) (.pair serial l r) (Graft.step right l r :: steps) := by
  rintro s new hs ⟨-, -, hl, hr⟩ hnew
  exact (rebuild_step below hs hl hr hnew).mono fun _ _ _ ⟨hn, hg⟩ => ⟨hn, hg serial⟩

/-- The steps through a stand-in make the graft into the zero tree spelled out. -/
theorem zeroSteps_ok : ∀ {path : List Bool}, path.length ≤ 64 → ∃ steps,
    zeroSteps h path = .ok steps ∧ ∀ i, Makes h path (.leaf i (zeroRoot h.combine path.length)) steps
  | [], _ => ⟨[], rfl, fun _ => makes_nil⟩
  | right :: path, h64 => by
    rw [List.length_cons] at h64
    obtain ⟨steps, hsteps, hmakes⟩ := zeroSteps_ok (show path.length ≤ 64 by omega)
    refine ⟨Graft.step right (h.standIn path.length) (h.standIn path.length) :: steps, ?_, ?_⟩
    · rw [zeroSteps, Hasher.zeroLeaf_eq (by omega), hsteps]
      rfl
    · intro i s new hs _ hnew
      have below : Makes h path (if right then h.standIn path.length else h.standIn path.length)
          steps := by
        rw [ite_self]
        exact hmakes _
      exact (rebuild_step below hs trivial trivial hnew).mono
        fun _ _ _ ⟨hn, hg⟩ => ⟨hn, .zero (hg 0)⟩

/-! ## Where grafts are made -/

/-- Where a path can be followed, its steps make the graft. -/
theorem stepsTo_of_follow {target : Gindex} : ∀ {path : List Bool} {n x : Node},
    n.follow target path = .ok x →
      ∃ steps, n.stepsTo target path = .ok steps ∧ Makes h path n steps
  | [], n, _, _ => ⟨[], by cases n <;> rfl, makes_nil⟩
  | right :: path, .pair serial l r, x, hx => by
    have below : (if right then r else l).follow target path = .ok x := hx
    obtain ⟨steps, hsteps, hmakes⟩ := stepsTo_of_follow below
    refine ⟨_, ?_, makes_step hmakes⟩
    rw [stepsTo, hsteps]
    rfl
  | _ :: _, .leaf _ _, _, hx => by cases hx

/-- Where a path can be sought, its steps make the graft, through zero trees as well. -/
theorem stepsInto_of_seek {target : Gindex} : ∀ {path : List Bool} {n : Node} {c : Root},
    path.length ≤ 64 → (Tree.ofNode n).seek h path = .ok c →
      ∃ steps, n.stepsInto h target path = .ok steps ∧ Makes h path n steps
  | [], n, _, _, _ => ⟨[], by cases n <;> rfl, makes_nil⟩
  | right :: path, .pair serial l r, c, h64, hc => by
    rw [List.length_cons] at h64
    have below : (Tree.ofNode (if right then r else l)).seek h path = .ok c :=
      (Tree.seek_ofNode_pair ..).symm.trans hc
    obtain ⟨steps, hsteps, hmakes⟩ := stepsInto_of_seek (by omega) below
    refine ⟨_, ?_, makes_step hmakes⟩
    rw [stepsInto, hsteps]
    rfl
  | right :: path, .leaf i c', c, h64, hc => by
    -- the path could be sought, so the leaf stands in for the zero tree of the depth left
    have hzero : c' = zeroRoot h.combine (path.length + 1) := by
      by_contra hne
      rw [Tree.ofNode, Tree.seek, if_neg hne] at hc
      cases hc
    subst hzero
    obtain ⟨steps, hsteps, hmakes⟩ := zeroSteps_ok h64
    refine ⟨steps, ?_, hmakes i⟩
    rw [List.length_cons] at h64
    rw [stepsInto, Hasher.zero_eq h64, ← hsteps]
    exact if_pos rfl

/-- The graft at a gindex that a tree holds. -/
theorem graftAt_of_get {n x : Node} {g : Gindex} (hx : n.get g = .ok x) :
    ∃ graft, n.graftAt g = .ok graft ∧ ∀ {s : Store} {new : Node}, s.Tidy → n.Clean h s →
      new.Clean h s → Gives h s (graft.apply new) fun m t => m.Clean h t ∧ Grafted h g.path n new m := by
  obtain ⟨steps, hsteps, hmakes⟩ := stepsTo_of_follow hx
  refine ⟨.ofSteps steps, by rw [graftAt, hsteps]; rfl, fun hs hn hnew => ?_⟩
  rw [Graft.ofSteps_apply]
  exact hmakes hs hn hnew

/-- The graft at a gindex that a tree holds with its zero trees spelled out. -/
theorem graftInto_of_seek {n : Node} {c : Root} {g : Gindex}
    (hc : (Tree.ofNode n).seek h g.path = .ok c) :
    ∃ graft, n.graftInto h g = .ok graft ∧ ∀ {s : Store} {new : Node}, s.Tidy → n.Clean h s →
      new.Clean h s → Gives h s (graft.apply new) fun m t => m.Clean h t ∧ Grafted h g.path n new m := by
  obtain ⟨steps, hsteps, hmakes⟩ : ∃ steps, n.stepsInto h g g.path = .ok steps ∧
      Makes h g.path n steps :=
    stepsInto_of_seek (by rw [Gindex.length_path]; exact g.depth_lt.le) hc
  refine ⟨.ofSteps steps, by rw [graftInto, hsteps]; rfl, fun hs hn hnew => ?_⟩
  rw [Graft.ofSteps_apply]
  exact hmakes hs hn hnew

end Node

end SszMerkle
