/-
Nodes below the leaves. The path of such a node leads through one leaf, and the rest of it is a path in
the tree that the leaf is the root of. A leaf that was taken is asked once for the proof along that rest;
its answer counts if it is rooted at the leaf, and then the branch of the leaf follows behind it. A leaf
that was not taken is zero and has nothing below it, so it is not asked.
-/
import SszMerkle.Proofs.Composition

namespace SszMerkle

/-! ## The leaf on the way -/

namespace Gindex

variable {g : Gindex} {depth : Nat}

/-- A split at a depth gives the ancestor there, and what is left of the path. -/
theorem splitAt_ancestor (hg : 0 < g.val) (hd : depth < g.depth) :
    ∃ inner : Gindex, g.splitAt depth = (parent^[g.depth - depth] g, inner) ∧ 0 < inner.val ∧
      inner.depth = g.depth - depth ∧ inner.path = g.path.drop depth := by
  obtain ⟨outer, inner, hsplit, hov, hod, hop, hiv, hid, -⟩ := splitAt_eq hg hd
  obtain ⟨hv, had, hap⟩ := depth_position_ancestor hg (k := g.depth - depth) (Nat.sub_le ..)
  obtain rfl : outer = parent^[g.depth - depth] g :=
    eq_of_depth_position hov hv (by omega) (by rw [hop, hap])
  have hpath := (path_splitAt (b := depth) hg).2
  rw [hsplit] at hpath
  exact ⟨inner, hsplit, hiv, hid, hpath⟩

end Gindex

/-- What an answer from below a leaf is worth, when `p` is the proof of the leaf and `r` its root: with
nothing there, `left` steps of the path to the target are too many. -/
def Proof.takeFrom (p : Proof) (target : Gindex) (left : Nat) (r : Root) : Option Proof → Result Proof
  | none => .error (.navigation target.val left)
  | some s =>
    if s.root = r then .ok ⟨s.branch ++ p.branch, p.root⟩
    else .error (.invalidProof (.rootMismatch s.root r))

/-- Answers for a leaf and writes down what was asked. -/
def consulted (below : Nat → Gindex → Result (Option Proof)) (i : Nat) (g : Gindex) :
    ExceptT Failure (StateM (List (Nat × Gindex))) (Option Proof) := do
  modifyThe (List (Nat × Gindex)) (· ++ [(i, g)])
  below i g

/-- What follows the one question has its answer, and the question written down. -/
theorem run_consulted {β : Type} (below : Nat → Gindex → Result (Option Proof)) (i : Nat) (g : Gindex)
    (k : Option Proof → Result β) :
    (consulted below i g >>= fun o => liftM (k o)).run.run [] = (below i g >>= k, [(i, g)]) := by
  have asked : (consulted below i g).run.run [] = (below i g, [(i, g)]) := by
    unfold consulted
    cases below i g <;> rfl
  cases hb : below i g with
  | error e =>
    rw [hb] at asked
    exact run_bind_error asked _
  | ok o =>
    rw [hb] at asked
    rw [run_bind_ok asked]
    show _ = (k o, _)
    cases k o <;> rfl

/-! ## Opening below a leaf -/

section Open

variable {m : Type → Type} [Monad m] [LawfulMonad m] {h : Hasher} {g outer inner : Gindex} {limit : Nat}

/-- Opening a node below a leaf is asking that leaf, if it was taken. -/
theorem openTree_of_lt (h : Hasher) (count : Nat) (hl : limit < Word.bound) (hg : 0 < g.val)
    (hsplit : g.splitAt (Word.depthFor limit) = (outer, inner)) (hod : outer.depth = Word.depthFor limit)
    (hiv : 0 < inner.val) (hin : 0 < inner.depth) (leaf : Nat → Root)
    (below : Nat → Gindex → ExceptT Failure m (Option Proof)) :
    openTree h count limit g (fun i => pure (leaf i)) below =
      if outer.position < min count limit then
        below outer.position inner >>= fun o => liftM ((Padded.proof h (Word.depthFor limit)
          (Padded.clip (min count limit) leaf) outer).takeFrom g inner.depth (leaf outer.position) o)
      else throw (.navigation g.val inner.depth) := by
  have deep : inner.isRoot = false :=
    Gindex.not_isRoot hiv (show inner.depth = (inner.depth - 1) + 1 by omega)
  rw [openTree_eq h count hl hg hsplit, List.mapM_pure, pure_bind, Padded.row_map_range]
  simp only [deep, Bool.false_eq_true, if_false]
  by_cases hi : outer.position < min count limit
  · -- the node that the branch is for is the leaf itself
    have leafRoot : Padded.rootAt h (Word.depthFor limit) (Padded.clip (min count limit) leaf) outer =
        leaf outer.position := by
      rw [Padded.rootAt, hod, Nat.sub_self, Padded.node, Padded.clip, if_pos hi]
    rw [if_neg (Nat.not_le.2 hi), if_pos hi, leafRoot]
    refine bind_congr fun o => ?_
    cases o with
    | none => rfl
    | some s => rfl
  · rw [if_pos (Nat.not_lt.1 hi), if_neg hi, throw_bind_eq]

end Open

/-- The proof of a leaf, extended by a proof from below it, verifies what that one does. -/
theorem Padded.proof_extend_verify {h : Hasher} {leaf : Nat → Root} {depth : Nat} {g outer inner : Gindex}
    {s : Proof} {x : Root} (hg : 0 < g.val) (hov : 0 < outer.val) (hod : outer.depth = depth)
    (hiv : 0 < inner.val) (hpath : g.path = outer.path ++ inner.path) (hs : s.root = leaf outer.position)
    (hx : s.verify h inner x = true) :
    Proof.verify h ⟨s.branch ++ (proof h depth leaf outer).branch, (proof h depth leaf outer).root⟩ g x =
      true := by
  have leafRoot : rootAt h depth leaf outer = s.root := by
    rw [rootAt, hod, Nat.sub_self, node, hs]
  have hp : (proof h depth leaf outer).verify h outer s.root = true := by
    rw [← leafRoot]
    exact verifyBranch_proof hov hod.le
  have sum : outer.depth + inner.depth = g.depth := by
    rw [← Gindex.length_path, ← Gindex.length_path, ← Gindex.length_path, hpath, List.length_append]
  have shallow := g.depth_lt
  obtain ⟨c, hc, hcpath, hverify⟩ := Proof.extend_verify hov hiv (by omega) hp hx
  rwa [Gindex.eq_of_path hc hg (hcpath.trans hpath.symm)] at hverify

/-- A node below the leaves is opened through the leaf on its path. If that leaf was not taken, nothing is
asked and the steps left are too many. Otherwise it is asked once, for the node at the rest of the path:
its failure is passed on, having no proof counts as a path too long, a proof rooted elsewhere is refused,
and one rooted at the leaf gives the root of hashing and the branch of the leaf behind its own. What that
proof verifies, the whole one verifies. -/
theorem openTree_below_leaf (h : Hasher) (count : Nat) {limit : Nat} (hl : limit < Word.bound)
    {g : Gindex} (hd : Word.depthFor limit < g.depth) (leaf : Nat → Root) :
    ∃ (outer inner : Gindex) (p : Proof),
      outer = Gindex.parent^[g.depth - Word.depthFor limit] g ∧
      Gindex.ofPosition outer.position (Word.depthFor limit) = .ok outer ∧
      0 < inner.val ∧ inner.path = g.path.drop (Word.depthFor limit) ∧
      (∀ (m : Type → Type) [Monad m] [LawfulMonad m]
        (below : Nat → Gindex → ExceptT Failure m (Option Proof)),
        merkleize h count limit (fun i => (pure (leaf i) : ExceptT Failure m Root)) = pure p.root ∧
        openTree h count limit outer (fun i => pure (leaf i)) below = pure p ∧
        openTree h count limit g (fun i => pure (leaf i)) below =
          if outer.position < min count limit then
            below outer.position inner >>= fun o =>
              liftM (p.takeFrom g (g.depth - Word.depthFor limit) (leaf outer.position) o)
          else throw (.navigation g.val (g.depth - Word.depthFor limit))) ∧
      (∀ below : Nat → Gindex → Result (Option Proof),
        (openTree h count limit g (fun i => pure (leaf i)) (consulted below)).run.run [] =
          if outer.position < min count limit then
            (below outer.position inner >>= p.takeFrom g (g.depth - Word.depthFor limit)
              (leaf outer.position), [(outer.position, inner)])
          else (.error (.navigation g.val (g.depth - Word.depthFor limit)), [])) ∧
      ∀ (s : Proof) (x : Root), outer.position < min count limit → s.root = leaf outer.position →
        s.verify h inner x = true → Proof.verify h ⟨s.branch ++ p.branch, p.root⟩ g x = true := by
  have hg : 0 < g.val := Gindex.val_pos_of_depth (Nat.zero_lt_of_lt hd)
  obtain ⟨inner, hsplit, hiv, hid, hpath⟩ := Gindex.splitAt_ancestor hg hd
  obtain ⟨hov, hod, -⟩ := Gindex.depth_position_ancestor hg (k := g.depth - Word.depthFor limit)
    (Nat.sub_le ..)
  have hjoin := Gindex.path_append_of_splitAt hg hsplit
  generalize houter : Gindex.parent^[g.depth - Word.depthFor limit] g = outer at *
  have hod : outer.depth = Word.depthFor limit := by omega
  refine ⟨outer, inner, Padded.proof h (Word.depthFor limit) (Padded.clip (min count limit) leaf) outer,
    rfl, ?_, hiv, hpath, fun m _ _ below => ⟨merkleize_pure h count hl leaf, ?_, ?_⟩, fun below => ?_, ?_⟩
  · rw [← hod]
    exact Gindex.ofPosition_self hov
  · rw [openTree_eq h count hl hov (Gindex.splitAt_of_le hod.le), List.mapM_pure, pure_bind,
      Padded.row_map_range]
    rfl
  · rw [openTree_of_lt h count hl hg hsplit hod hiv (by omega) leaf below, hid]
  · rw [openTree_of_lt h count hl hg hsplit hod hiv (by omega) leaf (consulted below), hid]
    by_cases hi : outer.position < min count limit
    · simp only [if_pos hi]
      exact run_consulted ..
    · simp only [if_neg hi]
      rfl
  · intro s x hi hs hx
    refine Padded.proof_extend_verify hg hov hod hiv hjoin ?_ hx
    rw [hs, Padded.clip, if_pos hi]

/-- Of three leaves in a tree for four, the second has a tree of its own: the node to its left is opened
by asking that leaf, once, for gindex 2. A failure of the leaf is passed on. -/
theorem openTree_left_of_second : ∃ x y : Root,
    let leaf (i : Nat) : Root := if i = 1 then Hasher.sha256.combine x y else .zero
    let own : Proof := ⟨[y], Hasher.sha256.combine x y⟩
    (∃ p, (openTree .sha256 3 4 ⟨10, by decide⟩ (fun i => pure (leaf i))
        (consulted fun _ _ => .ok (some own))).run.run [] = (.ok p, [(1, ⟨2, by decide⟩)]) ∧
      p.verify .sha256 ⟨10, by decide⟩ x = true) ∧
    (openTree .sha256 3 4 ⟨10, by decide⟩ (fun i => pure (leaf i))
        (consulted fun _ _ => .error .emptyContents)).run.run [] =
      (.error .emptyContents, [(1, ⟨2, by decide⟩)]) := by
  refine ⟨.ofBytes [1], .ofBytes [2], ?_⟩
  intro leaf own
  have rooted : own.root = leaf 1 := (if_pos rfl).symm
  have holds : own.verify .sha256 ⟨2, by decide⟩ (.ofBytes [1]) = true := Proof.verify_left _ _
  clear_value leaf own
  obtain ⟨outer, inner, p, houter, -, hinner, hpath, -, asks, verifies⟩ :=
    openTree_below_leaf .sha256 3 (show 4 < Word.bound by decide) (g := ⟨10, by decide⟩) (by decide) leaf
  obtain rfl : outer = ⟨5, by decide⟩ := houter
  obtain rfl : inner = ⟨2, by decide⟩ := Gindex.eq_of_path hinner (by decide) (hpath.trans (by decide))
  have taken : (⟨5, by decide⟩ : Gindex).position < min 3 4 := by decide
  refine ⟨⟨_, ?_, verifies own _ taken rooted holds⟩, ?_⟩
  · rw [asks, if_pos taken]
    have answer : p.takeFrom ⟨10, by decide⟩ 1 (leaf 1) (some own) =
        .ok ⟨own.branch ++ p.branch, p.root⟩ := if_pos rooted
    exact congrArg (·, [(1, _)]) answer
  · rw [asks, if_pos taken]
    rfl

end SszMerkle
