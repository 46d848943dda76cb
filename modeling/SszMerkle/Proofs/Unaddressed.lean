/-
Gindex 0, which addresses nothing. Reading it as a path gives the empty path, that of the root, and
reading off its tail gives the root as well, as if it were gindex 3. So a value without a mixed-in chunk
takes it for its root, and one with such a chunk takes it for that chunk; only a bare chunk refuses it.
The proof of the mixed-in chunk is one step too long for gindex 0, and verifies nothing there. At every
other gindex a value gives a proof of what is there, or refuses where its tree ends.
-/
import SszMerkle.MerkleList
import SszMerkle.Proofs.Lengths

namespace SszMerkle

variable {h : Hasher}

namespace Gindex

/-- The number that addresses nothing. -/
def unaddressed : Gindex := ⟨0, by decide⟩

/-- The chunk to the right of the content, be it a length or a selector. -/
def mixin : Gindex := MerkleList.lengthGindex

@[simp] theorem depth_unaddressed : unaddressed.depth = 0 := by decide

theorem tail?_unaddressed : unaddressed.tail? = some root := by decide

theorem tail?_mixin : mixin.tail? = some root := by decide

end Gindex

open Gindex (unaddressed)

/-! ## What the combinators take it for -/

/-- No visit is at gindex 0 or beside it. -/
theorem Opening.accepts_unaddressed (top : Nat) (o : Opening) :
    Frontier.Accepts top (watch top unaddressed) (· = o) := by
  rintro _ v rfl hv
  refine ⟨_, ?_, rfl⟩
  unfold watch
  rw [if_neg (Nat.not_lt.2 hv)]
  split
  · rfl
  · rename_i g hg
    have hpos := (Gindex.ofPosition_ok hg).1
    have beside : g.isProofOf unaddressed = false := by
      simp only [Gindex.isProofOf, Gindex.depth_unaddressed, Nat.le_zero]
      by_cases hd : g.depth = 0 <;> simp [hd]
    have differ : g ≠ unaddressed := by
      rintro rfl
      exact absurd hpos (by decide)
    rw [beside, if_neg Bool.false_ne_true, if_neg differ]

section Open

variable {m : Type → Type} [Monad m] [LawfulMonad m]

/-- A tree opened at gindex 0 is opened at the root. -/
theorem openTree_unaddressed (h : Hasher) (count : Nat) {limit : Nat} (hl : limit < Word.bound)
    (leaf : Nat → ExceptT Failure m Root) (below : Nat → Gindex → ExceptT Failure m (Option Proof)) :
    openTree h count limit unaddressed leaf below = openTree h count limit .root leaf below := by
  have hle : unaddressed.depth ≤ Word.depthFor limit := by simp
  have accepts := Opening.accepts_unaddressed (Word.depthFor limit)
    ⟨[], zeroRoot h.combine (Word.depthFor limit)⟩
  have split : Gindex.root.splitAt (Word.depthFor limit) = (.root, .root) :=
    Gindex.splitAt_of_le (by simp)
  rw [openTree_eq h count hl (by decide) split]
  simp only [openTree, Gindex.splitAt_of_le hle]
  rw [Opening.start_ok h (Word.depthFor_le_64 hl) hle, liftM_ok, pure_bind]
  simp only [Gindex.depth_unaddressed, List.range_zero, List.map_nil, Nat.sub_zero]
  rw [Frontier.feed_start leaf hl (Nat.min_le_right ..) accepts rfl, bind_assoc]
  refine mapM_bind_congr fun rs hrs => ?_
  rw [List.length_range] at hrs
  obtain ⟨f, visits, more, ha, hm, hw, -⟩ := Frontier.pass_ok h hl (hrs.le.trans (Nat.min_le_right ..))
  obtain ⟨hw, hw'⟩ := Frontier.within_append.1 hw
  obtain ⟨_, hvisits, rfl⟩ := accepts.foldlM rfl hw
  obtain ⟨_, hmore, rfl⟩ := accepts.foldlM rfl hw'
  rw [Frontier.watchAll_ok ha hvisits, liftM_ok, pure_bind]
  simp only [hm, liftM_ok, pure_bind, hmore]
  rfl

end Open

namespace Provable

theorem prove_node_unaddressed (n : Node) :
    (node h n).prove unaddressed = (node h n).prove .root := by
  cases n <;> rfl

theorem prove_flat_unaddressed (count : Nat) {limit : Nat} (hl : limit < Word.bound)
    (leaf : Nat → TreeM Root) :
    (flat h count limit leaf).prove unaddressed = (flat h count limit leaf).prove .root :=
  openTree_unaddressed h count hl leaf fun _ _ => return none

theorem prove_parts_unaddressed (ps : List Provable) {limit : Nat} (hl : limit < Word.bound) :
    (parts h limit ps).prove unaddressed = (parts h limit ps).prove .root :=
  openTree_unaddressed h ps.length hl _ _

theorem prove_mixed_unaddressed (content : Provable) (mixin : Root) :
    (mixed h content mixin).prove unaddressed = (mixed h content mixin).prove .mixin := by
  simp only [mixed, Gindex.tail?_unaddressed, Gindex.tail?_mixin]
  rfl

theorem prove_chunk_unaddressed (c : Root) :
    (chunk c).prove unaddressed = throw (.navigation 0 0) := rfl

end Provable

/-- At gindex 0 a proof without siblings verifies its own root, and any other verifies nothing. -/
theorem Proof.exists_verify_iff (p : Proof) :
    (∃ c, p.verify h unaddressed c = true) ↔ p.branch.length = 0 := by
  constructor
  · rintro ⟨c, hc⟩
    exact beq_iff_eq.1 (Bool.and_eq_true_iff.1 hc).1
  · intro hp
    have nil : p.branch = [] := List.length_eq_zero_iff.1 hp
    refine ⟨p.root, ?_⟩
    simp [verify, verifyBranch, nil, foldBranch]

namespace Value

/-- What a value takes gindex 0 for. -/
def takesUnaddressedFor : Value → Option Gindex
  | chunk _ => none
  | basic _ _ => none
  | list _ _ => some .mixin
  | basicList _ _ _ => some .mixin
  | byteList _ _ => some .mixin
  | bitlist _ _ => some .mixin
  | union _ _ => some .mixin
  | emptyUnion _ => some .mixin
  | _ => some .root

theorem prove_unaddressed {v : Value} (hv : v.Sized) : v.prove h unaddressed =
    match v.takesUnaddressedFor with
    | none => throw (.navigation 0 0)
    | some g => v.prove h g := by
  cases v with
  | chunk c => exact Provable.prove_chunk_unaddressed c
  | basic t v => exact Provable.prove_chunk_unaddressed _
  | node n => exact Provable.prove_node_unaddressed n
  | container fields =>
    exact Provable.prove_parts_unaddressed _ (by rw [length_provables]; exact hv.1)
  | vector elements =>
    exact Provable.prove_parts_unaddressed _ (by rw [length_provables]; exact hv.1)
  | basicVector t vs => exact Provable.prove_flat_unaddressed _ (countOf_lt hv) _
  | byteVector bytes => exact Provable.prove_flat_unaddressed _ (countOf_lt hv) _
  | bitvector bits => exact Provable.prove_flat_unaddressed _ (countOf_lt hv) _
  | roots count limit values => exact Provable.prove_flat_unaddressed _ hv.1 _
  | _ => exact Provable.prove_mixed_unaddressed _ _

/-- That is the root or else the chunk that is mixed in. -/
theorem takesUnaddressedFor_cases {v : Value} {g : Gindex} (hg : v.takesUnaddressedFor = some g) :
    g = .root ∨ g = .mixin ∧ ∃ t c, v.tree h = .pair t (.chunk c) := by
  cases v <;> cases hg
  all_goals first
    | exact .inl rfl
    | exact .inr ⟨rfl, _, _, rfl⟩

/-- A node is proved where there is one, and refused elsewhere. The proof verifies unless it has roots
of some other hasher. -/
theorem prove_of_pos {v : Value} (hv : v.Sized) (s : Store) {g : Gindex} (hg : 0 < g.val) :
    match (v.tree h).seek h g.path with
    | .ok c => ∃ p t, (v.prove h g).run.run s = (.ok p, t) ∧ p.branch.length = g.depth ∧
        (v.Sound h s → p.verify h g c = true)
    | .error left => ∃ n t, (v.prove h g).run.run s = (.error (.navigation n left), t) := by
  obtain ⟨r, t, hrun, -, -, hgrants⟩ := (outlines (h := h) v hv).prove s g hg trivial
  unfold Tree.Grants at hgrants
  cases hseek : (v.tree h).seek h g.path with
  | error left =>
    rw [hseek] at hgrants
    obtain ⟨n, rfl⟩ := hgrants
    exact ⟨n, t, hrun⟩
  | ok c =>
    rw [hseek] at hgrants
    obtain ⟨p, rfl, -⟩ := hgrants
    refine ⟨p, t, hrun, (measured h v hv g hg).of_run hrun, fun sound => ?_⟩
    obtain ⟨r', t', hrun', -, -, hproves⟩ := (realizes v sound).prove s (.refl h s) g hg trivial
    cases hrun'.symm.trans hrun
    obtain ⟨c', hseek', -, hshows⟩ := Tree.proves_ok.1 hproves
    rw [hseek] at hseek'
    cases hseek'
    exact (Proof.Shows.iff_verifyBranch hg).1 hshows

/-- At every gindex but 0 a value gives a proof as long as the gindex is deep, which verifies what is
there unless it has roots of some other hasher, or it refuses where its tree ends. Gindex 0 is refused
by a bare chunk alone; the others give a proof of their root or of the chunk mixed in, and that of the
chunk is too long and verifies nothing. -/
theorem prove_every_gindex {v : Value} (hv : v.Sized) (h : Hasher) (s : Store) (g : Gindex) :
    (0 < g.val → match (v.tree h).seek h g.path with
      | .ok c => ∃ p t, (v.prove h g).run.run s = (.ok p, t) ∧ p.branch.length = g.depth ∧
          (v.Sound h s → p.verify h g c = true)
      | .error left => ∃ n t, (v.prove h g).run.run s = (.error (.navigation n left), t)) ∧
    (g.val = 0 → match v.takesUnaddressedFor with
      | none => v.prove h g = throw (.navigation 0 0)
      | some g' => v.prove h g = v.prove h g' ∧ ∃ p t, (v.prove h g).run.run s = (.ok p, t) ∧
          p.branch.length = g'.depth ∧ ((∃ c, p.verify h g c = true) ↔ g' = .root)) := by
  refine ⟨prove_of_pos hv s, fun hg => ?_⟩
  obtain rfl : g = unaddressed := Gindex.ext hg
  have taken := prove_unaddressed (h := h) hv
  cases hfor : v.takesUnaddressedFor with
  | none =>
    rw [hfor] at taken
    exact taken
  | some g' =>
    rw [hfor] at taken
    refine ⟨taken, ?_⟩
    rw [taken]
    rcases takesUnaddressedFor_cases (h := h) hfor with rfl | ⟨rfl, t, c, htree⟩
    · obtain ⟨p, t, hrun, hlen, -⟩ := prove_of_pos (h := h) hv s (g := .root) (by decide)
      exact ⟨p, t, hrun, hlen, (Proof.exists_verify_iff p).trans (by simp [hlen])⟩
    · have proved := prove_of_pos (h := h) hv s (g := .mixin) (by decide)
      rw [htree] at proved
      obtain ⟨p, t, hrun, hlen, -⟩ := proved
      have differ : Gindex.mixin ≠ .root := by decide
      have long : p.branch.length = 1 := hlen
      exact ⟨p, t, hrun, hlen, (Proof.exists_verify_iff p).trans (by simp [long, differ])⟩

/-- A list of one number: at gindex 4 the number is proved, and at gindex 0 the length, in vain. -/
theorem prove_list_unaddressed :
    let v : Value := .list 2 [.basic .uint64 (7 : UInt64)]
    (∃ p t, (v.prove .sha256 ⟨4, by decide⟩).run.run .empty = (.ok p, t) ∧ p.branch.length = 2 ∧
      p.verify .sha256 ⟨4, by decide⟩ (Chunk.packed .uint64 [(7 : UInt64)] 0) = true) ∧
    ∃ p t, (v.prove .sha256 unaddressed).run.run .empty = (.ok p, t) ∧
      v.prove .sha256 unaddressed = v.prove .sha256 .mixin ∧ p.branch.length = 1 ∧
      ¬ ∃ c, p.verify .sha256 unaddressed c = true := by
  intro v
  have sized : v.Sized := ⟨show 2 < Word.bound by decide, trivial, trivial⟩
  have sound : v.Sound .sha256 .empty := ⟨show 2 < Word.bound by decide, trivial, trivial⟩
  constructor
  · have depth : Word.depthFor 2 = 1 := by decide
    have hpath : Gindex.path ⟨4, by decide⟩ = [false, false] := by decide
    have hseek : (v.tree .sha256).seek .sha256 [false, false] =
        .ok (Chunk.packed .uint64 [(7 : UInt64)] 0) := by
      simp [v, tree, trees, Tree.balanced, depth, Tree.grid, Tree.seek, Tree.place, Tree.root]
    have proved := (prove_every_gindex sized .sha256 .empty ⟨4, by decide⟩).1 (by decide)
    rw [hpath, hseek] at proved
    obtain ⟨p, t, hrun, hlen, hverify⟩ := proved
    exact ⟨p, t, hrun, hlen, hverify sound⟩
  · obtain ⟨taken, p, t, hrun, hlen, hverify⟩ :=
      (prove_every_gindex sized .sha256 .empty unaddressed).2 rfl
    exact ⟨p, t, hrun, taken, hlen, fun verified => absurd (hverify.1 verified) (by decide)⟩

/-- An empty list gives a proof for gindex 0 that is longer than gindex 0 is deep. -/
theorem not_always_as_deep : ¬ ∀ (v : Value) (s : Store) (g : Gindex) (p : Proof) (t : Store),
    v.Sound .sha256 s → (v.prove .sha256 g).run.run s = (.ok p, t) → p.branch.length = g.depth := by
  intro all
  have sized : (Value.list 1 []).Sized := ⟨show 1 < Word.bound by decide, trivial⟩
  have sound : (Value.list 1 []).Sound .sha256 .empty := ⟨show 1 < Word.bound by decide, trivial⟩
  obtain ⟨p, t, hrun, hlen, -⟩ := prove_of_pos (h := .sha256) sized .empty (g := .mixin) (by decide)
  have taken : (list 1 []).prove .sha256 unaddressed = (list 1 []).prove .sha256 .mixin :=
    prove_unaddressed sized
  rw [← taken] at hrun
  have short := all _ _ _ p t sound hrun
  rw [hlen] at short
  exact absurd short (by decide)

end Value

end SszMerkle
