/-
Opening a tree at a node: the branch gathered from a streaming pass holds the reference roots of the
siblings of the target and of its ancestors. A sibling above a leaf that was taken is visited with
its final root; any other lies among zeros, where the branch starts out right. Folded upward, the
branch leads from the reference root of the target to that of the tree.
-/
import SszMerkle.Opening
import SszMerkle.Proofs.Frontier

namespace SszMerkle

/-! ## The branch of the reference tree -/

namespace Padded

/-- The siblings of a node and of its ancestors, lowest first, and the root. -/
def proof (h : Hasher) (depth : Nat) (leaf : Nat → Root) (g : Gindex) : Proof where
  branch := (List.range g.depth).map fun k => rootAt h depth leaf (Gindex.parent^[k] g).sibling
  root := root h depth leaf

variable {h : Hasher} {leaf : Nat → Root} {g : Gindex}

@[simp] theorem length_proof (depth : Nat) : (proof h depth leaf g).branch.length = g.depth := by
  simp [proof]

theorem rootAt_sibling_ancestor {depth k : Nat} (hg : 0 < g.val) (hk : k < g.depth)
    (hd : g.depth ≤ depth) :
    rootAt h depth leaf (Gindex.parent^[k] g).sibling =
      node h leaf (depth - g.depth + k) (g.position / 2 ^ k ^^^ 1) := by
  obtain ⟨hv, ha, hp⟩ := g.depth_position_ancestor hg hk.le
  obtain ⟨hsd, hsp⟩ := Gindex.depth_position_sibling hv (show _ = (g.depth - k - 1) + 1 by omega)
  unfold rootAt
  rw [hsd, hsp, hp]
  congr 1
  omega

/-- The branch of a node folds its root into the root of the tree. -/
theorem foldBranch_proof {depth : Nat} : ∀ {d : Nat} {g : Gindex}, 0 < g.val → g.depth = d →
    g.depth ≤ depth →
    foldBranch h (proof h depth leaf g).branch g (rootAt h depth leaf g) = root h depth leaf
  | 0, g, hg, hd, _ => by
    rw [Gindex.eq_root hg hd]
    rfl
  | d + 1, g, hg, hd, hle => by
    obtain ⟨hpd, -⟩ := g.depth_position_parent hg hd
    have below : (proof h depth leaf g).branch =
        rootAt h depth leaf g.sibling :: (proof h depth leaf g.parent).branch := by
      simp only [proof, hd, hpd, List.range_succ_eq_map, List.map_cons, List.map_map]
      rfl
    rw [below, foldBranch, ← rootAt_parent hg hd hle]
    exact foldBranch_proof (g.parent_pos hg hd) hpd (by omega)

theorem verifyBranch_proof {depth : Nat} (hg : 0 < g.val) (hle : g.depth ≤ depth) :
    verifyBranch h (proof h depth leaf g).branch g (root h depth leaf) (rootAt h depth leaf g) = true := by
  unfold verifyBranch
  rw [length_proof, foldBranch_proof hg rfl hle]
  simp

end Padded

/-! ## Watching a pass -/

namespace Opening

variable {h : Hasher} {leaf : Nat → Root} {top : Nat} {g : Gindex}

/-- The branch has one root for each level below the target. -/
def Fits (g : Gindex) (o : Opening) : Prop := o.branch.length = g.depth

/-- Before the pass the branch and the target are zero trees. -/
theorem start_ok (h : Hasher) (h64 : top ≤ 64) (hle : g.depth ≤ top) :
    start h top g = .ok ⟨(List.range g.depth).map fun k => zeroRoot h.combine (top - g.depth + k),
      zeroRoot h.combine (top - g.depth)⟩ := by
  have zeros : (List.range g.depth).mapM (fun k => h.zero (top - g.depth + k)) =
      .ok ((List.range g.depth).map fun k => zeroRoot h.combine (top - g.depth + k)) :=
    mapM_ok fun k hk => Hasher.zero_eq (by rw [List.mem_range] at hk; omega)
  simp only [start, zeros, Hasher.zero_eq (show top - g.depth ≤ 64 by omega), bind, Except.bind]
  rfl

/-- The visit settles the sibling of the `k`-th ancestor of the target. -/
def Beside (top : Nat) (g : Gindex) (v : Visit) (k : Nat) : Prop :=
  v.level = top - g.depth + k ∧ v.position = g.position / 2 ^ k ^^^ 1

/-- The visit settles the target. -/
def Reached (top : Nat) (g : Gindex) (v : Visit) : Prop :=
  v.level = top - g.depth ∧ v.position = g.position

instance (top : Nat) (g : Gindex) (v : Visit) (k : Nat) : Decidable (Beside top g v k) :=
  inferInstanceAs (Decidable (_ ∧ _))

instance (top : Nat) (g : Gindex) (v : Visit) : Decidable (Reached top g v) :=
  inferInstanceAs (Decidable (_ ∧ _))

section Watch

variable (hg : 0 < g.val) (hle : g.depth ≤ top) {v : Visit} {k : Nat}
include hg hle

/-- What settles a sibling has a gindex, as the target is that deep. -/
theorem Beside.ofPosition_ok (hb : Beside top g v k) (hk : k < g.depth) :
    ∃ n, Gindex.ofPosition v.position (top - v.level) = .ok n := by
  obtain ⟨hl, hp⟩ := hb
  have hd := g.depth_lt
  obtain ⟨n, hn, -⟩ := Gindex.ofPosition_eq (show top - v.level < 64 by omega)
    (show v.position < 2 ^ (top - v.level) by
      rw [hp, show top - v.level = g.depth - k by omega]
      exact g.position_sibling_lt hg hk)
  exact ⟨n, hn⟩

theorem Reached.ofPosition_ok (hr : Reached top g v) :
    ∃ n, Gindex.ofPosition v.position (top - v.level) = .ok n := by
  obtain ⟨hl, hp⟩ := hr
  have hd := g.depth_lt
  obtain ⟨n, hn, -⟩ := Gindex.ofPosition_eq (show top - v.level < 64 by omega)
    (show v.position < 2 ^ (top - v.level) by
      rw [hp, show top - v.level = g.depth by omega]
      exact g.position_lt_two_pow hg)
  exact ⟨n, hn⟩

/-- A visit lies on the branch exactly if it settles a sibling, the one that its depth says. -/
theorem isProofOf_iff_beside {n : Gindex} (hv : v.level ≤ top)
    (hn : Gindex.ofPosition v.position (top - v.level) = .ok n) :
    n.isProofOf g = true ↔ g.depth - n.depth < g.depth ∧ Beside top g v (g.depth - n.depth) := by
  obtain ⟨hnv, hnd, hnp⟩ := Gindex.ofPosition_ok hn
  rw [Gindex.isProofOf_iff hnv hg, hnd, hnp]
  unfold Beside
  constructor
  · rintro ⟨h0, h1, hp⟩
    exact ⟨by omega, by omega, hp⟩
  · rintro ⟨h0, hl, hp⟩
    exact ⟨by omega, by omega, hp⟩

theorem eq_iff_reached {n : Gindex} (hv : v.level ≤ top)
    (hn : Gindex.ofPosition v.position (top - v.level) = .ok n) : n = g ↔ Reached top g v := by
  obtain ⟨hnv, hnd, hnp⟩ := Gindex.ofPosition_ok hn
  constructor
  · rintro rfl
    exact ⟨by omega, hnp.symm⟩
  · rintro ⟨hl, hp⟩
    exact Gindex.eq_of_depth_position hnv hg (by omega) (by omega)

/-- A visit is kept at the one place of the branch whose node it settles, or as the target. -/
theorem watch_ok {o : Opening} (ho : Fits g o) (hv : v.level ≤ top) :
    ∃ o', watch top g o v = .ok o' ∧ Fits g o' ∧
      (∀ k < g.depth, o'.branch[k]? = if Beside top g v k then some v.root else o.branch[k]?) ∧
      o'.proven = if Reached top g v then v.root else o.proven := by
  unfold watch
  rw [if_neg (by omega)]
  cases hn : Gindex.ofPosition v.position (top - v.level) with
  | error e =>
    -- a node without a gindex lies too deep to be the target or beside it
    refine ⟨o, rfl, ho, fun k hk => ?_, ?_⟩
    · rw [if_neg]
      intro hb
      obtain ⟨n, hn'⟩ := hb.ofPosition_ok hg hle hk
      rw [hn] at hn'
      cases hn'
    · rw [if_neg]
      intro hr
      obtain ⟨n, hn'⟩ := hr.ofPosition_ok hg hle
      rw [hn] at hn'
      cases hn'
  | ok n =>
    have branch := isProofOf_iff_beside hg hle hv hn
    have target := eq_iff_reached hg hle hv hn
    obtain ⟨-, hnd, -⟩ := Gindex.ofPosition_ok hn
    simp only
    split
    · rename_i hc
      obtain ⟨hk, hb⟩ := branch.1 hc
      rw [if_pos (by rw [ho]; exact hk)]
      refine ⟨_, rfl, by simpa [Fits] using ho, fun k hk' => ?_, ?_⟩
      · rw [List.getElem?_set]
        by_cases e : g.depth - n.depth = k
        · subst e
          rw [if_pos rfl, if_pos (by rw [ho]; exact hk), if_pos hb]
        · rw [if_neg e, if_neg fun hb' => e (by have := hb.1; have := hb'.1; omega)]
      · -- the sibling in the level of the target is not the target
        rw [if_neg]
        rintro ⟨hl, hp⟩
        have zero : g.depth - n.depth = 0 := by have := hb.1; omega
        have := hb.2
        rw [hp, zero, pow_zero, Nat.div_one, xor_one_eq] at this
        omega
    · rename_i hc
      have off : ∀ k < g.depth, ¬ Beside top g v k := by
        intro k hk hb
        refine hc (branch.2 ?_)
        have : g.depth - n.depth = k := by have := hb.1; omega
        rw [this]
        exact ⟨hk, hb⟩
      split
      · rename_i he
        exact ⟨_, rfl, ho, fun k hk => by rw [if_neg (off k hk)], by rw [if_pos (target.1 he)]⟩
      · rename_i he
        exact ⟨o, rfl, ho, fun k hk => by rw [if_neg (off k hk)], by rw [if_neg fun hr => he (target.2 hr)]⟩

theorem accepts_watch : Frontier.Accepts top (watch top g) (Fits g) := by
  intro o v ho hv
  obtain ⟨o', h1, h2, -⟩ := watch_ok hg hle ho hv
  exact ⟨o', h1, h2⟩

end Watch

/-- Watching faithful visits sets right what they show and leaves the rest as it was. -/
theorem foldlM_watch (hg : 0 < g.val) (hle : g.depth ≤ top) : ∀ {vs : List Visit} {o : Opening},
    Fits g o → Frontier.Within top vs → Frontier.Faithful h leaf vs →
    ∃ o', vs.foldlM (watch top g) o = .ok o' ∧ Fits g o' ∧
      (∀ k < g.depth, let there := Padded.node h leaf (top - g.depth + k) (g.position / 2 ^ k ^^^ 1)
        o.branch[k]? = some there ∨
          Frontier.Shown vs (top - g.depth + k) (g.position / 2 ^ k ^^^ 1) →
        o'.branch[k]? = some there) ∧
      (o.proven = Padded.node h leaf (top - g.depth) g.position ∨
          Frontier.Shown vs (top - g.depth) g.position →
        o'.proven = Padded.node h leaf (top - g.depth) g.position)
  | [], o, ho, _, _ => ⟨o, rfl, ho, fun k _ => by simp, by simp⟩
  | v :: vs, o, ho, hw, hf => by
    rw [Frontier.within_cons] at hw
    rw [Frontier.faithful_cons] at hf
    obtain ⟨o', h1, ho', hb, hp⟩ := watch_ok hg hle ho hw.1
    obtain ⟨o'', h2, ho'', hb', hp'⟩ := foldlM_watch hg hle ho' hw.2 hf.2
    refine ⟨o'', by rw [List.foldlM_cons, h1]; exact h2, ho'', fun k hk => ?_, ?_⟩
    · intro there hor
      rw [Frontier.shown_cons] at hor
      apply hb' k hk
      rw [hb k hk]
      split
      · rename_i hc
        rw [hf.1, hc.1, hc.2]
        exact .inl rfl
      · rename_i hc
        tauto
    · intro hor
      rw [Frontier.shown_cons] at hor
      apply hp'
      rw [hp]
      split
      · rename_i hc
        rw [hf.1, hc.1, hc.2]
        exact .inl rfl
      · rename_i hc
        tauto

/-- After a whole pass over a row, the branch is that of the reference tree. -/
theorem foldlM_watch_pass {rs : List Root} {vs : List Visit} (hg : 0 < g.val) (hle : g.depth ≤ top)
    (h64 : top ≤ 64) (hw : Frontier.Within top vs) (hf : Frontier.Faithful h (Padded.row rs) vs)
    (hs : ∀ l x, l ≤ top → x * 2 ^ l < rs.length → Frontier.Shown vs l x) :
    ∃ o o', start h top g = .ok o ∧ Fits g o ∧ vs.foldlM (watch top g) o = .ok o' ∧
      o'.branch = (Padded.proof h top (Padded.row rs) g).branch ∧
      o'.proven = Padded.rootAt h top (Padded.row rs) g := by
  -- a node that no visit reached has zero leaves only, as the start supposes
  have zero : ∀ l x, l ≤ top → zeroRoot h.combine l = Padded.node h (Padded.row rs) l x ∨
      Frontier.Shown vs l x := by
    intro l x hl
    rcases Nat.lt_or_ge (x * 2 ^ l) rs.length with hx | hx
    · exact .inr (hs l x hl hx)
    · exact .inl (Padded.node_eq_zeroRoot fun i hi => Padded.row_of_le (hx.trans hi)).symm
  have fits : Fits g ⟨(List.range g.depth).map fun k => zeroRoot h.combine (top - g.depth + k),
    zeroRoot h.combine (top - g.depth)⟩ := by simp [Fits]
  obtain ⟨o', h1, ho', hb, hp⟩ := foldlM_watch hg hle fits hw hf
  refine ⟨_, o', start_ok h h64 hle, fits, h1, ?_, hp (zero _ _ (by omega))⟩
  apply List.ext_getElem?
  intro k
  by_cases hk : k < g.depth
  · rw [hb k hk]
    · simp [Padded.proof, hk, Padded.rootAt_sibling_ancestor hg hk hle]
    · refine (zero _ _ (by omega)).imp_left fun e => ?_
      simp [hk, e]
  · rw [List.getElem?_eq_none (by rw [ho']; omega), List.getElem?_eq_none (by simp; omega)]

end Opening

/-! ## Opening a tree -/

section Open

variable {m : Type → Type} [Monad m] [LawfulMonad m]

/-- Opening asks for the same leaves as hashing, in the same order, and only then, for a target
below a leaf, for the proof within that leaf. -/
theorem openTree_eq (h : Hasher) (count : Nat) {limit : Nat} (hl : limit < Word.bound)
    {g outer inner : Gindex} (hg : 0 < g.val)
    (hsplit : g.splitAt (Word.depthFor limit) = (outer, inner))
    (leaf : Nat → ExceptT Failure m Root) (below : Nat → Gindex → ExceptT Failure m (Option Proof)) :
    openTree h count limit g leaf below = (do
      let leaves ← (List.range (min count limit)).mapM leaf
      let proof := Padded.proof h (Word.depthFor limit) (Padded.row leaves) outer
      if inner.isRoot then return proof
      if min count limit ≤ outer.position then throw (.navigation g.val inner.depth)
      match ← below outer.position inner with
      | some sub =>
        proof.extend sub (Padded.rootAt h (Word.depthFor limit) (Padded.row leaves) outer)
      | none => throw (.navigation g.val inner.depth)) := by
  have h64 := Word.depthFor_le_64 hl
  obtain ⟨_, _, hs, hov, -, hod, -⟩ := Gindex.splitAt_depths hg (Word.depthFor limit)
  rw [hsplit] at hs
  cases hs
  simp only [openTree, hsplit]
  have accepts := Opening.accepts_watch hov hod
  rw [Opening.start_ok h h64 hod, liftM_ok, pure_bind,
    Frontier.feed_start leaf hl (Nat.min_le_right ..) accepts (by simp [Opening.Fits]), bind_assoc]
  refine mapM_bind_congr fun rs hrs => ?_
  rw [List.length_range] at hrs
  obtain ⟨f, visits, more, ha, hm, hw, hf, hs⟩ :=
    Frontier.pass_ok h hl (hrs.le.trans (Nat.min_le_right ..))
  obtain ⟨o, o', h0, -, hfold, hb, hp⟩ := Opening.foldlM_watch_pass hov hod h64 hw hf hs
  rw [Opening.start_ok h h64 hod, Except.ok.injEq] at h0
  subst h0
  rw [List.foldlM_append] at hfold
  obtain ⟨o₁, h1, h2⟩ := bind_eq_ok hfold
  rw [Frontier.watchAll_ok ha h1, liftM_ok, pure_bind]
  simp only [hm, liftM_ok, pure_bind, h2, hb, hp]
  rfl

end Open

/-- A node of the tree itself is opened whatever the leaves hold below them: nothing below is asked
for, the root is that of hashing, the branch has the reference root of the sibling of each ancestor
below the root, the target's own first, and it leads from the target to the root. -/
theorem openTree_above_leaves (h : Hasher) (count : Nat) {limit : Nat} (hl : limit < Word.bound)
    {g : Gindex} (hg : 0 < g.val) (hd : g.depth ≤ Word.depthFor limit) (leaf : Nat → Root) :
    ∃ p : Proof,
      (∀ (m : Type → Type) [Monad m] [LawfulMonad m]
        (below : Nat → Gindex → ExceptT Failure m (Option Proof)),
        openTree h count limit g (fun i => pure (leaf i)) below = pure p ∧
        merkleize h count limit (fun i => (pure (leaf i) : ExceptT Failure m Root)) = pure p.root) ∧
      p.branch.length = g.depth ∧
      (∀ k < g.depth, p.branch[k]? = some (Padded.rootAt h (Word.depthFor limit)
        (Padded.clip (min count limit) leaf) (Gindex.parent^[k] g).sibling)) ∧
      verifyBranch h p.branch g p.root
        (Padded.rootAt h (Word.depthFor limit) (Padded.clip (min count limit) leaf) g) = true := by
  refine ⟨Padded.proof h (Word.depthFor limit) (Padded.clip (min count limit) leaf) g,
    fun m _ _ below => ⟨?_, merkleize_pure h count hl leaf⟩, Padded.length_proof _, fun k hk => ?_,
    Padded.verifyBranch_proof hg hd⟩
  · rw [openTree_eq h count hl hg (Gindex.splitAt_of_le hd), List.mapM_pure, pure_bind,
      Padded.row_map_range]
    rfl
  · simp [Padded.proof, hk]

/-- The second leaf of a tree for three that holds two: its sibling is the first leaf, and beside
their parent lies a zero tree. -/
theorem openTree_second_of_two : ∃ p : Proof,
    openTree (m := Id) .sha256 2 3 ⟨5, by decide⟩ (fun i => pure (.ofBytes [UInt8.ofNat i]))
      (fun _ _ => throw .emptyContents) = pure p ∧
    p.branch = [.ofBytes [0], Hasher.sha256.combine .zero .zero] ∧
    verifyBranch .sha256 p.branch ⟨5, by decide⟩ p.root (.ofBytes [1]) = true := by
  obtain ⟨p, ho, hl, hb, hv⟩ := openTree_above_leaves .sha256 2 (show 3 < Word.bound by decide)
    (g := ⟨5, by decide⟩) (by decide) (by decide) fun i => .ofBytes [UInt8.ofNat i]
  refine ⟨p, (ho Id _).1, ?_, hv⟩
  have h0 := hb 0 (by decide)
  have h1 := hb 1 (by decide)
  match hp : p.branch, hl with
  | [a, b], _ =>
    rw [hp] at h0 h1
    cases h0
    cases h1
    rfl

end SszMerkle
