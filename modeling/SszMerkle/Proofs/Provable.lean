/-
What the combinators of provable values compute. A provable value realizes a tree if its root is
that of the tree, and if its proof at a gindex shows the root that the tree holds there, or is
refused where the tree ends, with the steps left. Each combinator realizes the tree made of the
trees that its parts realize, from every later store on.
-/
import SszMerkle.Provable
import SszMerkle.Proofs.Branch
import SszMerkle.Proofs.Store
import SszMerkle.Proofs.Tree

namespace SszMerkle

variable {h : Hasher} {s : Store}

/-- The answer to a request for the proof of the node at a path of a tree. -/
def Tree.Proves (h : Hasher) (t : Tree) (path : List Bool) (r : Result Proof) : Prop :=
  match t.seek h path with
  | .ok node => ∃ p, r = .ok p ∧ p.root = t.root h ∧ p.Shows h path node
  | .error left => ∃ n, r = .error (.navigation n left)

namespace Tree

variable {t : Tree} {path : List Bool}

theorem proves_iff {r : Result Proof} : t.Proves h path r ↔
    t.Grants h path (fun node p => p.root = t.root h ∧ p.Shows h path node) r := .rfl

theorem proves_ok {p : Proof} : t.Proves h path (.ok p) ↔
    ∃ node, t.seek h path = .ok node ∧ p.root = t.root h ∧ p.Shows h path node :=
  proves_iff.trans grants_ok

theorem proves_error {e : Failure} : t.Proves h path (.error e) ↔
    ∃ left n, t.seek h path = .error left ∧ e = .navigation n left :=
  proves_iff.trans grants_error

end Tree

/-- From the store on, a provable value gives the root and the proofs of a tree. -/
structure Provable.Realizes (h : Hasher) (s : Store) (p : Provable) (t : Tree) : Prop where
  root : ∀ s', s.Later h s' → Answers h s' p.root (.ok (t.root h))
  prove : ∀ s', s.Later h s' → ∀ g : Gindex, 0 < g.val →
    Ends h s' (p.prove g) fun r _ => t.Proves h g.path r

theorem Provable.Realizes.later {p : Provable} {t : Tree} {s' : Store} (hp : p.Realizes h s t)
    (later : s.Later h s') : p.Realizes h s' t :=
  ⟨fun u hu => hp.root u (later.trans hu), fun u hu => hp.prove u (later.trans hu)⟩

/-! ## Node trees -/

namespace Node

/-- Zero roots beside a path lead from zero to the zero root above. -/
theorem foldPath_zero : ∀ path : List Bool,
    foldPath h path ((List.range path.length).map (zeroRoot h.combine)).reverse .zero =
      zeroRoot h.combine path.length
  | [] => rfl
  | right :: path => by
    rw [List.length_cons, List.range_succ, List.map_append, List.reverse_append, List.map_cons,
      List.map_nil, List.reverse_singleton, List.singleton_append, foldPath, foldPath_zero path]
    cases right <;> rfl

theorem zeroBranch_ok {depth : Nat} (h64 : depth ≤ 64) :
    zeroBranch h depth = .ok ((List.range depth).map (zeroRoot h.combine)) :=
  mapM_ok fun _ hk => Hasher.zero_eq (by rw [List.mem_range] at hk; omega)

/-- The branch of a path through a clean tree leads from what the path seeks to the digest. -/
theorem branch_ends {target : Gindex} : ∀ {path : List Bool} {n : Node} {s : Store},
    n.Clean h s → path.length ≤ 64 → Ends h s (n.branch h target path) fun r _ =>
      (Tree.ofNode n).Proves h path (r.map (⟨·, n.digest h⟩))
  | [], n, s, _, _ =>
    .pure (Tree.proves_ok.2 ⟨_, rfl, (Tree.root_ofNode n).symm, by rw [Tree.root_ofNode]; exact .root _⟩)
  | right :: path, .leaf i c, s, _, h64 => by
    rw [List.length_cons] at h64
    simp only [branch, Hasher.zero_eq h64, liftM_ok, pure_bind]
    by_cases hc : c = zeroRoot h.combine (path.length + 1)
    · rw [if_neg (not_not_intro hc), zeroBranch_ok h64]
      exact .pure (Tree.proves_ok.2 ⟨.zero, if_pos hc, rfl, by simp,
        (foldPath_zero (right :: path)).trans hc.symm⟩)
    · rw [if_pos hc]
      exact .throw_bind (Tree.proves_error.2 ⟨_, _, if_neg hc, rfl⟩)
  | right :: path, .pair serial l r, s, hn, h64 => by
    obtain ⟨-, -, hl, hr⟩ := hn
    rw [List.length_cons] at h64
    have next : (if right then r else l).Clean h s := by split <;> assumption
    have beside : (if right then l else r).Clean h s := by split <;> assumption
    have seek := Tree.seek_ofNode_pair (h := h) serial l r right path
    rw [branch]
    -- the sibling is hashed first, which only grows the store
    refine (root_answers beside).bind fun t st => ?_
    refine (branch_ends (next.later st) (by omega)).bind ?_ ?_
    · intro below u _ hb
      obtain ⟨node, hseek, -, hlen, hfold⟩ := Tree.proves_ok.1 hb
      refine .pure (Tree.proves_ok.2 ⟨node, seek.trans hseek, (Tree.root_ofNode _).symm,
        by simpa using hlen, ?_⟩)
      simp only [List.reverse_append, List.reverse_cons, List.reverse_nil, List.nil_append,
        List.cons_append, foldPath, hfold, digest]
      cases right <;> rfl
    · intro e u _ he
      obtain ⟨left, n, hseek, hn⟩ := Tree.proves_error.1 he
      exact Tree.proves_error.2 ⟨left, n, seek.trans hseek, hn⟩

end Node

/-- A container of fewer than three fields has the root that the pass over its fields would give. -/
theorem Provable.containerRoot_eq {ps : List Provable} (hl : ps.length < Word.bound) :
    containerRoot h ps = (parts h ps.length ps).root := by
  match ps, hl with
  | [], hl =>
    rw [parts, merkleize_eq h _ hl]
    rfl
  | [p], hl =>
    rw [parts, merkleize_eq h _ hl]
    show p.root = [0].mapM (rootAt [p]) >>= fun rs => pure (Padded.root h 0 (Padded.row rs))
    simp only [List.mapM_cons, List.mapM_nil, bind_assoc, pure_bind]
    exact (bind_pure p.root).symm
  | [p, q], hl =>
    rw [parts, merkleize_eq h _ hl]
    show _ = [0, 1].mapM (rootAt [p, q]) >>= fun rs => pure (Padded.root h 1 (Padded.row rs))
    simp only [List.mapM_cons, List.mapM_nil, bind_assoc, pure_bind]
    rfl
  | _ :: _ :: _ :: _, _ => rfl

namespace Provable.Realizes

theorem node {n : Node} (hn : n.Clean h s) : (Provable.node h n).Realizes h s (.ofNode n) := by
  constructor
  · intro t st
    rw [Tree.root_ofNode]
    exact Node.root_answers (hn.later st)
  · intro t st g _
    have h64 : g.path.length ≤ 64 := by rw [Gindex.length_path]; exact g.depth_lt.le
    refine (Node.branch_ends (hn.later st) h64).bind ?_ fun e _ _ he => he
    intro branch u tu hb
    refine (Node.root_answers ((hn.later st).later tu)).bind fun _ _ => ?_
    exact .pure hb

/-! ## Chunks and mixed-in chunks -/

theorem chunk (c : Root) : (Provable.chunk c).Realizes h s (.chunk c) := by
  constructor
  · exact fun _ _ => .pure c
  · intro t _ g hg
    cases hd : g.depth with
    | zero =>
      rw [Gindex.eq_root hg hd]
      exact .pure (Tree.proves_ok.2 ⟨_, rfl, rfl, .root c⟩)
    | succ d =>
      simp only [Provable.chunk, Gindex.not_isRoot hg hd, Bool.false_eq_true, if_false]
      exact .throw (Tree.proves_error.2 ⟨_, g.val, Tree.seek_chunk (Gindex.path_ne_nil hd), by simp⟩)

/-- At the root a proof is the root alone. -/
theorem prove_root {p : Provable} {t : Tree} (hp : p.Realizes h s t) :
    Succeeds h s (p.prove .root) fun q _ => q.root = t.root h :=
  (hp.prove s (.refl h s) .root (by decide)).mono fun _ _ _ ⟨q, hr, hq, _⟩ => ⟨q, hr, hq⟩

/-- A chunk mixed in lies to the right of the content. -/
theorem mixed {content : Provable} {t : Tree} (hc : content.Realizes h s t) (mixin : Root) :
    (Provable.mixed h content mixin).Realizes h s (.pair t (.chunk mixin)) := by
  constructor
  · exact fun u su => (hc.root u su).bind fun _ _ => .pure rfl
  intro u su g hg
  cases hd : g.depth with
  | zero =>
    rw [Gindex.eq_root hg hd]
    refine (hc.later su).prove_root.bind fun q _ _ hq => ?_
    exact .pure (Tree.proves_ok.2 ⟨_, rfl, by rw [hq]; rfl, hq ▸ .root _⟩)
  | succ d =>
    -- the first step decides: into the content, or to the chunk and no further
    obtain ⟨inner, ht, hv, -, -⟩ := Gindex.tail?_eq hg hd
    simp only [Provable.mixed, ht, Gindex.path_tail? hg hd ht]
    cases hl : g.startsLeft with
    | true =>
      refine (hc.prove u su inner hv).bind ?_ ?_
      · intro q _ _ hq
        obtain ⟨node, hseek, hr, hs⟩ := Tree.proves_ok.1 hq
        exact .pure (Tree.proves_ok.2 ⟨node, hseek, by rw [Proof.mixIn, hr]; rfl, hs.mixIn mixin⟩)
      · intro e _ _ he
        obtain ⟨left, n, hseek, hn⟩ := Tree.proves_error.1 he
        exact Tree.proves_error.2 ⟨left, n, hseek, hn⟩
    | false =>
      cases hi : inner.depth with
      | zero =>
        rw [Gindex.eq_root hv hi]
        refine (hc.later su).prove_root.bind fun q _ _ hq => ?_
        exact .pure (Tree.proves_ok.2 ⟨mixin, rfl, by rw [hq]; rfl, rfl, rfl⟩)
      | succ j =>
        simp only [Gindex.not_isRoot hv hi, Bool.false_eq_true, if_false]
        exact .throw (Tree.proves_error.2
          ⟨_, g.val, Tree.seek_chunk (Gindex.path_ne_nil hi), by simp [hi]⟩)

/-! ## Balanced trees -/

section Row

variable {ts : List Tree} {limit : Nat} {leaf : Nat → TreeM Root}
  {below : Nat → Gindex → TreeM (Option Proof)}

/-- Every leaf that is asked for has the root of its tree. -/
def Leaves (h : Hasher) (s : Store) (leaf : Nat → TreeM Root) (ts : List Tree) : Prop :=
  ∀ i (hi : i < ts.length) (t : Store), s.Later h t → Answers h t (leaf i) (.ok (ts[i].root h))

/-- A leaf proves what lies below it; one without a proof has nothing below it. -/
def Below (h : Hasher) (s : Store) (below : Nat → Gindex → TreeM (Option Proof)) (ts : List Tree) :
    Prop :=
  ∀ i (hi : i < ts.length) (g : Gindex), 0 < g.val → 0 < g.depth → ∀ t, s.Later h t →
    Ends h t (below i g) fun r _ => ts[i].Proves h g.path
      (r.bind fun o => o.elim (.error (.navigation g.val g.depth)) .ok)

/-- The leaves below count and limit, asked for in order. -/
theorem Leaves.mapM (hleaf : Leaves h s leaf ts) (limit : Nat) {t : Store} (st : s.Later h t) :
    Answers h t ((List.range (min ts.length limit)).mapM leaf)
      (.ok ((List.range (min ts.length limit)).map fun i => (Tree.place ts i).root h)) := by
  refine .mapM fun i hi u tu => ?_
  rw [List.mem_range] at hi
  have place : Tree.place ts i = ts[i] := by simp [Tree.place, show i < ts.length by omega]
  rw [place]
  exact hleaf i (by omega) u (st.trans tu)

/-- A pass over a row of leaves gives the root of the balanced tree. -/
theorem Leaves.merkleize (hl : limit < Word.bound) (hleaf : Leaves h s leaf ts) {t : Store}
    (st : s.Later h t) : Answers h t (merkleize h ts.length limit leaf)
      (.ok ((Tree.balanced limit ts).root h)) := by
  rw [merkleize_eq h ts.length hl, Tree.root_balanced, ← Padded.row_map_range]
  exact (hleaf.mapM limit st).bind fun _ _ => .pure rfl

/-- A node of the balanced tree itself has the branch of the reference tree, whatever its leaves
hold. -/
theorem Leaves.openTree_answers (hl : limit < Word.bound) (hleaf : Leaves h s leaf ts) {t : Store}
    (st : s.Later h t) {g : Gindex} (hg : 0 < g.val) (hd : g.depth ≤ Word.depthFor limit) :
    Answers h t (openTree h ts.length limit g leaf below) (.ok (Padded.proof h (Word.depthFor limit)
      (fun i => (Tree.place (ts.take limit) i).root h) g)) := by
  rw [openTree_eq h ts.length hl hg (Gindex.splitAt_of_le hd)]
  refine (hleaf.mapM limit st).bind fun u tu => ?_
  rw [Padded.row_map_range, ← Tree.root_place_take]
  exact .pure rfl

theorem Leaves.openTree_of_le (hl : limit < Word.bound) (hleaf : Leaves h s leaf ts) {t : Store}
    (st : s.Later h t) {g : Gindex} (hg : 0 < g.val) (hd : g.depth ≤ Word.depthFor limit) :
    Ends h t (openTree h ts.length limit g leaf below) fun r _ =>
      (Tree.balanced limit ts).Proves h g.path r :=
  (hleaf.openTree_answers hl st hg hd).mono fun _ _ _ hr => hr ▸ Tree.proves_ok.2
    ⟨_, Tree.seek_balanced_of_le hg hd, (Tree.root_grid _ _).symm, Padded.proof_shows hg hd⟩

/-- A node below a leaf is shown by the leaf's own proof, extended by the branch of the leaf; past
the last leaf nothing is. -/
theorem Leaves.openTree_of_lt (hl : limit < Word.bound) (hleaf : Leaves h s leaf ts)
    (hbelow : Below h s below ts) {t : Store} (st : s.Later h t) {g : Gindex} (hg : 0 < g.val)
    (hd : Word.depthFor limit < g.depth) :
    Ends h t (openTree h ts.length limit g leaf below) fun r _ =>
      (Tree.balanced limit ts).Proves h g.path r := by
  obtain ⟨outer, inner, hsplit, hov, hod, -, hiv, hid, -⟩ := Gindex.splitAt_eq hg hd
  have deep : inner.depth = (inner.depth - 1) + 1 := by omega
  have hseek : (Tree.balanced limit ts).seek h g.path = _ :=
    Tree.seek_balanced_of_split hg hsplit hov hod
  rw [openTree_eq h ts.length hl hg hsplit]
  refine (hleaf.mapM limit st).bind fun u tu => ?_
  rw [Padded.row_map_range, ← Tree.root_place_take]
  simp only [Gindex.not_isRoot hiv deep, Bool.false_eq_true, if_false]
  rcases Nat.lt_or_ge outer.position (min ts.length limit) with hin | hout
  · rw [if_neg (Nat.not_le.2 hin)]
    have hi : outer.position < ts.length := by omega
    rw [Tree.place_take hi (by omega)] at hseek
    refine (hbelow _ hi inner hiv (by omega) u (st.trans tu)).bind ?_ ?_
    · intro sub v uv hr
      cases sub with
      | none =>
        obtain ⟨left, n, hleft, hn⟩ := Tree.proves_error.1 hr
        cases hn
        exact .throw (Tree.proves_error.2 ⟨_, _, hseek.trans hleft, rfl⟩)
      | some q =>
        obtain ⟨node, hnode, hq, hshows⟩ := Tree.proves_ok.1 hr
        -- the branch proves the leaf's root, which is the root that the leaf's proof leads to
        have hproven : Padded.rootAt h (Word.depthFor limit)
            (fun i => (Tree.place (ts.take limit) i).root h) outer = q.root := by
          rw [Padded.rootAt, hod, Nat.sub_self, Padded.node, Tree.place_take hi (by omega), hq]
        have outerShows : (Padded.proof h (Word.depthFor limit)
            (fun i => (Tree.place (ts.take limit) i).root h) outer).Shows h outer.path q.root :=
          hproven ▸ Padded.proof_shows hov hod.le
        rw [hproven]
        simp only [Proof.extend, if_true, liftM_ok]
        exact .pure (Tree.proves_ok.2 ⟨node, hseek.trans hnode, (Tree.root_grid _ _).symm,
          Gindex.path_append_of_splitAt hg hsplit ▸ outerShows.extend hshows⟩)
    · intro e v uv he
      obtain ⟨left, n, hleft, hn⟩ := Tree.proves_error.1 he
      exact Tree.proves_error.2 ⟨_, _, hseek.trans hleft, hn⟩
  · rw [if_pos hout]
    rw [Tree.place_take_of_le hout] at hseek
    exact .throw_bind (Tree.proves_error.2
      ⟨_, g.val, hseek.trans (Tree.seek_chunk (Gindex.path_ne_nil deep)), by simp⟩)

/-- Opening a row of leaves shows what the balanced tree holds. -/
theorem Leaves.openTree (hl : limit < Word.bound) (hleaf : Leaves h s leaf ts)
    (hbelow : Below h s below ts) {t : Store} (st : s.Later h t) {g : Gindex} (hg : 0 < g.val) :
    Ends h t (openTree h ts.length limit g leaf below) fun r _ =>
      (Tree.balanced limit ts).Proves h g.path r := by
  rcases Nat.lt_or_ge (Word.depthFor limit) g.depth with hd | hd
  · exact hleaf.openTree_of_lt hl hbelow st hg hd
  · exact hleaf.openTree_of_le hl st hg hd

theorem flat {cs : List Root} {count : Nat} (hc : cs.length = count) (hl : limit < Word.bound)
    (hleaf : Leaves h s leaf (cs.map .chunk)) :
    (Provable.flat h count limit leaf).Realizes h s (.balanced limit (cs.map .chunk)) := by
  subst hc
  have below : Below h s (fun _ _ => return none) (cs.map .chunk) := by
    intro i hi g hg hd t st
    have deep : g.depth = (g.depth - 1) + 1 := by omega
    rw [List.getElem_map]
    exact .pure (Tree.proves_error.2 ⟨_, g.val, Tree.seek_chunk (Gindex.path_ne_nil deep), by simp⟩)
  rw [← List.length_map Tree.chunk]
  constructor
  · exact fun t st => hleaf.merkleize hl st
  · exact fun t st g hg => hleaf.openTree hl below st hg

end Row

/-! ## Parts -/

section Parts

variable {ps : List Provable} {ts : List Tree}

theorem nodes {ns : List Node} (hns : ∀ n ∈ ns, n.Clean h s) :
    List.Forall₂ (Realizes h s) (ns.map (Provable.node h)) (ns.map Tree.ofNode) := by
  rw [List.forall₂_map_left_iff, List.forall₂_map_right_iff, List.forall₂_same]
  exact fun n hn => .node (hns n hn)

theorem leaves (hps : List.Forall₂ (Realizes h s) ps ts) : Leaves h s (rootAt ps) ts := by
  intro i hi t st
  have hi' : i < ps.length := by rw [hps.length_eq]; exact hi
  rw [rootAt, List.getElem?_eq_getElem hi']
  exact (List.forall₂_iff_get.1 hps).2 i hi' hi |>.root t st

theorem below (hps : List.Forall₂ (Realizes h s) ps ts) : Below h s (proveAt ps) ts := by
  intro i hi g hg _ t st
  have hi' : i < ps.length := by rw [hps.length_eq]; exact hi
  rw [proveAt, List.getElem?_eq_getElem hi']
  have hp := (List.forall₂_iff_get.1 hps).2 i hi' hi |>.prove t st g hg
  simp only [map_eq_pure_bind]
  exact hp.bind (fun q u _ hq => .pure hq) fun e u _ he => he

theorem parts (hps : List.Forall₂ (Realizes h s) ps ts) {limit : Nat} (hl : limit < Word.bound) :
    (Provable.parts h limit ps).Realizes h s (.balanced limit ts) := by
  rw [Provable.parts, hps.length_eq]
  constructor
  · exact fun t st => (leaves hps).merkleize hl st
  · exact fun t st g hg => (leaves hps).openTree hl (below hps) st hg

theorem container (hps : List.Forall₂ (Realizes h s) ps ts) (hl : ps.length < Word.bound) :
    (Provable.container h ps).Realizes h s (.balanced ps.length ts) := by
  constructor
  · rw [Provable.container, containerRoot_eq hl]
    exact (parts hps hl).root
  · exact (parts hps hl).prove

end Parts

end Provable.Realizes

end SszMerkle
