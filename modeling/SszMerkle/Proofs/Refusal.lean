/-
Where proofs end. Whether the proof of a node is given is read off the tree of the value alone: it is
refused exactly where the path goes on below a position that has no children, and what is left of the
path there is reported, through however many values the request was handed down. No root that a store
keeps has a say in it, not even one left there by another hasher: a part gives as the root of its
proof the root it gave before, so a proof always fits the proof it is extended by.
-/
import SszMerkle.Proofs.Settled
import SszMerkle.Proofs.Value

namespace SszMerkle

variable {h : Hasher} {s : Store}

/-! ## Positions without children -/

namespace Tree

/-- The tree at the end of a path among pairs. -/
def at? : (path : List Bool) → Tree → Option Tree
  | [], t => some t
  | right :: path, pair l r => at? path (if right then r else l)
  | _ :: _, _ => none

/-- With so many steps left there is no way on: a chunk has nothing below it, and neither has the leaf
of a node tree unless it holds the root of the zero tree of that depth. -/
def Childless (h : Hasher) (left : Nat) : Tree → Prop
  | chunk _ => True
  | leaf c => c ≠ zeroRoot h.combine left
  | pair _ _ => False

/-- The path goes on below a position without children, with so many steps. -/
def Blocks (h : Hasher) (t : Tree) (path : List Bool) (left : Nat) : Prop :=
  ∃ upper lower below, path = upper ++ lower ∧ lower ≠ [] ∧ lower.length = left ∧
    t.at? upper = some below ∧ below.Childless h left

variable {t : Tree} {path : List Bool} {left : Nat}

theorem blocks_iff : t.Blocks h path left ↔ t.seek h path = .error left := by
  constructor
  · rintro ⟨upper, lower, below, rfl, hne, rfl, hat, hbelow⟩
    induction upper generalizing t with
    | nil =>
      obtain ⟨right, rest, rfl⟩ := List.exists_cons_of_ne_nil hne
      obtain rfl : t = below := Option.some.inj hat
      cases t with
      | chunk c => rfl
      | leaf c => exact if_neg hbelow
      | pair l r => cases hbelow
    | cons right upper ih =>
      cases t with
      | chunk c => cases hat
      | leaf c => cases hat
      | pair l r => exact ih hat
  · intro hseek
    induction path generalizing t with
    | nil => cases hseek
    | cons right path ih =>
      cases t with
      | chunk c =>
        cases hseek
        exact ⟨[], right :: path, _, rfl, by simp, rfl, rfl, trivial⟩
      | leaf c =>
        rw [seek] at hseek
        split at hseek
        · cases hseek
        · rename_i hc
          cases hseek
          exact ⟨[], right :: path, _, rfl, by simp, rfl, rfl, hc⟩
      | pair l r =>
        obtain ⟨upper, lower, below, rfl, hne, hlen, hat, hbelow⟩ := ih hseek
        exact ⟨right :: upper, lower, below, rfl, hne, hlen, hat, hbelow⟩

end Tree

/-! ## Paths through node trees -/

namespace Node

/-- The branch of a path is gathered wherever the path can be sought. -/
theorem branch_grants {target : Gindex} : ∀ {path : List Bool} {n : Node} {s : Store},
    path.length ≤ 64 → Store.memory.Ends s (n.branch h target path) fun r _ =>
      (Tree.ofNode n).Grants h path (fun _ _ => True) r
  | [], _, _, _ => .pure (Tree.grants_ok.2 ⟨_, rfl, trivial⟩)
  | _ :: path, .leaf _ c, _, h64 => by
    rw [List.length_cons] at h64
    simp only [branch, Hasher.zero_eq h64, liftM_ok, pure_bind]
    by_cases hc : c = zeroRoot h.combine (path.length + 1)
    · rw [if_neg (not_not_intro hc), zeroBranch_ok h64]
      exact .pure (Tree.grants_ok.2 ⟨.zero, if_pos hc, trivial⟩)
    · rw [if_pos hc]
      exact .throw_bind (Tree.grants_error.2 ⟨_, _, if_neg hc, rfl⟩)
  | right :: path, .pair serial l r, s, h64 => by
    rw [List.length_cons] at h64
    have seek := Tree.seek_ofNode_pair (h := h) serial l r right path
    rw [branch]
    refine (root_settles _ s).bind fun _ t _ _ => ?_
    refine (branch_grants (by omega)).bind ?_ ?_
    · exact fun _ _ _ hb => .pure (hb.ok seek fun _ => id)
    · exact fun _ _ _ he => he.error seek

end Node

/-! ## What the combinators grant -/

/-- A provable value settles on a root. It gives a proof wherever the path can be sought in the tree,
and the proof has the root that it settles on. -/
structure Provable.Outlines (h : Hasher) (p : Provable) (t : Tree) : Prop where
  root : Store.memory.Settles p.root
  prove : ∀ (s : Store) (g : Gindex), 0 < g.val → Store.memory.Ends s (p.prove g) fun r u =>
    t.Grants h g.path (fun _ q => Store.memory.Settled u p.root q.root) r

namespace Provable.Outlines

theorem node (n : Node) : (Provable.node h n).Outlines h (.ofNode n) := by
  constructor
  · exact Node.root_settles n
  · intro s g _
    have h64 : g.path.length ≤ 64 := by rw [Gindex.length_path]; exact g.depth_lt.le
    refine (Node.branch_grants h64).bind ?_ fun _ _ _ he => he.error rfl
    intro branch t _ hb
    refine (Node.root_settles n t).bind fun c u _ hc => ?_
    exact .pure (hb.ok rfl fun _ _ => hc)

theorem chunk (c : Root) : (Provable.chunk c).Outlines h (.chunk c) := by
  constructor
  · exact .pure c
  · intro s g hg
    cases hd : g.depth with
    | zero =>
      rw [Gindex.eq_root hg hd]
      exact .pure (Tree.grants_ok.2 ⟨c, rfl, .pure c⟩)
    | succ d =>
      simp only [Provable.chunk, Gindex.not_isRoot hg hd, Bool.false_eq_true, if_false]
      exact .throw (Tree.grants_error.2 ⟨_, g.val, Tree.seek_chunk (Gindex.path_ne_nil hd), by simp⟩)

/-- At the root there is a proof. -/
theorem prove_root {p : Provable} {t : Tree} (hp : p.Outlines h t) (s : Store) :
    Store.memory.Succeeds s (p.prove .root) fun q u => Store.memory.Settled u p.root q.root :=
  hp.prove s .root (by decide)

theorem mixed {content : Provable} {t : Tree} (hc : content.Outlines h t) (mixin : Root) :
    (Provable.mixed h content mixin).Outlines h (.pair t (.chunk mixin)) := by
  have settled : ∀ {u : Store} {c : Root}, Store.memory.Settled u content.root c →
      Store.memory.Settled u (Provable.mixed h content mixin).root (h.combine c mixin) :=
    fun hc => hc.bind (.pure _)
  constructor
  · exact hc.root.bind fun _ => .pure _
  intro s g hg
  cases hd : g.depth with
  | zero =>
    rw [Gindex.eq_root hg hd]
    refine (hc.prove_root s).bind fun q u _ hq => ?_
    exact .pure (Tree.grants_ok.2 ⟨_, rfl, settled hq⟩)
  | succ d =>
    obtain ⟨inner, ht, hv, -, -⟩ := Gindex.tail?_eq hg hd
    simp only [Provable.mixed, ht, Gindex.path_tail? hg hd ht]
    cases hl : g.startsLeft with
    | true =>
      refine (hc.prove s inner hv).bind ?_ fun _ _ _ he => he.error rfl
      exact fun q u _ hq => .pure (hq.ok rfl fun _ => settled)
    | false =>
      cases hi : inner.depth with
      | zero =>
        rw [Gindex.eq_root hv hi]
        refine (hc.prove_root s).bind fun q u _ hq => ?_
        exact .pure (Tree.grants_ok.2 ⟨mixin, rfl, settled hq⟩)
      | succ j =>
        simp only [Gindex.not_isRoot hv hi, Bool.false_eq_true, if_false]
        exact .throw (Tree.grants_error.2
          ⟨_, g.val, Tree.seek_chunk (Gindex.path_ne_nil hi), by simp [hi]⟩)

/-! ## Balanced trees -/

section Row

variable {ts : List Tree} {limit : Nat} {leaf : Nat → TreeM Root}
  {below : Nat → Gindex → TreeM (Option Proof)}

/-- Every leaf that is asked for settles on a root. -/
def Leaves (leaf : Nat → TreeM Root) (n : Nat) : Prop := ∀ i < n, Store.memory.Settles (leaf i)

/-- A leaf grants what lies below it, in proofs of the root it settles on; one without a proof has
nothing below it. -/
def Below (h : Hasher) (leaf : Nat → TreeM Root) (below : Nat → Gindex → TreeM (Option Proof))
    (ts : List Tree) : Prop :=
  ∀ i (hi : i < ts.length) (g : Gindex), 0 < g.val → 0 < g.depth → ∀ s : Store,
    Store.memory.Ends s (below i g) fun r u =>
      ts[i].Grants h g.path (fun _ q => Store.memory.Settled u (leaf i) q.root)
        (r.bind fun o => o.elim (.error (.navigation g.val g.depth)) .ok)

theorem Leaves.mapM_succeeds (hleaf : Leaves leaf ts.length) (limit : Nat) (s : Store) :
    Store.memory.Succeeds s ((List.range (min ts.length limit)).mapM leaf) fun leaves t =>
      List.Forall₂ (fun i c => Store.memory.Settled t (leaf i) c)
        (List.range (min ts.length limit)) leaves :=
  Regime.Settles.mapM_succeeds (fun i hi => hleaf i (by rw [List.mem_range] at hi; omega)) s

/-- Once the leaves have settled, so has the root over them. -/
theorem merkleize_settled (hl : limit < Word.bound) {leaves : List Root}
    (hleaves : List.Forall₂ (fun i c => Store.memory.Settled s (leaf i) c)
      (List.range (min ts.length limit)) leaves) :
    Store.memory.Settled s (merkleize h ts.length limit leaf)
      (Padded.root h (Word.depthFor limit) (Padded.row leaves)) := by
  rw [merkleize_eq h ts.length hl]
  exact (Regime.Settled.mapM hleaves).bind (.pure _)

theorem Leaves.merkleize (hl : limit < Word.bound) (hleaf : Leaves leaf ts.length) :
    Store.memory.Settles (merkleize h ts.length limit leaf) := by
  rw [merkleize_eq h ts.length hl]
  exact Regime.Settles.bind (.mapM fun i hi => hleaf i (by rw [List.mem_range] at hi; omega))
    fun _ => .pure _

/-- A node of the balanced tree itself is granted whatever its leaves hold. -/
theorem Leaves.openTree_of_le (hl : limit < Word.bound) (hleaf : Leaves leaf ts.length) (s : Store)
    {g : Gindex} (hg : 0 < g.val) (hd : g.depth ≤ Word.depthFor limit) :
    Store.memory.Ends s (openTree h ts.length limit g leaf below) fun r u =>
      (Tree.balanced limit ts).Grants h g.path
        (fun _ q => Store.memory.Settled u (SszMerkle.merkleize h ts.length limit leaf) q.root) r := by
  rw [openTree_eq h ts.length hl hg (Gindex.splitAt_of_le hd)]
  refine (hleaf.mapM_succeeds limit s).bind fun leaves u _ hleaves => ?_
  exact .pure (Tree.grants_ok.2 ⟨_, Tree.seek_balanced_of_le hg hd, merkleize_settled hl hleaves⟩)

/-- A node below a leaf is granted where the leaf grants it, as the root of the leaf's own proof is the
root that the leaf gave; past the last leaf nothing is. -/
theorem Leaves.openTree_of_lt (hl : limit < Word.bound) (hleaf : Leaves leaf ts.length)
    (hbelow : Below h leaf below ts) (s : Store) {g : Gindex} (hg : 0 < g.val)
    (hd : Word.depthFor limit < g.depth) :
    Store.memory.Ends s (openTree h ts.length limit g leaf below) fun r u =>
      (Tree.balanced limit ts).Grants h g.path
        (fun _ q => Store.memory.Settled u (SszMerkle.merkleize h ts.length limit leaf) q.root) r := by
  obtain ⟨outer, inner, hsplit, hov, hod, -, hiv, hid, -⟩ := Gindex.splitAt_eq hg hd
  have deep : inner.depth = (inner.depth - 1) + 1 := by omega
  have hseek : (Tree.balanced limit ts).seek h g.path = _ :=
    Tree.seek_balanced_of_split hg hsplit hov hod
  rw [openTree_eq h ts.length hl hg hsplit]
  refine (hleaf.mapM_succeeds limit s).bind fun leaves u _ hleaves => ?_
  simp only [Gindex.not_isRoot hiv deep, Bool.false_eq_true, if_false]
  rcases Nat.lt_or_ge outer.position (min ts.length limit) with hin | hout
  · rw [if_neg (Nat.not_le.2 hin)]
    have hi : outer.position < ts.length := by omega
    rw [Tree.place_take hi (by omega)] at hseek
    refine (hbelow _ hi inner hiv (by omega) u).bind ?_ fun _ _ _ he => he.error hseek
    intro sub v uv hr
    cases sub with
    | none =>
      obtain ⟨left, n, hleft, hn⟩ := Tree.grants_error.1 hr
      cases hn
      exact .throw (Tree.grants_error.2 ⟨_, _, hseek.trans hleft, rfl⟩)
    | some q =>
      obtain ⟨-, -, hq⟩ := Tree.grants_ok.1 hr
      obtain ⟨hlen, hget⟩ := List.forall₂_iff_get.1 hleaves
      rw [List.length_range] at hlen
      -- the leaf settled on its root before its proof was asked for
      have hproven : q.root = Padded.rootAt h (Word.depthFor limit) (Padded.row leaves) outer := by
        have first := hget outer.position (by rwa [List.length_range]) (by omega)
        simp only [List.get_eq_getElem, List.getElem_range] at first
        rw [hq.unique trivial (first.later uv), Padded.rootAt, hod, Nat.sub_self, Padded.node, Padded.row,
          List.getD_eq_getElem?_getD, List.getElem?_eq_getElem (by omega)]
        rfl
      simp only [Proof.extend, hproven, if_true, liftM_ok]
      refine .pure (hr.ok hseek fun _ _ => ?_)
      exact merkleize_settled hl (hleaves.imp fun _ _ hc => hc.later uv)
  · rw [if_pos hout]
    rw [Tree.place_take_of_le hout] at hseek
    exact .throw_bind (Tree.grants_error.2
      ⟨_, g.val, hseek.trans (Tree.seek_chunk (Gindex.path_ne_nil deep)), by simp⟩)

theorem Leaves.openTree (hl : limit < Word.bound) (hleaf : Leaves leaf ts.length)
    (hbelow : Below h leaf below ts) (s : Store) {g : Gindex} (hg : 0 < g.val) :
    Store.memory.Ends s (openTree h ts.length limit g leaf below) fun r u =>
      (Tree.balanced limit ts).Grants h g.path
        (fun _ q => Store.memory.Settled u (SszMerkle.merkleize h ts.length limit leaf) q.root) r := by
  rcases Nat.lt_or_ge (Word.depthFor limit) g.depth with hd | hd
  · exact hleaf.openTree_of_lt hl hbelow s hg hd
  · exact hleaf.openTree_of_le hl s hg hd

theorem flat {cs : List Root} {count : Nat} (hc : cs.length = count) (hl : limit < Word.bound)
    (hleaf : Leaves leaf count) :
    (Provable.flat h count limit leaf).Outlines h (.balanced limit (cs.map .chunk)) := by
  subst hc
  rw [← List.length_map Tree.chunk] at hleaf ⊢
  have below : Below h leaf (fun _ _ => return none) (cs.map .chunk) := by
    intro i hi g hg hd s
    have deep : g.depth = (g.depth - 1) + 1 := by omega
    rw [List.getElem_map]
    exact .pure (Tree.grants_error.2 ⟨_, g.val, Tree.seek_chunk (Gindex.path_ne_nil deep), by simp⟩)
  constructor
  · exact hleaf.merkleize hl
  · exact fun s g hg => hleaf.openTree hl below s hg

end Row

/-! ## Parts -/

section Parts

variable {ps : List Provable} {ts : List Tree}

theorem leaves (hps : List.Forall₂ (Outlines h) ps ts) : Leaves (rootAt ps) ts.length := by
  intro i hi
  have hi' : i < ps.length := by rw [hps.length_eq]; exact hi
  unfold rootAt
  rw [List.getElem?_eq_getElem hi']
  exact ((List.forall₂_iff_get.1 hps).2 i hi' hi).root

theorem below (hps : List.Forall₂ (Outlines h) ps ts) : Below h (rootAt ps) (proveAt ps) ts := by
  intro i hi g hg _ s
  have hi' : i < ps.length := by rw [hps.length_eq]; exact hi
  unfold rootAt proveAt
  rw [List.getElem?_eq_getElem hi']
  simp only [map_eq_pure_bind]
  refine (((List.forall₂_iff_get.1 hps).2 i hi' hi).prove s g hg).bind ?_ fun _ _ _ he => he
  exact fun _ _ _ hq => .pure hq

theorem parts (hps : List.Forall₂ (Outlines h) ps ts) {limit : Nat} (hl : limit < Word.bound) :
    (Provable.parts h limit ps).Outlines h (.balanced limit ts) := by
  rw [Provable.parts, hps.length_eq]
  constructor
  · exact (leaves hps).merkleize hl
  · exact fun s g hg => (leaves hps).openTree hl (below hps) s hg

theorem container (hps : List.Forall₂ (Outlines h) ps ts) (hl : ps.length < Word.bound) :
    (Provable.container h ps).Outlines h (.balanced ps.length ts) := by
  rw [Provable.container, containerRoot_eq hl]
  exact parts hps hl

end Parts

end Provable.Outlines

namespace Value

mutual

/-- Lengths and limits are words. -/
def Sized : Value → Prop
  | chunk _ => True
  | node _ => True
  | basic _ _ => True
  | container fields => fields.length < Word.bound ∧ AllSized fields
  | vector elements => elements.length < Word.bound ∧ AllSized elements
  | list limit elements => limit < Word.bound ∧ AllSized elements
  | basicVector _ vs => vs.length < Word.bound
  | basicList _ limit _ => limit < Word.bound
  | byteVector bytes => bytes.length < Word.bound
  | byteList limit _ => limit < Word.bound
  | bitvector bits => bits.length < Word.bound
  | bitlist limit _ => limit < Word.bound
  | union _ value => value.Sized
  | emptyUnion _ => True
  | roots _ limit values => limit < Word.bound ∧ AllSized values

def AllSized : List Value → Prop
  | [] => True
  | v :: vs => v.Sized ∧ AllSized vs

end

/-- Chunks that are there, side by side. -/
theorem chunks_outline (f : Nat → Root) (count : Nat) {limit : Nat} (hl : limit < Word.bound) :
    (Provable.flat h count limit fun i => return f i).Outlines h
      (.balanced limit (Tree.chunks count f)) :=
  .flat (by simp) hl fun _ _ => .pure _

mutual

theorem outlines : ∀ v : Value, v.Sized → (v.provable h).Outlines h (v.tree h)
  | chunk c, _ => .chunk c
  | node n, _ => .node n
  | basic _ _, _ => .chunk _
  | container fields, ⟨hl, hv⟩ => by
    rw [provable, tree, ← length_provables h fields]
    exact .container (all_outline fields hv) (by rw [length_provables]; exact hl)
  | vector elements, ⟨hl, hv⟩ => by
    rw [provable, tree, Provable.vector, length_provables]
    exact .parts (all_outline elements hv) hl
  | list limit elements, ⟨hl, hv⟩ => by
    rw [provable, tree, Provable.list, length_provables]
    exact .mixed (.parts (all_outline elements hv) hl) _
  | basicVector _ _, hl => chunks_outline _ _ (countOf_lt hl)
  | basicList _ _ _, hl => .mixed (chunks_outline _ _ (countOf_lt hl)) _
  | byteVector _, hl => chunks_outline _ _ (countOf_lt hl)
  | byteList _ _, hl => .mixed (chunks_outline _ _ (countOf_lt hl)) _
  | bitvector _, hl => chunks_outline _ _ (countOf_lt hl)
  | bitlist limit _, hl =>
    .mixed (chunks_outline _ _ (lt_of_le_of_lt (groups_le limit (by decide)) hl)) _
  | union _ value, hv => .mixed (outlines value hv) _
  | emptyUnion _, _ => .mixed (.chunk .zero) _
  | roots count limit values, ⟨hl, hv⟩ => by
    have hps := all_outline values hv
    refine .flat (by simp) hl fun i _ => ?_
    split
    · rename_i hi
      exact Provable.Outlines.leaves hps i (by rwa [hps.length_eq] at hi)
    · exact .pure _

theorem all_outline : ∀ vs : List Value, AllSized vs →
    List.Forall₂ (Provable.Outlines h) (provables h vs) (trees h vs)
  | [], _ => .nil
  | v :: vs, ⟨hv, hvs⟩ => .cons (outlines v hv) (all_outline vs hvs)

end

/-- A request for a proof is refused exactly if its path goes on below a position without children,
with as many steps left as the refusal says, and in no other way: whatever roots were kept before, no
proof of a part is found not to fit. -/
theorem prove_refused_iff {v : Value} (hv : v.Sized) {g : Gindex} (hg : 0 < g.val) (s : Store) :
    (∀ left, (v.tree h).Blocks h g.path left ↔
      ∃ n, ((v.prove h g).run.run s).1 = .error (.navigation n left)) ∧
    ∀ e, ((v.prove h g).run.run s).1 = .error e → ∃ n left, e = .navigation n left := by
  obtain ⟨r, t, hrun, -, -, hr⟩ := (outlines (h := h) v hv).prove s g hg trivial
  rw [prove, hrun]
  simp only [Tree.blocks_iff]
  unfold Tree.Grants at hr
  cases hseek : (v.tree h).seek h g.path with
  | ok node =>
    rw [hseek] at hr
    obtain ⟨q, rfl, -⟩ := hr
    exact ⟨fun left => ⟨nofun, nofun⟩, nofun⟩
  | error left' =>
    rw [hseek] at hr
    obtain ⟨n, rfl⟩ := hr
    refine ⟨fun left => ⟨?_, ?_⟩, ?_⟩
    · rintro ⟨⟩
      exact ⟨n, rfl⟩
    · rintro ⟨_, ⟨⟩⟩
      rfl
    · rintro _ ⟨⟩
      exact ⟨n, left', rfl⟩

/-- Two steps below the selector of a union in a list a request is refused; below the value of the
union, a pair for which some other root was kept, a leaf is proved all the same. -/
theorem prove_refused_past_selector :
    let pair : Node := .pair 0 (.leaf (.made 1) .zero) (.leaf (.made 2) (Chunk.ofLength 1))
    let s : Store := ⟨#[pair], (∅ : Std.HashMap Nat Root).insert 0 .zero⟩
    let v : Value := .list 2 [.union 1 (.node pair)]
    (∃ n, ((v.prove .sha256 ⟨38, by decide⟩).run.run s).1 = .error (.navigation n 2)) ∧
      ∃ p, ((v.prove .sha256 ⟨17, by decide⟩).run.run s).1 = .ok p := by
  intro pair s v
  have sized : v.Sized := ⟨show 2 < Word.bound by decide, trivial, trivial⟩
  have depth : Word.depthFor 2 = 1 := by decide
  constructor
  · have hpath : Gindex.path ⟨38, by decide⟩ = [false, false, true, true, false] := by decide
    refine ((prove_refused_iff sized (by decide) s).1 2).1 ?_
    refine ⟨[false, false, true], [true, false], .chunk (Chunk.ofSelector 1), hpath, by simp, rfl, ?_,
      trivial⟩
    simp [v, tree, trees, Tree.balanced, depth, Tree.grid, Tree.at?, Tree.place]
  · have hpath : Gindex.path ⟨17, by decide⟩ = [false, false, false, true] := by decide
    have hseek : ∃ c, (v.tree .sha256).seek .sha256 [false, false, false, true] = .ok c := by
      simp [v, pair, tree, trees, Tree.balanced, depth, Tree.grid, Tree.seek, Tree.place, Tree.ofNode]
    obtain ⟨hrefused, hcause⟩ := prove_refused_iff (h := .sha256) sized
      (g := ⟨17, by decide⟩) (by decide) s
    cases hr : ((v.prove .sha256 ⟨17, by decide⟩).run.run s).1 with
    | ok p => exact ⟨p, rfl⟩
    | error e =>
      obtain ⟨n, left, rfl⟩ := hcause e hr
      have blocked := (hrefused left).2 ⟨n, hr⟩
      rw [Tree.blocks_iff, hpath] at blocked
      obtain ⟨c, hc⟩ := hseek
      rw [hc] at blocked
      cases blocked

end Value

end SszMerkle
