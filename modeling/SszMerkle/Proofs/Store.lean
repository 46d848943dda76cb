/-
Stores only grow: work under a hasher makes nodes and keeps roots, and what was made or kept before
stays. A tree whose nodes are in the store, and whose kept roots are those of the hasher, is clean,
and stays so. Hashing a clean tree gives its digest, whichever of its roots were kept.
-/
import SszMerkle.Node.Hash
import SszMerkle.Proofs.Regime

namespace SszMerkle

variable {h : Hasher} {s t u : Store} {α β : Type}

/-! ## Growing stores -/

namespace Store

/-- `t` has what `s` has; a root that only `t` keeps is the digest of the node it is kept for. -/
structure Later (h : Hasher) (s t : Store) : Prop where
  made : ∀ {i : Nat} {n}, s.made[i]? = some n → t.made[i]? = some n
  kept : ∀ {i : Nat} {c}, s.roots[i]? = some c → t.roots[i]? = some c
  fresh : ∀ {i : Nat} {c}, t.roots[i]? = some c →
    s.roots[i]? = some c ∨ ∃ n, t.made[i]? = some n ∧ c = n.digest h

theorem Later.refl (h : Hasher) (s : Store) : Later h s s := ⟨id, id, .inl⟩

theorem Later.trans (st : Later h s t) (tu : Later h t u) : Later h s u := by
  refine ⟨fun e => tu.made (st.made e), fun e => tu.kept (st.kept e), fun e => ?_⟩
  rcases tu.fresh e with e | new
  · rcases st.fresh e with e | ⟨n, hn, hc⟩
    · exact .inl e
    · exact .inr ⟨n, tu.made hn, hc⟩
  · exact .inr new

/-- Roots are kept for made nodes only, so a node to be made has none. -/
def Tidy (s : Store) : Prop := ∀ (i : Nat) c, s.roots[i]? = some c → i < s.made.size

theorem tidy_empty : empty.Tidy := by
  intro i c e
  simp [empty] at e

theorem Tidy.later (hs : s.Tidy) (st : s.Later h t) : t.Tidy := by
  intro i c e
  rcases st.fresh e with e | ⟨n, hn, -⟩
  · have hi := hs i c e
    exact (Array.getElem?_eq_some_iff.1 (st.made (Array.getElem?_eq_getElem hi))).1
  · exact (Array.getElem?_eq_some_iff.1 hn).1

theorem Tidy.root_none (hs : s.Tidy) {i : Nat} (hi : s.made[i]? = none) : s.roots[i]? = none := by
  cases hc : s.roots[i]? with
  | none => rfl
  | some c => exact absurd (hs i c hc) (Nat.not_lt.2 (Array.getElem?_eq_none_iff.1 hi))

/-- `t` has the nodes of `s`, and maybe more, and the same roots. -/
structure Builds (s t : Store) : Prop where
  made : ∀ {i : Nat} {n}, s.made[i]? = some n → t.made[i]? = some n
  roots : t.roots = s.roots

namespace Builds

theorem refl (s : Store) : s.Builds s := ⟨id, rfl⟩

theorem trans (st : s.Builds t) (tu : t.Builds u) : s.Builds u :=
  ⟨fun e => tu.made (st.made e), tu.roots.trans st.roots⟩

theorem push (s : Store) (n : Node) : s.Builds { s with made := s.made.push n } := by
  refine ⟨fun {i m} e => ?_, rfl⟩
  obtain ⟨hi, -⟩ := Array.getElem?_eq_some_iff.1 e
  rw [Array.getElem?_push_lt hi, ← Array.getElem?_eq_getElem hi]
  exact e

theorem not_made (st : s.Builds t) {i : Nat} (hi : t.made[i]? = none) : s.made[i]? = none := by
  cases hs : s.made[i]? with
  | none => rfl
  | some n =>
    rw [st.made hs] at hi
    cases hi

theorem later (st : s.Builds t) (h : Hasher) : s.Later h t :=
  ⟨st.made, fun e => by rwa [st.roots], fun e => .inl (by rwa [st.roots] at e)⟩

end Builds

theorem later_push (h : Hasher) (s : Store) (n : Node) :
    s.Later h { s with made := s.made.push n } :=
  (Builds.push s n).later h

end Store

/-- The nodes of a tree are in the store, and its pairs have either no kept root or their own. -/
def Node.Clean (h : Hasher) (s : Store) : Node → Prop
  | .leaf _ _ => True
  | .pair serial l r =>
    s.made[serial]? = some (.pair serial l r) ∧
      (∀ c, s.roots[serial]? = some c → c = (Node.pair serial l r).digest h) ∧
      l.Clean h s ∧ r.Clean h s

theorem Node.clean_leaf (i : Ident) (c : Root) : (Node.leaf i c).Clean h s := trivial

theorem Node.Clean.later {n : Node} (hn : n.Clean h s) (st : s.Later h t) : n.Clean h t := by
  induction n with
  | leaf _ _ => trivial
  | pair serial l r ihl ihr =>
    obtain ⟨hm, hc, hl, hr⟩ := hn
    refine ⟨st.made hm, fun c e => ?_, ihl hl, ihr hr⟩
    rcases st.fresh e with e | ⟨n, hn, rfl⟩
    · exact hc c e
    · rw [st.made hm, Option.some.injEq] at hn
      rw [hn]

/-! ## Work on a store -/

/-- The regime of work under a hasher: stores grow, and nothing else is asked of them. -/
def Store.growing (h : Hasher) : Regime Store where
  Holds _ := True
  Grows := Later h
  refl := Later.refl h
  trans := Later.trans

/-- The regime of work that makes nodes and does nothing else. -/
def Store.building : Regime Store where
  Holds _ := True
  Grows := Builds
  refl := Builds.refl
  trans := Builds.trans

/-- From `s` the work ends with an answer and a later store as described. -/
abbrev Gives (h : Hasher) (s : Store) (x : StateM Store α) (Q : α → Store → Prop) : Prop :=
  (Store.growing h).Gives s x Q

/-- From `s` the work ends, or fails, with an outcome and a later store as described. -/
abbrev Ends (h : Hasher) (s : Store) (x : TreeM α) (Q : Result α → Store → Prop) : Prop :=
  (Store.growing h).Ends s x Q

/-- From `s` the work succeeds, with an answer and a later store as described. -/
abbrev Succeeds (h : Hasher) (s : Store) (x : TreeM α) (P : α → Store → Prop) : Prop :=
  (Store.growing h).Succeeds s x P

/-- From `s` the work ends, or fails, with this outcome. -/
abbrev Answers (h : Hasher) (s : Store) (x : TreeM α) (r : Result α) : Prop :=
  (Store.growing h).Answers s x r

namespace Store

section Keep

variable {i j : Nat}

theorem answer_of_keep (i : Nat) (c : Root) (s : Store) :
    ((keep i c).run s).1 = s.roots[i]?.getD c := by
  simp only [keep, modifyGet, MonadStateOf.modifyGet, StateT.modifyGet, StateT.run]
  cases s.roots[i]? <;> rfl

theorem made_keep (i : Nat) (c : Root) (s : Store) : ((keep i c).run s).2.made = s.made := by
  simp only [keep, modifyGet, MonadStateOf.modifyGet, StateT.modifyGet, StateT.run]
  split <;> rfl

theorem kept_of_keep (i : Nat) (c : Root) (s : Store) :
    ((keep i c).run s).2.roots[i]? = some ((keep i c).run s).1 := by
  simp only [keep, modifyGet, MonadStateOf.modifyGet, StateT.modifyGet, StateT.run]
  split
  · assumption
  · exact Std.HashMap.getElem?_insert_self

theorem others_of_keep (c : Root) (s : Store) (hj : j ≠ i) :
    ((keep i c).run s).2.roots[j]? = s.roots[j]? := by
  simp only [keep, modifyGet, MonadStateOf.modifyGet, StateT.modifyGet, StateT.run]
  split
  · rfl
  · exact Std.HashMap.getElem?_insert.trans (if_neg (by simpa using hj.symm))

/-- A kept root stays. -/
theorem roots_keep (i : Nat) (c : Root) {c' : Root} (hj : s.roots[j]? = some c') :
    ((keep i c).run s).2.roots[j]? = some c' := by
  by_cases e : j = i
  · subst e
    rw [kept_of_keep, answer_of_keep, hj]
    rfl
  · rwa [others_of_keep c s e]

variable {n : Node}

theorem digest_of_keep (hc : ∀ c, s.roots[i]? = some c → c = n.digest h) :
    ((keep i (n.digest h)).run s).1 = n.digest h := by
  rw [answer_of_keep]
  cases hi : s.roots[i]? with
  | some c => exact hc c hi
  | none => rfl

/-- Keeping the digest of a made node leads to a later store. -/
theorem later_keep (hm : s.made[i]? = some n) (hc : ∀ c, s.roots[i]? = some c → c = n.digest h) :
    s.Later h ((keep i (n.digest h)).run s).2 where
  made e := by rwa [made_keep]
  kept := roots_keep i _
  fresh {j c} e := by
    by_cases hj : j = i
    · subst hj
      rw [kept_of_keep, digest_of_keep hc, Option.some.injEq] at e
      exact .inr ⟨n, by rwa [made_keep], e.symm⟩
    · rw [others_of_keep _ _ hj] at e
      exact .inl e

end Keep

theorem kept_gives (i : Nat) : Gives h s (kept i) fun c _ => c = s.roots[i]? :=
  fun _ => ⟨_, s, rfl, .refl h s, trivial, rfl⟩

theorem keep_gives {i : Nat} {n : Node} (hm : s.made[i]? = some n)
    (hc : ∀ c, s.roots[i]? = some c → c = n.digest h) :
    Gives h s (keep i (n.digest h)) fun c _ => c = n.digest h :=
  fun _ => ⟨_, _, rfl, later_keep hm hc, trivial, digest_of_keep hc⟩

end Store

namespace Node

theorem newLeaf_gives (c : Root) : Gives h s (newLeaf c) fun n _ => ∃ i, n = .leaf i c :=
  fun _ => ⟨_, _, rfl, s.later_push h _, trivial, _, rfl⟩

theorem newPair_gives (hs : s.Tidy) {l r : Node} (hl : l.Clean h s) (hr : r.Clean h s) :
    Gives h s (newPair l r) fun n t => n.Clean h t ∧ ∃ serial, n = .pair serial l r := by
  have later := s.later_push h (.pair s.made.size l r)
  refine fun _ => ⟨_, _, rfl, later, trivial, ⟨Array.getElem?_push_size, fun c hc => ?_,
    hl.later later, hr.later later⟩, _, rfl⟩
  -- no root is kept yet for the number that is given out next
  exact absurd (hs _ _ hc) (Nat.lt_irrefl _)

end Node

/-- Hashing a clean tree gives its digest. -/
theorem Node.root_gives {n : Node} (hn : n.Clean h s) :
    Gives h s (n.root h) fun c _ => c = n.digest h := by
  induction n generalizing s with
  | leaf _ c => exact .pure rfl
  | pair serial l r ihl ihr =>
    obtain ⟨hm, hc, hl, hr⟩ := id hn
    -- a kept root is the digest, as the tree is clean; otherwise both sides are hashed first
    refine .bind (Store.kept_gives serial) fun kept t st hk => ?_
    cases kept with
    | some c => exact .pure (hc c hk.symm)
    | none =>
      refine .bind (ihl (hl.later st)) ?_
      rintro _ u tu rfl
      refine .bind (ihr (hr.later (st.trans tu))) ?_
      rintro _ v uv rfl
      obtain ⟨hm', hc', -⟩ := hn.later ((st.trans tu).trans uv)
      exact Store.keep_gives hm' hc'

theorem Node.root_answers {n : Node} (hn : n.Clean h s) : Answers h s (n.root h) (.ok (n.digest h)) :=
  .lift (Node.root_gives hn)

end SszMerkle
