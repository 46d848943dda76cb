/-
Hashing over any kept roots. A store may keep roots that some other hasher left there, and trees may
share nodes in any way. What a tree gives is read off the store as it stands: for a pair the root that
is kept, and otherwise that of what its two sides give. Hashing keeps exactly what is given for each
pair that is met without a root, and nothing else. Two halves of a tree may meet the same pairs, but
what the first fills in is what the second would have, so their order is nothing that shows.
-/
import SszMerkle.Proofs.Known

namespace SszMerkle

variable {h : Hasher} {s t u : Store}

namespace Node

/-- The pairs of the tree are in the store, each under its number. -/
def Stored (s : Store) : Node → Prop
  | leaf _ _ => True
  | pair i l r => s.made[i]? = some (pair i l r) ∧ l.Stored s ∧ r.Stored s

/-- The root that a tree gives as the store stands. -/
def given (h : Hasher) (s : Store) : Node → Root
  | leaf _ c => c
  | pair i l r => s.roots[i]?.getD (h.combine (l.given h s) (r.given h s))

/-- Hashing the first node meets the second, a pair without a root, on a way through such pairs. -/
inductive Meets (s : Store) : Node → Node → Prop
  | here {i l r} : s.roots[i]? = none → Meets s (pair i l r) (pair i l r)
  | left {i l r p} : s.roots[i]? = none → Meets s l p → Meets s (pair i l r) p
  | right {i l r p} : s.roots[i]? = none → Meets s r p → Meets s (pair i l r) p

variable {i : Nat} {l r l' r' m n p : Node}

theorem Stored.mono (hn : n.Stored s)
    (made : ∀ {i : Nat} {n}, s.made[i]? = some n → t.made[i]? = some n) : n.Stored t := by
  induction n with
  | leaf _ _ => trivial
  | pair i l r ihl ihr => exact ⟨made hn.1, ihl hn.2.1, ihr hn.2.2⟩

/-- There is one pair of each number. -/
theorem Stored.eq_of_number (hp : (pair i l r).Stored s) (hp' : (pair i l' r').Stored s) :
    pair i l' r' = pair i l r :=
  Option.some.inj (hp'.1.symm.trans hp.1)

theorem given_of_kept {c : Root} (hc : s.roots[i]? = some c) : (pair i l r).given h s = c := by
  rw [given, hc, Option.getD_some]

theorem given_of_none (hi : s.roots[i]? = none) :
    (pair i l r).given h s = h.combine (l.given h s) (r.given h s) := by
  rw [given, hi, Option.getD_none]

namespace Meets

theorem root_none (hp : Meets s (pair i l r) p) : s.roots[i]? = none := by
  cases hp <;> assumption

theorem eq_pair (hp : Meets s n p) : ∃ i l r, p = pair i l r := by
  induction hp with
  | here _ => exact ⟨_, _, _, rfl⟩
  | left _ _ ih => exact ih
  | right _ _ ih => exact ih

theorem trans (hm : Meets s n m) (hp : Meets s m p) : Meets s n p := by
  induction hm with
  | here _ => exact hp
  | left hi _ ih => exact .left hi (ih hp)
  | right hi _ ih => exact .right hi (ih hp)

theorem stored (hp : Meets s n p) (hn : n.Stored t) : p.Stored t := by
  induction hp with
  | here _ => exact hn
  | left _ _ ih => exact ih hn.2.1
  | right _ _ ih => exact ih hn.2.2

end Meets

end Node

open Node (Stored Meets)

/-! ## Filling in roots -/

/-- `t` keeps what `s` keeps, and what `s` gives for each pair met from one of the nodes asked for; no
more than that. -/
structure Store.Fills (h : Hasher) (asked : Node → Prop) (s t : Store) : Prop where
  made : t.made = s.made
  roots : ∀ i c, t.roots[i]? = some c ↔ s.roots[i]? = some c ∨
    ∃ n l r, asked n ∧ Meets s n (.pair i l r) ∧ c = (Node.pair i l r).given h s

namespace Store.Fills

variable {asked asked' : Node → Prop} {i : Nat} {l r n : Node}

/-- Where nothing is met there is nothing to fill in. -/
theorem refl (h : Hasher) (nothing : ∀ n, asked n → ∀ p, ¬ Meets s n p) : Fills h asked s s := by
  refine ⟨rfl, fun i c => ⟨.inl, ?_⟩⟩
  rintro (hc | ⟨n, l, r, hn, met, -⟩)
  · exact hc
  · exact absurd met (nothing n hn _)

theorem congr (st : Fills h asked s t) (same : ∀ n, asked n ↔ asked' n) : Fills h asked' s t := by
  rwa [← funext fun n => propext (same n)]

theorem stored (st : Fills h asked s t) (hn : n.Stored s) : n.Stored t :=
  hn.mono fun e => st.made ▸ e

theorem kept (st : Fills h asked s t) {c : Root} (hc : s.roots[i]? = some c) : t.roots[i]? = some c :=
  (st.roots i c).2 (.inl hc)

theorem missing_before (st : Fills h asked s t) (hi : t.roots[i]? = none) : s.roots[i]? = none := by
  cases hc : s.roots[i]? with
  | none => rfl
  | some c => rw [st.kept hc] at hi; cases hi

/-- The same roots are filled in, however that was done. -/
theorem unique (st : Fills h asked s t) (su : Fills h asked s u) (i : Nat) :
    t.roots[i]? = u.roots[i]? :=
  Option.ext fun c => (st.roots i c).trans (su.roots i c).symm

section

variable (st : Fills h asked s t) (stored : ∀ n, asked n → n.Stored s)
include st stored

/-- Whatever is kept for a pair is what was given for it. -/
theorem eq_given (hp : (Node.pair i l r).Stored s) {c : Root} (hc : t.roots[i]? = some c) :
    c = (Node.pair i l r).given h s := by
  rcases (st.roots i c).1 hc with hc | ⟨n, l', r', hn, met, rfl⟩
  · exact (Node.given_of_kept hc).symm
  · rw [hp.eq_of_number (met.stored (stored n hn))]

/-- Filling in roots changes nothing that is given. -/
theorem given_eq (hn : n.Stored s) : n.given h t = n.given h s := by
  induction n with
  | leaf _ _ => rfl
  | pair i l r ihl ihr =>
    cases hc : t.roots[i]? with
    | some c => rw [Node.given_of_kept hc, st.eq_given stored hn hc]
    | none =>
      rw [Node.given_of_none hc, Node.given_of_none (st.missing_before hc), ihl hn.2.1, ihr hn.2.2]

omit stored in
theorem meets_of {p : Node} (met : Meets t n p) : Meets s n p := by
  induction met with
  | here hi => exact .here (st.missing_before hi)
  | left hi _ ih => exact .left (st.missing_before hi) ih
  | right hi _ ih => exact .right (st.missing_before hi) ih

/-- A pair that has a root now was met itself, and then so was everything that is met from there. -/
theorem kept_of_meets (hp : (Node.pair i l r).Stored s) {p : Node} (met : Meets s (.pair i l r) p)
    {c : Root} (hc : t.roots[i]? = some c) : ∃ c, t.cached p = some c := by
  rcases (st.roots i c).1 hc with hc | ⟨m, l', r', hm, met', -⟩
  · rw [met.root_none] at hc
    cases hc
  · rw [hp.eq_of_number (met'.stored (stored m hm))] at met'
    obtain ⟨j, a, b, rfl⟩ := met.eq_pair
    exact ⟨_, (st.roots j _).2 (.inr ⟨m, a, b, hm, met'.trans met, rfl⟩)⟩

/-- What was to be met either has its root now, or is still to be met. -/
theorem meets_or (hn : n.Stored s) {p : Node} (met : Meets s n p) :
    (∃ c, t.cached p = some c) ∨ Meets t n p := by
  refine or_iff_not_imp_left.2 fun new => ?_
  have missing : ∀ {i l r}, (Node.pair i l r).Stored s → Meets s (.pair i l r) p →
      t.roots[i]? = none := fun hp met =>
    Option.eq_none_iff_forall_ne_some.2 fun _ hc => new (st.kept_of_meets stored hp met hc)
  induction met with
  | here hi => exact .here (missing hn (.here hi))
  | left hi met ih => exact .left (missing hn (.left hi met)) (ih hn.2.1 new missing)
  | right hi met ih => exact .right (missing hn (.right hi met)) (ih hn.2.2 new missing)

/-- What is filled in for some nodes and then for others is filled in for all of them. -/
theorem trans (tu : Fills h asked' t u) (stored' : ∀ n, asked' n → n.Stored s) :
    Fills h (fun n => asked n ∨ asked' n) s u := by
  refine ⟨tu.made.trans st.made, fun i c => (tu.roots i c).trans ⟨?_, ?_⟩⟩
  · rintro (hc | ⟨n, l, r, hn, met, rfl⟩)
    · exact ((st.roots i c).1 hc).imp_right fun ⟨n, l, r, hn, met, hc⟩ => ⟨n, l, r, .inl hn, met, hc⟩
    · have met := st.meets_of met
      exact .inr ⟨n, l, r, .inr hn, met, st.given_eq stored (met.stored (stored' n hn))⟩
  · rintro (hc | ⟨n, l, r, hn | hn, met, rfl⟩)
    · exact .inl (st.kept hc)
    · exact .inl ((st.roots i _).2 (.inr ⟨n, l, r, hn, met, rfl⟩))
    · have hp := met.stored (stored' n hn)
      rcases st.meets_or stored (stored' n hn) met with ⟨c, hc⟩ | met
      · exact .inl (st.eq_given stored hp hc ▸ hc)
      · exact .inr ⟨n, l, r, hn, met, (st.given_eq stored hp).symm⟩

end

/-- Once both sides are filled in, what is given for the pair itself is all that is missing. -/
theorem above (st : Fills h (fun n => n = l ∨ n = r) s t) (hp : (Node.pair i l r).Stored s)
    (hi : s.roots[i]? = none) (made : u.made = t.made)
    (here : u.roots[i]? = some ((Node.pair i l r).given h s))
    (others : ∀ j, j ≠ i → u.roots[j]? = t.roots[j]?) : Fills h (· = .pair i l r) s u := by
  refine ⟨made.trans st.made, fun j c => ?_⟩
  by_cases hj : j = i
  · subst hj
    rw [here, hi, Option.some.injEq]
    constructor
    · rintro rfl
      exact .inr ⟨_, l, r, rfl, .here hi, rfl⟩
    · rintro (⟨⟨⟩⟩ | ⟨_, l', r', rfl, met, rfl⟩)
      rw [hp.eq_of_number (met.stored hp)]
  · rw [others j hj, st.roots j c]
    refine or_congr_right ⟨?_, ?_⟩
    · rintro ⟨_, a, b, rfl | rfl, met, rfl⟩
      · exact ⟨_, a, b, rfl, .left hi met, rfl⟩
      · exact ⟨_, a, b, rfl, .right hi met, rfl⟩
    · rintro ⟨_, a, b, rfl, met, rfl⟩
      cases met with
      | here _ => exact absurd rfl hj
      | left _ met => exact ⟨l, a, b, .inl rfl, met, rfl⟩
      | right _ met => exact ⟨r, a, b, .inr rfl, met, rfl⟩

end Store.Fills

/-! ## Work that hashes -/

namespace Node

/-- From any store that has the node, the work answers what is given for it, and fills in the roots that
were missing. -/
def Hashes (h : Hasher) (n : Node) (x : StateM Store Root) : Prop :=
  ∀ s, n.Stored s → ∃ t, x.run s = (n.given h s, t) ∧ s.Fills h (· = n) t

namespace Hashes

variable {i : Nat} {l r m n : Node} {x y : StateM Store Root}

theorem leaf (i : Ident) (c : Root) : Hashes h (.leaf i c) (pure c) := by
  refine fun s _ => ⟨s, rfl, .refl h ?_⟩
  rintro _ rfl _ ⟨⟩

/-- Two nodes are hashed one after the other, each as the store was before both. -/
theorem both {α : Type} (hx : Hashes h m x) (hy : Hashes h n y) (hm : m.Stored s) (hn : n.Stored s)
    (k : Root → Root → StateM Store α) : ∃ t, (x >>= fun a => y >>= k a).run s =
      (k (m.given h s) (n.given h s)).run t ∧ s.Fills h (fun p => p = m ∨ p = n) t := by
  obtain ⟨t, hrun, st⟩ := hx s hm
  have stored : ∀ p, p = m → p.Stored s := forall_eq.2 hm
  obtain ⟨u, hrun', tu⟩ := hy t (st.stored hn)
  rw [st.given_eq stored hn] at hrun'
  refine ⟨u, ?_, st.trans stored tu (forall_eq.2 hn)⟩
  rw [StateT.run_bind, hrun]
  show (y >>= k _).run t = _
  rw [StateT.run_bind, hrun']
  rfl

/-- The root of a pair is kept once both its sides are hashed; if it is kept by then, it is the same. -/
theorem keep (hp : (pair i l r).Stored s) (hi : s.roots[i]? = none)
    (st : s.Fills h (fun n => n = l ∨ n = r) t) :
    ∃ u, (Store.keep i (h.combine (l.given h s) (r.given h s))).run t = ((pair i l r).given h s, u) ∧
      s.Fills h (· = pair i l r) u := by
  have stored : ∀ n, n = l ∨ n = r → n.Stored s := by
    rintro _ (rfl | rfl)
    · exact hp.2.1
    · exact hp.2.2
  rw [← given_of_none hi]
  have answer := Store.answer_of_keep i ((pair i l r).given h s) t
  have same : t.roots[i]?.getD ((pair i l r).given h s) = (pair i l r).given h s := by
    cases hc : t.roots[i]? with
    | none => rfl
    | some c => exact (Option.getD_some ..).trans (st.eq_given stored hp hc)
  rw [same] at answer
  refine ⟨_, Prod.ext answer rfl, st.above hp hi (Store.made_keep ..) ?_ fun j hj =>
    Store.others_of_keep _ t hj⟩
  rw [Store.kept_of_keep, answer]

/-- A pair is hashed by taking the root that is kept, or else by hashing its sides in either order. -/
theorem pair (i : Nat) (hl : Hashes h l x) (hr : Hashes h r y) (rightFirst : Bool) :
    Hashes h (.pair i l r) (do
      match ← Store.kept i with
      | some kept => return kept
      | none =>
        if rightFirst then
          let b ← y
          let a ← x
          Store.keep i (h.combine a b)
        else
          let a ← x
          let b ← y
          Store.keep i (h.combine a b)) := by
  intro s hp
  rw [StateT.run_bind]
  show ∃ t, StateT.run (match s.roots[i]? with | some kept => _ | none => _) s = _ ∧ _
  cases hi : s.roots[i]? with
  | some c =>
    refine ⟨s, by rw [given_of_kept hi]; rfl, .refl h ?_⟩
    rintro _ rfl _ met
    exact absurd (hi.symm.trans met.root_none) nofun
  | none =>
    cases rightFirst
    · obtain ⟨t, hrun, st⟩ := hl.both hr hp.2.1 hp.2.2 fun a b => Store.keep i (h.combine a b)
      obtain ⟨u, hkeep, su⟩ := Hashes.keep hp hi st
      exact ⟨u, hrun.trans hkeep, su⟩
    · obtain ⟨t, hrun, st⟩ := hr.both hl hp.2.2 hp.2.1 fun b a => Store.keep i (h.combine a b)
      obtain ⟨u, hkeep, su⟩ := Hashes.keep hp hi (st.congr fun _ => or_comm)
      exact ⟨u, hrun.trans hkeep, su⟩

end Hashes

theorem root_hashes (h : Hasher) (n : Node) : Hashes h n (n.root h) := by
  induction n with
  | leaf i c => exact .leaf i c
  | pair i l r ihl ihr => exact .pair i ihl ihr false

theorem rootInHalves_hashes (h : Hasher) (rightFirst : Nat → Bool) (levels : Nat) (n : Node) :
    Hashes h n (n.rootInHalves h rightFirst levels) := by
  induction levels generalizing n with
  | zero =>
    cases n with
    | leaf i c => exact .leaf i c
    | pair i l r => exact root_hashes h _
  | succ levels ih =>
    cases n with
    | leaf i c => exact .leaf i c
    | pair i l r => exact .pair i (ih l) (ih r) (rightFirst i)

/-- Hashed in halves, whichever of them comes first, a tree of any store has the root it has otherwise,
and the same roots are kept afterwards. -/
theorem rootInHalves_agrees_root {n : Node} (hn : n.Stored s) (h : Hasher) (rightFirst : Nat → Bool)
    (levels : Nat) :
    ((n.rootInHalves h rightFirst levels).run s).1 = ((n.root h).run s).1 ∧
      ((n.rootInHalves h rightFirst levels).run s).2.made = ((n.root h).run s).2.made ∧
      ∀ m, ((n.rootInHalves h rightFirst levels).run s).2.cached m =
        ((n.root h).run s).2.cached m := by
  obtain ⟨t, hrun, st⟩ := rootInHalves_hashes h rightFirst levels n s hn
  obtain ⟨u, hrun', su⟩ := root_hashes h n s hn
  rw [hrun, hrun']
  refine ⟨rfl, st.made.trans su.made.symm, fun m => ?_⟩
  cases m with
  | leaf _ _ => rfl
  | pair i _ _ => exact st.unique su i

/-- Two halves that are one pair, over a pair whose root is some other hasher's: the half that comes
first is hashed, and its root is kept for the other. -/
theorem rootInHalves_of_shared_half :
    let leaf : Node := .leaf (.made 0) .zero
    let below : Node := .pair 1 leaf leaf
    let half : Node := .pair 2 leaf below
    let n : Node := .pair 3 half half
    let other := Hasher.blake3.combine .zero .zero
    let s : Store := ⟨#[leaf, below, half, n], (∅ : Std.HashMap Nat Root).insert 1 other⟩
    let inHalves := (n.rootInHalves .sha256 (fun _ => true) 1).run s
    n.Stored s ∧ inHalves.1 = ((n.root .sha256).run s).1 ∧
      inHalves.2.cached half = some (Hasher.sha256.combine .zero other) := by
  intro leaf below half n other s inHalves
  have stored : n.Stored s := by simp [n, half, below, leaf, s, Stored]
  obtain ⟨answers, -, keeps⟩ := rootInHalves_agrees_root stored .sha256 (fun _ => true) 1
  refine ⟨stored, answers, (keeps half).trans ?_⟩
  obtain ⟨t, hrun, st⟩ := root_hashes .sha256 n s stored
  have met : Meets s n half := by
    refine .left ?_ (.here ?_) <;> simp [s]
  rw [hrun]
  refine (st.roots 2 _).2 (.inr ⟨n, leaf, below, rfl, met, ?_⟩)
  simp [below, leaf, given, s]

end Node

end SszMerkle
