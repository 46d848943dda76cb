/-
Work on a state under a regime: while an invariant of the state holds, the state grows, the invariant
goes on to hold, and the outcome is as described. What one step of the work does, be it that it
succeeds or fails, is put together here once, for all regimes and for all that is said of outcomes. The
passes over the leaves of a tree keep to a regime if asking for a leaf does.
-/
import SszMerkle.Opening
import SszMerkle.Proofs.Run

namespace SszMerkle

/-- An invariant of states, and what it is for a state to have grown. -/
structure Regime (σ : Type) where
  Holds : σ → Prop
  Grows : σ → σ → Prop
  refl (s : σ) : Grows s s
  trans {s t u : σ} : Grows s t → Grows t u → Grows s u

namespace Regime

variable {σ α β : Type}

/-- The regime of all work: nothing is asked of a state, and any may follow. -/
def free (σ : Type) : Regime σ where
  Holds _ := True
  Grows _ _ := True
  refl _ := trivial
  trans _ _ := trivial

/-! ## Outcomes -/

/-- Where the invariant holds, the work leads to a grown state where it holds again, and to an answer,
as described. -/
def Gives (R : Regime σ) (s : σ) (x : StateM σ α) (Q : α → σ → Prop) : Prop :=
  R.Holds s → ∃ a t, x.run s = (a, t) ∧ R.Grows s t ∧ R.Holds t ∧ Q a t

/-- Work that may fail leads to an outcome as described, be it an answer or a failure. -/
def Ends (R : Regime σ) (s : σ) (x : ExceptT Failure (StateM σ) α) (Q : Result α → σ → Prop) : Prop :=
  R.Gives s x.run Q

/-- If the work succeeds, the answer is as described. -/
def Keeps (R : Regime σ) (s : σ) (x : ExceptT Failure (StateM σ) α) (P : α → σ → Prop) : Prop :=
  R.Ends s x fun r t => ∀ a, r = .ok a → P a t

/-- The work succeeds, and the answer is as described. -/
def Succeeds (R : Regime σ) (s : σ) (x : ExceptT Failure (StateM σ) α) (P : α → σ → Prop) : Prop :=
  R.Ends s x fun r t => ∃ a, r = .ok a ∧ P a t

/-- The work has this outcome. -/
def Answers (R : Regime σ) (s : σ) (x : ExceptT Failure (StateM σ) α) (r : Result α) : Prop :=
  R.Ends s x fun r' _ => r' = r

variable {R : Regime σ} {s : σ}

namespace Gives

variable {x : StateM σ α} {k : α → StateM σ β} {P P' : α → σ → Prop} {Q : β → σ → Prop}

theorem pure {a : α} (ha : P a s) : R.Gives s (Pure.pure a) P :=
  fun hs => ⟨a, s, rfl, R.refl s, hs, ha⟩

theorem bind (hx : R.Gives s x P) (hk : ∀ a t, R.Grows s t → P a t → R.Gives t (k a) Q) :
    R.Gives s (x >>= k) Q := by
  intro hs
  obtain ⟨a, t, hx, st, ht, ha⟩ := hx hs
  obtain ⟨b, u, hk, tu, hu, hb⟩ := hk a t st ha ht
  refine ⟨b, u, ?_, R.trans st tu, hu, hb⟩
  rw [StateT.run_bind, hx]
  exact hk

theorem mono (hx : R.Gives s x P) (hP : ∀ a t, R.Grows s t → P a t → P' a t) : R.Gives s x P' := by
  intro hs
  obtain ⟨a, t, hx, st, ht, ha⟩ := hx hs
  exact ⟨a, t, hx, st, ht, hP a t st ha⟩

end Gives

variable {x : ExceptT Failure (StateM σ) α} {k : α → ExceptT Failure (StateM σ) β}

theorem ends_free {Q : Result α → σ → Prop} :
    (free σ).Ends s x Q ↔ Q (x.run.run s).1 (x.run.run s).2 := by
  constructor
  · intro hx
    obtain ⟨r, t, hrun, -, -, hr⟩ := hx trivial
    rw [hrun]
    exact hr
  · exact fun hr _ => ⟨_, _, rfl, trivial, trivial, hr⟩

namespace Ends

variable {P P' : Result α → σ → Prop} {Q : Result β → σ → Prop}

theorem pure {a : α} (ha : P (.ok a) s) : R.Ends s (Pure.pure a) P := Gives.pure ha

theorem throw {e : Failure} (he : P (.error e) s) : R.Ends s (throw e) P := Gives.pure he

theorem throw_bind {e : Failure} (he : Q (.error e) s) :
    R.Ends s ((MonadExcept.throw e : ExceptT Failure (StateM σ) α) >>= k) Q := Gives.pure he

theorem mono (hx : R.Ends s x P) (hP : ∀ r t, R.Grows s t → P r t → P' r t) : R.Ends s x P' :=
  Gives.mono hx hP

/-- Work goes on from a success and stops at a failure. -/
theorem bind (hx : R.Ends s x P) (ok : ∀ a t, R.Grows s t → P (.ok a) t → R.Ends t (k a) Q)
    (error : ∀ e t, R.Grows s t → P (.error e) t → Q (.error e) t) : R.Ends s (x >>= k) Q := by
  show R.Gives s (x >>= k).run Q
  rw [ExceptT.run_bind]
  refine Gives.bind hx fun r t st hr => ?_
  cases r with
  | ok a => exact ok a t st hr
  | error e => exact .pure (error e t st hr)

end Ends

namespace Succeeds

variable {P P' : α → σ → Prop} {Q : Result β → σ → Prop}

theorem pure {a : α} (ha : P a s) : R.Succeeds s (Pure.pure a) P := Ends.pure ⟨a, rfl, ha⟩

/-- Work goes on from an answer that is sure to come. -/
theorem bind (hx : R.Succeeds s x P) (hk : ∀ a t, R.Grows s t → P a t → R.Ends t (k a) Q) :
    R.Ends s (x >>= k) Q := by
  refine Ends.bind hx ?_ ?_
  · rintro a t st ⟨_, ⟨rfl⟩, ha⟩
    exact hk a t st ha
  · rintro _ _ _ ⟨_, ⟨⟩, -⟩

theorem mono (hx : R.Succeeds s x P) (hP : ∀ a t, R.Grows s t → P a t → P' a t) :
    R.Succeeds s x P' :=
  Ends.mono hx fun _ t st ⟨a, hr, ha⟩ => ⟨a, hr, hP a t st ha⟩

theorem exists_run (hx : R.Succeeds s x P) (hs : R.Holds s) :
    ∃ a t, x.run.run s = (.ok a, t) ∧ R.Grows s t ∧ P a t := by
  obtain ⟨_, t, hrun, st, -, a, rfl, ha⟩ := hx hs
  exact ⟨a, t, hrun, st, ha⟩

/-- Work that cannot fail succeeds. -/
theorem lift {x : StateM σ α} (hx : R.Gives s x P) : R.Succeeds s (liftM x) P := by
  intro hs
  obtain ⟨a, t, hx, st, ht, ha⟩ := hx hs
  exact ⟨.ok a, t, run_liftM hx, st, ht, a, rfl, ha⟩

end Succeeds

namespace Answers

variable {a : α} {Q : Result β → σ → Prop}

theorem pure (a : α) : R.Answers s (Pure.pure a) (.ok a) := Ends.pure rfl

theorem lift {x : StateM σ α} (hx : R.Gives s x fun b _ => b = a) : R.Answers s (liftM x) (.ok a) :=
  Ends.mono (Succeeds.lift hx) fun _ _ _ ⟨_, hr, e⟩ => e ▸ hr

theorem bind (hx : R.Answers s x (.ok a)) (hk : ∀ t, R.Grows s t → R.Ends t (k a) Q) :
    R.Ends s (x >>= k) Q := by
  refine Ends.bind hx ?_ nofun
  rintro _ t st ⟨rfl⟩
  exact hk t st

theorem bind_error {e : Failure} (hx : R.Answers s x (.error e)) (he : ∀ t, Q (.error e) t) :
    R.Ends s (x >>= k) Q := by
  refine Ends.bind hx nofun ?_
  rintro _ t _ ⟨rfl⟩
  exact he t

theorem mapM {f : α → ExceptT Failure (StateM σ) β} {g : α → β} : ∀ {l : List α} {s : σ},
    (∀ a ∈ l, ∀ t, R.Grows s t → R.Answers t (f a) (.ok (g a))) →
      R.Answers s (l.mapM f) (.ok (l.map g))
  | [], _, _ => .pure []
  | a :: l, s, hf => by
    rw [List.mapM_cons]
    refine bind (hf a (by simp) s (R.refl s)) fun t st => ?_
    refine bind (mapM fun b hb u tu => hf b (List.mem_cons_of_mem a hb) u (R.trans st tu)) fun u _ => ?_
    exact .pure rfl

end Answers

namespace Keeps

variable {P P' : α → σ → Prop} {Q : β → σ → Prop}

theorem pure {a : α} (ha : P a s) : R.Keeps s (Pure.pure a) P :=
  Ends.pure (by rintro _ ⟨⟩; exact ha)

theorem throw (e : Failure) : R.Keeps s (throw e) P := Ends.throw nofun

theorem throw_bind (e : Failure) :
    R.Keeps s ((MonadExcept.throw e : ExceptT Failure (StateM σ) α) >>= k) Q :=
  Ends.throw_bind nofun

theorem bind (hx : R.Keeps s x P) (hk : ∀ a t, R.Grows s t → P a t → R.Keeps t (k a) Q) :
    R.Keeps s (x >>= k) Q :=
  Ends.bind hx (fun a t st ha => hk a t st (ha a rfl)) fun _ _ _ _ => nofun

theorem reply (hx : R.Keeps s x P) (f : α → β) :
    R.Keeps s (x >>= fun a => Pure.pure (f a)) fun _ _ => True :=
  hx.bind fun _ _ _ _ => pure trivial

theorem mono (hx : R.Keeps s x P) (hP : ∀ a t, R.Grows s t → P a t → P' a t) : R.Keeps s x P' :=
  Ends.mono hx fun _ t st ha a e => hP a t st (ha a e)

theorem lift {r : Result α} (hr : ∀ a, r = .ok a → P a s) : R.Keeps s (liftM r) P := by
  cases r with
  | ok a => exact pure (hr a rfl)
  | error e => exact throw e

theorem result (r : Result α) : R.Keeps s (liftM r) fun _ _ => True := lift fun _ _ => trivial

theorem of_gives {x : StateM σ α} (hx : R.Gives s x P) : R.Keeps s (liftM x) P := by
  refine Ends.mono (Succeeds.lift hx) ?_
  rintro _ t _ ⟨a, rfl, ha⟩ _ ⟨⟩
  exact ha

/-- An answer that a run has come to is as described. -/
theorem of_run {a : α} {t : σ} (hx : R.Keeps s x P) (hs : R.Holds s)
    (hrun : x.run.run s = (.ok a, t)) : P a t := by
  obtain ⟨_, _, hrun', -, -, ha⟩ := hx hs
  rw [hrun, Prod.mk.injEq] at hrun'
  obtain ⟨rfl, rfl⟩ := hrun'
  exact ha a rfl

theorem run_eq {x : StateM σ α} {a : α} (hx : R.Keeps s (liftM x) fun b _ => b = a)
    (hs : R.Holds s) : (x.run s).1 = a :=
  hx.of_run hs (run_liftM rfl)

/-! ## Passes over leaves -/

section Leaves

variable {leaf : Nat → ExceptT Failure (StateM σ) Root}

theorem feed {ρ : Type} {watch : ρ → Visit → Result ρ} : ∀ {n : Nat} {f : Frontier} {o : ρ} {s : σ},
    (∀ i t, R.Grows s t → R.Keeps t (leaf i) fun _ _ => True) →
      R.Keeps s (Frontier.feed watch leaf n f o) fun _ _ => True
  | 0, _, _, _, _ => pure trivial
  | n + 1, f, o, s, hleaf => by
    rw [Frontier.feed]
    refine (hleaf _ s (R.refl s)).bind fun r t st _ => ?_
    refine (result _).bind fun (f, visits) u tu _ => ?_
    refine (result _).bind fun o v uv _ => ?_
    exact feed fun i w vw => hleaf i w (R.trans st (R.trans tu (R.trans uv vw)))

theorem merkleize (hleaf : ∀ i t, R.Grows s t → R.Keeps t (leaf i) fun _ _ => True) (h : Hasher)
    (count limit : Nat) : R.Keeps s (merkleize h count limit leaf) fun _ _ => True :=
  (feed hleaf).bind fun _ _ _ _ => result _

theorem openTree {below : Nat → Gindex → ExceptT Failure (StateM σ) (Option Proof)}
    (hleaf : ∀ i t, R.Grows s t → R.Keeps t (leaf i) fun _ _ => True)
    (hbelow : ∀ i g t, R.Grows s t → R.Keeps t (below i g) fun _ _ => True) (h : Hasher)
    (count limit : Nat) (g : Gindex) :
    R.Keeps s (openTree h count limit g leaf below) fun _ _ => True := by
  unfold SszMerkle.openTree
  dsimp only
  refine (result _).bind fun o t st _ => ?_
  refine (feed fun i u tu => hleaf i u (R.trans st tu)).bind fun (f, o) u tu _ => ?_
  refine (result _).bind fun (root, visits) v uv _ => ?_
  refine (result _).bind fun o w vw _ => ?_
  split
  · exact pure trivial
  split
  · exact throw_bind _
  have sw := R.trans st (R.trans tu (R.trans uv vw))
  refine (hbelow _ _ w sw).bind fun sub x _ _ => ?_
  cases sub with
  | some sub => exact result _
  | none => exact throw _

end Leaves

end Keeps

end Regime

end SszMerkle
