/-
Runs of effectful work: stateful work that may fail goes on from where a step succeeded and stops
where one failed, and a run over a list asks for each item once, in order.
-/
import SszMerkle.Failure
import Mathlib.Tactic

namespace SszMerkle

section State

variable {σ α β : Type} {s s' : σ}

theorem run_bind_ok {x : ExceptT Failure (StateM σ) α} {a : α} (hx : x.run.run s = (.ok a, s'))
    (k : α → ExceptT Failure (StateM σ) β) : (x >>= k).run.run s = (k a).run.run s' := by
  rw [ExceptT.run_bind]
  simp only [StateT.run_bind, hx]
  rfl

/-- Work that cannot fail succeeds. -/
theorem run_liftM {x : StateM σ α} {a : α} (hx : x.run s = (a, s')) :
    (liftM x : ExceptT Failure (StateM σ) α).run.run s = (.ok a, s') := by
  show (Functor.map Except.ok x).run s = _
  rw [StateT.run_map, hx]
  rfl

theorem run_bind_error {x : ExceptT Failure (StateM σ) α} {e : Failure}
    (hx : x.run.run s = (.error e, s')) (k : α → ExceptT Failure (StateM σ) β) :
    (x >>= k).run.run s = (.error e, s') := by
  rw [ExceptT.run_bind]
  simp only [StateT.run_bind, hx]
  rfl

end State

section Result

theorem bind_eq_ok {α β : Type} {x : Result α} {k : α → Result β} {b : β} (e : x >>= k = .ok b) :
    ∃ a, x = .ok a ∧ k a = .ok b := by
  cases x with
  | error _ => cases e
  | ok a => exact ⟨a, rfl, e⟩

theorem bind_pure_eq_error {α β : Type} {x : Result α} {f : α → β} {e : Failure} :
    (x >>= fun a => pure (f a)) = .error e ↔ x = .error e := by
  cases x with
  | error _ =>
    show Except.error _ = _ ↔ _
    simp
  | ok _ => exact ⟨nofun, nofun⟩

theorem mapM_ok {α β : Type} {f : α → Result β} {k : α → β} :
    ∀ {l : List α}, (∀ a ∈ l, f a = .ok (k a)) → l.mapM f = .ok (l.map k)
  | [], _ => rfl
  | a :: l, e => by
    rw [List.mapM_cons, e a (by simp), mapM_ok fun b hb => e b (List.mem_cons_of_mem a hb)]
    rfl

end Result

section Monad

variable {m : Type → Type} [Monad m]

@[simp] theorem liftM_ok {α : Type} (a : α) :
    (liftM (Except.ok a : Result α) : ExceptT Failure m α) = pure a := rfl

@[simp] theorem liftM_error {α : Type} (e : Failure) :
    (liftM (Except.error e : Result α) : ExceptT Failure m α) = throw e := rfl

variable [LawfulMonad m] {α β γ : Type}

/-- After a failure nothing follows. -/
theorem throw_bind_eq (e : Failure) (k : α → ExceptT Failure m β) :
    ((throw e : ExceptT Failure m α) >>= k) = throw e := by
  apply ExceptT.ext
  simp

/-- What follows a run over a list may use that there is one answer for each item. -/
theorem mapM_bind_congr {f : α → m β} : ∀ {l : List α} {k k' : List β → m γ},
    (∀ bs, bs.length = l.length → k bs = k' bs) → l.mapM f >>= k = l.mapM f >>= k'
  | [], k, k', e => by simpa using e [] rfl
  | a :: l, k, k', e => by
    simp only [List.mapM_cons, bind_assoc, pure_bind]
    refine bind_congr fun b => mapM_bind_congr fun bs hbs => e (b :: bs) ?_
    simp [hbs]

end Monad

/-- Two lists that agree place by place agree again when one place changes in both. -/
theorem forall₂_set {α β : Type} {R : α → β → Prop} {as : List α} {bs : List β} {a : α} {b : β}
    (hR : List.Forall₂ R as bs) (hab : R a b) (i : Nat) : List.Forall₂ R (as.set i a) (bs.set i b) := by
  induction hR generalizing i with
  | nil => exact .nil
  | cons h1 h2 ih =>
    cases i with
    | zero => exact .cons hab h2
    | succ i => exact .cons h1 (ih i)

end SszMerkle
