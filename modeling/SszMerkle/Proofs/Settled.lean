/-
Answers that stay. Whatever roots a store keeps, of whichever hashers, work on it only adds to them;
and a root that was once given is given again for good, since it is kept, or comes of roots that are.
So the root of a tree and the way of a path through it need nothing to be known of the store.
-/
import SszMerkle.Proofs.Known
import SszMerkle.Proofs.Tree

namespace SszMerkle

/-! ## Answers that stay -/

/-- From the state on the work gives that answer, however often it is asked. -/
def Regime.Settled {σ α : Type} (R : Regime σ) (s : σ) (x : ExceptT Failure (StateM σ) α) (a : α) :
    Prop :=
  ∀ t, R.Grows s t → R.Answers t x (.ok a)

/-- Wherever it is asked first, the work gives an answer and stays with it. -/
def Regime.Settles {σ α : Type} (R : Regime σ) (x : ExceptT Failure (StateM σ) α) : Prop :=
  ∀ s, R.Succeeds s x fun a t => R.Settled t x a

namespace Regime

variable {σ α β : Type} {R : Regime σ} {s t : σ} {x : ExceptT Failure (StateM σ) α}
  {k : α → ExceptT Failure (StateM σ) β} {a a' : α} {b : β}

namespace Settled

theorem later (hx : R.Settled s x a) (st : R.Grows s t) : R.Settled t x a :=
  fun u tu => hx u (R.trans st tu)

theorem pure (a : α) : R.Settled s (Pure.pure a) a := fun _ _ => .pure a

theorem bind (hx : R.Settled s x a) (hk : R.Settled s (k a) b) : R.Settled s (x >>= k) b := by
  intro t st
  exact (hx t st).bind fun u tu => hk u (R.trans st tu)

/-- There is one answer to settle on. -/
theorem unique (hs : R.Holds s) (hx : R.Settled s x a) (hx' : R.Settled s x a') : a = a' := by
  obtain ⟨_, _, hrun, -, -, rfl⟩ := hx s (R.refl s) hs
  obtain ⟨_, _, hrun', -, -, rfl⟩ := hx' s (R.refl s) hs
  rw [hrun, Prod.mk.injEq, Except.ok.injEq] at hrun'
  exact hrun'.1

theorem mapM {ι : Type} {f : ι → ExceptT Failure (StateM σ) α} {l : List ι} {as : List α}
    (hf : List.Forall₂ (fun i a => R.Settled s (f i) a) l as) : R.Settled s (l.mapM f) as := by
  induction hf with
  | nil => exact pure []
  | cons hi _ ih =>
    rw [List.mapM_cons]
    exact hi.bind (ih.bind (pure _))

end Settled

namespace Settles

theorem pure (a : α) : R.Settles (Pure.pure a : ExceptT Failure (StateM σ) α) :=
  fun _ => .pure (.pure a)

theorem bind (hx : R.Settles x) (hk : ∀ a, R.Settles (k a)) : R.Settles (x >>= k) := by
  intro s
  refine (hx s).bind fun a t _ ha => (hk a t).mono fun b u tu hb => ?_
  exact (ha.later tu).bind hb

/-- A run over a list settles at each of its items. -/
theorem mapM_succeeds {ι : Type} {f : ι → ExceptT Failure (StateM σ) α} {l : List ι}
    (hf : ∀ i ∈ l, R.Settles (f i)) (s : σ) : R.Succeeds s (l.mapM f) fun as t =>
      List.Forall₂ (fun i a => R.Settled t (f i) a) l as := by
  induction l generalizing s with
  | nil => exact .pure .nil
  | cons i l ih =>
    rw [List.mapM_cons]
    refine (hf i (by simp) s).bind fun a t _ ha => ?_
    refine (ih (fun j hj => hf j (List.mem_cons_of_mem i hj)) t).bind fun as u tu has => ?_
    exact Succeeds.pure (.cons (ha.later tu) has)

theorem mapM {ι : Type} {f : ι → ExceptT Failure (StateM σ) α} {l : List ι}
    (hf : ∀ i ∈ l, R.Settles (f i)) : R.Settles (l.mapM f) :=
  fun s => (mapM_succeeds hf s).mono fun _ _ _ has => .mapM has

end Settles

end Regime

/-! ## Kept roots -/

variable {h : Hasher} {s : Store}

namespace Store

/-- The regime of work that forgets no root, whatever the roots are. -/
def memory : Regime Store where
  Holds _ := True
  Grows s t := ∀ {i : Nat} {c}, s.roots[i]? = some c → t.roots[i]? = some c
  refl _ := id
  trans st tu := fun e => tu (st e)

theorem kept_succeeds (i : Nat) :
    memory.Succeeds s (liftM (kept i)) fun c t => t = s ∧ c = s.roots[i]? :=
  .lift fun _ => ⟨_, s, rfl, id, trivial, rfl, rfl⟩

/-- What is answered is kept from then on. -/
theorem keep_succeeds (i : Nat) (c : Root) :
    memory.Succeeds s (liftM (keep i c)) fun c' t => t.roots[i]? = some c' :=
  .lift fun _ => ⟨_, _, rfl, roots_keep i c, trivial, kept_of_keep i c s⟩

end Store

namespace Node

variable {n l r : Node}

theorem settled_of_kept {i : Nat} {c : Root} (hc : s.roots[i]? = some c) :
    Store.memory.Settled s (liftM ((pair i l r).root h)) c := by
  intro t st
  rw [root, liftM_bind]
  refine (Store.kept_succeeds i).bind ?_
  rintro _ _ _ ⟨rfl, rfl⟩
  rw [st hc]
  exact .pure rfl

theorem root_settles (n : Node) : Store.memory.Settles (liftM (n.root h)) := by
  induction n with
  | leaf i c => exact .pure c
  | pair i l r ihl ihr =>
    intro s
    rw [root, liftM_bind]
    refine (Store.kept_succeeds i).bind ?_
    rintro _ t _ ⟨rfl, rfl⟩
    cases hc : t.roots[i]? with
    | some c => exact Regime.Succeeds.pure (settled_of_kept hc)
    | none =>
      -- the answer is what is kept in the end, whatever the sides came to
      rw [liftM_bind]
      refine (ihl t).bind fun a u _ _ => ?_
      rw [liftM_bind]
      refine (ihr u).bind fun b v _ _ => ?_
      exact (Store.keep_succeeds i (h.combine a b)).mono fun c w _ hc => settled_of_kept hc

end Node

end SszMerkle
