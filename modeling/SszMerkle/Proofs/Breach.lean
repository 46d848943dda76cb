/-
Work that causes no breach. Whatever fails in it fails for a cause that a caller is told, and none of the
calls it makes is one that a definition's terms rule out. Going down a tree to an address, and putting
another node there, never asks for a zero root below depth 64: an address has at most 63 steps.
-/
import SszMerkle.LevelView
import SszMerkle.Proofs.Regime

namespace SszMerkle

variable {α β : Type}

/-! ## Answers -/

/-- An answer, or a failure that is no breach. -/
def Result.Unbroken (r : Result α) : Prop := ∀ cause, r ≠ .error (.breach cause)

namespace Result.Unbroken

theorem ok (a : α) : Result.Unbroken (.ok a) := fun _ => nofun

theorem error {e : Failure} (he : ∀ cause, e ≠ .breach cause) : Result.Unbroken (.error e : Result α) :=
  fun cause h => he cause (Except.error.inj h)

theorem cause {e : Failure} (hr : Result.Unbroken (.error e : Result α)) (cause : Breach) :
    e ≠ .breach cause := fun h => hr cause (congrArg Except.error h)

theorem bind {r : Result α} {k : α → Result β} (hr : Result.Unbroken r)
    (hk : ∀ a, Result.Unbroken (k a)) : Result.Unbroken (r >>= k) := by
  cases r with
  | ok a => exact hk a
  | error e => exact .error hr.cause

end Result.Unbroken

/-! ## Work -/

/-- Wherever the work starts, it ends in an answer or in a failure that is no breach. -/
def TreeM.Unbroken (x : TreeM α) : Prop :=
  ∀ s, (Regime.free Store).Ends s x fun r _ => Result.Unbroken r

namespace TreeM.Unbroken

theorem iff_run {x : TreeM α} : TreeM.Unbroken x ↔ ∀ s, Result.Unbroken (x.run.run s).1 :=
  forall_congr' fun _ => Regime.ends_free

theorem pure (a : α) : TreeM.Unbroken (Pure.pure a) := fun _ => .pure (.ok a)

theorem throw {e : Failure} (he : ∀ cause, e ≠ .breach cause) :
    TreeM.Unbroken (MonadExcept.throw e : TreeM α) := fun _ => .throw (.error he)

/-- Making and hashing nodes cannot fail. -/
theorem lift (x : StateM Store α) : TreeM.Unbroken (liftM x) := iff_run.2 fun _ => .ok _

theorem result {r : Result α} (hr : Result.Unbroken r) : TreeM.Unbroken (liftM r) := by
  cases r with
  | ok a => exact pure a
  | error e => exact throw hr.cause

theorem bind {x : TreeM α} {k : α → TreeM β} (hx : TreeM.Unbroken x)
    (hk : ∀ a, TreeM.Unbroken (k a)) : TreeM.Unbroken (x >>= k) :=
  fun s => (hx s).bind (fun a t _ _ => hk a t) fun _ _ _ he => .error he.cause

theorem throw_bind {e : Failure} (he : ∀ cause, e ≠ .breach cause) {k : α → TreeM β} :
    TreeM.Unbroken ((MonadExcept.throw e : TreeM α) >>= k) := fun _ => .throw_bind (.error he)

end TreeM.Unbroken

/-! ## Trees -/

theorem Gindex.ofPosition_unbroken (position depth : Nat) :
    Result.Unbroken (ofPosition position depth) := by
  unfold ofPosition
  split
  · exact .ok _
  · exact .error nofun

namespace Hasher

variable {h : Hasher} {d : Nat}

theorem zero_unbroken (hd : d ≤ 64) : Result.Unbroken (h.zero d) := by
  rw [zero_eq hd]
  exact .ok _

theorem zeroLeaf_unbroken (hd : d ≤ 64) : Result.Unbroken (h.zeroLeaf d) :=
  (zero_unbroken hd).bind fun _ => .ok _

end Hasher

namespace Node

variable {h : Hasher} {target : Gindex}

theorem follow_unbroken : ∀ (path : List Bool) (n : Node), Result.Unbroken (n.follow target path)
  | [], n => .ok n
  | _ :: path, .pair _ _ _ => follow_unbroken path _
  | _ :: _, .leaf _ _ => .error nofun

theorem get_unbroken (n : Node) (g : Gindex) : Result.Unbroken (n.get g) := follow_unbroken _ n

theorem stepsTo_unbroken : ∀ (path : List Bool) (n : Node), Result.Unbroken (n.stepsTo target path)
  | [], _ => .ok _
  | _ :: path, .pair _ _ _ => (stepsTo_unbroken path _).bind fun _ => .ok _
  | _ :: _, .leaf _ _ => .error nofun

theorem graftAt_unbroken (n : Node) (g : Gindex) : Result.Unbroken (n.graftAt g) :=
  (stepsTo_unbroken _ n).bind fun _ => .ok _

theorem zeroSteps_unbroken : ∀ {path : List Bool}, path.length ≤ 64 →
    Result.Unbroken (zeroSteps h path)
  | [], _ => .ok _
  | _ :: path, h64 => by
    rw [List.length_cons] at h64
    exact (Hasher.zeroLeaf_unbroken (by omega)).bind fun _ =>
      (zeroSteps_unbroken (by omega)).bind fun _ => .ok _

theorem stepsInto_unbroken : ∀ {path : List Bool} (n : Node), path.length ≤ 64 →
    Result.Unbroken (n.stepsInto h target path)
  | [], _, _ => .ok _
  | _ :: path, .pair _ _ _, h64 =>
    (stepsInto_unbroken _ (Nat.le_of_succ_le h64)).bind fun _ => .ok _
  | _ :: path, .leaf _ c, h64 => by
    refine (Hasher.zero_unbroken h64).bind fun zero => ?_
    split
    · exact zeroSteps_unbroken h64
    · exact .error nofun

theorem graftInto_unbroken (n : Node) (g : Gindex) : Result.Unbroken (n.graftInto h g) := by
  have h64 : g.path.length ≤ 64 := by rw [Gindex.length_path]; exact g.depth_lt.le
  exact (stepsInto_unbroken n h64).bind fun _ => .ok _

end Node

namespace LevelView

theorem get_unbroken (v : LevelView) (i : Nat) : Result.Unbroken (v.get i) :=
  (Gindex.ofPosition_unbroken _ _).bind fun g => v.backing.get_unbroken g

theorem set_unbroken (v : LevelView) (i : Nat) (n : Node) : TreeM.Unbroken (v.set i n) := by
  unfold set
  refine .bind (.result (Gindex.ofPosition_unbroken _ _)) fun g => ?_
  refine .bind (.result (v.backing.graftAt_unbroken g)) fun graft => ?_
  exact .bind (.lift _) fun backing => .pure _

end LevelView

end SszMerkle
