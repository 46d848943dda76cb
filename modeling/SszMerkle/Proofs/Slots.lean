/-
A view as an array of slots, one for each position of its depth. Which slots can be used is up to the tree
that the view began with, as a tree is never made ragged or whole by what is put into a slot: the paths of
two slots part, and a write leaves all that is beside its path where it was. So after any calls a slot has
what was last put there, or else what the tree had there in the beginning; and a slot that cannot be used
refuses reading and writing alike, for the reason it did in the beginning.
-/
import SszMerkle.LevelView
import SszMerkle.Proofs.Paths
import SszMerkle.Proofs.Replaced

namespace SszMerkle

/-- A call on a view. -/
inductive SlotRequest where
  | get (i : Nat)
  | set (i : Nat) (n : Node)

inductive SlotAnswer where
  | node (n : Node)
  | done
  | refused (cause : Failure)

/-! ## Positions of one depth -/

namespace Gindex

variable {g g' : Gindex} {i j d : Nat}

theorem val_ofPosition (hg : ofPosition i d = .ok g) : g.val = 2 ^ d + i := by
  obtain ⟨pos, rfl, rfl⟩ := ofPosition_ok hg
  exact val_eq pos

/-- The paths to two positions of one depth part before their ends. -/
theorem not_path_prefix (hg : ofPosition i d = .ok g) (hg' : ofPosition j d = .ok g') (hne : j ≠ i) :
    ¬ g'.path <+: g.path := by
  obtain ⟨pos, depth, position⟩ := ofPosition_ok hg
  obtain ⟨pos', depth', position'⟩ := ofPosition_ok hg'
  intro pre
  have paths : g'.path = g.path := by
    apply pre.eq_of_length
    rw [length_path, length_path, depth, depth']
  rw [← position, ← position', eq_of_path pos' pos paths] at hne
  exact hne rfl

end Gindex

/-! ## Leaves in the way -/

namespace Node

/-- A leaf is in the way of a path, with so many steps left. -/
inductive Bars : Node → List Bool → Nat → Prop
  | here {ident c right path} : Bars (.leaf ident c) (right :: path) (path.length + 1)
  | left {serial l r path left} : Bars l path left → Bars (.pair serial l r) (false :: path) left
  | right {serial l r path left} : Bars r path left → Bars (.pair serial l r) (true :: path) left

/-- Following fails where a leaf is in the way, with the steps that are left, and in no other way. -/
theorem follow_error_iff {target : Gindex} {e : Failure} : ∀ {path : List Bool} {n : Node},
    n.follow target path = .error e ↔ ∃ left, n.Bars path left ∧ e = .navigation target.val left
  | [], n => by
    constructor
    · intro he
      cases n <;> cases he
    · rintro ⟨left, bars, -⟩
      cases bars
  | _ :: path, .leaf _ _ => by
    constructor
    · intro he
      cases he
      exact ⟨_, .here, rfl⟩
    · rintro ⟨left, bars, rfl⟩
      cases bars
      rfl
  | right :: path, .pair _ l r => by
    have below : (if right then r else l).follow target path = .error e ↔ _ := follow_error_iff
    refine Iff.trans below (exists_congr fun left => and_congr_left fun _ => ?_)
    cases right with
    | false =>
      refine ⟨.left, fun bars => ?_⟩
      cases bars
      assumption
    | true =>
      refine ⟨.right, fun bars => ?_⟩
      cases bars
      assumption

end Node

namespace LevelView

variable {v w first : LevelView} {s t : Store} {i j : Nat} {n x : Node} {e : Failure}

/-! ## One call -/

/-- A position that the depth does not have. -/
theorem get_outside (h : ¬ (v.depth < 64 ∧ i < 2 ^ v.depth)) :
    v.get i = .error (.malformedIndex i v.depth) := by
  rw [get, Gindex.ofPosition_error h]
  rfl

theorem get_eq {g : Gindex} (hg : Gindex.ofPosition i v.depth = .ok g) : v.get i = v.backing.get g := by
  rw [get, hg]
  rfl

/-- At a position that the depth has, a view reads what is at the end of the path there. -/
theorem get_eq_follow (h64 : v.depth < 64) (hi : i < 2 ^ v.depth) :
    ∃ g : Gindex, g.val = 2 ^ v.depth + i ∧ v.get i = v.backing.follow g (Gindex.digits v.depth i) := by
  obtain ⟨g, hg, hpath⟩ := Gindex.ofPosition_path h64 hi
  exact ⟨g, Gindex.val_ofPosition hg, by rw [get_eq hg, Node.get, hpath]⟩

/-- A position that the depth has is refused where a leaf is in the way. -/
theorem get_eq_error_iff (h64 : v.depth < 64) (hi : i < 2 ^ v.depth) : v.get i = .error e ↔
    ∃ left, v.backing.Bars (Gindex.digits v.depth i) left ∧ e = .navigation (2 ^ v.depth + i) left := by
  obtain ⟨g, hval, hf⟩ := get_eq_follow h64 hi
  rw [hf, Node.follow_error_iff, hval]

/-- Writing is refused where reading is, and makes nothing. -/
theorem set_of_get_error (he : v.get i = .error e) (s : Store) (n : Node) :
    (v.set i n).run.run s = (.error e, s) := by
  unfold get at he
  unfold set
  cases hg : Gindex.ofPosition i v.depth with
  | error e' =>
    rw [hg] at he
    cases he
    rfl
  | ok g =>
    rw [hg] at he
    have refused : v.backing.graftAt g = .error e := Node.graftAt_error_iff.2 he
    rw [liftM_ok, pure_bind, refused]
    rfl

/-- Where a node is read one can be written: it is read there afterwards, and at every other position
what was read before, be it a node or a refusal. -/
theorem set_of_get_ok (hx : v.get i = .ok x) (s : Store) (n : Node) :
    ∃ w t, (v.set i n).run.run s = (.ok w, t) ∧ s.Builds t ∧ w.depth = v.depth ∧
      w.get i = .ok n ∧ ∀ j, j ≠ i → w.get j = v.get j := by
  obtain ⟨g, hg, hget⟩ := bind_eq_ok hx
  obtain ⟨graft, hgraft⟩ : ∃ graft, v.backing.graftAt g = .ok graft := by
    cases hgraft : v.backing.graftAt g with
    | ok graft => exact ⟨graft, rfl⟩
    | error e =>
      rw [Node.graftAt_error_iff.1 hgraft] at hget
      cases hget
  obtain ⟨m, t, hrun, st, hm⟩ := Node.apply_replaces hgraft s n
  refine ⟨⟨m, v.depth⟩, t, ?_, st, rfl, ?_, fun j hj => ?_⟩
  · unfold set
    simp only [hg, hgraft, liftM_ok, pure_bind]
    rw [run_bind_ok (run_liftM hrun)]
    rfl
  · have here : m.follow g (g.path ++ []) = n.follow g [] := hm.follow_below g
    rw [List.append_nil] at here
    rw [get_eq (v := ⟨m, v.depth⟩) hg, Node.get, here]
    cases n <;> rfl
  · rw [get, get]
    cases hg' : Gindex.ofPosition j v.depth with
    | error _ => rfl
    | ok g' =>
      exact hm.follow_beside g' (Gindex.not_path_prefix hg hg' hj)
        (Gindex.not_path_prefix hg' hg hj.symm)

/-- Answers a call. A refused one leaves the view as it is. -/
def serve (v : LevelView) (s : Store) : SlotRequest → SlotAnswer × LevelView × Store
  | .get i =>
    match v.get i with
    | .ok n => (.node n, v, s)
    | .error e => (.refused e, v, s)
  | .set i n =>
    match (v.set i n).run.run s with
    | (.ok w, t) => (.done, w, t)
    | (.error e, t) => (.refused e, v, t)

/-- Neither call on a position is answered, and neither changes a thing. -/
def Refuses (v : LevelView) (s : Store) (i : Nat) (e : Failure) : Prop :=
  v.serve s (.get i) = (.refused e, v, s) ∧ ∀ n, v.serve s (.set i n) = (.refused e, v, s)

theorem serve_get_of_ok (hx : v.get i = .ok x) (s : Store) : v.serve s (.get i) = (.node x, v, s) := by
  rw [serve, hx]

theorem refuses_of_get_error (he : v.get i = .error e) (s : Store) : v.Refuses s i e := by
  constructor
  · rw [serve, he]
  · intro n
    rw [serve, set_of_get_error he]

theorem serve_set_of_ok (hx : v.get i = .ok x) (s : Store) (n : Node) :
    ∃ w t, v.serve s (.set i n) = (.done, w, t) ∧ s.Builds t ∧ w.depth = v.depth ∧
      w.get i = .ok n ∧ ∀ j, j ≠ i → w.get j = v.get j := by
  obtain ⟨w, t, hrun, rest⟩ := set_of_get_ok hx s n
  refine ⟨w, t, ?_, rest⟩
  rw [serve, hrun]

/-! ## Any calls -/

/-- The calls on a view, one after the other, each with its answer. What the store is at a call is open,
so anything may happen to it between calls. -/
inductive Run (first : LevelView) : LevelView → List (SlotRequest × SlotAnswer) → Prop
  | start : Run first first []
  | call {v history} (req : SlotRequest) (s : Store) : Run first v history →
      Run first (v.serve s req).2.1 (history ++ [(req, (v.serve s req).1)])

/-- What an answered call put at position `i`. -/
def putAt (i : Nat) : SlotRequest × SlotAnswer → Option Node
  | (.set j n, .done) => if j = i then some n else none
  | _ => none

/-- What was last put at position `i`. -/
def lastPut (i : Nat) (history : List (SlotRequest × SlotAnswer)) : Option Node :=
  history.reverse.findSome? (putAt i)

theorem lastPut_concat (i : Nat) (history : List (SlotRequest × SlotAnswer))
    (call : SlotRequest × SlotAnswer) :
    lastPut i (history ++ [call]) = (putAt i call).or (lastPut i history) := by
  rw [lastPut, List.reverse_append, List.reverse_singleton, List.singleton_append, List.findSome?_cons]
  cases putAt i call <;> rfl

/-- Each slot is read as in the beginning, but for what was last put there. -/
structure Keeps (first v : LevelView) (history : List (SlotRequest × SlotAnswer)) : Prop where
  depth : v.depth = first.depth
  slots : ∀ i, v.get i = (first.get i).map fun x => (lastPut i history).getD x

theorem Keeps.call {history : List (SlotRequest × SlotAnswer)} (hv : first.Keeps v history)
    (s : Store) (req : SlotRequest) :
    first.Keeps (v.serve s req).2.1 (history ++ [(req, (v.serve s req).1)]) := by
  obtain ⟨depth, slots⟩ := hv
  -- a call that puts nothing anywhere leaves every slot as it is
  have idle : ∀ answer, (∀ j, putAt j (req, answer) = none) →
      first.Keeps v (history ++ [(req, answer)]) := by
    intro answer nothing
    refine ⟨depth, fun j => ?_⟩
    rw [slots j, lastPut_concat, nothing, Option.none_or]
  cases req with
  | get i =>
    cases hx : v.get i with
    | ok x =>
      rw [serve_get_of_ok hx]
      exact idle _ fun _ => rfl
    | error e =>
      rw [(refuses_of_get_error hx s).1]
      exact idle _ fun _ => rfl
  | set i n =>
    cases hx : v.get i with
    | error e =>
      rw [(refuses_of_get_error hx s).2]
      exact idle _ fun _ => rfl
    | ok x =>
      obtain ⟨w, t, hserve, -, hdepth, here, beside⟩ := serve_set_of_ok hx s n
      rw [hserve]
      refine ⟨hdepth.trans depth, fun j => ?_⟩
      rw [lastPut_concat]
      by_cases hj : j = i
      · subst hj
        rw [slots j] at hx
        cases hfirst : first.get j with
        | error e =>
          rw [hfirst] at hx
          cases hx
        | ok y => simp [here, putAt, Except.map]
      · rw [beside j hj, slots j]
        simp [putAt, Ne.symm hj]

theorem Run.keeps {history : List (SlotRequest × SlotAnswer)} (run : first.Run v history) :
    first.Keeps v history := by
  induction run with
  | start =>
    refine ⟨rfl, fun i => ?_⟩
    cases first.get i <;> rfl
  | call req s _ ih => exact ih.call s req

/-- After any calls a view is an array of slots, one for each position of its depth. A position that the
depth does not have is refused as such. One where the tree the view began with has a leaf in the way is
refused for that, and still is whatever was put anywhere. At every other one a node can be put, and what is
read there is the very node that was last put there, or else the one the tree began with. A refused call
leaves the view as it was. -/
theorem Run.as_slots {history : List (SlotRequest × SlotAnswer)} (run : first.Run v history)
    (i : Nat) (s : Store) :
    (¬ (first.depth < 64 ∧ i < 2 ^ first.depth) → v.Refuses s i (.malformedIndex i first.depth)) ∧
    (first.depth < 64 → i < 2 ^ first.depth →
      (∀ e, first.get i = .error e → v.Refuses s i e ∧
        ∃ left, first.backing.Bars (Gindex.digits first.depth i) left ∧
          e = .navigation (2 ^ first.depth + i) left) ∧
      ∀ x, first.get i = .ok x →
        v.serve s (.get i) = (.node ((lastPut i history).getD x), v, s) ∧
        ∀ n, ∃ w t, v.serve s (.set i n) = (.done, w, t) ∧ s.Builds t ∧ w.depth = first.depth) := by
  obtain ⟨depth, slots⟩ := run.keeps
  refine ⟨fun outside => ?_, fun h64 hi => ⟨fun e he => ⟨?_, (get_eq_error_iff h64 hi).1 he⟩, fun x hx => ?_⟩⟩
  · have refused := get_outside outside
    have same := slots i
    rw [refused] at same
    exact refuses_of_get_error same s
  · have same := slots i
    rw [he] at same
    exact refuses_of_get_error same s
  · have same := slots i
    rw [hx] at same
    refine ⟨serve_get_of_ok same s, fun n => ?_⟩
    obtain ⟨w, t, hserve, st, hdepth, -, -⟩ := serve_set_of_ok same s n
    exact ⟨w, t, hserve, st, hdepth.trans depth⟩

/-- In a tree whose right half is a leaf, two of the four slots can be used. The whole tree is put into the
first, which changes nothing for the others. -/
theorem as_slots_of_ragged :
    let leaf (i : Nat) : Node := .leaf (.made i) (Chunk.ofLength i)
    let lower : Node := .pair 2 (leaf 0) (leaf 1)
    let upper : Node := .pair 4 lower (leaf 3)
    let s : Store := ⟨#[leaf 0, leaf 1, lower, leaf 3, upper], ∅⟩
    let first : LevelView := ⟨upper, 2⟩
    ∃ v, first.Run v [(.set 2 lower, .refused (.navigation 6 1)), (.set 0 upper, .done)] ∧
      v.serve s (.get 0) = (.node upper, v, s) ∧ v.serve s (.get 1) = (.node (leaf 1), v, s) ∧
      (∃ w t, v.serve s (.set 1 lower) = (.done, w, t)) ∧ v.Refuses s 2 (.navigation 6 1) ∧
      v.Refuses s 4 (.malformedIndex 4 2) := by
  intro leaf lower upper s first
  have reads (i : Nat) (hi : i < 4) := get_eq_follow (v := first) (by decide) hi
  have get_zero : first.get 0 = .ok (leaf 0) := by
    obtain ⟨g, -, hf⟩ := reads 0 (by decide)
    exact hf
  have get_one : first.get 1 = .ok (leaf 1) := by
    obtain ⟨g, -, hf⟩ := reads 1 (by decide)
    exact hf
  have get_two : first.get 2 = .error (.navigation 6 1) := by
    obtain ⟨g, hval, hf⟩ := reads 2 (by decide)
    rw [hf, show 6 = g.val from hval.symm]
    rfl
  have refused : first.serve s (.set 2 lower) = (.refused (.navigation 6 1), first, s) :=
    (refuses_of_get_error get_two s).2 lower
  obtain ⟨v, t, answered, -⟩ := serve_set_of_ok get_zero s upper
  have tried : first.Run first [(.set 2 lower, .refused (.navigation 6 1))] := by
    have begun : first.Run first [] := .start
    have call := begun.call (.set 2 lower) s
    rwa [refused] at call
  have run : first.Run v [(.set 2 lower, .refused (.navigation 6 1)), (.set 0 upper, .done)] := by
    have call := tried.call (.set 0 upper) s
    rwa [answered] at call
  obtain ⟨-, inside⟩ := run.as_slots 0 s
  obtain ⟨-, inside'⟩ := run.as_slots 1 s
  obtain ⟨-, inside''⟩ := run.as_slots 2 s
  obtain ⟨outside, -⟩ := run.as_slots 4 s
  obtain ⟨read, -⟩ := (inside (by decide) (by decide)).2 (leaf 0) get_zero
  obtain ⟨read', written⟩ := (inside' (by decide) (by decide)).2 (leaf 1) get_one
  obtain ⟨w, t, hserve, -⟩ := written lower
  obtain ⟨still, -⟩ := (inside'' (by decide) (by decide)).1 (.navigation 6 1) get_two
  exact ⟨v, run, read, read', ⟨w, t, hserve⟩, still, outside (by decide)⟩

end LevelView

end SszMerkle
