/-
Leaves gathered one at a time, by any number of frontiers that are copied and sealed at will. Each
frontier answers as the plain row of the leaves offered to it: the first ones are taken, as many as
there is room for, and the others are refused; sealed at any time, it has the root that hashing the
leaves taken so far has. One request keeps frontiers and rows alike, and so does a whole run.
-/
import SszMerkle.Proofs.Frontier

namespace SszMerkle

/-! ## Requests -/

/-- What can be asked of a thing that gathers leaves. -/
structure Gatherer (α : Type) where
  start : Hasher → (limit : Nat) → α
  /-- Why the leaf is refused, if it is, and what comes of the thing. -/
  push : α → (leaf : Root) → Option Failure × α
  count : α → Nat
  /-- The root, were no further leaf to come. -/
  root : α → Result Root

/-- A request to the gatherers of a program, which are numbered in the order they came to be. -/
inductive GatherRequest where
  | start (h : Hasher) (limit : Nat)
  | clone (gatherer : Nat)
  | push (gatherer : Nat) (leaf : Root)
  | count (gatherer : Nat)
  /-- Seals a gatherer, which is used up by that. -/
  | finish (gatherer : Nat)

inductive GatherAnswer where
  | done
  | refused (cause : Failure)
  | count (n : Nat)
  | root (r : Result Root)
  /-- There is no such gatherer, or it was sealed. -/
  | absent

/-- The limit is a word, and so is the number of one leaf too many. -/
def GatherRequest.Fair : GatherRequest → Prop
  | start _ limit => limit + 1 < Word.bound
  | _ => True

namespace Gatherer

variable {α : Type} (G : Gatherer α)

/-- Asks one gatherer. What is left of it takes its place. -/
def ask (xs : List (Option α)) (i : Nat) (f : α → GatherAnswer × Option α) :
    GatherAnswer × List (Option α) :=
  match xs[i]?.join with
  | none => (.absent, xs)
  | some x => ((f x).1, xs.set i (f x).2)

/-- Offers a leaf. -/
def offer (leaf : Root) (x : α) : GatherAnswer × Option α :=
  match G.push x leaf with
  | (none, x) => (.done, some x)
  | (some e, x) => (.refused e, some x)

/-- Answers a request. -/
def serve (xs : List (Option α)) : GatherRequest → GatherAnswer × List (Option α)
  | .start h limit => (.done, xs ++ [some (G.start h limit)])
  | .clone i =>
    match xs[i]?.join with
    | none => (.absent, xs)
    | some x => (.done, xs ++ [some x])
  | .push i leaf => ask xs i (G.offer leaf)
  | .count i => ask xs i fun x => (.count (G.count x), some x)
  | .finish i => ask xs i fun x => (.root (G.root x), none)

/-- Answers requests one after the other. -/
def replay : List GatherRequest → List (Option α) → List GatherAnswer × List (Option α)
  | [], xs => ([], xs)
  | req :: reqs, xs =>
    let (a, xs) := G.serve xs req
    let (as, xs) := replay reqs xs
    (a :: as, xs)

end Gatherer

/-- A frontier gathers leaves; one that refuses a leaf stays as it is. -/
def Frontier.gatherer : Gatherer Frontier where
  start := Frontier.start
  push f leaf :=
    match f.push leaf with
    | .ok f' => (none, f')
    | .error e => (some e, f)
  count f := f.count
  root f := f.root

/-- The leaves offered to something with room for `limit` of them. -/
structure OfferedRow where
  hasher : Hasher
  limit : Nat
  offered : List Root

namespace OfferedRow

/-- How many of the leaves there is room for. -/
def count (row : OfferedRow) : Nat := min row.offered.length row.limit

/-- The leaf that was offered as number `i`. -/
def leaf (row : OfferedRow) (i : Nat) : Root := row.offered.getD i .zero

def push (row : OfferedRow) (leaf : Root) : OfferedRow := { row with offered := row.offered ++ [leaf] }

/-- The root that hashing the leaves taken has. -/
def root (row : OfferedRow) : Result Root :=
  (merkleize (m := Id) row.hasher row.count row.limit fun i => pure (row.leaf i)).run

/-- A row takes a leaf unless it has taken as many as there is room for. -/
def gatherer : Gatherer OfferedRow where
  start h limit := ⟨h, limit, []⟩
  push row leaf :=
    (if row.count = row.limit then some (.overCapacity (row.limit + 1) row.limit) else none,
      row.push leaf)
  count := count
  root := root

variable {row : OfferedRow}

theorem leaf_push {i : Nat} (hi : i < row.offered.length) (r : Root) :
    (row.push r).leaf i = row.leaf i := by
  simp only [leaf, push, List.getD_eq_getElem?_getD]
  rw [List.getElem?_append_left hi]

theorem leaf_push_last (r : Root) : (row.push r).leaf row.offered.length = r := by
  simp [leaf, push]

theorem count_push (h : row.offered.length < row.limit) (r : Root) :
    (row.push r).count = row.count + 1 := by
  simp [count, push]
  omega

theorem count_push_of_le (h : row.limit ≤ row.offered.length) (r : Root) :
    (row.push r).count = row.count := by
  simp [count, push]
  omega

/-- The root of a row is the reference root over the leaves taken. -/
theorem root_eq (hl : row.limit < Word.bound) : row.root =
    .ok (Padded.root row.hasher (Word.depthFor row.limit) (Padded.clip row.count row.leaf)) := by
  have taken : min row.count row.limit = row.count := Nat.min_eq_left (Nat.min_le_right ..)
  rw [root, merkleize_pure (m := Id) row.hasher row.count hl row.leaf, taken]
  rfl

end OfferedRow

/-! ## One frontier -/

namespace Frontier

variable {f : Frontier} {row : OfferedRow}

/-- The frontier has taken the leaves offered, as far as there is room. What its stack keeps is right
for every row that starts with them. -/
structure Gathers (f : Frontier) (row : OfferedRow) : Prop where
  hasher_eq : f.hasher = row.hasher
  limit_eq : f.limit = row.limit
  count_eq : f.count = row.count
  room : row.limit + 1 < Word.bound
  ready : f.Ready
  kept : ∀ leaf : Nat → Root, (∀ i < row.count, leaf i = row.leaf i) →
    Kept f.hasher leaf 0 f.count f.stack

theorem start_gathers (h : Hasher) {limit : Nat} (hl : limit + 1 < Word.bound) :
    (start h limit).Gathers ⟨h, limit, []⟩ where
  hasher_eq := rfl
  limit_eq := rfl
  count_eq := by simp [start, OfferedRow.count]
  room := hl
  ready := start_ready h (by omega)
  kept leaf _ := kept_start h leaf _ 0

namespace Gathers

variable (hf : f.Gathers row)
include hf

/-- With room left, a leaf is taken. -/
theorem push_ok (room : row.offered.length < row.limit) (r : Root) :
    ∃ f', f.push r = .ok f' ∧ f'.Gathers (row.push r) := by
  have count : row.count = row.offered.length := Nat.min_eq_left room.le
  have below : f.count < f.limit := by rw [hf.count_eq, hf.limit_eq, count]; exact room
  obtain ⟨stack, visits, ha, ready, -⟩ := absorb_ok hf.ready below r
  refine ⟨{ f with count := f.count + 1, stack }, ?_, hf.hasher_eq, hf.limit_eq, ?_, hf.room, ready, ?_⟩
  · rw [push, if_neg (Nat.not_le.2 below), ha]
    rfl
  · rw [OfferedRow.count_push room, ← hf.count_eq]
  · intro leaf starts
    rw [OfferedRow.count_push room, count] at starts
    -- the row up to the new leaf is what the stack was right for, and the new leaf comes next
    have before : Kept f.hasher leaf 0 f.count f.stack := by
      refine hf.kept leaf fun i hi => ?_
      rw [count] at hi
      rw [starts i (by omega), OfferedRow.leaf_push hi]
    have next : leaf f.count = r := by
      rw [hf.count_eq, count, starts _ (by omega), OfferedRow.leaf_push_last]
    exact (absorb_keeps ha before next).1

/-- Without, it is refused, and the leaves taken are the same. -/
theorem push_error (full : row.limit ≤ row.offered.length) (r : Root) :
    f.push r = .error (.overCapacity (row.limit + 1) row.limit) ∧ f.Gathers (row.push r) := by
  have count : row.count = row.limit := Nat.min_eq_right full
  have same : (row.push r).count = row.count := OfferedRow.count_push_of_le full r
  constructor
  · rw [push, hf.count_eq, hf.limit_eq, count, if_pos le_rfl, Word.next_eq hf.room]
    rfl
  · refine ⟨hf.hasher_eq, hf.limit_eq, hf.count_eq.trans same.symm, hf.room, hf.ready, ?_⟩
    intro leaf starts
    rw [same] at starts
    refine hf.kept leaf fun i hi => ?_
    rw [starts i hi, OfferedRow.leaf_push (by omega)]

/-- Sealed at any time, the frontier has the root of the row. -/
theorem root_eq : f.root = row.root := by
  have lt : row.limit < Word.bound := by
    have := hf.room
    omega
  have kept : Kept f.hasher (Padded.clip row.count row.leaf) 0 f.count f.stack :=
    hf.kept _ fun i hi => if_pos hi
  have zero : ∀ i, f.count ≤ i → Padded.clip row.count row.leaf i = .zero := by
    intro i hi
    rw [hf.count_eq] at hi
    exact if_neg (Nat.not_lt.2 hi)
  obtain ⟨visits, hfinish, -⟩ := finish_ok hf.ready kept zero
  rw [root, hfinish, OfferedRow.root_eq lt, ← hf.hasher_eq, ← hf.limit_eq]
  rfl

/-- A frontier answers to an offer as the row does. -/
theorem offer_gathers (r : Root) :
    (gatherer.offer r f).1 = (OfferedRow.gatherer.offer r row).1 ∧
      Option.Rel Gathers (gatherer.offer r f).2 (OfferedRow.gatherer.offer r row).2 := by
  rcases Nat.lt_or_ge row.offered.length row.limit with room | full
  · obtain ⟨f', hpush, hf'⟩ := hf.push_ok room r
    have open_ : row.count ≠ row.limit := by
      unfold OfferedRow.count
      omega
    simp only [Gatherer.offer, gatherer, OfferedRow.gatherer, hpush, if_neg open_]
    exact ⟨trivial, .some hf'⟩
  · obtain ⟨hpush, hf'⟩ := hf.push_error full r
    have closed : row.count = row.limit := Nat.min_eq_right full
    simp only [Gatherer.offer, gatherer, OfferedRow.gatherer, hpush, if_pos closed]
    exact ⟨trivial, .some hf'⟩

end Gathers

end Frontier

/-! ## Runs -/

namespace Gatherer

variable {fs : List (Option Frontier)} {rows : List (Option OfferedRow)}

/-- Each frontier gathers its own row. -/
abbrev Mirrors (fs : List (Option Frontier)) (rows : List (Option OfferedRow)) : Prop :=
  List.Forall₂ (Option.Rel Frontier.Gathers) fs rows

/-- Of the same number, there is a frontier with its row, or neither. -/
theorem Mirrors.join (hm : Mirrors fs rows) (i : Nat) :
    (fs[i]?.join = none ∧ rows[i]?.join = none) ∨
      ∃ f row, fs[i]?.join = some f ∧ rows[i]?.join = some row ∧ f.Gathers row := by
  induction hm generalizing i with
  | nil => exact .inl ⟨rfl, rfl⟩
  | @cons f row fs rows h _ ih =>
    cases i with
    | zero =>
      cases h with
      | none => exact .inl ⟨rfl, rfl⟩
      | some h => exact .inr ⟨_, _, rfl, rfl, h⟩
    | succ i => exact ih i

/-- Where any frontier answers as its row does, the frontiers mirror the rows again. -/
theorem Mirrors.ask (hm : Mirrors fs rows) (i : Nat) {a : Frontier → GatherAnswer × Option Frontier}
    {b : OfferedRow → GatherAnswer × Option OfferedRow}
    (hab : ∀ f row, f.Gathers row → (a f).1 = (b row).1 ∧ Option.Rel Frontier.Gathers (a f).2 (b row).2) :
    (ask fs i a).1 = (ask rows i b).1 ∧ Mirrors (ask fs i a).2 (ask rows i b).2 := by
  unfold Gatherer.ask
  rcases hm.join i with ⟨hf, hrow⟩ | ⟨f, row, hf, hrow, h⟩
  · rw [hf, hrow]
    exact ⟨rfl, hm⟩
  · rw [hf, hrow]
    obtain ⟨answer, left⟩ := hab f row h
    exact ⟨answer, forall₂_set hm left i⟩

/-- A request is answered alike by frontiers and rows, and leaves them alike. -/
theorem Mirrors.serve (hm : Mirrors fs rows) {req : GatherRequest} (fair : req.Fair) :
    (Frontier.gatherer.serve fs req).1 = (OfferedRow.gatherer.serve rows req).1 ∧
      Mirrors (Frontier.gatherer.serve fs req).2 (OfferedRow.gatherer.serve rows req).2 := by
  cases req with
  | start h limit =>
    exact ⟨rfl, List.rel_append hm (.cons (.some (Frontier.start_gathers h fair)) .nil)⟩
  | clone i =>
    unfold Gatherer.serve
    rcases hm.join i with ⟨hf, hrow⟩ | ⟨f, row, hf, hrow, h⟩
    · simp only [hf, hrow]
      exact ⟨trivial, hm⟩
    · simp only [hf, hrow]
      exact ⟨trivial, List.rel_append hm (.cons (.some h) .nil)⟩
  | push i leaf => exact hm.ask i fun f row h => h.offer_gathers leaf
  | count i => exact hm.ask i fun f row h => ⟨congrArg _ h.count_eq, .some h⟩
  | finish i => exact hm.ask i fun f row h => ⟨congrArg _ h.root_eq, .none⟩

/-- Only what is there is asked, and it is left as it says. -/
theorem ask_cases {α : Type} (xs : List (Option α)) (i : Nat) (f : α → GatherAnswer × Option α) :
    ask xs i f = (.absent, xs) ∨
      ∃ x, xs[i]? = some (some x) ∧ ask xs i f = ((f x).1, xs.set i (f x).2) := by
  unfold Gatherer.ask
  cases hx : xs[i]?.join with
  | none => exact .inl rfl
  | some x => exact .inr ⟨x, Option.join_eq_some_iff.1 hx, rfl⟩

/-- A frontier that refuses a leaf is put back as it was, and nothing else is ever refused. -/
theorem serve_of_refused (fs : List (Option Frontier)) {req : GatherRequest} {e : Failure}
    (refused : (Frontier.gatherer.serve fs req).1 = .refused e) :
    (Frontier.gatherer.serve fs req).2 = fs := by
  cases req with
  | start h limit => cases refused
  | clone i =>
    simp only [Gatherer.serve] at refused
    split at refused <;> cases refused
  | count i =>
    rcases ask_cases fs i _ with hask | ⟨f, -, hask⟩ <;> rw [Gatherer.serve, hask] at refused <;>
      cases refused
  | finish i =>
    rcases ask_cases fs i _ with hask | ⟨f, -, hask⟩ <;> rw [Gatherer.serve, hask] at refused <;>
      cases refused
  | push i leaf =>
    rcases ask_cases fs i (Frontier.gatherer.offer leaf) with hask | ⟨f, hf, hask⟩
    · rw [Gatherer.serve, hask]
    · rw [Gatherer.serve, hask] at refused ⊢
      obtain ⟨hi, hget⟩ := List.getElem?_eq_some_iff.1 hf
      cases hp : f.push leaf with
      | ok f' =>
        simp only [Gatherer.offer, Frontier.gatherer, hp] at refused
        cases refused
      | error e' => simp only [Gatherer.offer, Frontier.gatherer, hp, ← hget, List.set_getElem_self]

/-- Sealing never fails. -/
theorem Mirrors.root_ok (hm : Mirrors fs rows) {req : GatherRequest} {r : Result Root}
    (answer : (Frontier.gatherer.serve fs req).1 = .root r) : ∃ c, r = .ok c := by
  cases req with
  | start h limit => cases answer
  | clone i =>
    simp only [Gatherer.serve] at answer
    split at answer <;> cases answer
  | push i leaf =>
    rcases ask_cases fs i (Frontier.gatherer.offer leaf) with hask | ⟨f, -, hask⟩
    · rw [Gatherer.serve, hask] at answer
      cases answer
    · rw [Gatherer.serve, hask, Gatherer.offer] at answer
      split at answer <;> cases answer
  | count i =>
    rcases ask_cases fs i _ with hask | ⟨f, -, hask⟩ <;> rw [Gatherer.serve, hask] at answer <;>
      cases answer
  | finish i =>
    simp only [Gatherer.serve, Gatherer.ask] at answer
    rcases hm.join i with ⟨hf, -⟩ | ⟨f, row, hf, -, h⟩ <;> rw [hf] at answer <;> cases answer
    have lt : row.limit < Word.bound := by
      have := h.room
      omega
    exact ⟨_, h.root_eq.trans (OfferedRow.root_eq lt)⟩

theorem Mirrors.replay {reqs : List GatherRequest} (fair : ∀ req ∈ reqs, req.Fair)
    (hm : Mirrors fs rows) :
    (Frontier.gatherer.replay reqs fs).1 = (OfferedRow.gatherer.replay reqs rows).1 ∧
      ∀ r, .root r ∈ (Frontier.gatherer.replay reqs fs).1 → ∃ c, r = .ok c := by
  induction reqs generalizing fs rows with
  | nil => exact ⟨rfl, nofun⟩
  | cons req reqs ih =>
    obtain ⟨answer, left⟩ := hm.serve (fair req (by simp))
    obtain ⟨answers, roots⟩ := ih (fun r hr => fair r (by simp [hr])) left
    simp only [Gatherer.replay]
    refine ⟨by rw [answer, answers], fun r hr => ?_⟩
    rcases List.mem_cons.1 hr with hr | hr
    · exact hm.root_ok hr.symm
    · exact roots r hr

/-- In every run each frontier answers as the row of the leaves offered to it, before it was cloned
and since, whatever other frontiers are asked in between: it counts the leaves offered up to the
limit, refuses a leaf exactly when it counts as many as the limit, and sealed at any time has the root
that hashing the leaves it took has. A refused leaf leaves everything as it was. -/
theorem replay_as_rows {reqs : List GatherRequest} (fair : ∀ req ∈ reqs, req.Fair) :
    (Frontier.gatherer.replay reqs []).1 = (OfferedRow.gatherer.replay reqs []).1 ∧
      (∀ r, .root r ∈ (Frontier.gatherer.replay reqs []).1 → ∃ c, r = .ok c) ∧
      ∀ req e, (Frontier.gatherer.serve (Frontier.gatherer.replay reqs []).2 req).1 = .refused e →
        (Frontier.gatherer.serve (Frontier.gatherer.replay reqs []).2 req).2 =
          (Frontier.gatherer.replay reqs []).2 := by
  obtain ⟨answers, roots⟩ := Mirrors.replay fair (.nil : Mirrors [] [])
  exact ⟨answers, roots, fun req e => serve_of_refused _⟩

/-- A frontier with room for two is cloned after its first leaf and refuses a third; the clone is
sealed over the first leaf alone. -/
theorem replay_of_clone :
    let a := Root.ofBytes [1]
    let b := Root.ofBytes [2]
    (Frontier.gatherer.replay [.start .sha256 2, .push 0 a, .clone 0, .push 0 b, .push 0 .zero,
        .count 0, .finish 1, .finish 0, .push 0 a] []).1 =
      [.done, .done, .done, .done, .refused (.overCapacity 3 2), .count 2,
        .root (.ok (Hasher.sha256.combine a .zero)), .root (.ok (Hasher.sha256.combine a b)),
        .absent] := by
  intro a b
  have lt : 2 < Word.bound := by decide
  have one : OfferedRow.root ⟨.sha256, 2, [a]⟩ = .ok (Hasher.sha256.combine a .zero) :=
    OfferedRow.root_eq lt
  have both : OfferedRow.root ⟨.sha256, 2, [a, b, .zero]⟩ = .ok (Hasher.sha256.combine a b) :=
    OfferedRow.root_eq lt
  rw [← one, ← both]
  refine (replay_as_rows ?_).1
  simp [GatherRequest.Fair, Word.bound]

end Gatherer

end SszMerkle
