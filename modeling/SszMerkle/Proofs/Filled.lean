/-
Trees filled from the left: pairs lead to the nodes they hold and to nothing else, and every part
without nodes is the stand-in of its depth. Building a tree over a list of nodes fills it, with nothing
but new pairs above the nodes, and so does putting one node after the other into an empty tree; what is
filled with the same nodes coincides.
-/
import SszMerkle.Node.Balanced
import SszMerkle.Proofs.Row

namespace SszMerkle.Node

/-- The tree of depth `d` with some nodes at its first bottom places and stand-ins beside them. -/
inductive Filled (h : Hasher) : (d : Nat) → Node → List Node → Prop
  | empty {d} : Filled h d (h.standIn d) []
  | element {n} : Filled h 0 n [n]
  | pair {d serial l r xs} : xs ≠ [] → Filled h d l (xs.take (2 ^ d)) →
      Filled h d r (xs.drop (2 ^ d)) → Filled h (d + 1) (.pair serial l r) xs

/-- Two trees of depth `d` of one shape, with the very same node at each bottom place and the very same
stand-ins. -/
inductive Coincide (h : Hasher) : (d : Nat) → Node → Node → Prop
  | standIn {d} : Coincide h d (h.standIn d) (h.standIn d)
  | bottom {n} : Coincide h 0 n n
  | pair {d serial serial' l l' r r'} : Coincide h d l l' → Coincide h d r r' →
      Coincide h (d + 1) (.pair serial l r) (.pair serial' l' r')

/-- The tree of depth `d` over some nodes as it was built after `s`: above the nodes there are stand-ins,
and pairs that `u` has and `s` had not. -/
inductive Built (h : Hasher) (s u : Store) : (d : Nat) → Node → List Node → Prop
  | empty {d} : Built h s u d (h.standIn d) []
  | element {n} : Built h s u 0 n [n]
  | pair {d serial l r xs} : xs ≠ [] → s.made[serial]? = none →
      u.made[serial]? = some (.pair serial l r) → Built h s u d l (xs.take (2 ^ d)) →
      Built h s u d r (xs.drop (2 ^ d)) → Built h s u (d + 1) (.pair serial l r) xs

variable {h : Hasher} {s : Store} {d : Nat} {m n n' x : Node} {xs : List Node}

/-- Where something comes behind the left half, the left half is full. -/
theorem drop_eq_nil_or_length_take {α : Type} (xs : List α) (n : Nat) :
    xs.drop n = [] ∨ (xs.take n).length = n := by
  rcases Nat.le_total xs.length n with hle | hle
  · exact .inl (List.drop_of_length_le hle)
  · exact .inr (List.length_take_of_le hle)

namespace Filled

theorem row (hn : Filled h d n xs) : Row h d n xs := by
  induction hn with
  | empty => exact .zero
  | element => exact .element
  | @pair d serial l r xs _ _ _ ihl ihr =>
    have joined : Row h (d + 1) (.pair serial l r) (xs.take (2 ^ d) ++ xs.drop (2 ^ d)) :=
      .pair ihl ihr (drop_eq_nil_or_length_take xs _)
    rwa [List.take_append_drop] at joined

theorem coincide (hm : Filled h d m xs) (hn : Filled h d n xs) : Coincide h d m n := by
  induction hm generalizing n with
  | empty =>
    cases hn with
    | empty => exact .standIn
    | pair hne => exact absurd rfl hne
  | element =>
    cases hn with
    | element => exact .bottom
  | pair hne _ _ ihl ihr =>
    cases hn with
    | empty => exact absurd rfl hne
    | pair _ hl hr => exact .pair (ihl hl) (ihr hr)

/-- A position behind the last node lies in a stand-in of the zero tree that is left there. -/
theorem follow_past (target : Gindex) {p : Nat} (hn : Filled h d n xs) (hle : xs.length ≤ p)
    (hp : p < 2 ^ d) : ∃ upper lower, Gindex.digits d p = upper ++ lower ∧
      n.follow target upper = .ok (h.standIn lower.length) := by
  induction hn generalizing p with
  | @empty d => exact ⟨[], Gindex.digits d p, rfl, by rw [Gindex.length_digits]; rfl⟩
  | element => exact absurd hp (Nat.not_lt.2 hle)
  | @pair d serial l r xs _ _ _ ihl ihr =>
    rcases Nat.lt_or_ge p (2 ^ d) with hlt | hge
    · obtain ⟨upper, lower, hpath, hf⟩ := ihl ((List.length_take_le' ..).trans hle) hlt
      refine ⟨false :: upper, lower, ?_, hf⟩
      rw [Gindex.digits_of_lt hlt, hpath, List.cons_append]
    · rw [pow_succ] at hp
      obtain ⟨upper, lower, hpath, hf⟩ := ihr (p := p - 2 ^ d) (by rw [List.length_drop]; omega) (by omega)
      refine ⟨true :: upper, lower, ?_, hf⟩
      rw [Gindex.digits_of_le hge (by rw [pow_succ]; omega), hpath, List.cons_append]

/-- A node put in behind the last one fills the tree further. -/
theorem append (hn : Filled h d n xs) (room : xs.length < 2 ^ d)
    (hg : Grafted h (Gindex.digits d xs.length) n x n') : Filled h d n' (xs ++ [x]) := by
  induction d generalizing n xs n' with
  | zero =>
    obtain rfl : xs = [] := List.length_eq_zero_iff.1 (by simpa using room)
    cases hg
    exact .element
  | succ d ih =>
    have pos : 0 < 2 ^ d := by positivity
    cases hn with
    | empty =>
      -- the stand-in is spelled out on the way, and its right half is left as it is
      rw [List.length_nil, Gindex.digits_of_lt pos] at hg
      obtain ⟨serial, hside⟩ := hg.of_leaf
      rw [Gindex.length_digits] at hside
      cases hside with
      | left hside =>
        have grown := ih .empty pos hside
        have short : ([] ++ [x]).length ≤ 2 ^ d := pos
        refine .pair (by simp) ?_ ?_
        · rwa [List.take_of_length_le short]
        · rw [List.drop_of_length_le short]
          exact .empty
    | @pair _ serial l r _ hne hl hr =>
      rcases Nat.lt_or_ge xs.length (2 ^ d) with hlt | hge
      · rw [Gindex.digits_of_lt hlt] at hg
        rw [List.take_of_length_le hlt.le] at hl
        rw [List.drop_of_length_le hlt.le] at hr
        have short : (xs ++ [x]).length ≤ 2 ^ d := by simpa using hlt
        cases hg with
        | left hg =>
          have grown := ih hl hlt hg
          refine .pair (by simp) ?_ ?_
          · rwa [List.take_of_length_le short]
          · rwa [List.drop_of_length_le short]
      · rw [Gindex.digits_of_le hge room] at hg
        rw [pow_succ] at room
        have rest : (xs.drop (2 ^ d)).length = xs.length - 2 ^ d := List.length_drop
        cases hg with
        | right hg =>
          have grown := ih hr (by omega) (rest ▸ hg)
          refine .pair (by simp) ?_ ?_
          · rwa [List.take_append_of_le_length hge]
          · rwa [List.drop_append_of_le_length hge]

end Filled

/-! ## Trees just built -/

namespace Built

variable {t u v : Store} {l r : Node}

theorem filled (hn : Built h s u d n xs) : Filled h d n xs := by
  induction hn with
  | empty => exact .empty
  | element => exact .element
  | pair hne _ _ _ _ ihl ihr => exact .pair hne ihl ihr

theorem mono (st : s.Builds t) (uv : u.Builds v) (hn : Built h t u d n xs) : Built h s v d n xs := by
  induction hn with
  | empty => exact .empty
  | element => exact .element
  | pair hne hnew hmade _ _ ihl ihr => exact .pair hne (st.not_made hnew) (uv.made hmade) ihl ihr

/-- The next pair that is made goes on top. -/
theorem newPair (su : s.Builds u) (hne : xs ≠ []) (hl : Built h s u d l (xs.take (2 ^ d)))
    (hr : Built h s u d r (xs.drop (2 ^ d))) :
    Built h s { u with made := u.made.push (.pair u.made.size l r) } (d + 1) (.pair u.made.size l r) xs := by
  have push := Store.Builds.push u (.pair u.made.size l r)
  have new : s.made[u.made.size]? = none := su.not_made (Array.getElem?_eq_none_iff.2 le_rfl)
  exact .pair hne new Array.getElem?_push_size (hl.mono (.refl s) push) (hr.mono (.refl s) push)

/-- No root is kept for the new pairs yet. -/
theorem clean (hs : s.Tidy) (su : s.Builds u) (hx : ∀ x ∈ xs, x.Clean h u) (hn : Built h s u d n xs) :
    n.Clean h u := by
  induction hn with
  | empty => exact clean_leaf _ _
  | element => exact hx _ (List.mem_singleton_self _)
  | pair _ hnew hmade _ _ ihl ihr =>
    refine ⟨hmade, fun c hc => ?_, ?_, ?_⟩
    · rw [su.roots, hs.root_none hnew] at hc
      cases hc
    · exact ihl fun x hxs => hx x (List.mem_of_mem_take hxs)
    · exact ihr fun x hxs => hx x (List.mem_of_mem_drop hxs)

end Built

/-! ## Building -/

/-- From any store on, the work builds the tree over some nodes and does nothing else. -/
def Raises (h : Hasher) (x : TreeM Node) (d : Nat) (xs : List Node) : Prop :=
  ∀ s, Store.building.Succeeds s x fun n u => Built h s u d n xs

namespace Raises

variable {x y : TreeM Node}

theorem exists_run (hx : Raises h x d xs) (s : Store) :
    ∃ n u, x.run.run s = (.ok n, u) ∧ s.Builds u ∧ Built h s u d n xs := (hx s).exists_run trivial

theorem element (n : Node) : Raises h (pure n) 0 [n] := fun _ => .pure .element

theorem zeroLeaf (h64 : d ≤ 64) : Raises h (liftM (h.zeroLeaf d)) d [] := by
  rw [Hasher.zeroLeaf_eq h64]
  exact fun _ => .pure .empty

/-- The pair that is made last goes on top. -/
theorem top (su : s.Builds u) (hne : xs ≠ []) {l r : Node} (hl : Built h s u d l (xs.take (2 ^ d)))
    (hr : Built h s u d r (xs.drop (2 ^ d))) :
    Store.building.Succeeds u (liftM (newPair l r)) fun n v => Built h s v (d + 1) n xs :=
  .lift fun _ => ⟨_, _, rfl, .push u _, trivial, .newPair su hne hl hr⟩

theorem pair (hne : xs ≠ []) (hx : Raises h x d (xs.take (2 ^ d))) (hy : Raises h y d (xs.drop (2 ^ d))) :
    Raises h (do
      let l ← x
      let r ← y
      newPair l r) (d + 1) xs := by
  intro s
  refine (hx s).bind fun l u su builtl => (hy u).bind fun r v uv builtr => ?_
  exact top (su.trans uv) hne (builtl.mono (.refl s) uv) (builtr.mono su (.refl v))

/-- Nodes that fit into the left half leave a stand-in for the right one. -/
theorem half (h64 : d ≤ 64) (hne : xs ≠ []) (short : xs.length ≤ 2 ^ d) (hx : Raises h x d xs) :
    Raises h (do
      let l ← x
      let r ← h.zeroLeaf d
      newPair l r) (d + 1) xs := by
  refine pair hne ?_ ?_
  · rwa [List.take_of_length_le short]
  · rw [List.drop_of_length_le short]
    exact zeroLeaf h64

/-- One pair for each level is enough for a tree of the same node everywhere. -/
theorem replicate (n : Node) (d : Nat) :
    Raises h (liftM (Node.replicate n d)) d (List.replicate (2 ^ d) n) := by
  induction d with
  | zero => exact element n
  | succ d ih =>
    intro s
    rw [Node.replicate, liftM_bind]
    refine (ih s).bind fun m u su built => top su (by simp) ?_ ?_
    · rwa [List.take_replicate, Nat.min_eq_left (Nat.pow_le_pow_right Nat.two_pos d.le_succ)]
    · rwa [List.drop_replicate, pow_succ, Nat.mul_two, Nat.add_sub_cancel]

end Raises

theorem checkRoom_eq {length : Nat} (room : length ≤ 2 ^ d) : checkRoom length d = .ok () := by
  unfold checkRoom places?
  by_cases hd : d < 64
  · simp only [hd, if_true, Word.pow2_eq]
    exact if_neg (Nat.not_lt.2 room)
  · simp only [hd, if_false]

theorem places?_eq (hd : d < 64) : places? d = some (2 ^ d) := if_pos hd

theorem checkRoom_eq_error {length : Nat} (hd : d < 64) (full : 2 ^ d < length) :
    checkRoom length d = .error (.overCapacity length (2 ^ d)) := by
  rw [checkRoom, places?_eq hd]
  exact if_pos full

theorem pivot_eq (hd : d < 64) : pivot d = .ok (2 ^ d) := by
  rw [pivot, places?_eq hd]

/-- The tree over a list of nodes has them at its first places. -/
theorem ofList_raises (h64 : d ≤ 64) (hne : xs ≠ []) (room : xs.length ≤ 2 ^ d) :
    Raises h (ofList h d xs) d xs := by
  induction d generalizing xs with
  | zero =>
    match xs, hne with
    | [x], _ =>
      rw [ofList, checkRoom_eq room, liftM_ok, pure_bind]
      exact .element x
    | _ :: _ :: _, _ => simp at room
  | succ d ih =>
    obtain ⟨x, rest, rfl⟩ := List.exists_cons_of_ne_nil hne
    rw [ofList, checkRoom_eq room, pivot_eq (by omega)]
    simp only [liftM_ok, pure_bind]
    rcases Nat.lt_or_ge (2 ^ d) (x :: rest).length with hlt | hge
    · rw [if_neg (Nat.not_le.2 hlt)]
      rw [pow_succ] at room
      have right : (x :: rest).drop (2 ^ d) ≠ [] := by
        rw [ne_eq, List.drop_eq_nil_iff]
        omega
      refine .pair hne (ih (by omega) (by simp) (List.length_take_le ..)) (ih (by omega) right ?_)
      rw [List.length_drop]
      omega
    · rw [if_pos hge]
      exact .half (by omega) hne hge (ih (by omega) hne hge)

theorem eq_of_places? {m : Nat} (e : places? d = some m) : m = 2 ^ d := by
  unfold places? at e
  split at e
  · exact (Option.some.inj e).symm
  · cases e

/-- The tree over one node that comes some number of times has it at as many places. At depth 64 the
places have no number, but those of its halves have. -/
theorem replicatePad_raises_of_le : ∀ {d m : Nat}, d ≤ 64 → m ≤ 2 ^ d →
    Raises h (replicatePad h n d m) d (List.replicate m n)
  | d, m, h64, room => by
    rw [replicatePad.eq_def]
    simp only [checkRoom_eq room, liftM_ok, pure_bind]
    -- a full tree and an empty one are made at once, any other is made of its halves
    split
    · rename_i full
      rw [eq_of_places? full]
      exact .replicate n d
    split
    · rename_i nothing
      rw [nothing]
      exact .zeroLeaf h64
    cases d with
    | zero =>
      rename_i partly
      rw [places?_eq (by decide), Option.some.injEq] at partly
      omega
    | succ d =>
      have hne : List.replicate m n ≠ [] := by simpa
      simp only [pivot_eq (show d < 64 by omega), liftM_ok, pure_bind]
      split
      · rename_i short
        exact .half (by omega) hne (by rwa [List.length_replicate])
          (replicatePad_raises_of_le (by omega) short)
      · rw [pow_succ] at room
        refine .pair hne ?_ ?_
        · rw [List.take_replicate, Nat.min_eq_left (by omega)]
          exact .replicate n d
        · rw [List.drop_replicate]
          exact replicatePad_raises_of_le (by omega) (by omega)

theorem replicatePad_raises {m : Nat} (h63 : d ≤ 63) (room : m ≤ 2 ^ d) :
    Raises h (replicatePad h n d m) d (List.replicate m n) :=
  replicatePad_raises_of_le (by omega) room

theorem ofList_refused (h63 : d ≤ 63) (full : 2 ^ d < xs.length) :
    ofList h d xs = throw (.overCapacity xs.length (2 ^ d)) := by
  obtain ⟨x, rest, rfl⟩ := List.exists_cons_of_length_pos (Nat.zero_lt_of_lt full)
  cases d with
  | zero => rw [ofList, checkRoom_eq_error (by omega) full, liftM_error, throw_bind_eq]
  | succ d => rw [ofList, checkRoom_eq_error (by omega) full, liftM_error, throw_bind_eq]

theorem replicatePad_refused {m : Nat} (h63 : d ≤ 63) (full : 2 ^ d < m) :
    replicatePad h n d m = throw (.overCapacity m (2 ^ d)) := by
  rw [replicatePad.eq_def]
  simp only [checkRoom_eq_error (show d < 64 by omega) full, liftM_error]
  exact throw_bind_eq _ _

/-- The tree over a list of nodes is filled with them. -/
theorem ofList_succeeds (h64 : d ≤ 64) (hs : s.Tidy) (hne : xs ≠ []) (room : xs.length ≤ 2 ^ d)
    (hx : ∀ x ∈ xs, x.Clean h s) :
    Succeeds h s (ofList h d xs) fun n t => n.Clean h t ∧ Filled h d n xs := by
  obtain ⟨n, u, hrun, su, built⟩ := (ofList_raises h64 hne room).exists_run s
  have later := su.later h
  have hx : ∀ x ∈ xs, x.Clean h u := fun x hxs => (hx x hxs).later later
  exact fun _ => ⟨.ok n, u, hrun, later, trivial, n, rfl, built.clean hs su hx, built.filled⟩

end SszMerkle.Node
