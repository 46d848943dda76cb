/-
A list is all in its tree: taken up again from the tree and the limit it is the list it was. And what
is in the tree does not depend on how it got there: over the same nodes, the tree that is filled at
once and the tree that grew by appending coincide, and the lists in them give the same answers to
whatever is asked of them later.
-/
import SszMerkle.Proofs.Filled
import SszMerkle.Proofs.Lists
import SszMerkle.Proofs.Packing

namespace SszMerkle

namespace MerkleList

/-- Asked the same from a store on, the two lists give the same answers, whatever else happens to the
store meanwhile. -/
def AnswersAs (h : Hasher) (s : Store) (l l' : MerkleList) : Prop :=
  ∀ {c c' : Lists} {history history' : List (ListRequest × ListAnswer)},
    Lists.Continues h ⟨s, [l]⟩ c history → Lists.Continues h ⟨s, [l']⟩ c' history' →
      history.map Prod.fst = history'.map Prod.fst → history.map Prod.snd = history'.map Prod.snd

/-- The list over a tree that is filled at once. -/
def filled (h : Hasher) (limit : Nat) (xs : List Node) : TreeM MerkleList := do
  let content ← Node.ofList h (Word.depthFor limit) xs
  let chunk ← Node.newLeaf (Chunk.ofLength xs.length)
  let backing ← Node.newPair content chunk
  ofBacking h backing limit

/-- The list that grew from an empty one, node by node. -/
def grown (h : Hasher) (limit : Nat) (xs : List Node) : TreeM MerkleList := do
  let l ← empty h limit
  xs.foldlM append l

variable {h : Hasher} {s : Store} {l l' : MerkleList} {limit : Nat} {xs ys : List Node}

/-- Lists that hold the same vector give the same answers. -/
theorem Holds.answersAs (hs : s.Tidy) (hl : l.Holds h s limit xs) (hl' : l'.Holds h s limit xs) :
    l.AnswersAs h s l' := by
  have mirrors : ∀ {l : MerkleList}, l.Holds h s limit xs →
      Lists.Mirrors h ⟨s, [l]⟩ [⟨limit, xs⟩] := fun hl => ⟨hs, .cons hl .nil⟩
  intro c c' history history' run run' same
  obtain ⟨vs, hreplay, -⟩ := run.mirrors (mirrors hl)
  obtain ⟨vs', hreplay', -⟩ := run'.mirrors (mirrors hl')
  rw [same, hreplay'] at hreplay
  exact (congrArg Prod.fst hreplay).symm

theorem ofBacking_pair (serial : Nat) (content : Node) (i : Ident) (c : Root) :
    ofBacking h (.pair serial content (.leaf i c)) limit =
      if limit < Chunk.lengthOf c then .error (.overCapacity (Chunk.lengthOf c) limit)
      else .ok ⟨h, ⟨.pair serial content (.leaf i c), Word.depthFor limit + 1⟩, limit,
        Chunk.lengthOf c⟩ :=
  rfl

/-- The tree and the limit are all there is to a list. -/
theorem ofBacking_eq {serial : Nat} {content : Node} {i : Ident} {n : Nat} (hle : limit ≤ 2 ^ 62)
    (room : n ≤ limit) :
    ofBacking h (.pair serial content (.leaf i (Chunk.ofLength n))) limit =
      .ok ⟨h, ⟨.pair serial content (.leaf i (Chunk.ofLength n)), Word.depthFor limit + 1⟩, limit, n⟩ := by
  have hread : Chunk.lengthOf (Chunk.ofLength n) = n :=
    Chunk.lengthOf_ofLength (by rw [Word.bound_eq]; omega)
  rw [ofBacking_pair, hread, if_neg (Nat.not_lt.2 room)]

theorem Holds.ofBacking_backing (hl : l.Holds h s limit xs) : ofBacking h l.backing l.limit = .ok l := by
  obtain ⟨serial, content, i, hback, -⟩ := hl.body
  obtain ⟨hasher, ⟨backing, depth⟩, limit', length⟩ := l
  obtain rfl : hasher = h := hl.hasher_eq
  obtain rfl : limit' = limit := hl.limit_eq
  obtain rfl : length = xs.length := hl.length_eq
  obtain rfl : depth = Word.depthFor limit' + 1 := hl.depth_eq
  obtain rfl : backing = .pair serial content (.leaf i (Chunk.ofLength xs.length)) := hback
  exact ofBacking_eq hl.le hl.room

/-! ## Two ways to the same tree -/

/-- A list whose content is filled with the vector it holds. -/
structure Fills (h : Hasher) (s : Store) (l : MerkleList) (limit : Nat) (xs : List Node) : Prop where
  holds : l.Holds h s limit xs
  filled : l.content.Filled h (Word.depthFor limit) xs

theorem filled_succeeds (hs : s.Tidy) (hle : limit ≤ 2 ^ 62) (hne : xs ≠ []) (room : xs.length ≤ limit)
    (hx : ∀ x ∈ xs, x.Clean h s) :
    Succeeds h s (filled h limit xs) fun l t => l.Fills h t limit xs := by
  have hd : Word.depthFor limit ≤ 62 := Word.depthFor_le_iff.2 hle
  have fits : xs.length ≤ 2 ^ Word.depthFor limit := room.trans (Word.le_two_pow_depthFor limit)
  rw [filled]
  refine (Node.ofList_succeeds (by omega) hs hne fits hx).bind ?_
  rintro content t st ⟨hc, hf⟩
  refine (Regime.Succeeds.lift (Node.newLeaf_gives _)).bind ?_
  rintro _ u tu ⟨i, rfl⟩
  refine (Regime.Succeeds.lift (Node.newPair_gives ((hs.later st).later tu) (hc.later tu)
    (Node.clean_leaf _ _))).bind ?_
  rintro _ v uv ⟨hb, serial, rfl⟩
  rw [ofBacking_eq hle room, liftM_ok]
  exact Regime.Succeeds.pure ⟨⟨rfl, rfl, rfl, rfl, hle, room, ⟨_, content, i, rfl, hf.row⟩, hb⟩, hf⟩

/-- Each append fills the tree further. -/
theorem Fills.append_succeeds (hl : l.Fills h s limit xs) (hs : s.Tidy) {n : Node}
    (room : xs.length < limit) (hn : n.Clean h s) :
    Succeeds h s (l.append n) fun l' t => l'.Fills h t limit (xs ++ [n]) :=
  (hl.holds.append_grafts hs room hn).mono fun _ _ _ ⟨hl', hg⟩ =>
    ⟨hl', hl.filled.append (lt_two_pow_of_lt room) hg⟩

theorem Fills.appends_succeed (hl : l.Fills h s limit xs) (hs : s.Tidy)
    (room : xs.length + ys.length ≤ limit) (hy : ∀ y ∈ ys, y.Clean h s) :
    Succeeds h s (ys.foldlM append l) fun l' t => l'.Fills h t limit (xs ++ ys) := by
  induction ys generalizing l s xs with
  | nil =>
    rw [List.append_nil]
    exact .pure hl
  | cons y ys ih =>
    rw [List.length_cons] at room
    rw [List.foldlM_cons]
    refine (hl.append_succeeds hs (by omega) (hy y (by simp))).bind fun l' t st hl' => ?_
    have rest := ih hl' (hs.later st) (by simp; omega) fun y' hy' => (hy y' (by simp [hy'])).later st
    rwa [List.append_assoc, List.singleton_append] at rest

theorem grown_succeeds (hs : s.Tidy) (hle : limit ≤ 2 ^ 62) (room : xs.length ≤ limit)
    (hx : ∀ x ∈ xs, x.Clean h s) :
    Succeeds h s (grown h limit xs) fun l t => l.Fills h t limit xs :=
  (empty_succeeds hs hle).bind fun l t st ⟨hl, hcontent⟩ =>
    have start : l.Fills h t limit [] := ⟨hl, hcontent ▸ .empty⟩
    start.appends_succeed (hs.later st) (by simpa using room) fun x hxs => (hx x hxs).later st

end MerkleList

namespace Lists

variable {h : Hasher} {c : Lists}

/-- Every list that a run leads to is all in its tree and its limit: taken up again from them it is the
list it was, and answers as that would. A list over a tree that is filled at once with some nodes
answers as the list to which they are appended one by one does, its tree has the same shape, and
in both trees the very same nodes are in the places of the elements and the very same stand-ins beside
them. -/
theorem Run.reopens {history : List (ListRequest × ListAnswer)} (run : Run h c history) :
    (∀ l ∈ c.lists, MerkleList.ofBacking h l.backing l.limit = .ok l ∧ l.AnswersAs h c.store l) ∧
    ∀ {limit : Nat} {xs : List Node}, limit ≤ 2 ^ 62 → xs ≠ [] → xs.length ≤ limit →
      (∀ x ∈ xs, x.Clean h c.store) →
      Succeeds h c.store (MerkleList.filled h limit xs) fun l t =>
        Succeeds h t (MerkleList.grown h limit xs) fun l' u =>
          l.AnswersAs h u l' ∧ l.content.Coincide h (Word.depthFor limit) l'.content ∧
          ∀ i, (hi : i < xs.length) → l.get i = .ok xs[i] ∧ l'.get i = .ok xs[i] := by
  obtain ⟨vs, -, hc⟩ := run.mirrors
  constructor
  · intro l hl
    obtain ⟨i, hi, rfl⟩ := List.mem_iff_getElem.1 hl
    have hi' : i < vs.length := by rw [← hc.holds.length_eq]; exact hi
    have holds := (List.forall₂_iff_get.1 hc.holds).2 i hi hi'
    exact ⟨holds.ofBacking_backing, holds.answersAs hc.tidy holds⟩
  · intro limit xs hle hne room hx
    refine (MerkleList.filled_succeeds hc.tidy hle hne room hx).mono fun l t st hl => ?_
    have ht := hc.tidy.later st
    refine (MerkleList.grown_succeeds ht hle room fun x hxs => (hx x hxs).later st).mono
      fun l' u tu hl' => ?_
    have holds := hl.holds.later tu
    refine ⟨holds.answersAs (ht.later tu) hl'.holds, hl.filled.coincide hl'.filled, fun i hi => ?_⟩
    rw [holds.get_eq, hl'.holds.get_eq, List.getElem?_eq_getElem hi]
    exact ⟨rfl, rfl⟩

/-- A list that was full and lost its last element again is taken up from its tree, and so it is with
three elements that are filled in at once or appended. -/
theorem reopens_after_pop : ∃ (c : Lists) (history : List (ListRequest × ListAnswer)) (l : MerkleList),
    Run .sha256 c history ∧
      history.map Prod.fst = [.create 3, .append 0 (Hasher.sha256.standIn 0),
        .append 0 (Hasher.sha256.standIn 1), .append 0 (Hasher.sha256.standIn 2), .pop 0] ∧
      c.lists = [l] ∧ l.length = 2 ∧ MerkleList.ofBacking .sha256 l.backing l.limit = .ok l ∧
      Succeeds .sha256 c.store
        (MerkleList.filled .sha256 3 [Hasher.sha256.standIn 2, Hasher.sha256.standIn 1]) fun l t =>
          Succeeds .sha256 t
            (MerkleList.grown .sha256 3 [Hasher.sha256.standIn 2, Hasher.sha256.standIn 1]) fun l' _ =>
              l.get 1 = .ok (Hasher.sha256.standIn 1) ∧ l'.get 1 = .ok (Hasher.sha256.standIn 1) := by
  have created := (Run.start (h := .sha256)).request (.create 3) (show 3 ≤ 2 ^ 62 by decide)
  have full := ((created.request (.append 0 (Hasher.sha256.standIn 0)) trivial).request
    (.append 0 (Hasher.sha256.standIn 1)) trivial).request (.append 0 (Hasher.sha256.standIn 2)) trivial
  have run := full.request (.pop 0) trivial
  obtain ⟨vs, hreplay, hc⟩ := run.mirrors
  obtain rfl : vs = [⟨3, [Hasher.sha256.standIn 0, Hasher.sha256.standIn 1]⟩] :=
    (congrArg Prod.snd hreplay).symm
  obtain ⟨l, lists, hl, hnil, hlists⟩ := List.forall₂_cons_right_iff.1 hc.holds
  cases hnil
  obtain ⟨same, build⟩ := run.reopens
  refine ⟨_, _, l, run, rfl, hlists, hl.length_eq, (same l (by simp [hlists])).1, ?_⟩
  have clean : ∀ s, ∀ x ∈ [Hasher.sha256.standIn 2, Hasher.sha256.standIn 1], x.Clean .sha256 s := by
    simp [Hasher.standIn, Node.Clean]
  refine (build (show 3 ≤ 2 ^ 62 by decide) (by simp) (by decide) (clean _)).mono fun l t _ hl => ?_
  exact hl.mono fun l' u _ ⟨_, _, get⟩ => get 1 (by decide)

end Lists

end SszMerkle
