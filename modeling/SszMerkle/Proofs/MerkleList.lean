/-
A list that lives in a tree holds a vector of nodes: its content is the row of the vector at the depth
of the limit, whatever zero trees were spelled out on the way, and beside it lies the chunk of the
length. Each operation does to the vector what its name says, or is refused.
-/
import SszMerkle.MerkleList
import SszMerkle.Proofs.Row
import SszMerkle.Proofs.Provable

namespace SszMerkle.MerkleList

variable {h : Hasher} {s : Store} {l : MerkleList} {limit len d p : Nat} {b b' m : Node} {xs zs : List Node}

/-! ## The tree of a list -/

/-- A row of depth `d` on the left, the chunk of a length on the right. -/
def Body (h : Hasher) (d len : Nat) (b : Node) (xs : List Node) : Prop :=
  ∃ serial content i, b = .pair serial content (.leaf i (Chunk.ofLength len)) ∧
    content.Row h d xs

theorem Body.follow {target : Gindex} (hb : Body h d len b xs) (hp : p < xs.length) :
    b.follow target (false :: Gindex.digits d p) = .ok xs[p] := by
  obtain ⟨serial, content, i, rfl, hrow⟩ := hb
  exact hrow.follow hp

theorem Body.seek (hb : Body h d len b xs) (hp : p < 2 ^ d) :
    ∃ c, (Tree.ofNode b).seek h (false :: Gindex.digits d p) = .ok c := by
  obtain ⟨serial, content, i, rfl, hrow⟩ := hb
  exact hrow.seek hp

/-- A graft into the content leaves the length as it is. -/
theorem Body.graft (hb : Body h d len b xs) (hp : p < 2 ^ d) (hle : p ≤ xs.length)
    (hm : m.Row h 0 zs) (hz : zs = [] → xs.length ≤ p + 1)
    (hg : Node.Grafted h (false :: Gindex.digits d p) b m b') :
    Body h d len b' (Node.Row.splice xs zs p) := by
  obtain ⟨serial, content, i, rfl, hrow⟩ := hb
  cases hg with
  | left hg => exact ⟨_, _, i, rfl, hrow.graft hp hle hm hz hg⟩

/-- Writing a length leaves the content as it is. -/
theorem withLength_gives {serial : Nat} {content : Node} {i : Ident} {c : Root} (hs : s.Tidy)
    (hc : (Node.pair serial content (.leaf i c)).Clean h s) (n : Nat) :
    Succeeds h s (withLength (.pair serial content (.leaf i c)) n) fun b t =>
      b.Clean h t ∧ ∃ serial' j, b = .pair serial' content (.leaf j (Chunk.ofLength n)) := by
  have hget : (Node.pair serial content (.leaf i c)).get lengthGindex = .ok (.leaf i c) := rfl
  obtain ⟨graft, hgraft, hmakes⟩ := Node.graftAt_of_get (h := h) hget
  rw [withLength, hgraft, liftM_ok, pure_bind]
  refine (Regime.Succeeds.lift (Node.newLeaf_gives _)).bind ?_
  rintro _ t st ⟨j, rfl⟩
  refine (Regime.Succeeds.lift (hmakes (hs.later st) (hc.later st) (Node.clean_leaf _ _))).mono ?_
  rintro m u tu ⟨hm, hg⟩
  refine ⟨hm, ?_⟩
  cases hg with
  | right hg =>
    cases hg
    exact ⟨_, j, rfl⟩

theorem withLength_ends (hs : s.Tidy) (hb : Body h d len b xs) (hc : b.Clean h s) (n : Nat) :
    Succeeds h s (withLength b n) fun b' t => b'.Clean h t ∧ Body h d n b' xs := by
  obtain ⟨serial, content, i, rfl, hrow⟩ := hb
  refine (withLength_gives hs hc n).mono ?_
  rintro _ _ _ ⟨hb, serial', j, rfl⟩
  exact ⟨hb, _, content, j, rfl, hrow⟩

/-- The tree of the elements, beside the chunk of their number. -/
def content (l : MerkleList) : Node :=
  match l.backing with
  | .pair _ content _ => content
  | n => n

/-! ## The vector of a list -/

/-- The list holds the vector under its limit. -/
structure Holds (h : Hasher) (s : Store) (l : MerkleList) (limit : Nat) (xs : List Node) : Prop where
  hasher_eq : l.hasher = h
  limit_eq : l.limit = limit
  length_eq : l.length = xs.length
  depth_eq : l.view.depth = Word.depthFor limit + 1
  le : limit ≤ 2 ^ 62
  room : xs.length ≤ limit
  body : Body h (Word.depthFor limit) xs.length l.view.backing xs
  clean : l.view.backing.Clean h s

theorem Holds.later {t : Store} (hl : l.Holds h s limit xs) (st : s.Later h t) : l.Holds h t limit xs :=
  { hl with clean := hl.clean.later st }

/-- The content of a list lies under gindex 2. -/
theorem gindex_of_position (hl : limit ≤ 2 ^ 62) (hp : p < 2 ^ Word.depthFor limit) :
    ∃ g, Gindex.ofPosition p (Word.depthFor limit + 1) = .ok g ∧
      g.path = false :: Gindex.digits (Word.depthFor limit) p := by
  have hd : Word.depthFor limit ≤ 62 := Word.depthFor_le_iff.2 hl
  obtain ⟨g, hg, hpath⟩ := Gindex.ofPosition_path (show Word.depthFor limit + 1 < 64 by omega)
    (show p < 2 ^ (Word.depthFor limit + 1) by rw [pow_succ]; omega)
  exact ⟨g, hg, by rw [hpath, Gindex.digits_of_lt hp]⟩

theorem lt_two_pow_of_lt (hp : p < limit) : p < 2 ^ Word.depthFor limit :=
  lt_of_lt_of_le hp (Word.le_two_pow_depthFor limit)

theorem empty_succeeds (hs : s.Tidy) (hl : limit ≤ 2 ^ 62) :
    Succeeds h s (empty h limit) fun l t =>
      l.Holds h t limit [] ∧ l.content = h.standIn (Word.depthFor limit) := by
  have hd : Word.depthFor limit ≤ 62 := Word.depthFor_le_iff.2 hl
  rw [empty, Hasher.zeroLeaf_eq (by omega), Hasher.zeroLeaf_eq (by omega)]
  simp only [liftM_ok, pure_bind]
  refine (Regime.Succeeds.lift (Node.newPair_gives hs (Node.clean_leaf _ _) (Node.clean_leaf _ _))).bind ?_
  rintro _ t _ ⟨hn, serial, rfl⟩
  exact Regime.Succeeds.pure ⟨⟨rfl, rfl, rfl, rfl, hl, Nat.zero_le _, ⟨serial, _, _, rfl, .zero⟩, hn⟩, rfl⟩

section Operations

variable (hl : l.Holds h s limit xs)
include hl

theorem Holds.checkIndex_eq (i : Nat) :
    l.checkIndex i = if i < xs.length then .ok () else .error (.outOfBounds i xs.length) := by
  rw [checkIndex, hl.length_eq]
  split <;> split <;> first | rfl | omega

theorem Holds.get_eq (i : Nat) :
    l.get i = match xs[i]? with
      | some x => .ok x
      | none => .error (.outOfBounds i xs.length) := by
  rw [MerkleList.get, hl.checkIndex_eq]
  rcases Nat.lt_or_ge i xs.length with hi | hi
  · obtain ⟨g, hg, hpath⟩ := gindex_of_position hl.le (lt_two_pow_of_lt (hi.trans_le hl.room))
    rw [if_pos hi, List.getElem?_eq_getElem hi]
    show l.view.get i = _
    rw [LevelView.get, hl.depth_eq, hg]
    show l.view.backing.follow g g.path = _
    rw [hpath]
    exact hl.body.follow hi
  · rw [if_neg (by omega), List.getElem?_eq_none hi]
    rfl

theorem Holds.set_succeeds (hs : s.Tidy) {i : Nat} {n : Node} (hi : i < xs.length) (hn : n.Clean h s) :
    Succeeds h s (l.set i n) fun l' t => l'.Holds h t limit (xs.set i n) := by
  have hp := lt_two_pow_of_lt (hi.trans_le hl.room)
  obtain ⟨g, hg, hpath⟩ := gindex_of_position hl.le hp
  have hget : l.view.backing.get g = .ok xs[i] := by
    rw [Node.get, hpath]
    exact hl.body.follow hi
  obtain ⟨graft, hgraft, hmakes⟩ := Node.graftAt_of_get (h := h) hget
  simp only [MerkleList.set, LevelView.set, hl.checkIndex_eq, hi, if_true, hl.depth_eq, hg, hgraft,
    liftM_ok, pure_bind, bind_assoc]
  refine (Regime.Succeeds.lift (hmakes hs hl.clean hn)).bind ?_
  rintro b t st ⟨hb, hgrafted⟩
  rw [hpath] at hgrafted
  -- the element there gives way to the new one, the length stays
  have hbody := hl.body.graft hp hi.le .element nofun hgrafted
  have hsplice : Node.Row.splice xs [n] i = xs.set i n := by
    rw [Node.Row.splice, List.set_eq_take_append_cons_drop, if_pos hi, List.append_assoc]
    rfl
  rw [hsplice] at hbody
  have hlen : (xs.set i n).length = xs.length := List.length_set
  rw [← hlen] at hbody
  exact Regime.Succeeds.pure ⟨hl.hasher_eq, hl.limit_eq, hl.length_eq.trans hlen.symm, rfl, hl.le,
    hlen.le.trans hl.room, hbody, hb⟩

theorem Holds.set_answers {i : Nat} (hi : xs.length ≤ i) (n : Node) :
    Answers h s (l.set i n) (.error (.outOfBounds i xs.length)) := by
  simp only [MerkleList.set, hl.checkIndex_eq, Nat.not_lt.2 hi, if_false]
  exact .throw_bind rfl

/-- One more element is put into the content behind the last one. -/
theorem Holds.append_grafts (hs : s.Tidy) {n : Node} (hroom : xs.length < limit)
    (hn : n.Clean h s) :
    Succeeds h s (l.append n) fun l' t => l'.Holds h t limit (xs ++ [n]) ∧
      Node.Grafted h (Gindex.digits (Word.depthFor limit) xs.length) l.content n l'.content := by
  have hp := lt_two_pow_of_lt hroom
  obtain ⟨g, hg, hpath⟩ := gindex_of_position hl.le hp
  obtain ⟨c, hseek⟩ := hl.body.seek hp
  rw [← hpath] at hseek
  obtain ⟨graft, hgraft, hmakes⟩ := Node.graftInto_of_seek hseek
  obtain ⟨serial, content, i, hback, hrow⟩ := hl.body
  simp only [append, backing, hl.hasher_eq, hl.limit_eq, hl.depth_eq, hl.length_eq, Nat.not_le.2 hroom,
    if_false, hg, hgraft, liftM_ok, pure_bind]
  refine (Regime.Succeeds.lift (hmakes hs hl.clean hn)).bind ?_
  rintro b t st ⟨hb, hgrafted⟩
  rw [hpath, hback] at hgrafted
  cases hgrafted with
  | left hside =>
    -- the graft at the end of the row adds to it, through zero trees not spelled out so far
    have hrow' := hrow.graft hp le_rfl .element nofun hside
    have hsplice : Node.Row.splice xs [n] xs.length = xs ++ [n] := by simp [Node.Row.splice]
    rw [hsplice] at hrow'
    refine (withLength_gives (hs.later st) hb _).bind ?_
    rintro _ u _ ⟨hb', serial', j, rfl⟩
    have hlen : xs.length + 1 = (xs ++ [n]).length := by simp
    have hcontent : l.content = content := by rw [MerkleList.content, backing, hback]
    rw [hlen] at hb' ⊢
    refine Regime.Succeeds.pure ⟨⟨rfl, rfl, rfl, rfl, hl.le, hlen.ge.trans hroom, ?_, hb'⟩, hcontent ▸ hside⟩
    exact ⟨_, _, j, rfl, hrow'⟩

theorem Holds.append_succeeds (hs : s.Tidy) {n : Node} (hroom : xs.length < limit)
    (hn : n.Clean h s) :
    Succeeds h s (l.append n) fun l' t => l'.Holds h t limit (xs ++ [n]) :=
  (hl.append_grafts hs hroom hn).mono fun _ _ _ ⟨hl', _⟩ => hl'

theorem Holds.append_answers (hfull : limit ≤ xs.length) (n : Node) :
    Answers h s (l.append n) (.error (.overCapacity (xs.length + 1) limit)) := by
  have next : Word.next xs.length = .ok (xs.length + 1) := by
    have := hl.le
    have := hl.room
    exact Word.next_eq (by rw [Word.bound_eq]; omega)
  simp only [append, hl.limit_eq, hl.length_eq, hfull, if_true, next, liftM_ok, pure_bind]
  exact .throw_bind rfl

theorem Holds.pop_succeeds (hs : s.Tidy) {x : Node} (hx : xs.getLast? = some x) :
    Succeeds h s l.pop fun r t => r.1 = x ∧ r.2.Holds h t limit xs.dropLast := by
  obtain ⟨ys, rfl⟩ := List.getLast?_eq_some_iff.1 hx
  have hlen : (ys ++ [x]).length = ys.length + 1 := by simp
  have hroom : ys.length < limit := hlen.ge.trans hl.room
  have hp := lt_two_pow_of_lt hroom
  obtain ⟨g, hg, hpath⟩ := gindex_of_position hl.le hp
  have hget : l.view.backing.get g = .ok x := by
    rw [Node.get, hpath, hl.body.follow (show ys.length < (ys ++ [x]).length by omega)]
    simp
  obtain ⟨graft, hgraft, hmakes⟩ := Node.graftAt_of_get (h := h) hget
  simp only [pop, backing, hl.hasher_eq, hl.depth_eq, hl.length_eq, hlen, Nat.add_sub_cancel,
    Nat.add_eq_zero_iff, Nat.one_ne_zero, and_false, if_false, hg, hget, hgraft,
    Hasher.zeroLeaf_eq (Nat.zero_le 64), liftM_ok, pure_bind]
  refine (Regime.Succeeds.lift (hmakes hs hl.clean (Node.clean_leaf _ _))).bind ?_
  rintro b t st ⟨hb, hgrafted⟩
  rw [hpath] at hgrafted
  -- the zero leaf stays spelled out where the last element was, which the row does not see
  have hbody := hl.body.graft hp (by omega) .zero (fun _ => hlen.le) hgrafted
  have hsplice : Node.Row.splice (ys ++ [x]) [] ys.length = ys := by simp [Node.Row.splice]
  rw [hsplice] at hbody
  refine (withLength_ends (hs.later st) hbody hb _).bind ?_
  rintro b' u _ ⟨hb', hbody'⟩
  rw [List.dropLast_concat]
  exact Regime.Succeeds.pure ⟨rfl, rfl, hl.limit_eq, rfl, rfl, hl.le, hroom.le, hbody', hb'⟩

theorem Holds.pop_answers (hx : xs = []) : Answers h s l.pop (.error (.outOfBounds 0 0)) := by
  subst hx
  simp only [pop, hl.length_eq, List.length_nil, if_true]
  exact .throw_bind rfl

/-! ## The root of a list -/

/-- The root of a vector of nodes: that of the reference tree over their digests, with the length
mixed in. -/
def vectorRoot (h : Hasher) (limit : Nat) (xs : List Node) : Root :=
  mixInLength h (Padded.root h (Word.depthFor limit) (Padded.row (xs.map (Node.digest h)))) xs.length

theorem Holds.root_gives : Gives h s l.root fun c _ => c = vectorRoot h limit xs := by
  obtain ⟨serial, content, i, hb, hrow⟩ := hl.body
  rw [root, LevelView.root, hl.hasher_eq]
  refine (Node.root_gives hl.clean).mono ?_
  rintro _ t _ rfl
  rw [hb, Node.digest, hrow.digest]
  rfl

/-- The root is the one that a list of the elements has. -/
theorem Holds.list_answers : Answers h s (Provable.list h limit (xs.map (Provable.node h))).root
    (.ok (vectorRoot h limit xs)) := by
  have hlt : limit < Word.bound := lt_of_le_of_lt hl.le (by rw [Word.bound_eq]; norm_num)
  obtain ⟨serial, content, i, hb, hrow⟩ := hl.body
  have hclean := hl.clean
  rw [hb] at hclean
  have parts := Provable.Realizes.nodes (hrow.clean hclean.2.2.1)
  have root : (Tree.balanced limit (xs.map Tree.ofNode)).root h =
      Padded.root h (Word.depthFor limit) (Padded.row (xs.map (Node.digest h))) := by
    rw [Tree.balanced, Tree.root_grid, Tree.root_place_take_ofNode hl.room, Padded.root]
  have answers := (Provable.Realizes.parts parts hlt).root s (.refl h s)
  rw [root] at answers
  rw [Provable.list, List.length_map]
  exact answers.bind fun t _ => .pure rfl

end Operations

end SszMerkle.MerkleList
