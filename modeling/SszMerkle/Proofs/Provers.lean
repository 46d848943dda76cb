/-
Two provers of one tree. One walks down a tree of nodes and hashes what lies beside its path, the
other lets the roots of the nodes stream by and keeps what it needs. Over the tree that is filled with
the nodes they give the same branch and the same root, down to the bottom and wherever there is a
node; strictly inside the stand-in of a zero tree, above the bottom, the walk alone finds nothing.
-/
import SszMerkle.Proofs.Descent
import SszMerkle.Proofs.Filled

namespace SszMerkle

variable {h : Hasher} {s : Store} {d k p : Nat}

/-! ## Beside a path of the reference tree -/

namespace Padded

variable {leaf other : Nat → Root} {depth : Nat}

/-- The roots beside the position `p` of level `k` and beside what is above it, lowest first. -/
def siblings (h : Hasher) (depth : Nat) (leaf : Nat → Root) (k p : Nat) : List Root :=
  (List.range k).map fun j => node h leaf (depth - k + j) (p / 2 ^ j ^^^ 1)

theorem branch_proof {g : Gindex} (hg : 0 < g.val) (hd : g.depth ≤ depth) :
    (proof h depth leaf g).branch = siblings h depth leaf g.depth g.position := by
  refine List.map_congr_left fun j hj => ?_
  rw [List.mem_range] at hj
  exact rootAt_sibling_ancestor hg hj hd

theorem sibling_lt {j : Nat} (hp : p < 2 ^ k) (hj : j < k) : p / 2 ^ j ^^^ 1 < 2 ^ (k - j) := by
  have split : 2 ^ k = 2 ^ j * 2 ^ (k - j) := by rw [← pow_add]; congr 1; omega
  refine Nat.xor_lt_two_pow ?_ ?_
  · rw [split] at hp
    exact Nat.div_lt_of_lt_mul hp
  · exact Nat.one_lt_two_pow (by omega)

theorem siblings_congr (hk : k ≤ depth) (hp : p < 2 ^ k) (e : ∀ i < 2 ^ depth, leaf i = other i) :
    siblings h depth leaf k p = siblings h depth other k p := by
  refine List.map_congr_left fun j hj => node_congr fun i _ hi => e i (hi.trans_le ?_)
  rw [List.mem_range] at hj
  have inside := sibling_lt hp hj
  calc ((p / 2 ^ j ^^^ 1) + 1) * 2 ^ (depth - k + j) ≤ 2 ^ (k - j) * 2 ^ (depth - k + j) :=
        Nat.mul_le_mul_right _ inside
    _ = 2 ^ depth := by rw [← pow_add]; congr 1; omega

/-- In the left half of a tree the right half is the last sibling. -/
theorem siblings_left (hk : k ≤ depth) (hp : p < 2 ^ k) :
    siblings h (depth + 1) leaf (k + 1) p =
      siblings h depth leaf k p ++ [root h depth fun i => leaf (2 ^ depth + i)] := by
  have top : depth - k + k = depth := by omega
  rw [siblings, List.range_succ, List.map_append, List.map_singleton, Nat.add_sub_add_right,
    Nat.div_eq_of_lt hp, top, node_shift]
  simp only [Nat.zero_xor, one_mul]
  rfl

/-- In the right half it is the left one, and the others lie in the right half. -/
theorem siblings_right (hk : k ≤ depth) (hle : 2 ^ k ≤ p) (hp : p < 2 ^ (k + 1)) :
    siblings h (depth + 1) leaf (k + 1) p =
      siblings h depth (fun i => leaf (2 ^ depth + i)) k (p - 2 ^ k) ++ [root h depth leaf] := by
  obtain ⟨q, rfl⟩ := Nat.exists_eq_add_of_le hle
  have hq : q < 2 ^ k := by rw [pow_succ] at hp; omega
  have top : depth - k + k = depth := by omega
  have last : (2 ^ k + q) / 2 ^ k ^^^ 1 = 0 := by
    rw [Nat.add_div_left _ (by positivity), Nat.div_eq_of_lt hq]
    rfl
  rw [siblings, List.range_succ, List.map_append, List.map_singleton, Nat.add_sub_add_right,
    Nat.add_sub_cancel_left, last, top]
  congr 1
  refine List.map_congr_left fun j hj => ?_
  rw [List.mem_range] at hj
  -- the positions in the right half come after the even number of those in the left one
  have half : 2 ^ k = 2 ^ j * 2 ^ (k - j) := by rw [← pow_add]; congr 1; omega
  have even : 2 ^ (k - j) = 2 * 2 ^ (k - j - 1) := by rw [← pow_succ']; congr 1; omega
  have position : (2 ^ k + q) / 2 ^ j ^^^ 1 = 2 ^ (k - j) + (q / 2 ^ j ^^^ 1) := by
    rw [half, Nat.mul_add_div (by positivity), xor_one_eq, xor_one_eq]
    omega
  have width : 2 ^ (k - j) * 2 ^ (depth - k + j) = 2 ^ depth := by rw [← pow_add]; congr 1; omega
  rw [position, node_shift, node_shift (fun i => leaf (2 ^ depth + i))]
  congr 1
  funext i
  rw [add_mul, width, add_assoc]

theorem siblings_zero (k p : Nat) :
    siblings h depth (row []) k p = (List.range k).map fun j => zeroRoot h.combine (depth - k + j) :=
  List.map_congr_left fun _ _ => node_eq_zeroRoot fun _ _ => row_of_le (Nat.zero_le _)

end Padded

/-! ## Hashers that tell zero trees apart -/

namespace Hasher

/-- No two zero trees of the table have one root. -/
def ZerosDiffer (h : Hasher) : Prop :=
  ∀ (i j : Nat) (hi : i < 65) (hj : j < 65), h.zeros.roots[i] = h.zeros.roots[j] → i = j

theorem ZerosDiffer.zeroRoot_ne (differ : h.ZerosDiffer) {i j : Nat} (hi : i ≤ 64) (hj : j ≤ 64)
    (hij : i ≠ j) : zeroRoot h.combine i ≠ zeroRoot h.combine j := by
  intro e
  rw [← h.zeros.getElem_roots i (by omega), ← h.zeros.getElem_roots j (by omega)] at e
  exact hij (differ i j _ _ e)

/-- The hasher that counts how many levels are below it on the far left. -/
def counting : Hasher := .ofDigest "counting" fun bs => .ofBytes [bs.headD 0 + 1]

theorem headD_zeroRoot_counting (d : Nat) :
    (zeroRoot counting.combine d).toList.headD 0 = UInt8.ofNat d := by
  have head : ∀ b : UInt8, (Root.ofBytes [b]).toList.headD 0 = b := fun b => by
    rw [Root.toList, Root.ofBytes, Vector.toList_ofFn, List.ofFn_succ]
    rfl
  induction d with
  | zero => rfl
  | succ d ih =>
    have some : (zeroRoot counting.combine d).toList ≠ [] :=
      List.ne_nil_of_length_eq_add_one (Root.length_toList _)
    obtain ⟨b, bs, hb⟩ := List.exists_cons_of_ne_nil some
    rw [hb] at ih
    show (Root.ofBytes [((zeroRoot counting.combine d).toList ++ _).headD 0 + 1]).toList.headD 0 = _
    have hd : b = UInt8.ofNat d := ih
    rw [head, hb, List.cons_append, List.headD_cons, hd, UInt8.ofNat_add]
    rfl

theorem zerosDiffer_counting : counting.ZerosDiffer := by
  intro i j hi hj e
  rw [counting.zeros.getElem_roots, counting.zeros.getElem_roots] at e
  have same := congrArg (fun c : Root => (c.toList.headD 0).toNat) e
  simp only [headD_zeroRoot_counting, UInt8.toNat_ofNat'] at same
  omega

end Hasher

/-! ## Beside a path of a row -/

namespace Node

variable {target : Gindex} {n t : Node} {xs : List Node} {path upper lower : List Bool}

/-- Beside a path that leads to the bottom, or to a node, lie the roots of the reference tree. -/
theorem Row.beside (hn : Row h d n xs) (hk : k ≤ d) (hp : p < 2 ^ k)
    (hend : k = d ∨ ∃ m, n.follow target (Gindex.digits k p) = .ok m) :
    n.beside h (Gindex.digits k p) =
      .ok (Padded.siblings h d (Padded.row (xs.map (Node.digest h))) k p).reverse := by
  induction hn generalizing k p with
  | @zero d i =>
    rcases hend with rfl | ⟨m, hm⟩
    · have whole := beside_standIn (h := h) (Gindex.digits k p) i
      rw [Gindex.length_digits] at whole
      rw [whole, List.map_nil, Padded.siblings_zero, Nat.sub_self]
      simp only [Nat.zero_add]
    · -- a path to the leaf itself takes no step
      cases k with
      | zero => rfl
      | succ k =>
        obtain ⟨right, path, hpath⟩ :=
          List.exists_cons_of_length_eq_add_one (Gindex.length_digits (k + 1) p)
        rw [hpath] at hm
        cases hm
  | @element n =>
    obtain rfl := Nat.le_zero.1 hk
    cases n <;> rfl
  | @pair d serial l r xs ys hl hr hfull ihl ihr =>
    cases k with
    | zero => rfl
    | succ k =>
      rw [Nat.add_le_add_iff_right] at hk
      have left : ∀ i < 2 ^ d, Padded.row ((xs ++ ys).map (Node.digest h)) i =
          Padded.row (xs.map (Node.digest h)) i := fun i hi => Padded.row_append_left hfull hi
      have right := Padded.row_append_right (f := Node.digest h) hfull hl.length_le
      rcases Nat.lt_or_ge p (2 ^ k) with hlt | hge
      · rw [Gindex.digits_of_lt hlt] at hend ⊢
        have below := ihl hk hlt (hend.imp_left Nat.succ.inj)
        rw [Padded.siblings_left hk hlt, right, Padded.siblings_congr hk hlt left, ← hr.digest,
          List.reverse_append, Node.beside]
        simp only [Bool.false_eq_true, if_false, below]
        rfl
      · rw [Gindex.digits_of_le hge hp] at hend ⊢
        have below := ihr hk (by rw [pow_succ] at hp; omega) (hend.imp_left Nat.succ.inj)
        rw [Padded.siblings_right hk hge hp, right, Padded.root,
          Padded.node_congr fun i _ hi => left i (by simpa using hi), ← Padded.root, ← hl.digest,
          List.reverse_append, Node.beside]
        simp only [if_true, below]
        rfl

/-- Where a path through a filled tree comes to nothing before the bottom, it comes to a stand-in. -/
theorem Filled.stops (hn : Filled h d n xs) (hlt : path.length < d)
    (hend : ∀ m, n.follow target path ≠ .ok m) : ∃ upper lower, path = upper ++ lower ∧ lower ≠ [] ∧
      n.follow target upper = .ok (h.standIn (d - upper.length)) := by
  induction hn generalizing path with
  | empty =>
    cases path with
    | nil => exact absurd rfl (hend _)
    | cons right path => exact ⟨[], right :: path, rfl, by simp, rfl⟩
  | element => simp at hlt
  | @pair d serial l r xs _ _ _ ihl ihr =>
    cases path with
    | nil => exact absurd rfl (hend _)
    | cons right path =>
      rw [List.length_cons, Nat.add_lt_add_iff_right] at hlt
      have below : ∃ upper lower, path = upper ++ lower ∧ lower ≠ [] ∧
          (if right then r else l).follow target upper = .ok (h.standIn (d - upper.length)) := by
        cases right with
        | false => exact ihl hlt hend
        | true => exact ihr hlt hend
      obtain ⟨upper, lower, rfl, hne, hfollow⟩ := below
      refine ⟨right :: upper, lower, rfl, hne, ?_⟩
      rw [List.length_cons, Nat.add_sub_add_right]
      exact hfollow

/-- Past a leaf that stands in for no tree of the depth that is left, nothing lies beside a path. -/
theorem beside_past_leaf {i : Ident} {c : Root} (hf : n.follow target upper = .ok (.leaf i c))
    (hne : lower ≠ []) (hc : c ≠ zeroRoot h.combine lower.length) :
    n.beside h (upper ++ lower) = .error lower.length := by
  induction upper generalizing n with
  | nil =>
    obtain rfl : n = .leaf i c := by cases n <;> exact Except.ok.inj hf
    cases lower with
    | nil => exact absurd rfl hne
    | cons right lower => exact if_neg hc
  | cons right upper ih =>
    cases n with
    | leaf _ _ => cases hf
    | pair serial l r =>
      rw [List.cons_append, beside, ih hf]
      rfl

/-- The walk gives what lies beside its path, lowest first, and the root. -/
theorem prove_answers {g : Gindex} (hn : n.Clean h s) : Answers h s (n.prove h g)
    (match n.beside h g.path with
      | .ok siblings => .ok ⟨siblings.reverse, n.digest h⟩
      | .error left => .error (.navigation g.val left)) := by
  have h64 : g.path.length ≤ 64 := by rw [Gindex.length_path]; exact g.depth_lt.le
  have gathered : Answers h s (n.branch h g g.path) _ := branch_answers hn h64
  unfold prove
  cases hb : n.beside h g.path with
  | error left =>
    rw [hb] at gathered
    exact gathered.bind_error fun _ => rfl
  | ok siblings =>
    rw [hb] at gathered
    refine gathered.bind fun t st => ?_
    exact (root_answers (hn.later st)).bind fun _ _ => .pure rfl

/-! ## The two provers -/

section Row

variable {g : Gindex} (hg : 0 < g.val) (hd : g.depth ≤ d)
include hg hd

/-- The walk to the bottom, or to a node, gives the branch of the reference tree. -/
theorem Row.prove_answers (hn : Row h d n xs) (hc : n.Clean h s)
    (hend : g.depth = d ∨ ∃ m, n.get g = .ok m) :
    Answers h s (n.prove h g) (.ok (Padded.proof h d (Padded.row (xs.map (Node.digest h))) g)) := by
  have path := Gindex.path_eq_digits hg
  have hend : g.depth = d ∨ ∃ m, n.follow g (Gindex.digits g.depth g.position) = .ok m := by
    rwa [Node.get, path] at hend
  have gathered := Node.prove_answers (g := g) hc
  rw [path, hn.beside hd (g.position_lt_two_pow hg) hend] at gathered
  simp only [List.reverse_reverse, ← Padded.branch_proof hg hd, hn.digest] at gathered
  exact gathered

/-- So does the stream. -/
theorem openTree_answers (h63 : d ≤ 63) (room : xs.length ≤ 2 ^ d) (hx : ∀ x ∈ xs, x.Clean h s)
    (below : Nat → Gindex → TreeM (Option Proof)) :
    Answers h s (openTree h xs.length (2 ^ d) g (Provable.rootAt (xs.map (Provable.node h))) below)
      (.ok (Padded.proof h d (Padded.row (xs.map (Node.digest h))) g)) := by
  have bound : 2 ^ d < Word.bound := Word.pow2_lt_bound (by omega)
  have depth : Word.depthFor (2 ^ d) = d := Word.depthFor_two_pow d
  have leaves := Provable.Realizes.leaves (Provable.Realizes.nodes hx)
  have answers : Answers h s (openTree h _ (2 ^ d) g _ below) _ :=
    leaves.openTree_answers bound (.refl h s) hg (by rwa [depth])
  rwa [Tree.root_place_take_ofNode room, depth, List.length_map] at answers

end Row

/-- The tree that is filled with nodes is proved in two ways: by the walk through it and from the
stream of the roots. At every place at the bottom, whether it holds a node or padding, and at every
place above where the tree has a node, both give one proof. That leaves the places above the bottom
strictly inside a stand-in: there the stream gives its proof, and the walk is refused with the steps
that are left below the stand-in. -/
theorem prove_agrees_openTree (h63 : d ≤ 63) (hs : s.Tidy) (differ : h.ZerosDiffer) (hne : xs ≠ [])
    (room : xs.length ≤ 2 ^ d) (hx : ∀ x ∈ xs, x.Clean h s) :
    Succeeds h s (Node.ofList h d xs) fun t u => ∀ v, u.Later h v → ∀ g : Gindex, 0 < g.val →
      g.depth ≤ d → ∃ p : Proof,
        (∀ below, Answers h v
          (openTree h xs.length (2 ^ d) g (Provable.rootAt (xs.map (Provable.node h))) below) (.ok p)) ∧
        (g.depth = d ∨ (∃ n, t.get g = .ok n) → Answers h v (t.prove h g) (.ok p)) ∧
        (g.depth ≠ d → (∀ n, t.get g ≠ .ok n) → ∃ upper lower, g.path = upper ++ lower ∧ lower ≠ [] ∧
          t.follow g upper = .ok (h.standIn (d - upper.length)) ∧
          Answers h v (t.prove h g) (.error (.navigation g.val lower.length))) := by
  refine (Node.ofList_succeeds (by omega) hs hne room hx).mono ?_
  rintro t u su ⟨hc, filled⟩ v uv g hg hd
  have hc := hc.later uv
  have hx : ∀ x ∈ xs, x.Clean h v := fun x hxs => (hx x hxs).later (su.trans uv)
  refine ⟨_, openTree_answers hg hd h63 room hx, filled.row.prove_answers hg hd hc, ?_⟩
  intro hdeep hnone
  have short : g.path.length < d := by
    rw [Gindex.length_path]
    omega
  obtain ⟨upper, lower, hpath, hlower, hf⟩ := filled.stops short hnone
  -- the stand-in is that of a deeper tree than the steps left lead through
  have lengths : upper.length + lower.length < d := by rwa [hpath, List.length_append] at short
  have other : zeroRoot h.combine (d - upper.length) ≠ zeroRoot h.combine lower.length :=
    differ.zeroRoot_ne (by omega) (by omega) (by omega)
  have refused := prove_answers (g := g) hc
  rw [hpath, beside_past_leaf hf hlower other] at refused
  exact ⟨upper, lower, hpath, hlower, hf, refused⟩

/-- Of eight places one holds a node: the last one is proved in both ways, and the place above it on
the left inside the same stand-in is proved by the stream alone. -/
theorem prove_agrees_openTree_counting : ∃ x : Node, Succeeds Hasher.counting .empty
    (Node.ofList Hasher.counting 3 [x]) fun t u => ∃ p q : Proof,
      Answers Hasher.counting u (openTree Hasher.counting 1 8 ⟨15, by decide⟩
        (Provable.rootAt [Provable.node Hasher.counting x]) fun _ _ => return none) (.ok p) ∧
      Answers Hasher.counting u (t.prove Hasher.counting ⟨15, by decide⟩) (.ok p) ∧
      Answers Hasher.counting u (openTree Hasher.counting 1 8 ⟨6, by decide⟩
        (Provable.rootAt [Provable.node Hasher.counting x]) fun _ _ => return none) (.ok q) ∧
      Answers Hasher.counting u (t.prove Hasher.counting ⟨6, by decide⟩) (.error (.navigation 6 1)) := by
  let x : Node := Hasher.counting.standIn 0
  have hx : ∀ y ∈ [x], y.Clean Hasher.counting .empty := by simp [x, Hasher.standIn, Node.Clean]
  refine ⟨x, ?_⟩
  have agreed := prove_agrees_openTree (d := 3) (by decide) Store.tidy_empty
    Hasher.zerosDiffer_counting (by simp) (by decide) hx
  obtain ⟨t, u, hrun, later, agree⟩ := agreed.exists_run trivial
  have succeeds := Node.ofList_succeeds (h := Hasher.counting) (d := 3) (by decide) Store.tidy_empty
    (by simp) (by decide) hx
  obtain ⟨t', u', hrun', -, -, filled⟩ := succeeds.exists_run trivial
  rw [hrun, Prod.mk.injEq, Except.ok.injEq] at hrun'
  obtain ⟨rfl, -⟩ := hrun'
  obtain ⟨p, stream, walk, -⟩ := agree u (.refl _ u) ⟨15, by decide⟩ (by decide) (by decide)
  obtain ⟨q, stream', -, stops⟩ := agree u (.refl _ u) ⟨6, by decide⟩ (by decide) (by decide)
  obtain ⟨d, serial, l, rfl⟩ : ∃ d serial l, t = .pair serial l (Hasher.counting.standIn d) := by
    cases filled with
    | pair _ _ right =>
      cases right with
      | empty => exact ⟨_, _, _, rfl⟩
      | pair hne => exact absurd rfl hne
  have path : Gindex.path ⟨6, by decide⟩ = [true, false] := rfl
  have inside : ∀ n, (pair serial l (Hasher.counting.standIn d)).get ⟨6, by decide⟩ ≠ .ok n := by
    intro n hn
    rw [get, path] at hn
    cases hn
  obtain ⟨upper, lower, hpath, hne, hf, refused⟩ := stops (by decide) inside
  -- the stand-in is one step from the root, so one more is left
  rw [path] at hpath
  rcases upper with _ | ⟨right, upper⟩
  · cases hf
  rw [List.cons_append, List.cons.injEq] at hpath
  rcases upper with _ | ⟨right', upper⟩
  · obtain ⟨rfl, rfl⟩ := hpath
    refine fun _ => ⟨_, u, hrun, later, trivial, _, rfl, p, q, ?_⟩
    exact ⟨stream _, walk (.inl (by decide)), stream' _, refused⟩
  · rw [List.cons_append, List.cons.injEq] at hpath
    exact absurd (List.append_eq_nil_iff.1 hpath.2.2.symm).2 hne

end Node

end SszMerkle
