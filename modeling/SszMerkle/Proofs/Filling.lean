/-
What is in a tree that was filled, and what its root is. The nodes are at the first positions of the
bottom, and behind them there is zero, spelled out or under the stand-in of the zero tree it lies in. The
root is what the pass over the roots of the nodes comes to, whatever roots the nodes had kept before, as
the pairs above them are new. More nodes than there are positions are refused. One node filled in many
times makes the tree that a list of as many copies of it makes.
-/
import SszMerkle.Proofs.Filled
import SszMerkle.Proofs.Frontier
import SszMerkle.Proofs.Given
import SszMerkle.Provable

namespace SszMerkle

/-! ## Work under one hasher -/

/-- The stores that come of `s` while nodes are made and hashed under one hasher. -/
inductive Store.Under (h : Hasher) (s : Store) : Store → Prop
  | refl : Under h s s
  | build {t u} : Under h s t → t.Builds u → Under h s u
  | hash {t u} {asked : Node → Prop} : Under h s t → (∀ n, asked n → n.Stored t) →
      t.Fills h asked u → Under h s u

namespace Node

variable {h : Hasher} {s t u v : Store} {d : Nat} {n : Node} {xs : List Node}

theorem Stored.under (hn : n.Stored s) (st : s.Under h t) : n.Stored t := by
  induction st with
  | refl => exact hn
  | build _ tu ih => exact ih.mono tu.made
  | hash _ _ tu ih => exact tu.stored ih

/-- What a node gives is up to the roots that are kept. -/
theorem given_builds (n : Node) (st : s.Builds t) : n.given h t = n.given h s := by
  induction n with
  | leaf _ _ => rfl
  | pair i l r ihl ihr => rw [given, given, st.roots, ihl, ihr]

/-- What a node gives it goes on giving. -/
theorem given_under (hn : n.Stored s) (st : s.Under h t) : n.given h t = n.given h s := by
  induction st with
  | refl => rfl
  | build _ tu ih => rw [given_builds _ tu, ih]
  | hash st stored tu ih => rw [tu.given_eq stored (hn.under st), ih]

/-! ## The pass over the roots of nodes -/

/-- Asked for their roots one after the other, nodes give them as they stand at the beginning. -/
theorem mapM_hashes {ι : Type} {f : ι → TreeM Root} {node : ι → Node} {l : List ι}
    (hf : ∀ i ∈ l, f i = liftM ((node i).root h)) (hn : ∀ i ∈ l, (node i).Stored s) :
    ∃ t, (l.mapM f).run.run s = (.ok (l.map fun i => (node i).given h s), t) := by
  induction l generalizing s with
  | nil => exact ⟨s, rfl⟩
  | cons i l ih =>
    rw [List.forall_mem_cons] at hf hn
    obtain ⟨t, hrun, st⟩ := root_hashes h (node i) s hn.1
    have stored : ∀ n, n = node i → n.Stored s := forall_eq.2 hn.1
    obtain ⟨u, hrest⟩ := ih hf.2 fun j hj => st.stored (hn.2 j hj)
    have same : (l.map fun j => (node j).given h t) = l.map fun j => (node j).given h s :=
      List.map_congr_left fun j hj => st.given_eq stored (hn.2 j hj)
    refine ⟨u, ?_⟩
    rw [List.mapM_cons, hf.1, run_bind_ok (run_liftM hrun), run_bind_ok hrest, same]
    rfl

theorem merkleize_given {leaf : Nat → TreeM Root} {limit : Nat} (hl : limit < Word.bound)
    (room : xs.length ≤ limit) (hx : ∀ x ∈ xs, x.Stored s)
    (hleaf : ∀ i (hi : i < xs.length), leaf i = liftM (xs[i].root h)) :
    ((merkleize h xs.length limit leaf).run.run s).1 =
      .ok (Padded.root h (Word.depthFor limit) (Padded.row (xs.map (Node.given h s)))) := by
  -- the pass asks by number, and past the last number for nothing
  have node : ∀ i (hi : i < xs.length), xs.getD i (h.standIn 0) = xs[i] := fun i hi => by simp [hi]
  obtain ⟨t, hrun⟩ : ∃ t, ((List.range xs.length).mapM leaf).run.run s =
      (.ok ((List.range xs.length).map fun i => (xs.getD i (h.standIn 0)).given h s), t) := by
    refine mapM_hashes (fun i hi => ?_) fun i hi => ?_ <;> rw [List.mem_range] at hi <;> rw [node i hi]
    · exact hleaf i hi
    · exact hx _ (List.getElem_mem hi)
  have row : ((List.range xs.length).map fun i => (xs.getD i (h.standIn 0)).given h s) =
      xs.map (Node.given h s) := by
    apply List.ext_getElem
    · simp
    · intro i hi _
      simp only [List.length_map, List.length_range] at hi
      simp [hi]
  rw [merkleize_eq h _ hl, Nat.min_eq_left room, run_bind_ok hrun, row]
  rfl

/-! ## Roots of new trees -/

theorem Built.stored (hx : ∀ x ∈ xs, x.Stored u) (hn : Built h s u d n xs) : n.Stored u := by
  induction hn with
  | empty => trivial
  | element => exact hx _ (List.mem_singleton_self _)
  | pair _ _ hmade _ _ ihl ihr =>
    refine ⟨hmade, ?_, ?_⟩
    · exact ihl fun x hxs => hx x (List.mem_of_mem_take hxs)
    · exact ihr fun x hxs => hx x (List.mem_of_mem_drop hxs)

/-- A new tree gives the root over what its nodes give, since none is kept for the pairs above them. -/
theorem Built.given (hs : s.Tidy) (su : s.Builds u) (hn : Built h s u d n xs) :
    n.given h u = Padded.root h d (Padded.row (xs.map (Node.given h u))) := by
  induction hn with
  | empty => exact (Padded.node_eq_zeroRoot fun _ _ => Padded.row_of_le (by simp)).symm
  | element => rfl
  | @pair d serial l r xs _ hnew _ _ _ ihl ihr =>
    have missing : u.roots[serial]? = none := by
      rw [su.roots]
      exact hs.root_none hnew
    rw [given_of_none missing, ihl, ihr, ← Padded.root_row_append (drop_eq_nil_or_length_take xs _)
      (List.length_take_le ..), List.take_append_drop]

/-- The pass over the roots of the nodes comes to the root of the tree, whichever is asked for first. -/
theorem Built.merkleize_eq_root (h63 : d ≤ 63) (hs : s.Tidy) (su : s.Builds u) (hn : Built h s u d n xs)
    (hx : ∀ x ∈ xs, x.Stored s) {leaf : Nat → TreeM Root}
    (hleaf : ∀ i (hi : i < xs.length), leaf i = liftM (xs[i].root h)) (uv : u.Under h v) :
    ((merkleize h xs.length (2 ^ d) leaf).run.run v).1 = .ok ((n.root h).run v).1 := by
  have bound : 2 ^ d < Word.bound := Word.pow2_lt_bound (by omega)
  have hx : ∀ x ∈ xs, x.Stored u := fun x hxs => (hx x hxs).mono su.made
  have stored := hn.stored hx
  -- since the tree was built nothing that it or its nodes give has changed
  have same : xs.map (Node.given h v) = xs.map (Node.given h u) :=
    List.map_congr_left fun x hxs => given_under (hx x hxs) uv
  obtain ⟨w, hrun, -⟩ := root_hashes h n v (stored.under uv)
  rw [hrun, merkleize_given bound hn.filled.row.length_le (fun x hxs => (hx x hxs).under uv) hleaf,
    Word.depthFor_two_pow, given_under stored uv, hn.given hs su, same]

/-! ## What is at a position -/

/-- At the first positions of level `d` there are the nodes, one after the other; each position behind
them lies under a stand-in of the zero tree that is left from there on, or is one itself. -/
structure Lays (h : Hasher) (d : Nat) (t : Node) (xs : List Node) : Prop where
  nodes : ∀ i (hi : i < xs.length), ∃ g, Gindex.ofPosition i d = .ok g ∧ t.get g = .ok xs[i]
  zeros : ∀ i, xs.length ≤ i → i < 2 ^ d → ∃ g upper lower, Gindex.ofPosition i d = .ok g ∧
    g.path = upper ++ lower ∧ t.follow g upper = .ok (h.standIn lower.length)

theorem Filled.lays (h63 : d ≤ 63) (hn : Filled h d n xs) : Lays h d n xs := by
  have room := hn.row.length_le
  have h64 : d < 64 := by omega
  constructor
  · intro i hi
    obtain ⟨g, hg, hpath⟩ := Gindex.ofPosition_path h64 (hi.trans_le room)
    refine ⟨g, hg, ?_⟩
    rw [get, hpath]
    exact hn.row.follow hi
  · intro i hle hi
    obtain ⟨g, hg, hpath⟩ := Gindex.ofPosition_path h64 hi
    obtain ⟨upper, lower, hdigits, hf⟩ := hn.follow_past g hle hi
    exact ⟨g, upper, lower, hg, hpath.trans hdigits, hf⟩

/-! ## Filling -/

/-- Nodes fill a tree that has room for them and are refused by any other, be they of a list or one node
so many times. The tree has them at the first positions of its bottom and zero behind them, its root is
what the pass over the roots of the nodes comes to, and copies of one node make one tree in both ways. -/
theorem ofList_and_replicatePad_lay (h63 : d ≤ 63) (hs : s.Tidy) :
    (∀ xs, xs ≠ [] → (∀ x ∈ xs, x.Stored s) →
      (xs.length ≤ 2 ^ d → ∃ t u, (ofList h d xs).run.run s = (.ok t, u) ∧ Lays h d t xs ∧
        ∀ v, u.Under h v → ((merkleize h xs.length (2 ^ d)
          (Provable.rootAt (xs.map (Provable.node h)))).run.run v).1 = .ok ((t.root h).run v).1) ∧
      (2 ^ d < xs.length → ofList h d xs = throw (.overCapacity xs.length (2 ^ d)))) ∧
    ∀ (n : Node) m, n.Stored s →
      (m ≤ 2 ^ d → ∃ t u, (replicatePad h n d m).run.run s = (.ok t, u) ∧
        Lays h d t (List.replicate m n) ∧
        (∀ v, u.Under h v → ((merkleize h m (2 ^ d) fun _ => (Provable.node h n).root).run.run v).1 =
          .ok ((t.root h).run v).1) ∧
        (0 < m → ∀ v, ∃ t' w, (ofList h d (List.replicate m n)).run.run v = (.ok t', w) ∧
          Coincide h d t t')) ∧
      (2 ^ d < m → replicatePad h n d m = throw (.overCapacity m (2 ^ d))) := by
  refine ⟨fun xs hne hx => ⟨fun room => ?_, ofList_refused h63⟩,
    fun n m hn => ⟨fun room => ?_, replicatePad_refused h63⟩⟩
  · obtain ⟨t, u, hrun, su, built⟩ := (ofList_raises (h := h) (by omega) hne room).exists_run s
    refine ⟨t, u, hrun, built.filled.lays h63, fun v uv => ?_⟩
    refine built.merkleize_eq_root h63 hs su hx (fun i hi => ?_) uv
    rw [Provable.rootAt, List.getElem?_map, List.getElem?_eq_getElem hi]
    rfl
  · obtain ⟨t, u, hrun, su, built⟩ := (replicatePad_raises (h := h) (n := n) h63 room).exists_run s
    have hx : ∀ x ∈ List.replicate m n, x.Stored s := fun x hx => List.eq_of_mem_replicate hx ▸ hn
    refine ⟨t, u, hrun, built.filled.lays h63, fun v uv => ?_, fun pos v => ?_⟩
    · have own : ∀ i (hi : i < (List.replicate m n).length),
          (Provable.node h n).root = liftM ((List.replicate m n)[i].root h) := fun i hi => by
        rw [List.getElem_replicate]
        rfl
      have pass := built.merkleize_eq_root h63 hs su hx own uv
      rwa [List.length_replicate] at pass
    · have hne : List.replicate m n ≠ [] := by simpa using pos.ne'
      have fits : (List.replicate m n).length ≤ 2 ^ d := by rwa [List.length_replicate]
      obtain ⟨t', w, hrun', -, built'⟩ := (ofList_raises (h := h) (by omega) hne fits).exists_run v
      exact ⟨t', w, hrun', built.filled.coincide built'.filled⟩

/-- Three nodes and four copies of one: at position 2 of level 2 there is the third node or a copy, at
position 3 behind the three there is zero, and into level 1 neither the three nor the four fit. -/
theorem ofList_and_replicatePad_lay_four :
    let leaf (i : Nat) : Node := .leaf (.made i) (Chunk.ofLength i)
    let s : Store := ⟨#[leaf 0, leaf 1, leaf 2], ∅⟩
    s.Tidy ∧ (∀ x ∈ [leaf 0, leaf 1, leaf 2], x.Stored s) ∧
      (∃ t u, (ofList .sha256 2 [leaf 0, leaf 1, leaf 2]).run.run s = (.ok t, u) ∧
        t.get ⟨6, by decide⟩ = .ok (leaf 2) ∧
        (∃ upper lower, [true, true] = upper ++ lower ∧
          t.follow ⟨7, by decide⟩ upper = .ok (Hasher.sha256.standIn lower.length)) ∧
        ((merkleize .sha256 3 4 (Provable.rootAt ([leaf 0, leaf 1, leaf 2].map
          (Provable.node .sha256)))).run.run u).1 = .ok ((t.root .sha256).run u).1) ∧
      (∃ t u, (replicatePad .sha256 (leaf 1) 2 4).run.run s = (.ok t, u) ∧
        t.get ⟨6, by decide⟩ = .ok (leaf 1)) ∧
      ofList .sha256 1 [leaf 0, leaf 1, leaf 2] = throw (.overCapacity 3 2) ∧
      replicatePad .sha256 (leaf 1) 1 4 = throw (.overCapacity 4 2) := by
  intro leaf s
  have tidy : s.Tidy := fun i c hc => by simp [s] at hc
  have stored : ∀ x ∈ [leaf 0, leaf 1, leaf 2], x.Stored s := by simp [leaf, Stored]
  obtain ⟨lists, copies⟩ := ofList_and_replicatePad_lay (h := .sha256) (d := 2) (by decide) tidy
  obtain ⟨small, few⟩ := ofList_and_replicatePad_lay (h := .sha256) (d := 1) (by decide) tidy
  obtain ⟨t, u, hrun, lays, pass⟩ := (lists _ (by simp) stored).1 (by decide)
  obtain ⟨t', u', hrun', lays', -⟩ := (copies (leaf 1) 4 trivial).1 (by decide)
  refine ⟨tidy, stored, ⟨t, u, hrun, ?_, ?_, pass u .refl⟩, ⟨t', u', hrun', ?_⟩,
    (small _ (by simp) stored).2 (by decide), (few (leaf 1) 4 trivial).2 (by decide)⟩
  · obtain ⟨g, hg, hget⟩ := lays.nodes 2 (by decide)
    obtain rfl : ⟨6, by decide⟩ = g := Except.ok.inj hg
    exact hget
  · obtain ⟨g, upper, lower, hg, hpath, hf⟩ := lays.zeros 3 (by decide) (by decide)
    obtain rfl : ⟨7, by decide⟩ = g := Except.ok.inj hg
    exact ⟨upper, lower, hpath, hf⟩
  · obtain ⟨g, hg, hget⟩ := lays'.nodes 2 (by decide)
    obtain rfl : ⟨6, by decide⟩ = g := Except.ok.inj hg
    exact hget

end Node

end SszMerkle
