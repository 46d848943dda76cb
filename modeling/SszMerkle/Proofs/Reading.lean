/-
Bytes read off a view. A read asks for the chunks of the first positions, as many as the bytes take, and
comes to their bytes when there is a leaf at each; otherwise it is refused for the first position without
one. Bytes that were cut into chunks, with which a tree was filled, are read back as they were, with zero
bytes behind them up to the end of the last chunk; and where the tree is no deeper than it has to be, its
root is that of the bytes.
-/
import SszMerkle.Proofs.Filling
import SszMerkle.Proofs.Serialized
import SszMerkle.Proofs.Slots

namespace SszMerkle

/-! ## Chunks of bytes -/

namespace Chunk

variable {bs : List UInt8} {m : Nat}

theorem countOfBytes_le_iff {n k : Nat} : countOfBytes n ≤ k ↔ n ≤ 32 * k := by
  rw [countOfBytes, groups_le_iff (by decide), Nat.mul_comm]

theorem lt_countOfBytes_iff {i n : Nat} : i < countOfBytes n ↔ 32 * i < n := by
  rw [← Nat.not_le, ← Nat.not_le, countOfBytes_le_iff]

/-- The chunks that a byte string is cut into. -/
def cut (bs : List UInt8) : List Root := (List.range (countOfBytes bs.length)).map (ofBytes bs)

/-- The leaves that hold them. -/
def leaves (ident : Nat → Ident) (bs : List UInt8) : List Node :=
  (List.range (countOfBytes bs.length)).map fun i => .leaf (ident i) (ofBytes bs i)

@[simp] theorem length_cut (bs : List UInt8) : (cut bs).length = countOfBytes bs.length := by simp [cut]

@[simp] theorem length_leaves (ident : Nat → Ident) (bs : List UInt8) :
    (leaves ident bs).length = countOfBytes bs.length := by
  simp [leaves]

theorem getElem?_padded (bs : List UInt8) (m j : Nat) :
    (bs.take m ++ List.replicate (m - bs.length) 0)[j]? = if j < m then some (bs.getD j 0) else none := by
  split
  · rename_i hm
    rcases Nat.lt_or_ge j bs.length with hj | hj
    · rw [List.getElem?_append_left (by rw [List.length_take]; omega), List.getElem?_take_of_lt hm,
        List.getD_eq_getElem?_getD, List.getElem?_eq_getElem hj, Option.getD_some]
    · have taken : bs.take m = bs := List.take_of_length_le (by omega)
      rw [taken, List.getElem?_append_right hj, List.getElem?_replicate, if_pos (by omega),
        List.getD_eq_getElem?_getD, List.getElem?_eq_none hj, Option.getD_none]
  · rename_i hm
    rw [List.getElem?_eq_none]
    rw [List.length_append, List.length_take, List.length_replicate]
    omega

/-- The bytes of the chunks are those that were cut, and zero past their end. -/
theorem take_flatMap_cut (hm : m ≤ 32 * countOfBytes bs.length) :
    ((cut bs).flatMap Root.toList).take m = bs.take m ++ List.replicate (m - bs.length) 0 := by
  refine List.ext_getElem? fun j => ?_
  rw [List.getElem?_take, getElem?_padded]
  split
  · rename_i hj
    have place : j = j / 32 * 32 + j % 32 := by omega
    have chunk : (cut bs)[j / 32]? = some (ofBytes bs (j / 32)) := by
      rw [cut, List.getElem?_map, List.getElem?_range (by omega), Option.map_some]
    have within : j % 32 < 32 := Nat.mod_lt j (by decide)
    rw [place, getElem?_flatMap_const Root.length_toList _ _ within, chunk, Option.bind_some,
      getElem?_ofBytes bs _ within, Nat.mul_comm (j / 32)]
  · rfl

end Chunk

namespace LevelView

variable {v : LevelView} {i k m n : Nat} {c : Root} {cs : List Root} {e : Failure}

/-! ## One position -/

/-- Position `i` is there and holds a leaf. -/
def LeafAt (v : LevelView) (i : Nat) (c : Root) : Prop := ∃ ident, v.get i = .ok (.leaf ident c)

/-- Why there is no leaf at position `i`: the depth does not have it, a leaf is in the way, or a pair is
there. -/
inductive Fault (v : LevelView) (i : Nat) : Failure → Prop
  | outside : ¬ (v.depth < 64 ∧ i < 2 ^ v.depth) → Fault v i (.malformedIndex i v.depth)
  | blocked {left} : v.depth < 64 → i < 2 ^ v.depth → v.backing.Bars (Gindex.digits v.depth i) left →
      Fault v i (.navigation (2 ^ v.depth + i) left)
  | pair {serial l r} : v.get i = .ok (.pair serial l r) → Fault v i (.notALeaf (2 ^ v.depth + i))

theorem inside_of_get_ok {x : Node} (hx : v.get i = .ok x) : v.depth < 64 ∧ i < 2 ^ v.depth := by
  by_contra outside
  rw [get_outside outside] at hx
  cases hx

theorem chunkAt_eq (v : LevelView) (i : Nat) : v.chunkAt i = v.get i >>= fun
    | .leaf _ c => .ok c
    | .pair _ _ _ => .error (.notALeaf (2 ^ v.depth + i)) := by
  unfold chunkAt get
  cases hg : Gindex.ofPosition i v.depth with
  | error _ => rfl
  | ok g =>
    rw [← Gindex.val_ofPosition hg]
    rfl

theorem LeafAt.chunkAt (hc : v.LeafAt i c) : v.chunkAt i = .ok c := by
  obtain ⟨ident, hget⟩ := hc
  rw [chunkAt_eq, hget]
  rfl

theorem Fault.chunkAt (he : v.Fault i e) : v.chunkAt i = .error e := by
  rw [chunkAt_eq]
  cases he with
  | outside h =>
    rw [get_outside h]
    rfl
  | blocked h64 hi bars =>
    rw [(get_eq_error_iff h64 hi).2 ⟨_, bars, rfl⟩]
    rfl
  | pair hget =>
    rw [hget]
    rfl

theorem leafAt_or_fault (v : LevelView) (i : Nat) : (∃ c, v.LeafAt i c) ∨ ∃ e, v.Fault i e := by
  by_cases inside : v.depth < 64 ∧ i < 2 ^ v.depth
  · cases hget : v.get i with
    | error e =>
      obtain ⟨left, bars, rfl⟩ := (get_eq_error_iff inside.1 inside.2).1 hget
      exact .inr ⟨_, .blocked inside.1 inside.2 bars⟩
    | ok x =>
      cases x with
      | leaf ident c => exact .inl ⟨c, ident, hget⟩
      | pair serial l r => exact .inr ⟨_, .pair hget⟩
  · exact .inr ⟨_, .outside inside⟩

/-! ## The first positions -/

/-- Either there are leaves at the first `n` positions, or one of them is the first without. -/
theorem leaves_or_first_fault (v : LevelView) (n : Nat) : (∀ j < n, ∃ c, v.LeafAt j c) ∨
    ∃ k < n, ∃ e, v.Fault k e ∧ ∀ j < k, ∃ c, v.LeafAt j c := by
  induction n with
  | zero => exact .inl fun j hj => absurd hj j.not_lt_zero
  | succ n ih =>
    rcases ih with leaves | ⟨k, hk, e, first⟩
    · rcases v.leafAt_or_fault n with leaf | ⟨e, he⟩
      · refine .inl fun j hj => ?_
        rcases Nat.lt_succ_iff_lt_or_eq.1 hj with hj | rfl
        · exact leaves j hj
        · exact leaf
      · exact .inr ⟨n, n.lt_succ_self, e, he, leaves⟩
    · exact .inr ⟨k, hk.trans n.lt_succ_self, e, first⟩

theorem exists_row (leaves : ∀ j < n, ∃ c, v.LeafAt j c) :
    ∃ cs : List Root, cs.length = n ∧ ∀ j (hj : j < cs.length), v.LeafAt j cs[j] := by
  choose! chunk holds using leaves
  refine ⟨(List.range n).map chunk, by simp, fun j hj => ?_⟩
  rw [List.length_map, List.length_range] at hj
  simpa using holds j hj

theorem chunksFrom_succ (here : v.chunkAt i = .ok c) (n : Nat) :
    v.chunksFrom i (n + 1) = (v.chunksFrom (i + 1) n).map (c :: ·) := by
  rw [chunksFrom, here]
  show (v.chunksFrom (i + 1) n >>= _) = _
  cases v.chunksFrom (i + 1) n <;> rfl

theorem chunksFrom_of_leaves : ∀ {cs : List Root} {i : Nat},
    (∀ j (hj : j < cs.length), v.LeafAt (i + j) cs[j]) → v.chunksFrom i cs.length = .ok cs
  | [], _, _ => rfl
  | c :: cs, i, leaves => by
    have here : v.chunkAt i = .ok c := (leaves 0 (Nat.succ_pos _)).chunkAt
    have behind : v.chunksFrom (i + 1) cs.length = .ok cs := chunksFrom_of_leaves fun j hj => by
      rw [Nat.add_right_comm, Nat.add_assoc]
      exact leaves (j + 1) (Nat.succ_lt_succ hj)
    rw [List.length_cons, chunksFrom_succ here, behind]
    rfl

theorem chunksFrom_of_fault : ∀ {n i k : Nat}, k < n → v.Fault (i + k) e →
    (∀ j < k, ∃ c, v.LeafAt (i + j) c) → v.chunksFrom i n = .error e
  | n + 1, i, 0, _, he, _ => by
    have here : v.chunkAt i = .error e := he.chunkAt
    rw [chunksFrom, here]
    rfl
  | n + 1, i, k + 1, hk, he, before => by
    obtain ⟨c, hc⟩ := before 0 k.succ_pos
    have here : v.chunkAt i = .ok c := hc.chunkAt
    rw [← Nat.add_assoc, Nat.add_right_comm] at he
    have behind : v.chunksFrom (i + 1) n = .error e :=
      chunksFrom_of_fault (Nat.lt_of_succ_lt_succ hk) he fun j hj => by
        rw [Nat.add_right_comm, Nat.add_assoc]
        exact before (j + 1) (Nat.succ_lt_succ hj)
    rw [chunksFrom_succ here, behind]
    rfl

/-! ## Reading -/

/-- Leaves that have enough bytes are read, and those behind them are not asked for. -/
theorem read_of_leaves (hm : m ≤ 32 * cs.length) (leaves : ∀ i (hi : i < cs.length), v.LeafAt i cs[i]) :
    v.read m = .ok ((cs.flatMap Root.toList).take m) := by
  have count : Chunk.countOfBytes m ≤ cs.length := Chunk.countOfBytes_le_iff.2 hm
  have asked : v.chunksFrom 0 (Chunk.countOfBytes m) = .ok (cs.take (Chunk.countOfBytes m)) := by
    have length : (cs.take (Chunk.countOfBytes m)).length = Chunk.countOfBytes m :=
      List.length_take_of_le count
    have chunks : v.chunksFrom 0 (cs.take (Chunk.countOfBytes m)).length =
        .ok (cs.take (Chunk.countOfBytes m)) := chunksFrom_of_leaves fun j hj => by
      rw [Nat.zero_add, List.getElem_take]
      exact leaves j _
    rwa [length] at chunks
  have enough : m ≤ Chunk.countOfBytes m * 32 := Chunk.le_groups_mul m (by decide)
  rw [read, asked]
  show Except.ok _ = _
  rw [take_flatMap_const Root.length_toList, List.take_take, Nat.min_eq_left enough]

theorem read_of_fault (hk : 32 * k < m) (he : v.Fault k e) (before : ∀ j < k, ∃ c, v.LeafAt j c) :
    v.read m = .error e := by
  have asked : v.chunksFrom 0 (Chunk.countOfBytes m) = .error e := by
    refine chunksFrom_of_fault (Chunk.lt_countOfBytes_iff.2 hk) ?_ fun j hj => ?_
    · rwa [Nat.zero_add]
    · rw [Nat.zero_add]
      exact before j hj
  rw [read, asked]
  rfl

theorem read_succeeds_iff : (∃ bs, v.read m = .ok bs) ↔ ∀ i, 32 * i < m → ∃ c, v.LeafAt i c := by
  constructor
  · rintro ⟨bs, hread⟩
    rcases v.leaves_or_first_fault (Chunk.countOfBytes m) with leaves | ⟨k, hk, e, he, before⟩
    · exact fun i hi => leaves i (Chunk.lt_countOfBytes_iff.2 hi)
    · rw [read_of_fault (Chunk.lt_countOfBytes_iff.1 hk) he before] at hread
      cases hread
  · intro leaves
    obtain ⟨cs, length, row⟩ := exists_row fun j hj => leaves j (Chunk.lt_countOfBytes_iff.1 hj)
    have enough : m ≤ 32 * cs.length := Chunk.countOfBytes_le_iff.1 length.ge
    exact ⟨_, read_of_leaves enough row⟩

theorem read_eq_error_iff : v.read m = .error e ↔
    ∃ k, 32 * k < m ∧ v.Fault k e ∧ ∀ j < k, ∃ c, v.LeafAt j c := by
  constructor
  · intro hread
    rcases v.leaves_or_first_fault (Chunk.countOfBytes m) with leaves | ⟨k, hk, e', he, before⟩
    · obtain ⟨bs, hok⟩ := read_succeeds_iff.2 fun i hi => leaves i (Chunk.lt_countOfBytes_iff.2 hi)
      rw [hread] at hok
      cases hok
    · have first := read_of_fault (Chunk.lt_countOfBytes_iff.1 hk) he before
      rw [hread] at first
      cases first
      exact ⟨k, Chunk.lt_countOfBytes_iff.1 hk, he, before⟩
  · rintro ⟨k, hk, he, before⟩
    exact read_of_fault hk he before

/-! ## Bytes in a filled tree -/

theorem leafAt_of_lays {h : Hasher} {t : Node} {d : Nat} {bs : List UInt8} {ident : Nat → Ident}
    (lays : Node.Lays h d t (Chunk.leaves ident bs)) (i : Nat) (hi : i < (Chunk.cut bs).length) :
    (⟨t, d⟩ : LevelView).LeafAt i (Chunk.cut bs)[i] := by
  obtain ⟨g, hg, hget⟩ := lays.nodes i (by simpa using hi)
  refine ⟨ident i, ?_⟩
  rw [get_eq (v := ⟨t, d⟩) hg, hget]
  simp [Chunk.leaves, Chunk.cut]

/-- A tree that is no deeper than it has to be has the root of the bytes. -/
theorem root_of_built {h : Hasher} {s u w : Store} {t : Node} {bs : List UInt8} {ident : Nat → Ident}
    (h63 : Word.depthFor (Chunk.countOfBytes bs.length) ≤ 63) (hs : s.Tidy) (su : s.Builds u)
    (built : Node.Built h s u (Word.depthFor (Chunk.countOfBytes bs.length)) t (Chunk.leaves ident bs))
    (uw : u.Under h w) (any : Store) :
    (((Value.byteVector bs).root h).run.run any).1 = .ok ((t.root h).run w).1 := by
  have stored : ∀ x ∈ Chunk.leaves ident bs, x.Stored s := by
    simp [Chunk.leaves, Node.Stored]
  have own : ∀ i (hi : i < (Chunk.leaves ident bs).length),
      (pure (Chunk.ofBytes bs i) : TreeM Root) = liftM ((Chunk.leaves ident bs)[i].root h) := by
    intro i hi
    simp only [Chunk.leaves, List.getElem_map, List.getElem_range]
    rfl
  have pass := built.merkleize_eq_root h63 hs su stored own uw
  rw [Chunk.length_leaves] at pass
  have bytes : (Value.byteVector bs).root h = merkleize h (Chunk.countOfBytes bs.length)
      (Chunk.countOfBytes bs.length) fun i => pure (Chunk.ofBytes bs i) := by
    simp only [Value.root, Value.provable]
    rfl
  generalize Chunk.countOfBytes bs.length = k at *
  have room : k ≤ 2 ^ Word.depthFor k := Word.le_two_pow_depthFor k
  have bound : 2 ^ Word.depthFor k < Word.bound := Word.pow2_lt_bound (by omega)
  rw [merkleize_pure h k bound, Word.depthFor_two_pow, Nat.min_eq_left room] at pass
  rw [bytes, merkleize_pure h k (room.trans_lt bound), Nat.min_self]
  exact pass

/-- Bytes cut into chunks are read back off the tree that was filled with them, with zero bytes behind
them, and the root of the tree is that of the bytes. Any view is read when there is a leaf at each position
where the bytes begin, and then they are those of the leaves, first to last; otherwise the first position
without a leaf says why not. -/
theorem read_undoes_chunking_and_stops_at_fault (h : Hasher) :
    (∀ (bs : List UInt8) d (ident : Nat → Ident) (s : Store), bs ≠ [] → d ≤ 63 →
      Chunk.countOfBytes bs.length ≤ 2 ^ d → s.Tidy →
      ∃ t u, (Node.ofList h d (Chunk.leaves ident bs)).run.run s = (.ok t, u) ∧
        (∀ m ≤ 32 * Chunk.countOfBytes bs.length,
          (⟨t, d⟩ : LevelView).read m = .ok (bs.take m ++ List.replicate (m - bs.length) 0)) ∧
        (d = Word.depthFor (Chunk.countOfBytes bs.length) → ∀ w, u.Under h w → ∀ any,
          (((Value.byteVector bs).root h).run.run any).1 =
            .ok (((⟨t, d⟩ : LevelView).root h).run w).1)) ∧
    ∀ (v : LevelView) m,
      ((∃ bs, v.read m = .ok bs) ↔
        ∀ i, 32 * i < m → (v.depth < 64 ∧ i < 2 ^ v.depth) ∧ ∃ c, v.LeafAt i c) ∧
      (∀ cs : List Root, m ≤ 32 * cs.length → (∀ i (hi : i < cs.length), v.LeafAt i cs[i]) →
        v.read m = .ok ((cs.flatMap Root.toList).take m)) ∧
      ∀ e, v.read m = .error e ↔ ∃ k, 32 * k < m ∧ v.Fault k e ∧ ∀ j < k, ∃ c, v.LeafAt j c := by
  refine ⟨fun bs d ident s hne h63 room hs => ?_, fun v m => ⟨?_, fun cs => read_of_leaves, fun e =>
    read_eq_error_iff⟩⟩
  · have some : Chunk.leaves ident bs ≠ [] := by
      rw [← List.length_pos_iff, Chunk.length_leaves, Chunk.lt_countOfBytes_iff]
      exact List.length_pos_iff.2 hne
    have fits : (Chunk.leaves ident bs).length ≤ 2 ^ d := by rwa [Chunk.length_leaves]
    obtain ⟨t, u, hrun, su, built⟩ := (Node.ofList_raises (h := h) (by omega) some fits).exists_run s
    refine ⟨t, u, hrun, fun m hm => ?_, fun hd w uw any => ?_⟩
    · have enough : m ≤ 32 * (Chunk.cut bs).length := by rwa [Chunk.length_cut]
      rw [read_of_leaves enough (leafAt_of_lays (built.filled.lays h63)), Chunk.take_flatMap_cut hm]
    · subst hd
      exact root_of_built h63 hs su built uw any
  · rw [read_succeeds_iff]
    refine forall₂_congr fun i _ => ⟨fun ⟨c, hc⟩ => ⟨?_, c, hc⟩, And.right⟩
    obtain ⟨ident, hget⟩ := hc
    exact inside_of_get_ok hget

/-- Thirty-three bytes take two chunks, and forty are read off them. Of a tree whose right half is a leaf,
forty are read two levels down, and one level down there is a pair in the way of the first. -/
theorem read_undoes_chunking_thirty_three :
    let bs : List UInt8 := List.replicate 33 7
    let leaf (i : Nat) : Node := .leaf (.made i) (Chunk.ofLength i)
    let ragged : Node := .pair 4 (.pair 2 (leaf 0) (leaf 1)) (leaf 3)
    bs ≠ [] ∧ Chunk.countOfBytes bs.length = 2 ∧ Store.empty.Tidy ∧
      (∃ t u, (Node.ofList .sha256 1 (Chunk.leaves .made bs)).run.run .empty = (.ok t, u) ∧
        (⟨t, 1⟩ : LevelView).read 40 = .ok (bs ++ List.replicate 7 0) ∧
        (((Value.byteVector bs).root .sha256).run.run .empty).1 =
          .ok (((⟨t, 1⟩ : LevelView).root .sha256).run u).1) ∧
      (⟨ragged, 2⟩ : LevelView).read 40 =
        .ok (([Chunk.ofLength 0, Chunk.ofLength 1].flatMap Root.toList).take 40) ∧
      (⟨ragged, 1⟩ : LevelView).read 40 = .error (.notALeaf 2) := by
  intro bs leaf ragged
  obtain ⟨filled, views⟩ := read_undoes_chunking_and_stops_at_fault .sha256
  obtain ⟨t, u, hrun, reads, root⟩ :=
    filled bs 1 .made .empty (by decide) (by decide) (by decide) Store.tidy_empty
  refine ⟨by decide, by decide, Store.tidy_empty, ⟨t, u, hrun, reads 40 (by decide),
    root (by decide) u .refl .empty⟩, (views ⟨ragged, 2⟩ 40).2.1 _ (by decide) fun i hi => ?_,
    ((views ⟨ragged, 1⟩ 40).2.2 _).2 ⟨0, by decide, ?_, fun j hj => absurd hj j.not_lt_zero⟩⟩
  · have small : i < 2 := hi
    obtain ⟨g, -, hf⟩ := get_eq_follow (v := ⟨ragged, 2⟩) (i := i) (by decide) (small.trans (by decide))
    refine ⟨.made i, hf.trans ?_⟩
    interval_cases i <;> rfl
  · obtain ⟨g, -, hf⟩ := get_eq_follow (v := ⟨ragged, 1⟩) (i := 0) (by decide) (by decide)
    exact .pair hf

end LevelView

end SszMerkle
