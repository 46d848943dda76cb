/-
Which chunks are the chunk of a length. All thirty-two bytes of a chunk write one number, little-endian,
and the chunk is that of a length exactly if this number is the length. A list is taken up from its tree
by the low word of the number alone, so its length is right as long as the number is a word; a chunk that
writes more is taken for a shorter list.
-/
import SszMerkle.Proofs.Reopening

namespace SszMerkle

/-! ## What bytes write -/

namespace Word

@[simp] theorem ofBytes_cons (b : UInt8) (bs : List UInt8) :
    ofBytes (b :: bs) = b.toNat + 256 * ofBytes bs := rfl

theorem ofBytes_append (bs cs : List UInt8) :
    ofBytes (bs ++ cs) = ofBytes bs + 256 ^ bs.length * ofBytes cs := by
  induction bs with
  | nil => simp [ofBytes]
  | cons b bs ih =>
    rw [List.cons_append, ofBytes_cons, ofBytes_cons, ih, List.length_cons, pow_succ']
    ring

@[simp] theorem ofBytes_zeros (k : Nat) : ofBytes (List.replicate k 0) = 0 := by
  induction k with
  | zero => rfl
  | succ k ih =>
    rw [List.replicate_succ, ofBytes_cons, ih]
    rfl

theorem ofBytes_lt (bs : List UInt8) : ofBytes bs < 256 ^ bs.length := by
  induction bs with
  | nil => simp [ofBytes]
  | cons b bs ih =>
    have hb : b.toNat < 256 := b.toNat_lt
    rw [ofBytes_cons, List.length_cons, pow_succ']
    omega

/-- Bytes of a known number are determined by what they write. -/
theorem ofBytes_inj : ∀ {bs cs : List UInt8}, bs.length = cs.length → ofBytes bs = ofBytes cs → bs = cs
  | [], [], _, _ => rfl
  | b :: bs, c :: cs, hl, e => by
    have hb : b.toNat < 256 := b.toNat_lt
    have hc : c.toNat < 256 := c.toNat_lt
    rw [ofBytes_cons, ofBytes_cons] at e
    have head : b = c := UInt8.toNat_inj.1 (by omega)
    have rest : bs = cs := ofBytes_inj (by simpa using hl) (by omega)
    rw [head, rest]

end Word

/-! ## The number a chunk writes -/

theorem Root.toList_ofBytes {bs : List UInt8} (hb : bs.length ≤ 32) :
    (ofBytes bs).toList = bs ++ List.replicate (32 - bs.length) 0 := by
  refine List.ext_getElem (by simp; omega) fun k hk _ => ?_
  have read := getElem?_ofBytes bs (show k < 32 by simpa using hk)
  rw [List.getElem?_eq_getElem hk, Option.some.injEq] at read
  rw [read, List.getD_eq_getElem?_getD, List.getElem_append]
  split
  · rename_i h
    rw [List.getElem?_eq_getElem h, Option.getD_some]
  · rename_i h
    rw [List.getElem?_eq_none (Nat.not_lt.1 h), List.getElem_replicate, Option.getD_none]

namespace Chunk

/-- The number that all bytes of a chunk write, little-endian. -/
def value (c : Root) : Nat := Word.ofBytes c.toList

theorem value_ofBytes {bs : List UInt8} (hb : bs.length ≤ 32) :
    value (Root.ofBytes bs) = Word.ofBytes bs := by
  rw [value, Root.toList_ofBytes hb, Word.ofBytes_append, Word.ofBytes_zeros, Nat.mul_zero, Nat.add_zero]

theorem value_inj {c c' : Root} (e : value c = value c') : c = c' :=
  Root.eq_of_toList (Word.ofBytes_inj (by simp) e)

theorem value_ofLength {n : Nat} (hn : n < Word.bound) : value (ofLength n) = n := by
  rw [ofLength, value_ofBytes (by simp), Word.ofBytes_toBytes]
  exact Nat.mod_eq_of_lt hn

/-- The chunk of a length is the one chunk that writes it. -/
theorem eq_ofLength_iff {c : Root} {n : Nat} (hn : n < Word.bound) : c = ofLength n ↔ value c = n := by
  constructor
  · rintro rfl
    exact value_ofLength hn
  · intro e
    exact value_inj (e.trans (value_ofLength hn).symm)

/-- A length is read from the low word of the number. -/
theorem lengthOf_eq (c : Root) : lengthOf c = value c % Word.bound := by
  have low : (c.toList.take 8).length = 8 := by simp
  have split : value c = lengthOf c + 256 ^ 8 * Word.ofBytes (c.toList.drop 8) := by
    rw [value, ← List.take_append_drop 8 c.toList, Word.ofBytes_append, low,
      List.take_append_drop, lengthOf]
  have fits : lengthOf c < 256 ^ 8 := by
    have := Word.ofBytes_lt (c.toList.take 8)
    rwa [low] at this
  rw [split]
  exact ((Nat.add_mul_mod_self_left _ _ _).trans (Nat.mod_eq_of_lt fits)).symm

end Chunk

/-! ## Lists from trees -/

namespace MerkleList

variable {h : Hasher} {backing : Node} {limit : Nat} {l : MerkleList}

/-- The node of the length chunk is the right half of a pair. -/
theorem get_lengthGindex_iff {n : Node} :
    backing.get lengthGindex = .ok n ↔ ∃ serial content, backing = .pair serial content n := by
  constructor
  · intro e
    cases backing with
    | leaf i c => cases e
    | pair serial content r =>
      cases e
      exact ⟨serial, content, rfl⟩
  · rintro ⟨serial, content, rfl⟩
    rfl

/-- What a tree with a leaf for the length is taken for. -/
theorem ofBacking_of_leaf {i : Ident} {c : Root} (hc : backing.get lengthGindex = .ok (.leaf i c)) :
    ofBacking h backing limit =
      if limit < Chunk.value c % Word.bound then
        .error (.overCapacity (Chunk.value c % Word.bound) limit)
      else .ok ⟨h, ⟨backing, Word.depthFor limit + 1⟩, limit, Chunk.value c % Word.bound⟩ := by
  obtain ⟨serial, content, rfl⟩ := get_lengthGindex_iff.1 hc
  rw [ofBacking_pair, Chunk.lengthOf_eq]

/-- A tree is taken up only from a leaf whose low word keeps to the limit. -/
theorem exists_leaf_of_ofBacking (e : ofBacking h backing limit = .ok l) :
    ∃ i c, backing.get lengthGindex = .ok (.leaf i c) ∧ Chunk.value c % Word.bound ≤ limit ∧
      l = ⟨h, ⟨backing, Word.depthFor limit + 1⟩, limit, Chunk.value c % Word.bound⟩ := by
  rcases backing with ⟨i, c⟩ | ⟨serial, content, ⟨i, c⟩ | ⟨s, a, b⟩⟩
  · cases e
  · rw [ofBacking_of_leaf (i := i) (c := c) rfl] at e
    split at e
    · cases e
    · rename_i room
      cases e
      exact ⟨i, c, rfl, Nat.not_lt.1 room, rfl⟩
  · cases e

/-- The chunk of every length up to the limit is read back as that length. A tree that is taken up has a
leaf for its length, whose low word keeps to the limit and is the length of the list; where the leaf
writes no more than a word, it is the chunk of that length. A leaf that writes more than the limit is
refused by its low word, unless it writes more than a word and its low word keeps to the limit: then
the list is as long as the low word says. A pair in the place of the leaf is no chunk, and in a leaf
there is no such place. -/
theorem ofBacking_reads_length (h : Hasher) (backing : Node) {limit : Nat} (hl : limit < Word.bound) :
    (∀ n ≤ limit, ∀ i, backing.get lengthGindex = .ok (.leaf i (Chunk.ofLength n)) →
      ofBacking h backing limit = .ok ⟨h, ⟨backing, Word.depthFor limit + 1⟩, limit, n⟩) ∧
    (∀ l, ofBacking h backing limit = .ok l →
      ∃ i c, backing.get lengthGindex = .ok (.leaf i c) ∧
        l = ⟨h, ⟨backing, Word.depthFor limit + 1⟩, limit, Chunk.value c % Word.bound⟩ ∧
        l.length ≤ limit ∧ (Chunk.value c < Word.bound → c = Chunk.ofLength l.length)) ∧
    (∀ i c, backing.get lengthGindex = .ok (.leaf i c) → limit < Chunk.value c →
      ofBacking h backing limit = .error (.overCapacity (Chunk.value c % Word.bound) limit) ∨
      Word.bound ≤ Chunk.value c ∧ Chunk.value c % Word.bound ≤ limit ∧
        ofBacking h backing limit =
          .ok ⟨h, ⟨backing, Word.depthFor limit + 1⟩, limit, Chunk.value c % Word.bound⟩) ∧
    (∀ serial a b, backing.get lengthGindex = .ok (.pair serial a b) →
      ofBacking h backing limit = .error (.notALeaf 3)) ∧
    (∀ i c, backing = .leaf i c → ofBacking h backing limit = .error (.navigation 3 1)) := by
  refine ⟨fun n room i hc => ?_, fun l e => ?_, fun i c hc past => ?_, fun serial a b hb => ?_, ?_⟩
  · have hn : n < Word.bound := by omega
    rw [ofBacking_of_leaf hc, Chunk.value_ofLength hn, Nat.mod_eq_of_lt hn, if_neg (Nat.not_lt.2 room)]
  · obtain ⟨i, c, hc, room, rfl⟩ := exists_leaf_of_ofBacking e
    refine ⟨i, c, hc, rfl, room, fun hw => ?_⟩
    exact (Chunk.eq_ofLength_iff (Nat.mod_lt _ (by decide))).2 (Nat.mod_eq_of_lt hw).symm
  · rw [ofBacking_of_leaf hc]
    by_cases low : limit < Chunk.value c % Word.bound
    · exact .inl (if_pos low)
    · -- the value is past the limit and its low word is not, so the two differ
      have wide : Word.bound ≤ Chunk.value c := by
        by_contra hw
        rw [Nat.mod_eq_of_lt (Nat.not_le.1 hw)] at low
        exact low past
      exact .inr ⟨wide, Nat.not_lt.1 low, if_neg low⟩
  · obtain ⟨_, _, rfl⟩ := get_lengthGindex_iff.1 hb
    rfl
  · rintro i c rfl
    rfl

/-- The greatest length is read back under the greatest limit. -/
theorem ofBacking_longest :
    Word.bound - 1 < Word.bound ∧
      ofBacking .sha256 (.pair 1 (.leaf (.zero "sha256" 64) .zero)
          (.leaf (.made 0) (Chunk.ofLength (Word.bound - 1)))) (Word.bound - 1) =
        .ok ⟨.sha256, ⟨.pair 1 (.leaf (.zero "sha256" 64) .zero)
          (.leaf (.made 0) (Chunk.ofLength (Word.bound - 1))), 65⟩, Word.bound - 1, Word.bound - 1⟩ :=
  ⟨by decide, (ofBacking_reads_length .sha256 _ (by decide)).1 _ le_rfl (.made 0) rfl⟩

/-- A chunk that writes `2 ^ 64` is taken for the length zero, whatever the limit. -/
theorem ofBacking_not_exact :
    ¬ ∀ (h : Hasher) (backing : Node) (limit : Nat), limit < Word.bound →
      (∀ l, ofBacking h backing limit = .ok l →
        l.length ≤ limit ∧ ∃ i, backing.get lengthGindex = .ok (.leaf i (Chunk.ofLength l.length))) ∧
      (∀ i c, backing.get lengthGindex = .ok (.leaf i c) → limit < Chunk.value c →
        ∃ e, ofBacking h backing limit = .error e) := by
  intro exact
  let c : Root := .ofBytes [0, 0, 0, 0, 0, 0, 0, 0, 1]
  have value : Chunk.value c = Word.bound := Chunk.value_ofBytes (by decide)
  have refused := (exact .sha256 (.pair 1 (.leaf (.zero "sha256" 3) .zero) (.leaf (.made 0) c)) 8
    (by decide)).2 (.made 0) c rfl (by rw [value]; decide)
  obtain ⟨e, he⟩ := refused
  rw [ofBacking_of_leaf (i := .made 0) (c := c) rfl, value] at he
  cases he

end MerkleList

end SszMerkle
