/-
Bitlists as chunks of their bits. Cleared of the delimiter, the bytes of a bitlist spell out its bits
and zeros, so the chunks that are hashed are those of the bits alone, wherever the delimiter stood; where
it stood in a chunk of its own, that chunk is not one of them. In a row of chunks with another mixed in,
each place of the content has a gindex, and its proof shows the chunk there or zero.
-/
import SszMerkle.Proofs.Composition
import SszMerkle.Proofs.Delimiter
import SszMerkle.Proofs.MerkleList
import SszMerkle.Proofs.Value

namespace SszMerkle

variable {h : Hasher}

/-! ## Chunks of bits -/

namespace Bits

variable {k : Nat} {last : UInt8}

/-- The byte of eight bits, lowest first. -/
def pack (bit : Nat → Bool) : UInt8 := UInt8.ofNat (Nat.ofBits fun j : Fin 8 => bit j)

theorem testBit_pack (bit : Nat → Bool) (hk : k < 8) : (pack bit).toNat.testBit k = bit k := by
  rw [pack, UInt8.toNat_ofNat', Nat.testBit_mod_two_pow, Nat.testBit_ofBits_lt _ _ hk, decide_eq_true hk,
    Bool.true_and]

theorem getD_unpack (bits : List UInt8) (i : Nat) :
    (unpack bits).getD i false = (bits.getD (i / 8) 0).toNat.testBit (i % 8) := by
  rw [List.getD_eq_getElem?_getD, List.getD_eq_getElem?_getD, getElem?_unpack]
  cases bits[i / 8]? with
  | some b => rfl
  | none => simp

theorem getD_append_zeros (xs : List Bool) (n i : Nat) :
    (xs ++ List.replicate n false).getD i false = xs.getD i false := by
  simp only [List.getD_eq_getElem?_getD, List.getElem?_append, List.getElem?_replicate]
  split
  · rfl
  · rename_i past
    rw [List.getElem?_eq_none (Nat.not_lt.1 past)]
    split <;> rfl

theorem ofByte_setInByte (b : UInt8) (hk : k < 8) (value : Bool) :
    ofByte (setInByte b k value) = (ofByte b).set k value := by
  refine List.ext_getElem? fun j => ?_
  rw [List.getElem?_set, length_ofByte]
  rcases Nat.lt_or_ge j 8 with hj | hj
  · rw [getElem?_ofByte _ hj, getElem?_ofByte _ hj, testBit_setInByte hk hj]
    by_cases e : j = k
    · rw [if_pos e, if_pos e.symm, if_pos hk]
    · rw [if_neg e, if_neg (Ne.symm e)]
  · rw [if_neg (by omega), List.getElem?_eq_none (by simpa using hj),
      List.getElem?_eq_none (by simpa using hj)]

/-- Without the delimiter the bytes of a bitlist are its bits, and zeros behind them. -/
theorem unpack_cleared (init : List UInt8) (hlast : last ≠ 0) :
    unpack (init ++ [setInByte last (topBit last) false]) =
      Bitlist.content (init ++ [last]) ++ List.replicate (8 - topBit last) false := by
  have top := topBit_lt last
  have below : ((ofByte last).take (topBit last)).length = topBit last := by simp [top.le]
  have zeros : 8 - topBit last = 7 - topBit last + 1 := by omega
  rw [unpack_append, unpack_cons, unpack_nil, List.append_nil, ofByte_setInByte last top,
    Bitlist.content_concat, List.append_assoc, zeros, List.replicate_succ]
  congr 1
  conv_lhs => rw [ofByte_eq hlast]
  rw [List.set_append_right _ _ below.le, below, Nat.sub_self, List.set_cons_zero]

end Bits

namespace Chunk

variable {bits : List UInt8} {xs : List Bool} {k : Nat}

/-- Chunk `i` of a sequence of bits, with zeros past its end. -/
def ofBits (xs : List Bool) (i : Nat) : Root :=
  ⟨Vector.ofFn fun k => Bits.pack fun j => xs.getD (256 * i + 8 * k + j) false⟩

theorem getElem?_ofBits (xs : List Bool) (i : Nat) (hk : k < 32) : (ofBits xs i).toList[k]? =
    some (Bits.pack fun j => xs.getD (256 * i + 8 * k + j) false) := by
  simp [Root.toList, ofBits, hk]

/-- The chunks of a bitlist are those of its bits. -/
theorem ofBitlist_eq_ofBits (e : Bits.unpack bits = Bitlist.delimited xs) (i : Nat) :
    ofBitlist bits xs.length i = ofBits xs i := by
  obtain ⟨init, last, rfl, hlast, rfl⟩ := Bitlist.eq_concat_of_unpack e
  have top := Bits.topBit_lt last
  have size := Bitlist.size_concat init last
  have place : Bitlist.size (init ++ [last]) % 8 = Bits.topBit last := by omega
  rw [Bitlist.length_content_concat]
  refine Root.eq_of_getElem? fun k hk => ?_
  rw [getElem?_ofBitlist size i hk, getElem?_ofBits _ i hk, Option.some.injEq, place]
  refine Bits.eq_of_testBit fun j hj => ?_
  -- bit `j` of byte `k` of the chunk is one of the bits, or a zero behind them
  have bit := Bits.getD_unpack (init ++ [Bits.setInByte last (Bits.topBit last) false])
    (256 * i + 8 * k + j)
  rw [show (256 * i + 8 * k + j) / 8 = 32 * i + k by omega,
    show (256 * i + 8 * k + j) % 8 = j by omega, Bits.unpack_cleared init hlast,
    Bits.getD_append_zeros] at bit
  rw [Bits.testBit_pack _ hj, ← bit]

theorem countOfBits_eq (n : Nat) : countOfBits n = (n + 255) / 256 := by
  unfold countOfBits groups
  split <;> omega

end Chunk

/-! ## A row of chunks with one mixed in -/

namespace Provable

variable {limit i : Nat}

/-- The gindex of a place of the content leads to the left and then to the place. -/
theorem exists_tail_of_place (hl : limit ≤ 2 ^ 62) (hi : i < 2 ^ Word.depthFor limit) :
    ∃ g inner : Gindex, Gindex.ofPosition i (Word.depthFor limit + 1) = .ok g ∧ 0 < g.val ∧
      g.tail? = some inner ∧ g.startsLeft = true ∧ g.path = false :: inner.path ∧
      0 < inner.val ∧ inner.depth = Word.depthFor limit ∧ inner.position = i := by
  obtain ⟨g, hg, hpath⟩ := MerkleList.gindex_of_position hl hi
  obtain ⟨hv, hd, hp⟩ := Gindex.ofPosition_ok hg
  obtain ⟨inner, ht, hiv, hid, hip⟩ := Gindex.tail?_eq hv hd
  have first := Gindex.path_tail? hv hd ht
  have left : g.startsLeft = true := by
    rw [hpath, List.cons.injEq] at first
    simpa using first.1.symm
  rw [left] at first
  refine ⟨g, inner, hg, hv, ht, left, first, hiv, hid, ?_⟩
  rw [hip, hp, Nat.mod_eq_of_lt hi]

/-- Under a chunk that is mixed in, every place of a row of chunks is proved: by its gindex the chunk
there, or zero where there is none. -/
theorem mixed_flat_proves (h : Hasher) (count : Nat) (hl : limit ≤ 2 ^ 62) (leaf : Nat → Root)
    (mixin : Root) (hi : i < 2 ^ Word.depthFor limit) :
    ∃ g p, Gindex.ofPosition i (Word.depthFor limit + 1) = .ok g ∧
      (mixed h (flat h count limit fun i => return leaf i) mixin).prove g = pure p ∧
      (mixed h (flat h count limit fun i => return leaf i) mixin).root = pure p.root ∧
      p.verify h g (Padded.clip (min count limit) leaf i) = true := by
  have word : limit < Word.bound := by rw [Word.bound_eq]; omega
  obtain ⟨g, inner, hg, hv, ht, left, hpath, hiv, hid, hip⟩ := exists_tail_of_place hl hi
  obtain ⟨p, opens, -, -, verifies⟩ := openTree_above_leaves h count word hiv hid.le leaf
  obtain ⟨prove, root⟩ := opens (StateM Store) fun _ _ => return none
  have prove : (flat h count limit fun i => return leaf i).prove inner = pure p := prove
  have root : (flat h count limit fun i => return leaf i).root = pure p.root := root
  refine ⟨g, p.mixIn h mixin, hg, ?_, ?_, ?_⟩
  · simp only [mixed, ht, left, if_true, prove, pure_bind]
  · simp only [mixed, root, pure_bind]
    rfl
  · have shows := (Proof.Shows.iff_verifyBranch hiv).2 verifies
    rw [Proof.verify_iff_shows hv, hpath]
    rw [Padded.rootAt, hid, hip, Nat.sub_self] at shows
    exact shows.mixIn mixin

end Provable

/-! ## Bitlists -/

namespace Bitlist

variable {xs : List Bool} {bits : List UInt8}

/-- A bitlist is the row of the chunks of its bits, and its length. -/
theorem provable_eq (e : Bits.unpack bits = delimited xs) (limit : Nat) :
    Provable.bitlist h limit bits =
      .mixed h (.flat h ((xs.length + 255) / 256) ((limit + 255) / 256) fun i => return Chunk.ofBits xs i)
        (Chunk.ofLength xs.length) := by
  simp only [Provable.bitlist, (reads_of_unpack e).size, Chunk.countOfBits_eq,
    Chunk.ofBitlist_eq_ofBits e]

/-- Written as a bitlist, a sequence of bits has the root of the row of the chunks of its bits, with its
length mixed in, whatever the limit. Where it keeps to the limit, each place of the content is proved
under that root, by the gindex of the place: where there is a chunk, the chunk of the bits, and zero
everywhere else. -/
theorem chunks_hashed_and_proved (h : Hasher) (xs : List Bool) {limit : Nat} (hl : limit < Word.bound) :
    ∃ bits, ofBits xs = .ok bits ∧
      (Provable.bitlist h limit bits).root = (do
        let content ← merkleize h ((xs.length + 255) / 256) ((limit + 255) / 256)
          fun i => return Chunk.ofBits xs i
        return mixInLength h content xs.length) ∧
      (xs.length ≤ limit → ∀ i < 2 ^ Word.depthFor ((limit + 255) / 256),
        ∃ g p, Gindex.ofPosition i (Word.depthFor ((limit + 255) / 256) + 1) = .ok g ∧
          (Provable.bitlist h limit bits).prove g = pure p ∧
          (Provable.bitlist h limit bits).root = pure p.root ∧
          p.verify h g (if i < (xs.length + 255) / 256 then Chunk.ofBits xs i else .zero) = true) := by
  obtain ⟨bits, hwritten, e⟩ := ofBits_ok xs
  refine ⟨bits, hwritten, ?_⟩
  rw [provable_eq e]
  refine ⟨rfl, fun room i hi => ?_⟩
  have count : min ((xs.length + 255) / 256) ((limit + 255) / 256) = (xs.length + 255) / 256 := by omega
  have fits : (limit + 255) / 256 ≤ 2 ^ 62 := by rw [Word.bound_eq] at hl; omega
  have proved := Provable.mixed_flat_proves h ((xs.length + 255) / 256) fits (Chunk.ofBits xs)
    (Chunk.ofLength xs.length) hi
  rwa [count] at proved

/-- After 256 ones the delimiter stands in a chunk of its own, and in the place of this chunk zero is
proved. -/
theorem zero_proved_past_full_chunk :
    let bits : List UInt8 := List.replicate 32 255 ++ [1]
    let second : Gindex := ⟨5, by decide⟩
    ofBits (List.replicate 256 true) = .ok bits ∧
    ∃ p, (Provable.bitlist .sha256 512 bits).prove second = pure p ∧
      (Provable.bitlist .sha256 512 bits).root = pure p.root ∧ p.verify .sha256 second .zero = true := by
  intro bits second
  have written : ofBits (List.replicate 256 true) = .ok bits := ofBits_eq_ok_iff.2 (by decide +kernel)
  obtain ⟨_, same, -, proved⟩ :=
    chunks_hashed_and_proved .sha256 (List.replicate 256 true) (show 512 < Word.bound by decide)
  obtain rfl := Except.ok.inj (written.symm.trans same)
  rw [List.length_replicate] at proved
  obtain ⟨g, p, hg, hprove, hroot, hverify⟩ := proved (by decide) 1 (by decide)
  obtain rfl : second = g := Except.ok.inj ((by decide : _ = Except.ok second).symm.trans hg)
  exact ⟨written, p, hprove, hroot, hverify⟩

end Bitlist

end SszMerkle
