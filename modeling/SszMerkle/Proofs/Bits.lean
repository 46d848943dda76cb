/-
Bits of a byte, and what a bitlist's bytes hold besides its content: the delimiter is the highest one
of the last byte, so the size of a bitlist is read off its bytes and its chunks are those of the bytes
with that one bit cleared. Size and chunks together determine the bytes.
-/
import SszMerkle.Proofs.Packing

namespace SszMerkle

/-! ## Bits of a byte -/

namespace Bits

variable {a b : UInt8} {j k : Nat}

theorem testBit_toNat (b : UInt8) (j : Nat) : b.toNat.testBit j = b.toBitVec.getLsbD j := rfl

theorem testBit_single (hk : k < 8) (hj : j < 8) : (single k).toNat.testBit j = decide (j = k) := by
  exact (by decide : ∀ k < 8, ∀ j < 8, (single k).toNat.testBit j = decide (j = k)) k hk j hj

theorem testBit_setInByte (hk : k < 8) (hj : j < 8) (value : Bool) :
    (setInByte b k value).toNat.testBit j = if j = k then value else b.toNat.testBit j := by
  have one := testBit_single hk hj
  unfold setInByte
  rw [testBit_toNat] at one ⊢
  cases value with
  | true =>
    simp only [if_true, UInt8.toBitVec_or, BitVec.getLsbD_or, one, testBit_toNat]
    by_cases e : j = k <;> simp [e]
  | false =>
    simp only [Bool.false_eq_true, if_false, UInt8.toBitVec_and, UInt8.toBitVec_not,
      BitVec.getLsbD_and, BitVec.getLsbD_not, hj, one, testBit_toNat]
    by_cases e : j = k <;> simp [e]

theorem eq_of_testBit (e : ∀ j < 8, a.toNat.testBit j = b.toNat.testBit j) : a = b := by
  apply UInt8.toNat_inj.1
  apply Nat.eq_of_testBit_eq
  intro j
  by_cases hj : j < 8
  · exact e j hj
  · have high : ∀ c : UInt8, c.toNat.testBit j = false := fun c =>
      Nat.testBit_lt_two_pow (c.toNat_lt.trans_le (Nat.pow_le_pow_right (by norm_num) (by omega)))
    rw [high, high]

theorem toNat_pos (hb : b ≠ 0) : b.toNat ≠ 0 := fun e => hb (UInt8.toNat_inj.1 e)

theorem topBit_lt (b : UInt8) : topBit b < 8 := by
  unfold topBit Word.topBit
  by_cases hb : b.toNat = 0
  · rw [hb]
    decide
  · exact (Nat.log2_lt hb).2 b.toNat_lt

theorem testBit_topBit (hb : b ≠ 0) : b.toNat.testBit (topBit b) = true :=
  Nat.testBit_log2 (toNat_pos hb)

theorem testBit_of_topBit_lt (hj : topBit b < j) : b.toNat.testBit j = false := by
  apply Nat.testBit_lt_two_pow
  exact Nat.lt_log2_self.trans_le (Nat.pow_le_pow_right (by norm_num) hj)

/-- A byte other than zero is determined by its highest one and what lies below it. -/
theorem eq_of_topBit (ha : a ≠ 0) (hb : b ≠ 0) (top : topBit a = topBit b)
    (below : ∀ j < topBit a, a.toNat.testBit j = b.toNat.testBit j) : a = b := by
  refine eq_of_testBit fun j _ => ?_
  rcases lt_trichotomy j (topBit a) with hj | rfl | hj
  · exact below j hj
  · rw [testBit_topBit ha, top, testBit_topBit hb]
  · rw [testBit_of_topBit_lt hj, testBit_of_topBit_lt (top ▸ hj)]

end Bits

/-! ## The delimiter -/

namespace Bitlist

variable {bits init : List UInt8} {last : UInt8} {limit : Nat}

theorem size_concat (init : List UInt8) (last : UInt8) :
    size (init ++ [last]) = init.length * 8 + Bits.topBit last := by
  simp [size]

/-- What passes the check has a delimiter in its last byte. -/
theorem eq_concat_of_check (e : check bits limit = .ok ()) :
    ∃ init last, bits = init ++ [last] ∧ last ≠ 0 ∧ size bits ≤ limit := by
  unfold check at e
  split at e
  · cases e
  · rename_i last hlast
    obtain ⟨init, rfl⟩ := List.getLast?_eq_some_iff.1 hlast
    split at e
    · cases e
    · rename_i hzero
      split at e
      · cases e
      · rename_i hlimit
        exact ⟨init, last, rfl, by simpa using hzero, Nat.not_lt.1 hlimit⟩

end Bitlist

namespace Chunk

variable {i k n : Nat} {init init' : List UInt8} {last last' : UInt8}

theorem flatMap_encode_uint8 (bs : List BasicType.uint8.Carrier) :
    bs.flatMap BasicType.uint8.encode = bs := by
  induction bs with
  | nil => rfl
  | cons b bs ih =>
    have byte : BasicType.uint8.encode b = [b] := congrArg (fun c => [c]) UInt8.ofNat_toNat
    rw [List.flatMap_cons, byte, ih]
    rfl

theorem getElem?_ofBytes (bs : List UInt8) (i : Nat) (hk : k < 32) :
    (ofBytes bs i).toList[k]? = some (bs.getD (32 * i + k) 0) := by
  have byte := getElem?_packed (t := .uint8) bs i hk
  exact byte.trans (congrArg (fun s : List UInt8 => some (s.getD (32 * i + k) 0))
    (flatMap_encode_uint8 bs))

theorem getD_concat (init : List UInt8) (last : UInt8) (j : Nat) :
    (init ++ [last]).getD j 0 = if j = init.length then last else init.getD j 0 := by
  simp only [List.getD_eq_getElem?_getD]
  rcases lt_trichotomy j init.length with hj | rfl | hj
  · rw [List.getElem?_append_left hj, if_neg hj.ne]
  · simp
  · rw [List.getElem?_eq_none (by simpa using hj), List.getElem?_eq_none hj.le, if_neg hj.ne']

/-- The chunks of a bitlist are those of its bytes without the delimiter. -/
theorem getElem?_ofBitlist (hn : n = init.length * 8 + Bits.topBit last) (i : Nat) (hk : k < 32) :
    (ofBitlist (init ++ [last]) n i).toList[k]? =
      some ((init ++ [Bits.setInByte last (n % 8) false]).getD (32 * i + k) 0) := by
  have top := Bits.topBit_lt last
  unfold ofBitlist
  rw [getD_concat]
  by_cases hi : i = n / 256
  · -- the chunk of the delimiter
    rw [if_pos hi, Root.getElem?_ofBytes _ hk, List.getD_eq_getElem?_getD, List.getElem?_modify,
      getElem?_ofBytes _ _ hk, getD_concat, Option.map_eq_map, Option.map_some, Option.getD_some]
    by_cases e : 32 * i + k = init.length
    · rw [if_pos e, if_pos e, if_pos (by omega), show n % 256 % 8 = n % 8 by omega]
    · rw [if_neg e, if_neg e, if_neg (by omega)]
  · rw [if_neg hi, getElem?_ofBytes _ _ hk, getD_concat, if_neg (by omega), if_neg (by omega)]

/-- The bytes of a bitlist are determined by its size and the chunks of its content. -/
theorem ofBitlist_inj {bits bits' : List UInt8} {limit : Nat} (hb : Bitlist.check bits limit = .ok ())
    (hb' : Bitlist.check bits' limit = .ok ()) (hn : Bitlist.size bits = Bitlist.size bits')
    (e : ∀ i < countOfBits (Bitlist.size bits),
      ofBitlist bits (Bitlist.size bits) i = ofBitlist bits' (Bitlist.size bits') i) : bits = bits' := by
  obtain ⟨init, last, rfl, hlast, -⟩ := Bitlist.eq_concat_of_check hb
  obtain ⟨init', last', rfl, hlast', -⟩ := Bitlist.eq_concat_of_check hb'
  have size := Bitlist.size_concat init last
  have size' := Bitlist.size_concat init' last'
  rw [← hn] at size' e
  generalize Bitlist.size (init ++ [last]) = n at size size' e
  have top := Bits.topBit_lt last
  have top' := Bits.topBit_lt last'
  have hlen : init.length = init'.length := by omega
  -- a byte that holds content lies in one of the chunks
  have content : ∀ j, 8 * j < n → (init ++ [Bits.setInByte last (n % 8) false]).getD j 0 =
      (init' ++ [Bits.setInByte last' (n % 8) false]).getD j 0 := by
    intro j hj
    have filled := le_groups_mul n (show 0 < 256 by decide)
    have chunk := congrArg (·.toList[j % 32]?) (e (j / 32) (by unfold countOfBits; omega))
    have hk : j % 32 < 32 := Nat.mod_lt j (by decide)
    simpa only [getElem?_ofBitlist size _ hk, getElem?_ofBitlist size' _ hk, Nat.div_add_mod,
      Option.some.injEq] using chunk
  have inits : init = init' := by
    apply List.ext_getElem hlen
    intro j hj hj'
    have byte := content j (by omega)
    rw [getD_concat, getD_concat, if_neg (by omega), if_neg (by omega)] at byte
    simpa [hj, hj'] using byte
  have lasts : last = last' := by
    refine Bits.eq_of_topBit hlast hlast' (by omega) fun j hj => ?_
    have byte := content init.length (by omega)
    rw [getD_concat, getD_concat, if_pos rfl, if_pos hlen] at byte
    have bit := congrArg (·.toNat.testBit j) byte
    simp only [Bits.testBit_setInByte (show n % 8 < 8 by omega) (show j < 8 by omega)] at bit
    rwa [if_neg (by omega), if_neg (by omega)] at bit
  rw [inits, lasts]

end Chunk

end SszMerkle
