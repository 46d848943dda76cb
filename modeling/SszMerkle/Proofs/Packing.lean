/-
Packing loses nothing but a length. Byte `k` of chunk `i` is byte `32 * i + k` of the packed values
written one after the other, and zero past their end, so chunks and a number of values determine the
values. A bitlist is packed with its delimiter cleared; its bytes are determined by its chunks and its
size, which is where the delimiter was.
-/
import SszMerkle.Chunk
import SszMerkle.Proofs.Word

namespace SszMerkle

/-! ## Little-endian bytes -/

namespace Word

theorem ofBytes_toBytes (v size : Nat) : ofBytes (toBytes v size) = v % 256 ^ size := by
  induction size generalizing v with
  | zero => simp [toBytes, ofBytes, Nat.mod_one]
  | succ n ih =>
    have lowest : (UInt8.ofNat v).toNat = v % 256 := UInt8.toNat_ofNat'
    have cons : ofBytes (toBytes v (n + 1)) =
        (UInt8.ofNat v).toNat + 256 * ofBytes (toBytes (v / 256) n) := rfl
    rw [cons, ih, lowest, pow_succ', Nat.mod_mul]

/-- A number that fits is determined by its bytes. -/
theorem toBytes_inj {v w size : Nat} (hv : v < 256 ^ size) (hw : w < 256 ^ size)
    (e : toBytes v size = toBytes w size) : v = w := by
  have bytes := congrArg ofBytes e
  rwa [ofBytes_toBytes, ofBytes_toBytes, Nat.mod_eq_of_lt hv, Nat.mod_eq_of_lt hw] at bytes

end Word

/-! ## Bytes of a chunk -/

namespace Root

theorem eq_of_toList {a b : Root} (e : a.toList = b.toList) : a = b := by
  obtain ⟨a⟩ := a
  obtain ⟨b⟩ := b
  exact congrArg Root.mk (Vector.toList_inj.1 e)

/-- Chunks are equal byte for byte. -/
theorem eq_of_getElem? {a b : Root} (e : ∀ k < 32, a.toList[k]? = b.toList[k]?) : a = b := by
  refine eq_of_toList (List.ext_getElem? fun k => ?_)
  rcases Nat.lt_or_ge k 32 with hk | hk
  · exact e k hk
  · rw [List.getElem?_eq_none (by simpa using hk), List.getElem?_eq_none (by simpa using hk)]

theorem getElem?_ofBytes (bs : List UInt8) {k : Nat} (hk : k < 32) :
    (ofBytes bs).toList[k]? = some (bs.getD k 0) := by
  simp [toList, ofBytes, hk]

theorem take_ofBytes {bs : List UInt8} (hb : bs.length ≤ 32) :
    (ofBytes bs).toList.take bs.length = bs := by
  refine List.ext_getElem? fun k => ?_
  rw [List.getElem?_take]
  split
  · rename_i hk
    rw [getElem?_ofBytes bs (by omega), List.getD_eq_getElem?_getD, List.getElem?_eq_getElem hk]
    rfl
  · rename_i hk
    rw [List.getElem?_eq_none (Nat.not_lt.1 hk)]

end Root

/-! ## Values side by side -/

section FlatMap

variable {α β : Type} {f : α → List β} {c : Nat}

theorem length_flatMap_const (hf : ∀ a, (f a).length = c) (l : List α) :
    (l.flatMap f).length = l.length * c := by
  induction l with
  | nil => simp
  | cons a l ih => rw [List.flatMap_cons, List.length_append, hf, ih, List.length_cons]; ring

theorem drop_flatMap_const (hf : ∀ a, (f a).length = c) (l : List α) (n : Nat) :
    (l.drop n).flatMap f = (l.flatMap f).drop (n * c) := by
  induction n generalizing l with
  | zero => simp
  | succ n ih =>
    cases l with
    | nil => simp
    | cons a l =>
      rw [List.drop_succ_cons, ih, List.flatMap_cons, Nat.succ_mul, Nat.add_comm, ← hf a,
        List.drop_length_add_append]

theorem take_flatMap_const (hf : ∀ a, (f a).length = c) (l : List α) (n : Nat) :
    (l.take n).flatMap f = (l.flatMap f).take (n * c) := by
  induction n generalizing l with
  | zero => simp
  | succ n ih =>
    cases l with
    | nil => simp
    | cons a l =>
      rw [List.take_succ_cons, List.flatMap_cons, List.flatMap_cons, ih, Nat.succ_mul, Nat.add_comm,
        ← hf a, List.take_length_add_append]

/-- Parts of one length are read off their concatenation. -/
theorem flatMap_inj (hf : ∀ a, (f a).length = c) (inj : ∀ a b, f a = f b → a = b) {l m : List α}
    (hl : l.length = m.length) (e : l.flatMap f = m.flatMap f) : l = m := by
  induction l generalizing m with
  | nil => exact (List.length_eq_zero_iff.1 hl.symm).symm
  | cons a l ih =>
    cases m with
    | nil => simp at hl
    | cons b m =>
      rw [List.flatMap_cons, List.flatMap_cons] at e
      obtain ⟨head, rest⟩ := List.append_inj e (by rw [hf, hf])
      rw [inj a b head, ih (by simpa using hl) rest]

end FlatMap

namespace BasicType

variable (t : BasicType)

theorem toNat_lt (v : t.Carrier) : t.toNat v < 256 ^ t.size := by
  cases t with
  | uint8 => exact UInt8.toNat_lt v
  | uint16 => exact UInt16.toNat_lt v
  | uint32 => exact UInt32.toNat_lt v
  | uint64 => exact UInt64.toNat_lt v
  | uint128 => exact BitVec.isLt v
  | boolean => exact (Bool.toNat_lt v).trans (by decide)

theorem toNat_inj {v w : t.Carrier} (e : t.toNat v = t.toNat w) : v = w := by
  cases t with
  | uint8 => exact UInt8.toNat_inj.1 e
  | uint16 => exact UInt16.toNat_inj.1 e
  | uint32 => exact UInt32.toNat_inj.1 e
  | uint64 => exact UInt64.toNat_inj.1 e
  | uint128 => exact BitVec.eq_of_toNat_eq e
  | boolean => exact (by decide : ∀ a b : Bool, a.toNat = b.toNat → a = b) v w e

theorem encode_inj (v w : t.Carrier) (e : t.encode v = t.encode w) : v = w :=
  t.toNat_inj (Word.toBytes_inj (t.toNat_lt v) (t.toNat_lt w) e)

theorem perChunk_pos : 0 < t.perChunk := by cases t <;> decide

/-- The values that fill a chunk fill it to its last byte. -/
theorem perChunk_mul_size : t.perChunk * t.size = 32 := by cases t <;> rfl

end BasicType

namespace Chunk

variable {t : BasicType}

/-- Groups of one size hold what they have room for. -/
theorem groups_le_iff {n k size : Nat} (hs : 0 < size) : groups n size ≤ k ↔ n ≤ k * size := by
  unfold groups
  split
  · rename_i h0
    rw [Nat.add_zero]
    exact Nat.div_le_iff_le_mul_of_dvd hs.ne' (Nat.dvd_of_mod_eq_zero h0)
  · rename_i h0
    rw [Nat.succ_le_iff, Nat.div_lt_iff_lt_mul hs]
    refine ⟨le_of_lt, fun hle => lt_of_le_of_ne hle fun e => h0 ?_⟩
    rw [e, Nat.mul_mod_left]

theorem le_groups_mul (n : Nat) {size : Nat} (hs : 0 < size) : n ≤ groups n size * size :=
  (groups_le_iff hs).1 le_rfl

theorem groups_mono {n m size : Nat} (hs : 0 < size) (hn : n ≤ m) : groups n size ≤ groups m size :=
  (groups_le_iff hs).2 (hn.trans (le_groups_mul m hs))

/-- Byte `k` of chunk `i` is byte `32 * i + k` of the values written one after the other. -/
theorem getElem?_packed (vs : List t.Carrier) (i : Nat) {k : Nat} (hk : k < 32) :
    (packed t vs i).toList[k]? = some ((vs.flatMap t.encode).getD (32 * i + k) 0) := by
  have segment : ((vs.drop (i * t.perChunk)).take t.perChunk).flatMap t.encode =
      ((vs.flatMap t.encode).drop (32 * i)).take 32 := by
    rw [take_flatMap_const t.length_encode, drop_flatMap_const t.length_encode, Nat.mul_assoc,
      t.perChunk_mul_size, Nat.mul_comm i 32]
  rw [packed, Root.getElem?_ofBytes _ hk, segment, List.getD_eq_getElem?_getD,
    List.getD_eq_getElem?_getD, List.getElem?_take_of_lt hk, List.getElem?_drop]

/-- Values of a known number are determined by the chunks they fill. -/
theorem packed_inj {vs ws : List t.Carrier} (hl : vs.length = ws.length)
    (e : ∀ i < countOf t vs.length, packed t vs i = packed t ws i) : vs = ws := by
  refine flatMap_inj t.length_encode t.encode_inj hl ?_
  have length := length_flatMap_const t.length_encode vs
  have length' := length_flatMap_const t.length_encode ws
  apply List.ext_getElem (by rw [length, length', hl])
  intro j hj hj'
  -- byte `j` lies in chunk `j / 32`, which is one of those that the values fill
  have filled : vs.length * t.size ≤ countOf t vs.length * 32 := by
    rw [← t.perChunk_mul_size, ← Nat.mul_assoc]
    exact Nat.mul_le_mul_right _ (le_groups_mul _ t.perChunk_pos)
  have chunk := congrArg (·.toList[j % 32]?) (e (j / 32) (by omega))
  have hk : j % 32 < 32 := Nat.mod_lt j (by decide)
  simp only [getElem?_packed _ _ hk, Nat.div_add_mod, Option.some.injEq,
    List.getD_eq_getElem?_getD] at chunk
  rwa [List.getElem?_eq_getElem hj, List.getElem?_eq_getElem hj'] at chunk

/-- A length is read back from its chunk. -/
theorem lengthOf_ofLength {n : Nat} (hn : n < Word.bound) : lengthOf (ofLength n) = n := by
  have size : (Word.toBytes n 8).length = 8 := Word.length_toBytes n 8
  have bytes : (ofLength n).toList.take 8 = Word.toBytes n 8 := by
    have short : (Word.toBytes n 8).length ≤ 32 := by rw [size]; decide
    have first := Root.take_ofBytes short
    rwa [size] at first
  rw [lengthOf, bytes, Word.ofBytes_toBytes]
  exact Nat.mod_eq_of_lt hn

/-- A length is determined by its chunk. -/
theorem ofLength_inj {n m : Nat} (hn : n < Word.bound) (hm : m < Word.bound)
    (e : ofLength n = ofLength m) : n = m := by
  rw [← lengthOf_ofLength hn, e, lengthOf_ofLength hm]

end Chunk

end SszMerkle
