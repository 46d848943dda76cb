/-
Packed values as their serialization. Values written one after the other, little-endian, make up a byte
string, and packing the values is packing the bytes: chunk by chunk, past the end too, and so in number,
root and proofs. It does not matter that a chunk is filled by values and not by bytes, since the values
of a chunk fill it to its last byte.
-/
import SszMerkle.Proofs.Bits
import SszMerkle.Value

namespace SszMerkle

/-! ## Serialization -/

theorem getElem?_flatMap_const {α β : Type} {f : α → List β} {c j : Nat} (hf : ∀ a, (f a).length = c)
    (l : List α) (n : Nat) (hj : j < c) : (l.flatMap f)[n * c + j]? = l[n]?.bind fun a => (f a)[j]? := by
  rw [← List.getElem?_drop, ← drop_flatMap_const hf]
  rcases Nat.lt_or_ge n l.length with hn | hn
  · rw [List.drop_eq_getElem_cons hn, List.flatMap_cons, List.getElem?_append_left (by rwa [hf]),
      List.getElem?_eq_getElem hn, Option.bind_some]
  · rw [List.drop_of_length_le hn, List.getElem?_eq_none hn, List.flatMap_nil, List.getElem?_nil,
      Option.bind_none]

namespace Word

theorem getElem?_toBytes {size j : Nat} (v : Nat) (hj : j < size) :
    (toBytes v size)[j]? = some (UInt8.ofNat (v / 256 ^ j)) := by
  induction size generalizing v j with
  | zero => exact absurd hj j.not_lt_zero
  | succ n ih =>
    cases j with
    | zero => rw [toBytes, List.getElem?_cons_zero, pow_zero, Nat.div_one]
    | succ j =>
      rw [toBytes, List.getElem?_cons_succ, ih _ (Nat.lt_of_succ_lt_succ hj), Nat.div_div_eq_div_mul,
        pow_succ']

end Word

namespace BasicType

variable (t : BasicType)

theorem size_pos : 0 < t.size := by cases t <;> decide

/-- The bytes of values, one value after the other. -/
def serialize (vs : List t.Carrier) : List UInt8 := vs.flatMap t.encode

theorem length_serialize (vs : List t.Carrier) : (t.serialize vs).length = vs.length * t.size :=
  length_flatMap_const t.length_encode vs

/-- Each value is written lowest byte first. -/
theorem getElem?_serialize (vs : List t.Carrier) (a : Nat) {j : Nat} (hj : j < t.size) :
    (t.serialize vs)[a * t.size + j]? = vs[a]?.map fun v => UInt8.ofNat (t.toNat v / 256 ^ j) := by
  rw [serialize, getElem?_flatMap_const t.length_encode vs a hj]
  cases vs[a]? with
  | none => rfl
  | some v => exact Word.getElem?_toBytes (t.toNat v) hj

end BasicType

/-! ## Packing -/

namespace Chunk

variable {t : BasicType}

/-- The place of the first value of chunk `i`, as a word: the last word where the product is none. -/
def firstOf (t : BasicType) (i : Nat) : Nat := min (i * t.perChunk) (Word.bound - 1)

/-- No value has a place that is no word, so a chunk is filled from its place as a word. -/
theorem packed_eq_firstOf {vs : List t.Carrier} (hv : vs.length < Word.bound) (i : Nat) :
    packed t vs i = .ofBytes (((vs.drop (firstOf t i)).take t.perChunk).flatMap t.encode) := by
  rw [packed, firstOf]
  rcases Nat.le_total (i * t.perChunk) (Word.bound - 1) with word | past
  · rw [Nat.min_eq_left word]
  · have none : vs.length ≤ Word.bound - 1 := Nat.le_sub_one_of_lt hv
    rw [Nat.min_eq_right past, List.drop_of_length_le none, List.drop_of_length_le (none.trans past)]

/-- Packing values is packing their bytes. -/
theorem packed_eq_ofBytes (vs : List t.Carrier) (i : Nat) : packed t vs i = ofBytes (t.serialize vs) i := by
  refine Root.eq_of_getElem? fun k hk => ?_
  rw [getElem?_packed vs i hk, getElem?_ofBytes _ i hk, BasicType.serialize]

/-- Values fill as many chunks as their bytes. -/
theorem countOf_eq_countOfBytes (t : BasicType) (n : Nat) : countOf t n = countOfBytes (n * t.size) := by
  refine eq_of_forall_ge_iff fun k => ?_
  rw [countOf, countOfBytes, groups_le_iff t.perChunk_pos, groups_le_iff (by decide), ← t.perChunk_mul_size,
    ← Nat.mul_assoc, Nat.mul_le_mul_right_iff t.size_pos]

theorem countOf_serialize (vs : List t.Carrier) :
    countOf t vs.length = countOfBytes (t.serialize vs).length := by
  rw [t.length_serialize, countOf_eq_countOfBytes]

end Chunk

namespace Value

variable {t : BasicType}

theorem provable_basicVector (h : Hasher) (vs : List t.Carrier) :
    (basicVector t vs).provable h = (byteVector (t.serialize vs)).provable h := by
  have count : Chunk.countOf t vs.length = Chunk.countOf .uint8 (t.serialize vs).length :=
    Chunk.countOf_serialize vs
  simp only [provable, Provable.basicVector, count, Chunk.packed_eq_ofBytes]
  rfl

/-- The bytes of values are those of each value in turn, lowest first, and packing the values is packing
the bytes: byte `k` of chunk `i` is byte `32 * i + k` of them, or zero past their end, also where the
place of its first value is no word; as many chunks are filled; and root and proofs are those of the
bytes, at every gindex and with the same refusals. -/
theorem basicVector_as_serialized (t : BasicType) (vs : List t.Carrier) :
    ((t.serialize vs).length = vs.length * t.size ∧ ∀ a, ∀ j < t.size,
      (t.serialize vs)[a * t.size + j]? = vs[a]?.map fun v => UInt8.ofNat (t.toNat v / 256 ^ j)) ∧
    (∀ i, ∀ k < 32,
      (Chunk.packed t vs i).toList[k]? = some ((t.serialize vs).getD (32 * i + k) 0)) ∧
    (vs.length < Word.bound → ∀ i, Chunk.packed t vs i =
      .ofBytes (((vs.drop (Chunk.firstOf t i)).take t.perChunk).flatMap t.encode)) ∧
    Chunk.countOf t vs.length = Chunk.countOfBytes (t.serialize vs).length ∧
    ∀ h, (basicVector t vs).root h = (byteVector (t.serialize vs)).root h ∧
      ∀ g, (basicVector t vs).prove h g = (byteVector (t.serialize vs)).prove h g := by
  refine ⟨⟨t.length_serialize vs, fun a j hj => t.getElem?_serialize vs a hj⟩,
    fun i k hk => Chunk.getElem?_packed vs i hk, fun hv i => Chunk.packed_eq_firstOf hv i,
    Chunk.countOf_serialize vs, fun h => ⟨?_, fun g => ?_⟩⟩
  · rw [root, root, provable_basicVector]
  · rw [prove, prove, provable_basicVector]

/-- Two numbers of two bytes each are four bytes. Sixteen times the last word is no word, and so far out
there is nothing to fill a chunk with. -/
theorem basicVector_as_serialized_uint16 :
    let vs : List BasicType.uint16.Carrier := [(0x0201 : UInt16), (0x0403 : UInt16)]
    BasicType.uint16.serialize vs = [1, 2, 3, 4] ∧
      (Chunk.packed .uint16 vs 0).toList[2]? = some 3 ∧
      (Chunk.packed .uint16 vs (2 ^ 64 - 1)).toList[2]? = some 0 ∧
      Chunk.packed .uint16 vs (2 ^ 64 - 1) = .ofBytes [] ∧
      (basicVector .uint16 vs).root .sha256 = (byteVector [1, 2, 3, 4]).root .sha256 := by
  intro vs
  have bytes : BasicType.uint16.serialize vs = [1, 2, 3, 4] := by decide
  obtain ⟨-, byte, first, -, same⟩ := basicVector_as_serialized .uint16 vs
  rw [bytes] at byte same
  exact ⟨bytes, byte 0 2 (by decide), byte (2 ^ 64 - 1) 2 (by decide),
    first (by decide) (2 ^ 64 - 1), (same .sha256).1⟩

end Value

end SszMerkle
