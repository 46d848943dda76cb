/-
Bitlists as sequences of bits. The bytes of a bitlist spell its bits out, then the one that is the
delimiter, then zeros up to the end of the byte. So the delimiter is the last one of all, the size of the
bitlist is where it stands, and each function that reads a bitlist reads the same sequence off it. The
check accepts the bytes of the sequences that keep to the limit, and no others.
-/
import SszMerkle.Proofs.Unpacked

namespace SszMerkle

/-! ## The highest one of a byte -/

namespace Bits

variable {b : UInt8} {k : Nat}

theorem take_ofByte (b : UInt8) (hk : k ≤ 8) : (ofByte b).take k = (List.range k).map b.toNat.testBit := by
  rw [ofByte, ← List.map_take, List.take_range, Nat.min_eq_left hk]

/-- A byte other than zero is what lies below its highest one, that one, and zeros. -/
theorem ofByte_eq (hb : b ≠ 0) :
    ofByte b = (ofByte b).take (topBit b) ++ true :: List.replicate (7 - topBit b) false := by
  have top := topBit_lt b
  have below : ((ofByte b).take (topBit b)).length = topBit b := by simp [top.le]
  refine List.ext_getElem? fun j => ?_
  rcases lt_trichotomy j (topBit b) with hj | rfl | hj
  · rw [List.getElem?_append_left (by omega), List.getElem?_take_of_lt hj]
  · rw [getElem?_ofByte b top, testBit_topBit hb, List.getElem?_append_right below.le, below,
      Nat.sub_self, List.getElem?_cons_zero]
  · obtain ⟨i, rfl⟩ : ∃ i, j = topBit b + (i + 1) := ⟨j - topBit b - 1, by omega⟩
    rw [List.getElem?_append_right (by omega), below, Nat.add_sub_cancel_left,
      List.getElem?_cons_succ, List.getElem?_replicate]
    split
    · rw [getElem?_ofByte b (by omega), testBit_of_topBit_lt (by omega)]
    · rw [List.getElem?_eq_none (by rw [length_ofByte]; omega)]

theorem ofByte_zero : ofByte 0 = List.replicate 8 false := by decide

theorem true_mem_ofByte : true ∈ ofByte b ↔ b ≠ 0 := by
  constructor
  · rintro one rfl
    simp [ofByte_zero] at one
  · intro hb
    rw [ofByte_eq hb]
    simp

/-- Without its highest one a byte is zero if there is no one below. -/
theorem xor_single_topBit_eq_zero_iff (hb : b ≠ 0) :
    b ^^^ single (topBit b) = 0 ↔ true ∉ (ofByte b).take (topBit b) := by
  have top := topBit_lt b
  rw [UInt8.xor_eq_zero_iff, take_ofByte b top.le]
  simp only [List.mem_map, List.mem_range, not_exists, not_and, Bool.not_eq_true]
  constructor
  · intro e j hj
    rw [e, testBit_single top (hj.trans top), decide_eq_false hj.ne]
  · intro low
    refine eq_of_testBit fun j hj => ?_
    rw [testBit_single top hj]
    rcases lt_trichotomy j (topBit b) with below | rfl | above
    · rw [low j below, decide_eq_false below.ne]
    · rw [testBit_topBit hb, decide_eq_true rfl]
    · rw [testBit_of_topBit_lt above, decide_eq_false above.ne']

theorem unpack_zeros (n : Nat) : unpack (List.replicate n 0) = List.replicate (n * 8) false := by
  induction n with
  | zero => rfl
  | succ n ih =>
    rw [List.replicate_succ, unpack_cons, ih, ofByte_zero, List.replicate_append_replicate]
    congr 1
    omega

/-- Marking places among zeros makes ones there and nowhere else. -/
theorem mark_zeros {places : List Nat} {k : Nat} (within : ∀ i ∈ places, i < k * 8) :
    ∃ bits, mark (List.replicate k 0) places = .ok bits ∧
      ∀ j, (unpack bits)[j]? = if j < k * 8 then some (decide (j ∈ places)) else none := by
  have zeros : unpack (List.replicate k 0) = List.replicate (k * 8) false := unpack_zeros k
  have inside : ∀ i ∈ places, i < (unpack (List.replicate k 0)).length := by
    rwa [zeros, List.length_replicate]
  obtain ⟨bits, hmark, -, hbits⟩ := mark_eq inside
  refine ⟨bits, hmark, fun j => ?_⟩
  rw [hbits, zeros, List.getElem?_replicate]
  by_cases hj : j ∈ places
  · simp [hj, within j hj]
  · simp [hj]

end Bits

namespace Bitlist

/-- The bits of a bitlist, the delimiter behind them, and zeros up to the end of the byte. -/
def delimited (xs : List Bool) : List Bool := xs ++ true :: List.replicate (7 - xs.length % 8) false

/-- The bytes of a bitlist: from zero bytes on, the ones of the content are written and then the
delimiter. -/
def ofBits (xs : List Bool) : Result (List UInt8) :=
  Bits.mark (List.replicate (xs.length / 8 + 1) 0)
    ((List.range xs.length).filter (fun i => xs.getD i false) ++ [xs.length])

/-- What stands before the delimiter. -/
def content (bits : List UInt8) : List Bool := (Bits.unpack bits).take (size bits)

variable {xs xs' : List Bool} {bits init : List UInt8} {last : UInt8} {limit j : Nat}

/-! ## The delimiter -/

theorem length_delimited (xs : List Bool) : (delimited xs).length = (xs.length / 8 + 1) * 8 := by
  simp only [delimited, List.length_append, List.length_cons, List.length_replicate]
  omega

theorem getElem?_delimited_of_lt (hj : j < xs.length) : (delimited xs)[j]? = xs[j]? :=
  List.getElem?_append_left hj

theorem getElem?_delimited_length (xs : List Bool) : (delimited xs)[xs.length]? = some true := by
  rw [delimited, List.getElem?_append_right le_rfl, Nat.sub_self, List.getElem?_cons_zero]

theorem getElem?_delimited_of_gt (hj : xs.length < j) :
    (delimited xs)[j]? = if j < (xs.length / 8 + 1) * 8 then some false else none := by
  obtain ⟨i, rfl⟩ : ∃ i, j = xs.length + (i + 1) := ⟨j - xs.length - 1, by omega⟩
  rw [delimited, List.getElem?_append_right (by omega), Nat.add_sub_cancel_left,
    List.getElem?_cons_succ, List.getElem?_replicate]
  split <;> split <;> first | rfl | omega

theorem length_le_of_delimited (e : delimited xs = delimited xs') : xs'.length ≤ xs.length := by
  by_contra longer
  have one := getElem?_delimited_length xs'
  rw [← e, getElem?_delimited_of_gt (Nat.not_le.1 longer)] at one
  split at one <;> cases one

/-- The delimiter is the last one, so what stands before it is determined. -/
theorem delimited_inj (e : delimited xs = delimited xs') : xs = xs' :=
  (List.append_inj e (le_antisymm (length_le_of_delimited e.symm) (length_le_of_delimited e))).1

/-! ## Writing -/

theorem ofBits_ok (xs : List Bool) : ∃ bits, ofBits xs = .ok bits ∧ Bits.unpack bits = delimited xs := by
  have within : ∀ i ∈ (List.range xs.length).filter (fun i => xs.getD i false) ++ [xs.length],
      i < (xs.length / 8 + 1) * 8 := by
    simp only [List.mem_append, List.mem_filter, List.mem_range, List.mem_singleton]
    omega
  obtain ⟨bits, hmark, hbits⟩ := Bits.mark_zeros within
  refine ⟨bits, hmark, List.ext_getElem? fun j => ?_⟩
  rw [hbits]
  simp only [List.mem_append, List.mem_filter, List.mem_range, List.mem_singleton]
  rcases lt_trichotomy j xs.length with hj | rfl | hj
  · rw [getElem?_delimited_of_lt hj, if_pos (by omega)]
    simp [hj, hj.ne]
  · rw [getElem?_delimited_length, if_pos (by omega)]
    simp
  · rw [getElem?_delimited_of_gt hj]
    simp [hj.not_gt, hj.ne']

/-- Bytes are those of a bitlist if they spell out its bits and the delimiter. -/
theorem ofBits_eq_ok_iff : ofBits xs = .ok bits ↔ Bits.unpack bits = delimited xs := by
  obtain ⟨bits', hwritten, h'⟩ := ofBits_ok xs
  rw [hwritten, Except.ok.injEq, ← h']
  exact ⟨fun e => e ▸ rfl, fun e => Bits.unpack_inj e.symm⟩

/-! ## Reading -/

theorem content_concat (init : List UInt8) (last : UInt8) : content (init ++ [last]) =
    Bits.unpack init ++ (Bits.ofByte last).take (Bits.topBit last) := by
  rw [content, size_concat, Bits.unpack_append, ← Bits.length_unpack, List.take_length_add_append,
    Bits.unpack_cons, Bits.unpack_nil, List.append_nil]

theorem length_content_concat (init : List UInt8) (last : UInt8) :
    (content (init ++ [last])).length = size (init ++ [last]) := by
  have top := Bits.topBit_lt last
  rw [content_concat, List.length_append, Bits.length_unpack, List.length_take, Bits.length_ofByte,
    Nat.min_eq_left top.le, size_concat]

/-- Where the last byte is not zero, its highest one is the delimiter. -/
theorem unpack_concat (hlast : last ≠ 0) :
    Bits.unpack (init ++ [last]) = delimited (content (init ++ [last])) := by
  have top := Bits.topBit_lt last
  have place : size (init ++ [last]) % 8 = Bits.topBit last := by rw [size_concat]; omega
  rw [delimited, length_content_concat, place, content_concat, List.append_assoc, ← Bits.ofByte_eq hlast]
  simp

/-- The bytes of a bitlist end in one that is not zero. -/
theorem eq_concat_of_unpack (e : Bits.unpack bits = delimited xs) :
    ∃ init last, bits = init ++ [last] ∧ last ≠ 0 ∧ content bits = xs := by
  have length := congrArg List.length e
  rw [Bits.length_unpack, length_delimited] at length
  have bytes : bits ≠ [] := by
    rintro rfl
    simp at length
  obtain ⟨init, last, rfl⟩ : ∃ init last, bits = init ++ [last] :=
    ⟨_, _, (List.dropLast_append_getLast bytes).symm⟩
  have hlast : last ≠ 0 := by
    rintro rfl
    -- the delimiter is in the last byte
    have one := getElem?_delimited_length xs
    rw [List.length_append, List.length_singleton] at length
    rw [← e, Bits.getElem?_unpack, show xs.length / 8 = init.length by omega] at one
    simp at one
  exact ⟨init, last, rfl, hlast, delimited_inj ((unpack_concat hlast).symm.trans e)⟩

theorem check_concat (hlast : last ≠ 0) (limit : Nat) : check (init ++ [last]) limit =
    if size (init ++ [last]) ≤ limit then .ok ()
    else .error (.overCapacity (size (init ++ [last])) limit) := by
  rcases Nat.lt_or_ge limit (size (init ++ [last])) with full | room
  · simp [check, hlast, full, Nat.not_le.2 full]
  · simp [check, hlast, room, Nat.not_lt.2 room]

theorem isZero_concat (hlast : last ≠ 0) :
    isZero (init ++ [last]) = true ↔ true ∉ content (init ++ [last]) := by
  have zeros : (∀ b ∈ init, b = 0) ↔ true ∉ Bits.unpack init := by
    simp [Bits.unpack, Bits.true_mem_ofByte]
  rw [content_concat, List.mem_append, not_or, ← Bits.xor_single_topBit_eq_zero_iff hlast, ← zeros]
  simp [isZero, hlast]

/-- All that is read off the bytes of a bitlist is the sequence of its bits. -/
structure Reads (xs : List Bool) (bits : List UInt8) : Prop where
  bytes : bits.length = xs.length / 8 + 1
  checked : ∀ limit, check bits limit =
    if xs.length ≤ limit then .ok () else .error (.overCapacity xs.length limit)
  size : size bits = xs.length
  get : ∀ i (hi : i < xs.length), Bits.get bits i = .ok xs[i]
  count : count bits = xs.count true
  isZero : isZero bits = true ↔ true ∉ xs

theorem reads_of_unpack (e : Bits.unpack bits = delimited xs) : Reads xs bits := by
  obtain ⟨init, last, rfl, hlast, rfl⟩ := eq_concat_of_unpack e
  have bytes := congrArg List.length e
  rw [Bits.length_unpack, length_delimited] at bytes
  constructor
  · omega
  · intro limit
    rw [length_content_concat]
    exact check_concat hlast limit
  · exact (length_content_concat init last).symm
  · intro i hi
    have bit := getElem?_delimited_of_lt hi
    rw [← e, List.getElem?_eq_getElem hi] at bit
    obtain ⟨inside, same⟩ := List.getElem?_eq_some_iff.1 bit
    rw [Bits.get_eq inside, same]
  · rw [count, Bits.count_eq, e, delimited, List.count_append, List.count_cons_self,
      List.count_replicate]
    simp
  · exact isZero_concat hlast

/-- The bytes written for a sequence of bits are a bitlist that keeps to every limit the sequence keeps
to, and size, bits, number of ones and the test for zero are those of the sequence. Whatever passes the
check under some limit is written for one sequence, and for no other. -/
theorem ofBits_reads_and_unique :
    (∀ xs, ∃ bits, ofBits xs = .ok bits ∧ Reads xs bits) ∧
    ∀ bits limit, check bits limit = .ok () → ∃! xs, ofBits xs = .ok bits := by
  constructor
  · intro xs
    obtain ⟨bits, hwritten, hbits⟩ := ofBits_ok xs
    exact ⟨bits, hwritten, reads_of_unpack hbits⟩
  · intro bits limit passed
    obtain ⟨init, last, rfl, hlast, -⟩ := eq_concat_of_check passed
    refine ⟨content (init ++ [last]), ofBits_eq_ok_iff.2 (unpack_concat hlast), fun xs hc => ?_⟩
    exact delimited_inj ((ofBits_eq_ok_iff.1 hc).symm.trans (unpack_concat hlast))

/-- After eight ones the delimiter stands alone in its byte. -/
theorem ofBits_eight_ones : check [255, 1] 8 = .ok () ∧
    (∃! xs, ofBits xs = .ok [255, 1]) ∧ ofBits (List.replicate 8 true) = .ok [255, 1] ∧
    size [255, 1] = 8 ∧ check [255, 1] 7 = .error (.overCapacity 8 7) := by
  have passed : check [255, 1] 8 = .ok () := by decide
  obtain ⟨written, unique⟩ := ofBits_reads_and_unique
  obtain ⟨bits, hbits, reads⟩ := written (List.replicate 8 true)
  obtain rfl : [255, 1] = bits := Except.ok.inj ((ofBits_eq_ok_iff.2 (by decide)).symm.trans hbits)
  exact ⟨passed, unique _ _ passed, hbits, reads.size, reads.checked 7⟩

end Bitlist

end SszMerkle
