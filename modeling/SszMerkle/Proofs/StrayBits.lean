/-
Bitvectors as sequences of bits. The bytes of a bitvector are as many as its bits fill, and spell out the
bits and zeros behind them up to the end of the last byte. The check looks at the number of bytes and at
the high bits of the last one, and nothing else could go wrong, as the right number of bytes leaves less
than a byte behind the bits. So every sequence of `n` bits is read off one accepted byte string, and the
ones that are counted there are its own.
-/
import SszMerkle.Proofs.Delimiter
import SszMerkle.Proofs.Ones

namespace SszMerkle

namespace Bits

variable {b : UInt8} {bits : List UInt8} {xs : List Bool} {i k : Nat} {value : Bool}

/-! ## Bits read one by one -/

/-- There is no one from bit `k` on if every bit there is reads as zero. -/
theorem not_mem_drop_iff : true ∉ (unpack bits).drop k ↔
    ∀ i, k ≤ i → i < 8 * bits.length → get bits i = .ok false := by
  constructor
  · intro clear i hk hi
    rw [← lt_length_unpack_iff] at hi
    rw [get_eq hi]
    cases value : (unpack bits)[i] with
    | false => rfl
    | true =>
      refine absurd (List.mem_iff_getElem?.2 ⟨i - k, ?_⟩) clear
      rw [List.getElem?_drop, Nat.add_sub_cancel' hk, List.getElem?_eq_getElem hi, value]
  · intro zeros one
    obtain ⟨j, hj⟩ := List.mem_iff_getElem?.1 one
    rw [List.getElem?_drop] at hj
    have inside := lt_length_unpack_iff.1 (List.getElem?_eq_some_iff.1 hj).1
    have zero := zeros (k + j) (Nat.le_add_right k j) inside
    rw [get_eq_ok_iff, hj] at zero
    cases zero

/-- A byte has no ones from bit `k` on if nothing is left when it is shifted by `k`. -/
theorem shiftRight_eq_zero_iff (b : UInt8) (k : Nat) : b.toNat >>> k = 0 ↔ true ∉ (ofByte b).drop k := by
  constructor
  · intro none one
    obtain ⟨j, hj⟩ := List.mem_iff_getElem?.1 one
    rw [List.getElem?_drop] at hj
    have inside : k + j < 8 := by
      have := (List.getElem?_eq_some_iff.1 hj).1
      rwa [length_ofByte] at this
    rw [getElem?_ofByte b inside, ← Nat.testBit_shiftRight, none] at hj
    simp at hj
  · intro clear
    apply Nat.eq_of_testBit_eq
    intro j
    rw [Nat.zero_testBit, Nat.testBit_shiftRight]
    rcases Nat.lt_or_ge (k + j) 8 with inside | outside
    · by_contra one
      refine clear (List.mem_iff_getElem?.2 ⟨j, ?_⟩)
      rw [List.getElem?_drop, getElem?_ofByte b inside]
      simpa using one
    · exact testBit_of_topBit_lt ((topBit_lt b).trans_le outside)

/-- Every sequence of bits that fills `k` bytes is spelled out by some. -/
theorem exists_unpack (hx : xs.length = k * 8) : ∃ bits, unpack bits = xs := by
  have within : ∀ i ∈ (List.range xs.length).filter (fun i => xs.getD i false), i < k * 8 := by
    intro i hi
    rw [← hx]
    exact List.mem_range.1 (List.mem_filter.1 hi).1
  obtain ⟨bits, -, written⟩ := mark_zeros within
  refine ⟨bits, List.ext_getElem? fun j => ?_⟩
  rw [written, ← hx]
  by_cases hj : j < xs.length <;> simp [hj]

end Bits

namespace Bitvector

/-- The first `n` bits. -/
def content (n : Nat) (bits : List UInt8) : List Bool := (Bits.unpack bits).take n

variable {bits init : List UInt8} {last : UInt8} {n : Nat}

/-! ## The check -/

theorem byteCount_eq (n : Nat) : byteCount n = (n + 7) / 8 := by
  unfold byteCount
  split <;> omega

/-- With the right number of bytes, a one behind the bits is one of the high bits of the last byte. -/
theorem drop_unpack_concat (length : init.length + 1 = byteCount n) :
    (Bits.unpack (init ++ [last])).drop n = (Bits.ofByte last).drop (n - init.length * 8) := by
  rw [byteCount_eq] at length
  rw [Bits.unpack_append, List.drop_append, List.drop_of_length_le, Bits.length_unpack]
  · simp
  · rw [Bits.length_unpack]
    omega

/-- A last byte is refused for a one behind the bits, and for nothing else. -/
theorem checkLastByte_eq (length : init.length + 1 = byteCount n) : checkLastByte last n =
    if true ∈ (Bits.unpack (init ++ [last])).drop n then
      .error (.invalidBitvector (.strayBits last (n % 8)))
    else .ok () := by
  rw [drop_unpack_concat length]
  rw [byteCount_eq] at length
  unfold checkLastByte
  rw [if_neg (by omega)]
  by_cases full : n % 8 = 0
  · -- the bits fill the last byte
    rw [if_neg (by simp [full]), if_neg]
    rw [List.drop_of_length_le (by rw [Bits.length_ofByte]; omega)]
    exact List.not_mem_nil
  · have place : n - init.length * 8 = n % 8 := by omega
    rw [place]
    by_cases stray : last.toNat >>> (n % 8) = 0
    · rw [if_neg (by simp [stray]), if_neg ((Bits.shiftRight_eq_zero_iff _ _).1 stray)]
    · rw [if_pos ⟨full, stray⟩, if_pos]
      by_contra clear
      exact stray ((Bits.shiftRight_eq_zero_iff _ _).2 clear)

theorem check_of_length_ne (length : bits.length ≠ byteCount n) :
    check bits n = .error (.invalidBitvector (.byteCount bits.length (byteCount n) n)) := by
  unfold check checkByteCount
  rw [if_neg length]
  rfl

theorem check_of_length (length : bits.length = byteCount n) : check bits n =
    match bits.getLast? with
    | some last => checkLastByte last n
    | none => .ok () := by
  unfold check checkByteCount
  rw [if_pos length]
  rfl

/-- The check accepts the bytes that the bits fill and that spell out zeros behind them. -/
theorem check_eq_ok_iff : check bits n = .ok () ↔
    bits.length = byteCount n ∧ true ∉ (Bits.unpack bits).drop n := by
  by_cases length : bits.length = byteCount n
  · rw [check_of_length length]
    rcases List.eq_nil_or_concat' bits with rfl | ⟨init, last, rfl⟩
    · simp [← length]
    · rw [List.length_append, List.length_singleton] at length
      rw [List.getLast?_concat, List.length_append, List.length_singleton]
      simp only [checkLastByte_eq length, length, true_and]
      split <;> simp_all
  · rw [check_of_length_ne length]
    simp [length]

/-! ## The bits -/

theorem length_content (accepted : check bits n = .ok ()) : (content n bits).length = n := by
  obtain ⟨length, -⟩ := check_eq_ok_iff.1 accepted
  rw [byteCount_eq] at length
  rw [content, List.length_take, Bits.length_unpack]
  omega

/-- The bytes spell out the bits, and zeros up to the end of the last byte. -/
theorem unpack_eq (accepted : check bits n = .ok ()) :
    Bits.unpack bits = content n bits ++ List.replicate (byteCount n * 8 - n) false := by
  obtain ⟨length, clear⟩ := check_eq_ok_iff.1 accepted
  have rest : (Bits.unpack bits).drop n = List.replicate (byteCount n * 8 - n) false := by
    rw [List.eq_replicate_iff, List.length_drop, Bits.length_unpack, length]
    refine ⟨rfl, fun value hv => ?_⟩
    cases value with
    | false => rfl
    | true => exact absurd hv clear
  rw [content, ← rest, List.take_append_drop]

theorem content_bijOn (n : Nat) :
    Set.BijOn (content n) {bits | check bits n = .ok ()} {xs | xs.length = n} := by
  refine ⟨fun bits accepted => length_content accepted, fun bits accepted bits' accepted' same => ?_,
    fun xs hx => ?_⟩
  · apply Bits.unpack_inj
    rw [unpack_eq accepted, unpack_eq accepted', same]
  · replace hx : xs.length = n := hx
    have room : n ≤ byteCount n * 8 := by
      rw [byteCount_eq]
      omega
    obtain ⟨bits, hbits⟩ : ∃ bits, Bits.unpack bits = xs ++ List.replicate (byteCount n * 8 - n) false := by
      apply Bits.exists_unpack
      rw [List.length_append, List.length_replicate, hx, Nat.add_sub_cancel' room]
    have length := congrArg List.length hbits
    rw [Bits.length_unpack, List.length_append, List.length_replicate, hx] at length
    refine ⟨bits, check_eq_ok_iff.2 ⟨by omega, ?_⟩, ?_⟩
    · rw [hbits, List.drop_left' hx]
      simp
    · rw [content, hbits, List.take_left' hx]

/-- What is read at the first `n` places is the content. -/
theorem get_eq_ok_iff {i : Nat} {value : Bool} (hi : i < n) :
    Bits.get bits i = .ok value ↔ (content n bits)[i]? = some value := by
  rw [Bits.get_eq_ok_iff, content, List.getElem?_take_of_lt hi]

theorem count_eq (accepted : check bits n = .ok ()) :
    Bits.count bits = Nat.count (fun i => Bits.get bits i = .ok true) n := by
  obtain ⟨length, clear⟩ := check_eq_ok_iff.1 accepted
  rw [byteCount_eq] at length
  obtain ⟨k, hk⟩ : ∃ k, 8 * bits.length = n + k := ⟨8 * bits.length - n, by omega⟩
  rw [Bits.not_mem_drop_iff, hk] at clear
  have none : Nat.count (fun j => Bits.get bits (n + j) = .ok true) k = 0 := by
    rw [Nat.count_iff_forall_not]
    intro j hj
    rw [clear (n + j) (by omega) (by omega)]
    simp
  rw [Bits.count_eq_count_get, hk, Nat.count_add, none, Nat.add_zero]

/-- The check of `n` bits accepts the bytes that `n` bits fill and that have no one behind them. The bytes
it accepts and the sequences of `n` bits go one to one: a sequence is what is read off its bytes, bit by
bit, and the ones that are counted in the bytes are those among the `n` bits. -/
theorem checked_bijOn_and_counted (n : Nat) :
    (∀ bits, check bits n = .ok () ↔ bits.length = (n + 7) / 8 ∧
      ∀ i, n ≤ i → i < 8 * bits.length → Bits.get bits i = .ok false) ∧
    Set.BijOn (content n) {bits | check bits n = .ok ()} {xs | xs.length = n} ∧
    ∀ bits, check bits n = .ok () →
      (∀ i < n, ∃ value, Bits.get bits i = .ok value ∧ (content n bits)[i]? = some value) ∧
      Bits.count bits = Nat.count (fun i => Bits.get bits i = .ok true) n := by
  refine ⟨fun bits => ?_, content_bijOn n, fun bits accepted => ⟨fun i hi => ?_, count_eq accepted⟩⟩
  · rw [check_eq_ok_iff, byteCount_eq, Bits.not_mem_drop_iff]
  · have held : i < (content n bits).length := by rwa [length_content accepted]
    have item : (content n bits)[i]? = some (content n bits)[i] := List.getElem?_eq_getElem held
    exact ⟨_, (get_eq_ok_iff hi).2 item, item⟩

/-- Nine bits take two bytes and leave seven places in the second, which must hold zeros. -/
theorem checked_nine : check [5, 1] 9 = .ok () ∧ check [5, 3] 9 ≠ .ok () ∧
    Bits.get [5, 1] 8 = .ok true ∧ (content 9 [5, 1])[8]? = some true ∧ Bits.count [5, 1] = 3 ∧
    Nat.count (fun i => Bits.get [5, 1] i = .ok true) 9 = 3 := by
  obtain ⟨accepts, -, reads⟩ := checked_bijOn_and_counted 9
  have accepted : check [5, 1] 9 = .ok () := by decide
  obtain ⟨read, counted⟩ := reads _ accepted
  obtain ⟨value, hget, hitem⟩ := read 8 (by decide)
  have ones : Bits.count [5, 1] = 3 := by decide
  have last : Bits.get [5, 1] 8 = .ok true := by decide
  rw [last, Except.ok.injEq] at hget
  refine ⟨accepted, fun stray => ?_, last, hget ▸ hitem, ones, counted.symm.trans ones⟩
  -- bit 9 is a one behind the last
  have zero := ((accepts _).1 stray).2 9 le_rfl (by decide)
  revert zero
  decide

end Bitvector

end SszMerkle
