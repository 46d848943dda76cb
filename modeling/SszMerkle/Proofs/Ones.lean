/-
Byte strings as the sets of places where they have ones. Together with the length that set determines the
bytes, and as many ones are counted as it has members. Covering is inclusion of the sets, so it orders the
byte strings of one length, and of two that are comparable the one with more ones is on top. Writing a bit
puts its place into the set or takes it out.
-/
import SszMerkle.Proofs.Unpacked

namespace SszMerkle.Bits

variable {a b c bits : List UInt8} {x y : UInt8} {i j : Nat} {value : Bool}

/-! ## Places of ones -/

/-- Reading a bit takes an item of the bits spelled out, and is refused past the last one. -/
theorem get_eq_elim (bits : List UInt8) (i : Nat) :
    get bits i = (unpack bits)[i]?.elim (.error (.breach (.bitPosition i bits.length))) .ok := by
  rw [getElem?_unpack, get]
  cases bits[i / 8]? <;> rfl

theorem get_eq_ok_iff : get bits i = .ok value ↔ (unpack bits)[i]? = some value := by
  rw [get_eq_elim]
  cases (unpack bits)[i]? <;> simp

theorem lt_length_unpack_iff : i < (unpack bits).length ↔ i < 8 * bits.length := by
  rw [length_unpack, Nat.mul_comm]

/-- Bit `j` of byte `k` is bit `8 * k + j` of all. -/
theorem get_mul_add {k : Nat} (hk : k < bits.length) (hj : j < 8) :
    get bits (8 * k + j) = .ok (bits[k].toNat.testBit j) := by
  rw [get, show (8 * k + j) / 8 = k by omega, show (8 * k + j) % 8 = j by omega,
    List.getElem?_eq_getElem hk]

theorem lt_of_get (e : get bits i = .ok value) : i < 8 * bits.length :=
  lt_length_unpack_iff.1 (List.getElem?_eq_some_iff.1 (get_eq_ok_iff.1 e)).1

theorem count_true_eq (xs : List Bool) :
    xs.count true = Nat.count (fun i => xs[i]? = some true) xs.length := by
  induction xs with
  | nil => rfl
  | cons x xs ih =>
    rw [List.count_cons, ih, List.length_cons, Nat.count_succ']
    simp

/-- The ones that are counted are the places that read as one. -/
theorem count_eq_count_get (bits : List UInt8) :
    count bits = Nat.count (fun i => get bits i = .ok true) (8 * bits.length) := by
  rw [count_eq, count_true_eq, length_unpack, Nat.mul_comm]
  simp only [get_eq_ok_iff]

/-- The places that read as one. -/
def ones (bits : List UInt8) : Finset Nat :=
  (Finset.range (8 * bits.length)).filter fun i => get bits i = .ok true

theorem mem_ones : i ∈ ones bits ↔ get bits i = .ok true := by
  rw [ones, Finset.mem_filter, Finset.mem_range, and_iff_right_iff_imp]
  exact lt_of_get

theorem card_ones (bits : List UInt8) : (ones bits).card = count bits := by
  rw [count_eq_count_get, Nat.count_eq_card_filter_range, ones]

/-- Bytes of a known number are determined by the places of their ones. -/
theorem eq_of_ones (length : a.length = b.length) (e : ones a = ones b) : a = b := by
  apply unpack_inj
  have lengths : (unpack a).length = (unpack b).length := by rw [length_unpack, length_unpack, length]
  apply List.ext_getElem lengths
  intro i ha hb
  have one := Finset.ext_iff.1 e i
  rw [mem_ones, mem_ones, get_eq ha, get_eq hb, Except.ok.injEq, Except.ok.injEq] at one
  exact Bool.eq_iff_iff.2 one

/-! ## Covering -/

/-- A byte has every one of another if the other is zero without them. -/
theorem and_not_eq_zero_iff :
    y &&& ~~~x = 0 ↔ ∀ j < 8, y.toNat.testBit j = true → x.toNat.testBit j = true := by
  have bit : ∀ j < 8, (y &&& ~~~x).toNat.testBit j = (y.toNat.testBit j && !x.toNat.testBit j) := by
    intro j hj
    simp only [testBit_toNat, UInt8.toBitVec_and, UInt8.toBitVec_not, BitVec.getLsbD_and,
      BitVec.getLsbD_not, hj, decide_true, Bool.true_and]
  constructor
  · intro e j hj one
    have zero := bit j hj
    rw [e, one] at zero
    simpa using zero
  · intro sub
    refine eq_of_testBit fun j hj => ?_
    rw [bit j hj]
    cases one : y.toNat.testBit j with
    | false => simp
    | true => simp [sub j hj one]

theorem all_zip_iff (length : a.length = b.length) :
    (a.zip b).all (fun (x, y) => y &&& ~~~x == 0) = true ↔ ones b ⊆ ones a := by
  have bytes : (a.zip b).all (fun (x, y) => y &&& ~~~x == 0) = true ↔
      ∀ k (hk : k < b.length), b[k] &&& ~~~a[k] = 0 := by
    simp [List.all_eq_true, List.forall_mem_iff_forall_getElem, length]
  rw [bytes]
  simp only [and_not_eq_zero_iff, Finset.subset_iff, mem_ones]
  constructor
  · intro sub i one
    have inside : i / 8 < b.length := by
      have := lt_of_get one
      omega
    have low : i % 8 < 8 := Nat.mod_lt i (by decide)
    rw [← Nat.div_add_mod i 8, get_mul_add inside low, Except.ok.injEq] at one
    rw [← Nat.div_add_mod i 8, get_mul_add (length ▸ inside) low, sub _ inside _ low one]
  · intro sub k hk j hj one
    have above := sub (show get b (8 * k + j) = .ok true by rw [get_mul_add hk hj, one])
    rwa [get_mul_add (length ▸ hk) hj, Except.ok.injEq] at above

/-- Bytes of two lengths, or none, are not compared; others cover what has its ones among theirs. -/
theorem covers_eq (a b : List UInt8) : covers a b =
    if a = [] ∨ a.length ≠ b.length then .error (.bitfieldMismatch a.length b.length)
    else .ok (decide (ones b ⊆ ones a)) := by
  unfold covers
  by_cases apart : a = [] ∨ a.length ≠ b.length
  · rw [if_pos apart, if_pos (by simpa using apart)]
  · rw [if_neg apart, if_neg (by simpa using apart)]
    rw [not_or, not_not] at apart
    rw [Except.ok.injEq, Bool.eq_iff_iff, all_zip_iff apart.2, decide_eq_true_iff]

theorem covers_eq_error_iff {e : Failure} : covers a b = .error e ↔
    (a = [] ∨ a.length ≠ b.length) ∧ e = .bitfieldMismatch a.length b.length := by
  rw [covers_eq]
  split
  · rename_i apart
    rw [Except.error.injEq, and_iff_right apart, eq_comm]
  · rename_i alike
    exact ⟨nofun, fun apart => absurd apart.1 alike⟩

theorem covers_eq_ok_iff {answer : Bool} : covers a b = .ok answer ↔
    (a ≠ [] ∧ a.length = b.length) ∧ (answer = true ↔ ones b ⊆ ones a) := by
  rw [covers_eq]
  split
  · rename_i apart
    exact ⟨nofun, fun alike => absurd apart (not_or.2 ⟨alike.1.1, not_not.2 alike.1.2⟩)⟩
  · rename_i alike
    rw [not_or, not_not] at alike
    rw [Except.ok.injEq, and_iff_right alike, eq_comm, Bool.eq_iff_iff, decide_eq_true_iff]

theorem covers_eq_ok_true_iff :
    covers a b = .ok true ↔ a ≠ [] ∧ a.length = b.length ∧ ones b ⊆ ones a := by
  rw [covers_eq_ok_iff, and_assoc]
  simp only [true_iff]

/-- Of two byte strings one of which covers the other, the upper has more ones unless they are equal. -/
theorem count_le_of_covers (ab : covers a b = .ok true) :
    count b ≤ count a ∧ (count b = count a → a = b) := by
  obtain ⟨-, length, sub⟩ := covers_eq_ok_true_iff.1 ab
  rw [← card_ones, ← card_ones]
  refine ⟨Finset.card_le_card sub, fun same => eq_of_ones length ?_⟩
  exact (Finset.eq_of_subset_of_card_le sub same.ge).symm

theorem covers_refl (ha : a ≠ []) : covers a a = .ok true :=
  covers_eq_ok_true_iff.2 ⟨ha, rfl, Finset.Subset.refl _⟩

theorem covers_trans (ab : covers a b = .ok true) (bc : covers b c = .ok true) :
    covers a c = .ok true := by
  obtain ⟨ha, length, sub⟩ := covers_eq_ok_true_iff.1 ab
  obtain ⟨-, length', sub'⟩ := covers_eq_ok_true_iff.1 bc
  exact covers_eq_ok_true_iff.2 ⟨ha, length.trans length', sub'.trans sub⟩

theorem covers_antisymm (ab : covers a b = .ok true) (ba : covers b a = .ok true) : a = b := by
  obtain ⟨-, length, sub⟩ := covers_eq_ok_true_iff.1 ab
  obtain ⟨-, -, sub'⟩ := covers_eq_ok_true_iff.1 ba
  exact eq_of_ones length (sub'.antisymm sub)

/-! ## Writing -/

/-- What is read after bit `i` was written: that bit, and all others as before. -/
structure Written (a : List UInt8) (i : Nat) (value : Bool) (a' : List UInt8) : Prop where
  length : a'.length = a.length
  get : get a' i = .ok value
  others : ∀ j, j ≠ i → Bits.get a' j = Bits.get a j

variable {a' : List UInt8}

theorem set_written (value : Bool) (hi : i < 8 * a.length) :
    ∃ a', set a i value = .ok a' ∧ Written a i value a' := by
  rw [← lt_length_unpack_iff] at hi
  obtain ⟨a', hset, ha'⟩ := set_eq value hi
  have length : a'.length = a.length := by
    have lengths := congrArg List.length ha'
    rw [List.length_set, length_unpack, length_unpack] at lengths
    omega
  refine ⟨a', hset, length, ?_, fun j hj => ?_⟩
  · rw [get_eq_ok_iff, ha', List.getElem?_set_self hi]
  · rw [get_eq_elim, get_eq_elim, ha', List.getElem?_set_ne hj.symm, length]

namespace Written

theorem ones_of_true (w : Written a i true a') : ones a' = insert i (ones a) := by
  ext j
  rw [Finset.mem_insert, mem_ones, mem_ones]
  by_cases hj : j = i
  · subst hj
    simp [w.get]
  · simp [hj, w.others j hj]

theorem ones_of_false (w : Written a i false a') : ones a' = (ones a).erase i := by
  ext j
  rw [Finset.mem_erase, mem_ones, mem_ones]
  by_cases hj : j = i
  · subst hj
    simp [w.get]
  · simp [hj, w.others j hj]

/-- The number of ones changes by what the bit does. -/
theorem count_add {old : Bool} (w : Written a i value a') (hold : Bits.get a i = .ok old) :
    count a' + old.toNat = count a + value.toNat := by
  have member : i ∈ ones a ↔ old = true := by rw [mem_ones, hold, Except.ok.injEq]
  rw [← card_ones, ← card_ones]
  cases value with
  | true =>
    rw [w.ones_of_true]
    cases old with
    | true => rw [Finset.insert_eq_of_mem (member.2 rfl)]
    | false => rw [Finset.card_insert_of_notMem (by simp [member])]; rfl
  | false =>
    rw [w.ones_of_false]
    cases old with
    | true => exact Finset.card_erase_add_one (member.2 rfl)
    | false => rw [Finset.erase_eq_of_notMem (by simp [member])]

theorem ne_nil (w : Written a i value a') (ha : a ≠ []) : a' ≠ [] := by
  rwa [← List.length_pos_iff, w.length, List.length_pos_iff]

theorem covers_of_true (w : Written a i true a') (ha : a ≠ []) : covers a' a = .ok true := by
  refine covers_eq_ok_true_iff.2 ⟨w.ne_nil ha, w.length, ?_⟩
  rw [w.ones_of_true]
  exact Finset.subset_insert i (ones a)

theorem covers_of_false (w : Written a i false a') (ha : a ≠ []) : covers a a' = .ok true := by
  refine covers_eq_ok_true_iff.2 ⟨ha, w.length.symm, ?_⟩
  rw [w.ones_of_false]
  exact Finset.erase_subset i (ones a)

end Written

/-- Byte strings are compared if they are of one length and not empty, and there one covers the other if
each bit that reads as one in the other does so in it. That is a partial order, and going up in it adds
ones. Writing a bit changes it and no other, and by that goes up or down and changes the number of ones. -/
theorem covers_orders_and_set_writes :
    (∀ a b e, covers a b = .error e ↔
      (a = [] ∨ a.length ≠ b.length) ∧ e = .bitfieldMismatch a.length b.length) ∧
    (∀ a b answer, covers a b = .ok answer ↔ (a ≠ [] ∧ a.length = b.length) ∧
      (answer = true ↔ ∀ i, get b i = .ok true → get a i = .ok true)) ∧
    (∀ a, a ≠ [] → covers a a = .ok true) ∧
    (∀ a b c, covers a b = .ok true → covers b c = .ok true → covers a c = .ok true) ∧
    (∀ a b, covers a b = .ok true → covers b a = .ok true → a = b) ∧
    (∀ a b, covers a b = .ok true → count b ≤ count a ∧ (count b = count a → a = b)) ∧
    ∀ a i value, i < 8 * a.length → ∃ old a', get a i = .ok old ∧ set a i value = .ok a' ∧
      Written a i value a' ∧ (value = true → covers a' a = .ok true) ∧
      (value = false → covers a a' = .ok true) ∧ count a' + old.toNat = count a + value.toNat := by
  refine ⟨fun a b e => covers_eq_error_iff, fun a b answer => ?_, fun a => covers_refl,
    fun a b c => covers_trans, fun a b => covers_antisymm, fun a b => count_le_of_covers,
    fun a i value hi => ?_⟩
  · simp only [covers_eq_ok_iff, Finset.subset_iff, mem_ones]
  · obtain ⟨a', hset, w⟩ := set_written value hi
    have ha : a ≠ [] := by
      rintro rfl
      exact absurd hi (Nat.not_lt_zero i)
    have hold := get_eq (lt_length_unpack_iff.2 hi)
    refine ⟨_, a', hold, hset, w, ?_, ?_, w.count_add hold⟩
    · rintro rfl
      exact w.covers_of_true ha
    · rintro rfl
      exact w.covers_of_false ha

/-- Two ones less, one in each byte, and each step of the way goes down. -/
theorem covers_of_two_cleared :
    let a : List UInt8 := [0x13, 0x37]
    let b : List UInt8 := [0x13, 0x33]
    let c : List UInt8 := [0x12, 0x33]
    covers a a = .ok true ∧ covers a b = .ok true ∧ covers b c = .ok true ∧ covers a c = .ok true ∧
      covers c a = .ok false ∧ (∀ c', covers c c' = .ok true → covers c' c = .ok true → c = c') ∧
      count c ≤ count b ∧ set a 10 false = .ok b ∧ get b 10 = .ok false ∧ get b 11 = get a 11 ∧
      count b + true.toNat = count a + false.toNat := by
  intro a b c
  obtain ⟨-, -, refl, trans, antisymm, counts, writes⟩ := covers_orders_and_set_writes
  have bc : covers b c = .ok true := by decide
  obtain ⟨old, b', hold, hset, w, -, down, changed⟩ := writes a 10 false (by decide)
  obtain rfl : b = b' := Except.ok.inj hset
  obtain rfl : true = old := Except.ok.inj hold
  exact ⟨refl a (by decide), down rfl, bc, trans a b c (down rfl) bc, by decide, antisymm c,
    (counts b c bc).1, hset, w.get, w.others 11 (by decide), changed⟩

end SszMerkle.Bits
