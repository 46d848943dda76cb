/-
Byte strings as the bits they are packed from. `unpack` spells the bits out, lowest first in each byte.
What is asked of a byte string by the number of a bit is asked of that list: reading takes an item of it,
writing replaces one, counting counts its ones; and it determines the bytes.
-/
import SszMerkle.Proofs.Bits

namespace SszMerkle.Bits

/-- The bits of a byte, lowest first. -/
def ofByte (b : UInt8) : List Bool := (List.range 8).map b.toNat.testBit

/-- The bits of a byte string, in order. -/
def unpack (bits : List UInt8) : List Bool := bits.flatMap ofByte

variable {a b : UInt8} {bits bits' : List UInt8} {i j k : Nat} {value : Bool}

/-! ## Bits of a byte -/

@[simp] theorem length_ofByte (b : UInt8) : (ofByte b).length = 8 := by simp [ofByte]

theorem getElem?_ofByte (b : UInt8) (hj : j < 8) : (ofByte b)[j]? = some (b.toNat.testBit j) := by
  simp [ofByte, hj]

theorem ofByte_inj (a b : UInt8) (e : ofByte a = ofByte b) : a = b := by
  refine eq_of_testBit fun j hj => ?_
  have bit := congrArg (·[j]?) e
  simpa only [getElem?_ofByte _ hj, Option.some.injEq] using bit

theorem countInByte_eq (b : UInt8) : countInByte b = (ofByte b).count true := by
  rw [countInByte, ofByte, List.count, List.countP_map]
  refine List.countP_congr fun j _ => ?_
  simp

/-! ## Bits of a byte string -/

@[simp] theorem unpack_nil : unpack [] = [] := rfl

@[simp] theorem unpack_cons (b : UInt8) (bits : List UInt8) :
    unpack (b :: bits) = ofByte b ++ unpack bits := List.flatMap_cons

@[simp] theorem unpack_append (bits bits' : List UInt8) :
    unpack (bits ++ bits') = unpack bits ++ unpack bits' := List.flatMap_append

theorem length_unpack (bits : List UInt8) : (unpack bits).length = bits.length * 8 :=
  length_flatMap_const length_ofByte bits

theorem unpack_inj (e : unpack bits = unpack bits') : bits = bits' := by
  refine flatMap_inj length_ofByte ofByte_inj ?_ e
  have length := congrArg List.length e
  rw [length_unpack, length_unpack] at length
  omega

/-- Bit `i` is bit `i % 8` of byte `i / 8`. -/
theorem getElem?_unpack (bits : List UInt8) (i : Nat) :
    (unpack bits)[i]? = bits[i / 8]?.map fun b => b.toNat.testBit (i % 8) := by
  induction bits generalizing i with
  | nil => rfl
  | cons b bits ih =>
    rw [unpack_cons]
    rcases Nat.lt_or_ge i 8 with hi | hi
    · rw [List.getElem?_append_left (by simpa using hi), getElem?_ofByte b hi, Nat.div_eq_of_lt hi,
        Nat.mod_eq_of_lt hi]
      rfl
    · rw [List.getElem?_append_right (by simpa using hi), length_ofByte, ih,
        show i / 8 = (i - 8) / 8 + 1 by omega, show i % 8 = (i - 8) % 8 by omega]
      rfl

theorem get_eq (hi : i < (unpack bits).length) : get bits i = .ok (unpack bits)[i] := by
  have bit := getElem?_unpack bits i
  rw [List.getElem?_eq_getElem hi] at bit
  obtain ⟨b, hb, e⟩ := Option.map_eq_some_iff.1 bit.symm
  rw [get, hb, ← e]

/-- Writing a bit replaces it and no other. -/
theorem set_eq (value : Bool) (hi : i < (unpack bits).length) :
    ∃ bits', set bits i value = .ok bits' ∧ unpack bits' = (unpack bits).set i value := by
  have inside : i / 8 < bits.length := by rw [length_unpack] at hi; omega
  have byte := List.getElem?_eq_getElem inside
  refine ⟨bits.set (i / 8) (setInByte bits[i / 8] (i % 8) value), by rw [set, byte], ?_⟩
  refine List.ext_getElem? fun j => ?_
  rw [getElem?_unpack, List.getElem?_set, List.getElem?_set, getElem?_unpack]
  have hm : i % 8 < 8 := Nat.mod_lt i (by decide)
  by_cases same : i / 8 = j / 8
  · rw [if_pos same, if_pos inside, Option.map_some,
      testBit_setInByte hm (Nat.mod_lt j (by decide)), ← same, byte, Option.map_some]
    by_cases e : i = j
    · rw [if_pos (by rw [e]), if_pos e, if_pos hi]
    · rw [if_neg (by omega), if_neg e]
  · rw [if_neg same, if_neg (by rintro rfl; exact same rfl)]

theorem count_eq (bits : List UInt8) : count bits = (unpack bits).count true := by
  induction bits with
  | nil => rfl
  | cons b bits ih =>
    have cons : count (b :: bits) = countInByte b + count bits := rfl
    rw [cons, unpack_cons, List.count_append, ih, countInByte_eq]

/-! ## Writing ones -/

/-- The byte string with a one written at each of some places. -/
def mark (bits : List UInt8) (places : List Nat) : Result (List UInt8) :=
  places.foldlM (fun bits i => set bits i true) bits

theorem mark_eq {places : List Nat} (hp : ∀ i ∈ places, i < (unpack bits).length) :
    ∃ bits', mark bits places = .ok bits' ∧ (unpack bits').length = (unpack bits).length ∧
      ∀ j, (unpack bits')[j]? = if j ∈ places then (unpack bits)[j]?.map fun _ => true
        else (unpack bits)[j]? := by
  induction places generalizing bits with
  | nil => exact ⟨bits, rfl, rfl, fun j => (if_neg List.not_mem_nil).symm⟩
  | cons i places ih =>
    rw [List.forall_mem_cons] at hp
    obtain ⟨bits₁, hset, h₁⟩ := set_eq true hp.1
    have length₁ : (unpack bits₁).length = (unpack bits).length := by rw [h₁, List.length_set]
    have within : ∀ i ∈ places, i < (unpack bits₁).length := by rw [length₁]; exact hp.2
    obtain ⟨bits', hmark, length', h'⟩ := ih within
    refine ⟨bits', ?_, length'.trans length₁, fun j => ?_⟩
    · rw [mark, List.foldlM_cons, hset]
      exact hmark
    · simp only [h', h₁, List.getElem?_set, List.mem_cons]
      by_cases e : i = j
      · subst e
        simp [hp.1]
      · simp [e, Ne.symm e]

end SszMerkle.Bits
