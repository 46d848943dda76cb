/-
How many bits and bytes a number takes. The number of its bits, the place of its highest one and the
depth of a tree with room for so many leaves are told by the powers of two it lies between. A gindex is
written in as many bytes as its bits reach into: the highest byte is not zero, the bytes read as one
number give the gindex back, and so no two gindices are written alike.
-/
import SszMerkle.Proofs.Address
import SszMerkle.Proofs.Serialized
import Mathlib.Algebra.Order.Floor.Div

namespace SszMerkle

namespace Word

variable {v d : Nat}

/-! ## Bits -/

theorem bitLength_of_pos (hv : 0 < v) : bitLength v = topBit v + 1 := if_neg hv.ne'

/-- A number takes at most `d` bits exactly if it lies below `2 ^ d`. -/
theorem bitLength_le_iff : bitLength v ≤ d ↔ v < 2 ^ d := by
  rcases Nat.eq_zero_or_pos v with rfl | hv
  · simp [bitLength]
  · rw [bitLength_of_pos hv, Nat.succ_le_iff]
    exact Nat.log2_lt hv.ne'

/-- The highest one is at the one place between whose powers of two the number lies. -/
theorem eq_topBit_iff {m : Nat} (hv : 0 < v) : m = topBit v ↔ 2 ^ m ≤ v ∧ v < 2 ^ (m + 1) := by
  rw [← Nat.log2_eq_iff hv.ne']
  exact eq_comm

theorem isLeast_depthFor (v : Nat) : IsLeast {d | v ≤ 2 ^ d} (depthFor v) := by
  constructor
  · exact le_two_pow_depthFor v
  · intro d hd
    exact depthFor_le_iff.2 hd

/-- What the counts tell of a number. -/
structure Counted (v : Nat) : Prop where
  depthFor_le : ∀ d, depthFor v ≤ d ↔ v ≤ 2 ^ d
  /-- No tree of less depth has room for so many leaves. -/
  depthFor_least : IsLeast {d | v ≤ 2 ^ d} (depthFor v)
  bitLength_le : ∀ d, bitLength v ≤ d ↔ v < 2 ^ d
  topBit_eq : 0 < v → topBit v = bitLength v - 1
  topBit_unique : 0 < v → ∀ m, m = topBit v ↔ 2 ^ m ≤ v ∧ v < 2 ^ (m + 1)

theorem counted (v : Nat) : Counted v where
  depthFor_le _ := depthFor_le_iff
  depthFor_least := isLeast_depthFor v
  bitLength_le _ := bitLength_le_iff
  topBit_eq hv := by rw [bitLength_of_pos hv, Nat.add_sub_cancel]
  topBit_unique hv _ := eq_topBit_iff hv

/-! ## Bytes -/

/-- The number that big-endian bytes write. -/
def ofBytesBE (bs : List UInt8) : Nat := bs.foldl (fun v b => 256 * v + b.toNat) 0

theorem ofBytesBE_reverse (bs : List UInt8) : ofBytesBE bs.reverse = ofBytes bs := by
  unfold ofBytesBE ofBytes
  rw [List.foldl_reverse]
  simp only [Nat.add_comm]

/-- The bytes that the bits of a number reach into. -/
def byteLength (v : Nat) : Nat := (bitLength v + 7) / 8

theorem two_pow_eight_mul (n : Nat) : 2 ^ (8 * n) = 256 ^ n := by
  rw [pow_mul]
  norm_num

/-- A number takes at most `n` bytes exactly if it lies below `256 ^ n`. -/
theorem byteLength_le_iff {n : Nat} : byteLength v ≤ n ↔ v < 256 ^ n := by
  rw [← two_pow_eight_mul, ← bitLength_le_iff]
  unfold byteLength
  omega

theorem lt_pow_byteLength (v : Nat) : v < 256 ^ byteLength v := byteLength_le_iff.1 le_rfl

/-- Fewer bytes are the first of more. -/
theorem take_toBytes : ∀ {n size : Nat} (v : Nat), n ≤ size → (toBytes v size).take n = toBytes v n
  | 0, _, _, _ => List.take_zero
  | n + 1, size + 1, v, hn => by
    rw [toBytes, toBytes, List.take_succ_cons, take_toBytes _ (Nat.le_of_succ_le_succ hn)]

/-- Eight bytes without the leading zeros are as many as the bits reach into. -/
theorem drop_bytesBE (hv : v < bound) :
    (bytesBE v).drop (leadingZeros v / 8) = (toBytes v (byteLength v)).reverse := by
  have fits : bitLength v ≤ 64 := bitLength_le_iff.2 hv
  have rest : 8 - leadingZeros v / 8 = byteLength v := by
    unfold leadingZeros byteLength
    omega
  have most : byteLength v ≤ 8 := by omega
  unfold bytesBE
  rw [List.drop_reverse, length_toBytes, rest, take_toBytes v most]

theorem ofBytes_toBytes_byteLength (v : Nat) : ofBytes (toBytes v (byteLength v)) = v := by
  rw [ofBytes_toBytes, Nat.mod_eq_of_lt (lt_pow_byteLength v)]

/-- The byte that the highest one is in comes last. -/
theorem getLast?_toBytes_byteLength (hv : 0 < v) :
    ∃ b, (toBytes v (byteLength v)).getLast? = some b ∧ b ≠ 0 := by
  obtain ⟨n, hn⟩ : ∃ n, byteLength v = n + 1 := by
    refine Nat.exists_eq_succ_of_ne_zero fun none => ?_
    have := lt_pow_byteLength v
    rw [none, pow_zero] at this
    omega
  -- with one byte less the number is not written, with this many it is
  have reaches : 256 ^ n ≤ v := by
    have short : ¬ byteLength v ≤ n := by omega
    rwa [byteLength_le_iff, Nat.not_lt] at short
  have fits : v < 256 ^ n * 256 := by
    rw [← pow_succ, ← hn]
    exact lt_pow_byteLength v
  have lo : 0 < v / 256 ^ n := Nat.div_pos reaches (by positivity)
  have hi : v / 256 ^ n < 256 := Nat.div_lt_of_lt_mul fits
  refine ⟨UInt8.ofNat (v / 256 ^ n), ?_, fun zero => ?_⟩
  · rw [List.getLast?_eq_getElem?, length_toBytes, hn, Nat.add_sub_cancel]
    exact getElem?_toBytes v n.lt_succ_self
  · have := congrArg UInt8.toNat zero
    rw [UInt8.toNat_ofNat_of_lt' hi] at this
    exact lo.ne' this

end Word

/-! ## Gindices -/

namespace Gindex

variable {g : Gindex}

theorem toBytesBE_eq (g : Gindex) :
    g.toBytesBE = (Word.toBytes g.val (Word.byteLength g.val)).reverse := Word.drop_bytesBE g.isLt

theorem toBytesLE_eq (g : Gindex) : g.toBytesLE = Word.toBytes g.val (Word.byteLength g.val) := by
  rw [toBytesLE, toBytesBE_eq, List.reverse_reverse]

theorem ofBytes_toBytesLE (g : Gindex) : Word.ofBytes g.toBytesLE = g.val := by
  rw [toBytesLE_eq, Word.ofBytes_toBytes_byteLength]

theorem ofBytesBE_toBytesBE (g : Gindex) : Word.ofBytesBE g.toBytesBE = g.val := by
  rw [toBytesBE_eq, Word.ofBytesBE_reverse, Word.ofBytes_toBytes_byteLength]

theorem toBytesBE_injective : Function.Injective toBytesBE := by
  intro a b h
  ext
  rw [← ofBytesBE_toBytesBE a, ← ofBytesBE_toBytesBE b, h]

theorem toBytesLE_injective : Function.Injective toBytesLE := by
  intro a b h
  ext
  rw [← ofBytes_toBytesLE a, ← ofBytes_toBytesLE b, h]

/-- How a gindex is written in bytes. -/
structure Written (g : Gindex) : Prop where
  /-- The first byte is there, and it could not be left out. -/
  head : ∃ b rest, g.toBytesBE = b :: rest ∧ b ≠ 0
  length : g.toBytesBE.length = Word.bitLength g.val ⌈/⌉ 8
  value : Word.ofBytesBE g.toBytesBE = g.val
  reverse : g.toBytesLE = g.toBytesBE.reverse
  /-- Read from the other end it is the same number. -/
  valueLE : Word.ofBytes g.toBytesLE = g.val

theorem written (hg : 0 < g.val) : g.Written where
  head := by
    obtain ⟨b, hlast, hb⟩ := Word.getLast?_toBytes_byteLength hg
    rw [← List.head?_reverse, ← toBytesBE_eq] at hlast
    obtain ⟨rest, hrest⟩ := List.head?_eq_some_iff.1 hlast
    exact ⟨b, rest, hrest, hb⟩
  length := by
    rw [toBytesBE_eq, List.length_reverse, Word.length_toBytes]
    rfl
  value := ofBytesBE_toBytesBE g
  reverse := rfl
  valueLE := ofBytes_toBytesLE g

/-- The depth for a number of leaves is the least whose tree has room for them, and more leaves never
need less; a number takes so many bits that it lies below that power of two and no lower, and its
highest one is the last of them. A gindex is written, highest byte first, in the bytes its bits fill in
part or whole, none of them an idle zero in front; read as one number they give the gindex back, the
other order is the same bytes reversed, and in neither are two gindices written alike. -/
theorem counts_and_bytes :
    (∀ v, Word.Counted v) ∧ Monotone Word.depthFor ∧
    (∀ g : Gindex, 0 < g.val → g.Written) ∧
    Function.Injective toBytesBE ∧ Function.Injective toBytesLE := by
  refine ⟨Word.counted, fun v w h => Word.depthFor_mono h, fun g hg => written hg, ?_, ?_⟩
  · exact toBytesBE_injective
  · exact toBytesLE_injective

/-- The last gindex but one of level 56 takes 57 bits: seven bytes, and one bit of an eighth. -/
theorem counts_and_bytes_of_level_56 :
    let g : Gindex := ⟨2 ^ 57 - 2, by decide⟩
    0 < g.val ∧ Word.bitLength g.val = 57 ∧ Word.topBit g.val = 56 ∧ Word.depthFor g.val = 57 ∧
      g.toBytesBE = [1, 255, 255, 255, 255, 255, 255, 254] ∧ g.toBytesBE.length = 57 ⌈/⌉ 8 := by
  intro g
  obtain ⟨counted, -, written, -⟩ := counts_and_bytes
  have pos : 0 < g.val := by decide
  have top : 56 = Word.topBit g.val := ((counted g.val).topBit_unique pos 56).2 (by decide)
  have bits : Word.bitLength g.val = 57 := by
    have := (counted g.val).topBit_eq pos
    have := ((counted g.val).bitLength_le 57).2 (by decide)
    omega
  have depth : Word.depthFor g.val = 57 := by
    have := ((counted g.val).depthFor_le 57).2 (by decide)
    have := mt ((counted g.val).depthFor_le 56).1 (by decide)
    omega
  have length := (written g pos).length
  rw [bits] at length
  exact ⟨pos, bits, top.symm, depth, by decide, length⟩

end Gindex

end SszMerkle
