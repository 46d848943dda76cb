/-
Bytes as hexadecimal text: two lower-case digits a byte when written, either case when read.
Main statement: what is written reads back.
-/

namespace SszMerkle.Text.Hex

/-- The lower-case digit of a value below sixteen. -/
def digit (n : Nat) : Char :=
  if n < 10 then Char.ofNat ('0'.toNat + n) else Char.ofNat ('a'.toNat + (n - 10))

/-- The value of a digit of either case. -/
def digitValue? (c : Char) : Option Nat :=
  if '0' ≤ c ∧ c ≤ '9' then some (c.toNat - '0'.toNat)
  else if 'a' ≤ c ∧ c ≤ 'f' then some (c.toNat - 'a'.toNat + 10)
  else if 'A' ≤ c ∧ c ≤ 'F' then some (c.toNat - 'A'.toNat + 10)
  else none

/-- The two digits of a byte, high half first. -/
def encodeByte (b : UInt8) : List Char := [digit (b.toNat / 16), digit (b.toNat % 16)]

/-- The digits of a byte string. -/
def encode (bs : List UInt8) : String := String.ofList (bs.flatMap encodeByte)

/-- Reads pairs of digits; an odd digit left over is refused. -/
def decode? : List Char → Option (List UInt8)
  | [] => some []
  | hi :: lo :: rest => do
    let h ← digitValue? hi
    let l ← digitValue? lo
    let bs ← decode? rest
    return UInt8.ofNat (16 * h + l) :: bs
  | [_] => none

theorem digitValue?_digit : ∀ n : Fin 16, digitValue? (digit n) = some n.val := by decide

theorem decode?_encodeByte (b : UInt8) (rest : List Char) :
    decode? (encodeByte b ++ rest) = (decode? rest).map (b :: ·) := by
  have hb : b.toNat < 256 := b.toNat_lt
  have hi := digitValue?_digit ⟨b.toNat / 16, by omega⟩
  have lo := digitValue?_digit ⟨b.toNat % 16, by omega⟩
  simp only at hi lo
  have e : UInt8.ofNat (16 * (b.toNat / 16) + b.toNat % 16) = b := by
    rw [Nat.div_add_mod]; simp
  simp only [encodeByte, List.cons_append, List.nil_append, decode?, hi, lo, Option.bind_eq_bind,
    Option.bind_some, e]
  cases decode? rest <;> rfl

/-- What is written reads back. -/
theorem decode?_encode (bs : List UInt8) : decode? (encode bs).toList = some bs := by
  have h : ∀ bs : List UInt8, decode? (bs.flatMap encodeByte) = some bs := by
    intro bs
    induction bs with
    | nil => rfl
    | cons b bs ih => rw [List.flatMap_cons, decode?_encodeByte, ih]; rfl
  rw [encode, String.toList_ofList]; exact h bs

end SszMerkle.Text.Hex
