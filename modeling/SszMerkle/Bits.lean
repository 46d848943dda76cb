/-
Packed bits. Bit `i` of a byte string is bit `i % 8` of byte `i / 8`, least significant first. A
bitvector of `n` bits fills its last byte with zeros. A bitlist carries its length in one more
bit, the delimiter: the highest one of its last byte, which is no part of the content.
-/
import SszMerkle.Word

namespace SszMerkle

namespace Bits

/-- The position of the highest one of a byte, and 0 for a zero byte. -/
def topBit (b : UInt8) : Nat := Word.topBit b.toNat

/-- The byte whose only one is bit `k`. -/
def single (k : Nat) : UInt8 := 1 <<< UInt8.ofNat k

/-- Bit `i`. -/
def get (bits : List UInt8) (i : Nat) : Result Bool :=
  match bits[i / 8]? with
  | some b => .ok (b.toNat.testBit (i % 8))
  | none => .error (.breach (.bitPosition i bits.length))

/-- The byte with bit `k` replaced. -/
def setInByte (b : UInt8) (k : Nat) (value : Bool) : UInt8 :=
  if value then b ||| single k else b &&& ~~~(single k)

/-- The byte string with bit `i` replaced. -/
def set (bits : List UInt8) (i : Nat) (value : Bool) : Result (List UInt8) :=
  match bits[i / 8]? with
  | some b => .ok (bits.set (i / 8) (setInByte b (i % 8) value))
  | none => .error (.breach (.bitPosition i bits.length))

/-- How many bits of a byte are one. -/
def countInByte (b : UInt8) : Nat := (List.range 8).countP b.toNat.testBit

/-- How many bits are one. -/
def count (bits : List UInt8) : Nat := bits.foldr (fun b n => countInByte b + n) 0

/-- Whether `a` has every one that `b` has; they must be of one length, and not empty. -/
def covers (a b : List UInt8) : Result Bool :=
  if a.isEmpty || a.length != b.length then .error (.bitfieldMismatch a.length b.length)
  else .ok ((a.zip b).all fun (x, y) => y &&& ~~~x == 0)

end Bits

namespace Bitlist

/-- How many bits precede the delimiter. -/
def size (bits : List UInt8) : Nat :=
  match bits.getLast? with
  | none => 0
  | some last => (bits.length - 1) * 8 + Bits.topBit last

/-- Whether no bit but the delimiter is one. Bytes without a delimiter are zero when all
of them are. -/
def isZero (bits : List UInt8) : Bool :=
  match bits.getLast? with
  | none => true
  | some last =>
    bits.dropLast.all (· == 0) && (last == 0 || last ^^^ Bits.single (Bits.topBit last) == 0)

/-- How many content bits are one. -/
def count (bits : List UInt8) : Nat := Bits.count bits - 1

/-- Accepts the encodings of at most `limit` bits. -/
def check (bits : List UInt8) (limit : Nat) : Result Unit :=
  match bits.getLast? with
  | none => .error (.invalidBitlist .empty)
  | some last =>
    if last == 0 then .error (.invalidBitlist (.noDelimiter bits.length))
    else if limit < size bits then .error (.overCapacity (size bits) limit)
    else .ok ()

end Bitlist

namespace Bitvector

/-- The bytes that `n` bits fill. -/
def byteCount (n : Nat) : Nat := n / 8 + if n % 8 = 0 then 0 else 1

/-- Accepts the byte count of `n` bits. -/
def checkByteCount (bytes n : Nat) : Result Unit :=
  if bytes = byteCount n then .ok ()
  else .error (.invalidBitvector (.byteCount bytes (byteCount n) n))

/-- Accepts a last byte of `n` bits whose unused high bits are zero. -/
def checkLastByte (last : UInt8) (n : Nat) : Result Unit :=
  if n = 0 then .error (.invalidBitvector .noLastByte)
  else if n % 8 ≠ 0 ∧ last.toNat >>> (n % 8) ≠ 0 then
    .error (.invalidBitvector (.strayBits last (n % 8)))
  else .ok ()

/-- Accepts the encodings of exactly `n` bits. -/
def check (bits : List UInt8) (n : Nat) : Result Unit := do
  checkByteCount bits.length n
  match bits.getLast? with
  | some last => checkLastByte last n
  | none => .ok ()

end Bitvector

end SszMerkle
