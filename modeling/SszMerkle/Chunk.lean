/-
Chunks: how values become the thirty-two-byte leaves of a tree. Basic values are written
little-endian and packed side by side; lengths and selectors have a chunk of their own.
-/
import SszMerkle.Bits

namespace SszMerkle

/-- The types of fixed size whose values are packed several to a chunk. -/
inductive BasicType where
  | uint8
  | uint16
  | uint32
  | uint64
  | uint128
  | boolean
deriving DecidableEq

namespace BasicType

/-- The values of a type. -/
def Carrier : BasicType → Type
  | uint8 => UInt8
  | uint16 => UInt16
  | uint32 => UInt32
  | uint64 => UInt64
  | uint128 => BitVec 128
  | boolean => Bool

/-- The bytes a value takes, a divisor of thirty-two. -/
def size : BasicType → Nat
  | uint8 => 1
  | uint16 => 2
  | uint32 => 4
  | uint64 => 8
  | uint128 => 16
  | boolean => 1

/-- The number a value stands for; 1 for true. -/
def toNat : (t : BasicType) → t.Carrier → Nat
  | uint8, v => UInt8.toNat v
  | uint16, v => UInt16.toNat v
  | uint32, v => UInt32.toNat v
  | uint64, v => UInt64.toNat v
  | uint128, v => BitVec.toNat v
  | boolean, v => Bool.toNat v

/-- The little-endian bytes of a value. -/
def encode (t : BasicType) (v : t.Carrier) : List UInt8 := Word.toBytes (t.toNat v) t.size

@[simp] theorem length_encode (t : BasicType) (v : t.Carrier) : (t.encode v).length = t.size := by
  simp [encode]

/-- How many values fill a chunk. -/
def perChunk (t : BasicType) : Nat := 32 / t.size

/-- The values a type has. -/
def cardinality : BasicType → Nat
  | boolean => 2
  | t => Word.pow2 (8 * t.size)

/-- The value that a number below the cardinality stands for. -/
def valueOf : (t : BasicType) → Nat → t.Carrier
  | uint8, n => UInt8.ofNat n
  | uint16, n => UInt16.ofNat n
  | uint32, n => UInt32.ofNat n
  | uint64, n => UInt64.ofNat n
  | uint128, n => BitVec.ofNat 128 n
  | boolean, n => n == 1

/-- The value a number stands for, if the type has it. -/
def ofNat? (t : BasicType) (n : Nat) : Option t.Carrier :=
  if n < t.cardinality then some (t.valueOf n) else none

end BasicType

namespace Chunk

/-- How many groups of `size` hold `n` things. -/
def groups (n size : Nat) : Nat := n / size + if n % size = 0 then 0 else 1

/-- The chunks that `n` packed values fill. -/
def countOf (t : BasicType) (n : Nat) : Nat := groups n t.perChunk

/-- The chunks that `n` bytes fill. -/
def countOfBytes (n : Nat) : Nat := groups n 32

/-- The chunks that `n` bits fill. -/
def countOfBits (n : Nat) : Nat := groups n 256

/-- Chunk `i` of packed values, with zero bytes past their end. -/
def packed (t : BasicType) (vs : List t.Carrier) (i : Nat) : Root :=
  .ofBytes (((vs.drop (i * t.perChunk)).take t.perChunk).flatMap t.encode)

/-- Chunk `i` of a byte string, with zero bytes past its end. -/
def ofBytes (bs : List UInt8) (i : Nat) : Root := packed .uint8 bs i

/-- Chunk `i` of the content of a bitlist of `size` bits: its bytes with the delimiter cleared. -/
def ofBitlist (bits : List UInt8) (size i : Nat) : Root :=
  let chunk := ofBytes bits i
  if i = size / 256 then
    let place := size % 256
    .ofBytes (chunk.toList.modify (place / 8) (Bits.setInByte · (place % 8) false))
  else chunk

/-- The chunk of a length: eight little-endian bytes, then zeros. -/
def ofLength (n : Nat) : Root := .ofBytes (Word.toBytes n 8)

/-- The chunk of a union's selector: one byte, then zeros. -/
def ofSelector (s : UInt8) : Root := .ofBytes [s]

/-- The length that the first eight bytes of a chunk write. -/
def lengthOf (c : Root) : Nat := Word.ofBytes (c.toList.take 8)

end Chunk

end SszMerkle
