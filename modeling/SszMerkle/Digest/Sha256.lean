/-
SHA-256 of a byte string: the message is padded with a one bit, zeros and its own bit length to
whole blocks of sixty-four bytes, and each block is compressed into a state of eight words.
-/
import SszMerkle.Digest.Word32
import SszMerkle.Root

namespace SszMerkle.Digest.Sha256

/-- The eight working words. -/
structure State where
  a : UInt32
  b : UInt32
  c : UInt32
  d : UInt32
  e : UInt32
  f : UInt32
  g : UInt32
  h : UInt32

/-- The state before the first block. -/
def initial : State where
  a := squareRoots.get 0
  b := squareRoots.get 1
  c := squareRoots.get 2
  d := squareRoots.get 3
  e := squareRoots.get 4
  f := squareRoots.get 5
  g := squareRoots.get 6
  h := squareRoots.get 7

/-- The round constants: the fractions of the cube roots of the first sixty-four primes. -/
def constants : List UInt32 :=
  [0x428a2f98, 0x71374491, 0xb5c0fbcf, 0xe9b5dba5, 0x3956c25b, 0x59f111f1, 0x923f82a4, 0xab1c5ed5,
   0xd807aa98, 0x12835b01, 0x243185be, 0x550c7dc3, 0x72be5d74, 0x80deb1fe, 0x9bdc06a7, 0xc19bf174,
   0xe49b69c1, 0xefbe4786, 0x0fc19dc6, 0x240ca1cc, 0x2de92c6f, 0x4a7484aa, 0x5cb0a9dc, 0x76f988da,
   0x983e5152, 0xa831c66d, 0xb00327c8, 0xbf597fc7, 0xc6e00bf3, 0xd5a79147, 0x06ca6351, 0x14292967,
   0x27b70a85, 0x2e1b2138, 0x4d2c6dfc, 0x53380d13, 0x650a7354, 0x766a0abb, 0x81c2c92e, 0x92722c85,
   0xa2bfe8a1, 0xa81a664b, 0xc24b8b70, 0xc76c51a3, 0xd192e819, 0xd6990624, 0xf40e3585, 0x106aa070,
   0x19a4c116, 0x1e376c08, 0x2748774c, 0x34b0bcb5, 0x391c0cb3, 0x4ed8aa4a, 0x5b9cca4f, 0x682e6ff3,
   0x748f82ee, 0x78a5636f, 0x84c87814, 0x8cc70208, 0x90befffa, 0xa4506ceb, 0xbef9a3f7, 0xc67178f2]

/-- Big-endian words of a byte string; bytes that fill no word are left out. -/
def words : List UInt8 → List UInt32
  | a :: b :: c :: d :: rest =>
    ((a.toUInt32 <<< 24) ||| (b.toUInt32 <<< 16) ||| (c.toUInt32 <<< 8) ||| d.toUInt32) ::
      words rest
  | _ => []

/-- One more word of the message schedule, made from the words two, seven, fifteen and
sixteen back. -/
def extend (w : Array UInt32) : Array UInt32 :=
  let t := w.size
  let x := w.getD (t - 15) 0
  let y := w.getD (t - 2) 0
  let s0 := rotateRight x 7 ^^^ rotateRight x 18 ^^^ (x >>> 3)
  let s1 := rotateRight y 17 ^^^ rotateRight y 19 ^^^ (y >>> 10)
  w.push (w.getD (t - 16) 0 + s0 + w.getD (t - 7) 0 + s1)

/-- The sixty-four words that a block's sixteen give. -/
def schedule (block : List UInt32) : List UInt32 :=
  ((List.range 48).foldl (fun w _ => extend w) block.toArray).toList

/-- One round with its constant and its schedule word. -/
def round (s : State) (kw : UInt32 × UInt32) : State :=
  let s1 := rotateRight s.e 6 ^^^ rotateRight s.e 11 ^^^ rotateRight s.e 25
  let choice := (s.e &&& s.f) ^^^ (~~~s.e &&& s.g)
  let t1 := s.h + s1 + choice + kw.1 + kw.2
  let s0 := rotateRight s.a 2 ^^^ rotateRight s.a 13 ^^^ rotateRight s.a 22
  let majority := (s.a &&& s.b) ^^^ (s.a &&& s.c) ^^^ (s.b &&& s.c)
  ⟨t1 + (s0 + majority), s.a, s.b, s.c, s.d + t1, s.e, s.f, s.g⟩

/-- The state after a block of sixteen words. -/
def compress (s : State) (block : List UInt32) : State :=
  let r := (constants.zip (schedule block)).foldl round s
  ⟨s.a + r.a, s.b + r.b, s.c + r.c, s.d + r.d, s.e + r.e, s.f + r.f, s.g + r.g, s.h + r.h⟩

/-- The big-endian bytes of a word. -/
def bytesOf (w : UInt32) : List UInt8 :=
  [(w >>> 24).toUInt8, (w >>> 16).toUInt8, (w >>> 8).toUInt8, w.toUInt8]

/-- The message with its padding: a whole number of blocks. -/
def pad (message : List UInt8) : List UInt8 :=
  let n := message.length
  let zeros : List UInt8 := List.replicate ((119 - n % 64) % 64) 0
  let size := (List.range 8).reverse.map fun k => UInt8.ofNat ((8 * n) >>> (8 * k))
  message ++ [0x80] ++ zeros ++ size

/-- Compresses `blocks` blocks of a word list. -/
def absorb : (blocks : Nat) → State → List UInt32 → State
  | 0, s, _ => s
  | n + 1, s, ws => absorb n (compress s (ws.take 16)) (ws.drop 16)

/-- The digest of a byte string. -/
def digest (message : List UInt8) : Root :=
  let ws := words (pad message)
  let s := absorb (ws.length / 16) initial ws
  Root.ofBytes ([s.a, s.b, s.c, s.d, s.e, s.f, s.g, s.h].flatMap bytesOf)

end SszMerkle.Digest.Sha256
