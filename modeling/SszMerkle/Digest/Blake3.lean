/-
BLAKE3 of a byte string, unkeyed, thirty-two bytes long. The input is cut into chunks of 1024
bytes, each chunk is a chain of blocks of sixty-four bytes, and the chunks are the leaves of a
binary tree whose left half is always full.
-/
import SszMerkle.Digest.Word32
import SszMerkle.Root

namespace SszMerkle.Digest.Blake3

/-- Where each message word comes from in the next round. -/
def permutation : Vector (Fin 16) 16 := #v[2, 6, 3, 10, 7, 0, 4, 13, 1, 11, 12, 5, 9, 14, 15, 8]

/-- The flag of the first block of a chunk. -/
def chunkStart : UInt32 := 1

/-- The flag of the last block of a chunk. -/
def chunkEnd : UInt32 := 2

/-- The flag of a node above two others. -/
def parent : UInt32 := 4

/-- The flag of the node at the top of the tree. -/
def top : UInt32 := 8

/-- Mixes two message words into a column or a diagonal of the state. -/
def mix (s : Vector UInt32 16) (a b c d : Fin 16) (x y : UInt32) : Vector UInt32 16 :=
  let va := s[a] + s[b] + x
  let vd := rotateRight (s[d] ^^^ va) 16
  let vc := s[c] + vd
  let vb := rotateRight (s[b] ^^^ vc) 12
  let va := va + vb + y
  let vd := rotateRight (vd ^^^ va) 8
  let vc := vc + vd
  let vb := rotateRight (vb ^^^ vc) 7
  (((s.set a va).set b vb).set c vc).set d vd

/-- One round: the four columns, then the four diagonals. -/
def round (s m : Vector UInt32 16) : Vector UInt32 16 :=
  let s := mix s 0 4 8 12 m[0] m[1]
  let s := mix s 1 5 9 13 m[2] m[3]
  let s := mix s 2 6 10 14 m[4] m[5]
  let s := mix s 3 7 11 15 m[6] m[7]
  let s := mix s 0 5 10 15 m[8] m[9]
  let s := mix s 1 6 11 12 m[10] m[11]
  let s := mix s 2 7 8 13 m[12] m[13]
  mix s 3 4 9 14 m[14] m[15]

/-- `n` rounds, with the message words permuted after each. -/
def rounds : (n : Nat) → (s m : Vector UInt32 16) → Vector UInt32 16
  | 0, s, _ => s
  | n + 1, s, m => rounds n (round s m) (permutation.map fun k => m[k])

/-- What is left to compress for a node of the tree. -/
structure Node where
  chain : Vector UInt32 8
  block : Vector UInt32 16
  counter : Nat
  length : Nat
  flags : UInt32

/-- The chaining value of a node, under further flags. -/
def Node.compress (n : Node) (more : UInt32) : Vector UInt32 8 :=
  let tail : Vector UInt32 8 :=
    #v[squareRoots[0], squareRoots[1], squareRoots[2], squareRoots[3], UInt32.ofNat n.counter,
      UInt32.ofNat (n.counter >>> 32), UInt32.ofNat n.length, n.flags ||| more]
  let s := rounds 7 (n.chain ++ tail) n.block
  Vector.ofFn fun k => s[k.val] ^^^ s[k.val + 8]

/-- Little-endian words of a byte string; missing bytes are zero. -/
def words (n : Nat) (bytes : List UInt8) : Vector UInt32 n :=
  let a := bytes.toArray
  Vector.ofFn fun k =>
    let byte (j : Nat) : UInt32 := (a.getD (4 * k.val + j) 0).toUInt32
    byte 0 ||| (byte 1 <<< 8) ||| (byte 2 <<< 16) ||| (byte 3 <<< 24)

/-- The last node of a chunk: all blocks but the last are compressed, `blocks` of them, and `start`
marks the first. -/
def chunkFrom (counter : Nat) :
    (blocks : Nat) → Vector UInt32 8 → UInt32 → List UInt8 → Node
  | 0, chain, start, bytes => ⟨chain, words 16 bytes, counter, bytes.length, start ||| chunkEnd⟩
  | n + 1, chain, start, bytes =>
    let node : Node := ⟨chain, words 16 (bytes.take 64), counter, 64, start⟩
    chunkFrom counter n (node.compress 0) 0 (bytes.drop 64)

/-- The node of the chunk of a given number. -/
def chunk (counter : Nat) (bytes : List UInt8) : Node :=
  chunkFrom counter ((bytes.length - 1) / 64) squareRoots chunkStart bytes

/-- The node above two others. -/
def join (left right : Node) : Node :=
  ⟨squareRoots, left.compress 0 ++ right.compress 0, 0, 64, parent⟩

/-- The top node of the tree over `chunks` chunks, the first of which has number `counter`. Its left
half holds the greatest power of two of them that is less than all. -/
def tree (counter chunks : Nat) (bytes : List UInt8) : Node :=
  if h : chunks ≤ 1 then chunk counter bytes
  else
    let half := Nat.pow 2 (chunks - 1).log2
    have lt : half < chunks := by
      have le : 2 ^ (chunks - 1).log2 ≤ chunks - 1 := Nat.log2_self_le (by omega)
      exact Nat.lt_of_le_of_lt le (by omega)
    have pos : 0 < half := Nat.pow_pos (by decide)
    join (tree counter half (bytes.take (1024 * half)))
      (tree (counter + half) (chunks - half) (bytes.drop (1024 * half)))
termination_by chunks
decreasing_by
  · exact lt
  · exact Nat.sub_lt (by omega) pos

/-- The little-endian bytes of a word. -/
def bytesOf (w : UInt32) : List UInt8 :=
  [w.toUInt8, (w >>> 8).toUInt8, (w >>> 16).toUInt8, (w >>> 24).toUInt8]

/-- The digest of a byte string. -/
def digest (message : List UInt8) : Root :=
  let node := tree 0 ((message.length + 1023) / 1024) message
  Root.ofBytes ((node.compress top).toList.flatMap bytesOf)

end SszMerkle.Digest.Blake3
