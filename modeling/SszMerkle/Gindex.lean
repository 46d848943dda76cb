/-
Generalized indices. A gindex addresses a node of a binary tree by one number: its highest one
marks the depth, and the bits below it are the path from the root, 0 for left and 1 for right. So
the root is 1 and node `g` has the children `2 * g` and `2 * g + 1`. Zero addresses nothing, but the
type holds it, since a gindex read from text is any 64-bit word.
-/
import SszMerkle.Word

namespace SszMerkle

/-- A 64-bit word read as the address of a tree node. -/
structure Gindex where
  val : Nat
  isLt : val < Word.bound
deriving DecidableEq

namespace Gindex

/-- The address of the root. -/
def root : Gindex := ⟨1, by decide⟩

/-- The address written `v`, refused for zero. -/
def ofNat (v : Nat) : Result Gindex :=
  if h : 0 < v ∧ v < Word.bound then .ok ⟨v, h.2⟩ else .error (.invalidGindex v)

/-- How many levels below the root the node lies. -/
def depth (g : Gindex) : Nat := g.val.log2

theorem depth_lt (g : Gindex) : g.depth < 64 := by
  unfold depth
  by_cases h : g.val = 0
  · rw [h]; decide
  · exact (Nat.log2_lt h).2 g.isLt

/-- What two words below one power of two write together lies below it too. -/
theorem or_lt_bound {a b : Nat} (ha : a < Word.bound) (hb : b < Word.bound) :
    a ||| b < Word.bound :=
  show _ < 2 ^ 64 from Nat.or_lt_two_pow ha hb

theorem xor_lt_bound {a b : Nat} (ha : a < Word.bound) (hb : b < Word.bound) :
    a ^^^ b < Word.bound :=
  show _ < 2 ^ 64 from Nat.xor_lt_two_pow ha hb

/-- The node at a position of a level, counted from the left. -/
def ofPosition (position depth : Nat) : Result Gindex :=
  if h : depth < 64 ∧ position < Word.pow2 depth then
    .ok ⟨Word.pow2 depth ||| position, or_lt_bound (Word.pow2_lt_bound h.1)
      (Nat.lt_trans h.2 (Word.pow2_lt_bound h.1))⟩
  else .error (.malformedIndex position depth)

/-- The leftmost node of the same level. -/
def leftmost (g : Gindex) : Gindex := ⟨Word.pow2 g.depth, Word.pow2_lt_bound g.depth_lt⟩

/-- The position within the level, counted from the left. -/
def position (g : Gindex) : Nat := g.val ^^^ Word.pow2 g.depth

theorem position_lt (g : Gindex) : g.position < Word.bound :=
  xor_lt_bound g.isLt (Word.pow2_lt_bound g.depth_lt)

def isRoot (g : Gindex) : Bool := g.val == 1

/-- Whether the node is a child of the root. -/
def isChildOfRoot (g : Gindex) : Bool := g.val == 2 || g.val == 3

/-- Whether the first step from the root goes left; the root takes none. -/
def startsLeft (g : Gindex) : Bool := 0 < g.depth && !g.val.testBit (g.depth - 1)

/-- Whether the last step goes left. -/
def isLeftChild (g : Gindex) : Bool := !g.val.testBit 0

theorem two_mul_add_one_lt {g : Gindex} (h : g.depth < 63) : 2 * g.val + 1 < Word.bound := by
  have : g.val < 2 ^ 63 := by
    by_cases h0 : g.val = 0
    · rw [h0]; decide
    · exact (Nat.log2_lt h0).1 h
  unfold Word.bound
  omega

/-- The left child, unless it lies too deep to be addressed. -/
def left? (g : Gindex) : Option Gindex :=
  if h : g.depth < 63 then some ⟨2 * g.val, by have := two_mul_add_one_lt h; omega⟩ else none

/-- The right child, unless it lies too deep to be addressed. -/
def right? (g : Gindex) : Option Gindex :=
  if h : g.depth < 63 then some ⟨2 * g.val + 1, two_mul_add_one_lt h⟩ else none

/-- The parent; the root is its own. -/
def parent (g : Gindex) : Gindex :=
  if g.isRoot then g else ⟨g.val / 2, Nat.lt_of_le_of_lt (Nat.div_le_self ..) g.isLt⟩

/-- The other child of the parent; the root is its own sibling. -/
def sibling (g : Gindex) : Gindex :=
  if g.isRoot then g else ⟨g.val ^^^ 1, xor_lt_bound g.isLt (by decide)⟩

/-- The address relative to the child of the root that the node lies under: the path without its
first step. The root has none. -/
def tail? (g : Gindex) : Option Gindex :=
  if g.isRoot then none
  else some ⟨g.position ||| Word.pow2 g.depth / 2, or_lt_bound g.position_lt
    (Nat.lt_of_le_of_lt (Nat.div_le_self ..) (Word.pow2_lt_bound g.depth_lt))⟩

/-- The ancestor at depth `boundary` and the address of the node relative to it; a node no deeper
than that is split into itself and the root. -/
def splitAt (g : Gindex) (boundary : Nat) : Gindex × Gindex :=
  if g.depth ≤ boundary then (g, root)
  else
    let below := g.depth - boundary
    have lt : Word.pow2 below < Word.bound :=
      Word.pow2_lt_bound (Nat.lt_of_le_of_lt (Nat.sub_le ..) g.depth_lt)
    (⟨g.val >>> below, Nat.lt_of_le_of_lt (Nat.shiftRight_le ..) g.isLt⟩,
     ⟨g.val % Word.pow2 below ||| Word.pow2 below,
      or_lt_bound (Nat.lt_of_le_of_lt (Nat.mod_le ..) g.isLt) lt⟩)

/-- Whether `c` is on the Merkle branch of `target`: the sibling of it or of one of its
ancestors. -/
def isProofOf (c target : Gindex) : Bool :=
  0 < c.depth && c.depth ≤ target.depth &&
    c.val == (target.val >>> (target.depth - c.depth)) ^^^ 1

/-- The steps from the root to the node, `true` for right. -/
def path (g : Gindex) : List Bool := (List.range g.depth).reverse.map g.val.testBit

@[simp] theorem length_path (g : Gindex) : g.path.length = g.depth := by simp [path]

/-- The bytes of the number, most significant first, without leading zero bytes. -/
def toBytesBE (g : Gindex) : List UInt8 :=
  (Word.bytesBE g.val).drop (Word.leadingZeros g.val / 8)

/-- The bytes of the number, least significant first, without trailing zero bytes. -/
def toBytesLE (g : Gindex) : List UInt8 := g.toBytesBE.reverse

/-- The number in decimal. -/
def toDecimal (g : Gindex) : String := String.ofList (Nat.toDigits 10 g.val)

/-- The number in binary, as it is shown to a developer. -/
def toBinary (g : Gindex) : String := "Gindex(0b" ++ String.ofList (Nat.toDigits 2 g.val) ++ ")"

end Gindex

end SszMerkle
