/-
What can go wrong. A `Failure` names its cause: either the request is refused, or a caller broke
the terms of a definition (a `Breach`), which no well-formed request does. A breach stands for a halt
without an answer. Words are added and shifted with overflow checked, so that an overflow is such a halt
too; what becomes of a request where words are let wrap is not said here.
-/
import SszMerkle.Root
import SszMerkle.Text.Hex

namespace SszMerkle

/-- A call that a definition's own terms rule out. -/
inductive Breach where
  /-- A zero root below depth 64. -/
  | zeroDepth (depth : Nat)
  /-- A bit past the last byte. -/
  | bitPosition (position bytes : Nat)
  /-- A level above the top of the stack or past the end of the branch. -/
  | level (level : Nat)
  /-- An element past the last one. -/
  | element (index : Nat)
  /-- A sum or a power of two that is no 64-bit word. Checked arithmetic halts there. Unchecked it wraps,
  the sum to zero and the power to that of the exponent modulo 64, and goes on. -/
  | overflow
  /-- A name that holds nothing of the kind asked for. -/
  | unheld (name : String)
deriving DecidableEq

/-- Why bytes are no bitlist. -/
inductive BitlistDefect where
  | empty
  | noDelimiter (bytes : Nat)
deriving DecidableEq

/-- Why bytes are no bitvector. -/
inductive BitvectorDefect where
  | byteCount (bytes expected bits : Nat)
  | noLastByte
  | strayBits (last : UInt8) (used : Nat)
deriving DecidableEq

/-- Why a proof cannot be used. -/
inductive ProofDefect where
  | branchLength (nodes gindex depth : Nat)
  | rootMismatch (found expected : Root)
deriving DecidableEq

/-- The cause of a failed request. -/
inductive Failure where
  /-- No position `index` exists at `depth`. -/
  | malformedIndex (index depth : Nat)
  /-- A generalized index of zero, which addresses nothing. -/
  | invalidGindex (value : Nat)
  /-- A leaf stands where `depth` more steps of the path should follow. -/
  | navigation (gindex depth : Nat)
  /-- A pair stands where a chunk was asked for. -/
  | notALeaf (gindex : Nat)
  /-- More entries than the limit allows. -/
  | overCapacity (length limit : Nat)
  /-- Nothing to fill a tree with. -/
  | emptyContents
  /-- No element `index` in a list of this length. -/
  | outOfBounds (index length : Nat)
  | invalidBitlist (defect : BitlistDefect)
  | invalidBitvector (defect : BitvectorDefect)
  /-- Bit strings to compare that are empty or of two lengths. -/
  | bitfieldMismatch (left right : Nat)
  | invalidProof (defect : ProofDefect)
  | breach (cause : Breach)
deriving DecidableEq

/-- An answer or the cause of its absence. -/
abbrev Result := Except Failure

/-- A root as text: its bytes in hexadecimal behind `0x`. -/
def Root.toHex (r : Root) : String := "0x" ++ Text.Hex.encode r.toList

/-- A byte as `0b` and its eight binary digits. -/
def binaryByte (b : UInt8) : String :=
  "0b" ++ String.ofList ((List.range 8).reverse.map fun k => if b.toNat.testBit k then '1' else '0')

namespace Breach

def message : Breach → String
  | zeroDepth d => s!"no zero root at depth {d}"
  | bitPosition i n => s!"no bit {i} in {n} bytes"
  | level l => s!"no level {l}"
  | element i => s!"no element {i}"
  | overflow => "not a 64-bit word"
  | unheld name => s!"nothing suitable is held under {name}"

end Breach

def BitlistDefect.message : BitlistDefect → String
  | empty => "no delimiter bit in empty input"
  | noDelimiter n => s!"last byte of {n} is zero, delimiter bit missing"

def BitvectorDefect.message : BitvectorDefect → String
  | byteCount n e b => s!"{n} bytes, expected {e} for {b} bits"
  | noLastByte => "empty bitvector has no last byte"
  | strayBits last used => s!"last byte {binaryByte last} has bits set past the first {used}"

def ProofDefect.message : ProofDefect → String
  | branchLength n g d => s!"branch has {n} nodes, gindex {g} needs {d}"
  | rootMismatch found expected =>
    s!"sub-proof root {found.toHex} does not match node {expected.toHex}"

/-- The text shown for a failure. -/
def Failure.message : Failure → String
  | malformedIndex i d => s!"index {i} is out of range for a gindex of depth {d}"
  | invalidGindex v => s!"invalid generalized index {v}"
  | navigation g d => s!"cannot navigate to gindex {g}: hit a leaf with {d} levels of path left"
  | notALeaf g => s!"expected a leaf at gindex {g}, found a pair"
  | overCapacity n limit => s!"length {n} exceeds limit {limit}"
  | emptyContents => "no nodes to fill subtree with"
  | outOfBounds i n => s!"index {i} out of bounds for length {n}"
  | invalidBitlist d => s!"invalid bitlist: {d.message}"
  | invalidBitvector d => s!"invalid bitvector: {d.message}"
  | bitfieldMismatch l r => s!"cannot compare bitfields of {l} and {r} bytes"
  | invalidProof d => s!"invalid proof: {d.message}"
  | breach b => b.message

end SszMerkle
