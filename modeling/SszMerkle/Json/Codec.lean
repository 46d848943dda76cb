/-
The JSON forms of gindices and proofs. A gindex is its number, with zero allowed. A proof is an
object of its branch and its root, and each root is a string of hexadecimal digits.
-/
import SszMerkle.Json.Skip
import SszMerkle.Proof

namespace SszMerkle

/-- Any 64-bit natural, zero included. -/
def Gindex.ofJson? (text : String) : Option Gindex := do
  let n ← Json.read? (Json.blanks *> Json.natural) text
  if h : n < Word.bound then some ⟨n, h⟩ else none

def Gindex.toJson (g : Gindex) : String := g.toDecimal

/-- Thirty-two bytes, if there are so many. -/
def Root.ofBytes? (bs : List UInt8) : Option Root :=
  if bs.length = 32 then some (.ofBytes bs) else none

/-- The root that sixty-four hexadecimal digits write, behind `0x` or `0X` or not. -/
def Root.ofHex? : List Char → Option Root
  | '0' :: 'x' :: digits => Text.Hex.decode? digits >>= ofBytes?
  | '0' :: 'X' :: digits => Text.Hex.decode? digits >>= ofBytes?
  | digits => Text.Hex.decode? digits >>= ofBytes?

namespace Json

/-- A root written as an array of its bytes, the opening bracket taken. A further item is refused
only if it is a byte; one that fails to be a byte is passed over as far as it was read, and then the
array has to end. -/
def rootBytes : Reader Root := do
  let bytes ← (List.range 32).mapM fun k => do
    let some b ← item? ']' (k == 0) byte | failure
    return b
  if let some (some _) ← attempt (item? ']' false byte) then failure
  close ']'
  return .ofBytes bytes

/-- A root written as a string of digits or as an array of its bytes. -/
def root : Reader Root := do
  blanks
  if ← eat '[' then rootBytes
  else
    let digits ← string
    match Root.ofHex? (digits.map Char.ofUInt8) with
    | some r => return r
    | none => failure

/-- A branch written as an array. -/
def branch : Reader (List Root) := do
  blanks
  expect '['
  items ']' root

/-- A member of an object that is to be a proof. -/
inductive Member where
  | branch (b : List Root)
  | root (r : Root)
  | other

def Member.branch? : Member → Option (List Root)
  | branch b => some b
  | _ => none

def Member.root? : Member → Option Root
  | root r => some r
  | _ => none

/-- A key and its value, which is read if the key is one of a proof's. -/
def member : Reader Member := do
  let key ← string
  blanks
  expect ':'
  if key == "branch".toUTF8.data.toList then return .branch (← branch)
  else if key == "root".toUTF8.data.toList then return .root (← root)
  else
    skipValue
    return .other

/-- The proof that members make up: one branch and one root, whatever else. -/
def ofMembers (members : List Member) : Reader Proof :=
  match members.filterMap Member.branch?, members.filterMap Member.root? with
  | [branch], [root] => return ⟨branch, root⟩
  | _, _ => failure

/-- A proof written as an object with the members `branch` and `root`, or as an array of the two. -/
def proof : Reader Proof := do
  blanks
  if ← eat '[' then
    let some branch ← item? ']' true branch | failure
    let some root ← item? ']' false root | failure
    close ']'
    return ⟨branch, root⟩
  else
    expect '{'
    ofMembers (← items '}' member)

end Json

namespace Proof

/-- The proof that a text writes. -/
def ofJson? (text : String) : Option Proof := Json.read? Json.proof text

/-- The object, without blanks. -/
def toJson (p : Proof) : String :=
  let quoted (r : Root) := "\"" ++ r.toHex ++ "\""
  "\x7b\"branch\":[" ++ ",".intercalate (p.branch.map quoted) ++ "],\"root\":" ++
    quoted p.root ++ "\x7d"

end Proof

end SszMerkle
