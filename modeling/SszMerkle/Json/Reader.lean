/-
Reading JSON from the bytes of a text. A reader takes bytes from the front of what is left. One that
gives up leaves what it has not taken, so another can go on from there.
-/

namespace SszMerkle.Json

/-- Reads from the bytes left of a text, and may give up. -/
abbrev Reader := OptionT (StateM (List UInt8))

/-- The next byte, as the character of its value. -/
def peek : Reader (Option Char) := return (← get).head?.map Char.ofUInt8

/-- Takes the next byte; gives up at the end. -/
def next : Reader Char := do
  let some c ← peek | failure
  modify List.tail
  return c

/-- Takes the next byte, which has to be `c`. -/
def expect (c : Char) : Reader Unit := do guard ((← next) == c)

/-- Takes the next byte if it is `c`, and says whether it was. -/
def eat (c : Char) : Reader Bool := do
  let found := (← peek) == some c
  if found then modify List.tail
  return found

/-- Takes bytes as long as they satisfy `p`. -/
def takeWhile (p : Char → Bool) : Reader (List Char) := do
  let (taken, left) := (← get).span fun b => p (Char.ofUInt8 b)
  set left
  return taken.map Char.ofUInt8

def isBlank (c : Char) : Bool := c == ' ' || c == '\n' || c == '\t' || c == '\r'

/-- Passes over blanks. -/
def blanks : Reader Unit := do let _ ← takeWhile isBlank

/-- What a reader reads, or nothing where it gives up; the next one goes on from there. -/
def attempt {α : Type} (item : Reader α) : Reader (Option α) := OptionT.mk (some <$> item.run)

/-- Whether the text that is left is at its end, blanks apart. -/
def atEnd : Reader Bool := do
  blanks
  return (← get).isEmpty

/-- What a reader makes of a whole text. -/
def read? {α : Type} (item : Reader α) (text : String) : Option α :=
  let whole : Reader α := do
    let x ← item
    guard (← atEnd)
    return x
  (whole.run text.toUTF8.data.toList).1

/-! ## Brackets -/

/-- Takes the closing bracket. -/
def close (bracket : Char) : Reader Unit := do
  blanks
  expect bracket

/-- The next of the items in front of a closing bracket, if one is left. Every item but the first
has a comma before it. -/
def item? {α : Type} (bracket : Char) (first : Bool) (item : Reader α) : Reader (Option α) := do
  blanks
  if (← peek) == some bracket then return none
  unless first do
    guard (← eat ',')
    blanks
    guard ((← peek) != some bracket)
  return some (← item)

/-- The items that are left and their closing bracket. Every item takes a byte, which bounds the
fuel. -/
def itemsFrom {α : Type} (bracket : Char) (item : Reader α) :
    (fuel : Nat) → (first : Bool) → Reader (List α)
  | 0, _ => failure
  | fuel + 1, first => do
    match ← item? bracket first item with
    | none =>
      close bracket
      return []
    | some x => return x :: (← itemsFrom bracket item fuel false)

/-- The items behind an opening bracket, up to and with the closing one. -/
def items {α : Type} (bracket : Char) (item : Reader α) : Reader (List α) := do
  itemsFrom bracket item ((← get).length + 1) true

end SszMerkle.Json
