/-
The JSON values without parts: literals, numbers and strings. How far each is read when it is
faulty is fixed too: up to and with the byte that shows the fault, but for a byte that only ends a
number.
-/
import SszMerkle.Json.Reader
import SszMerkle.Text.Hex

namespace SszMerkle.Json

/-- A literal, which is `null`, `true` or `false`. -/
def literal (letters : String) : Reader Unit := letters.toList.forM expect

/-! ## Numbers -/

/-- A number as it is written. -/
structure Numeral where
  negative : Bool
  whole : List Char
  /-- The digits behind the point; none without a point. -/
  fraction : List Char
  /-- Whether the exponent is negative, and its digits. -/
  exponent : Option (Bool × List Char)

/-- The digits of a whole part; none follows a zero in front. -/
def whole : Reader (List Char) := do
  let d ← next
  guard d.isDigit
  if d == '0' then
    guard !((← peek).any Char.isDigit)
    return [d]
  return d :: (← takeWhile Char.isDigit)

/-- A point and at least one digit, or nothing. -/
def fraction : Reader (List Char) := do
  unless ← eat '.' do return []
  let ds ← takeWhile Char.isDigit
  guard !ds.isEmpty
  return ds

/-- A letter, a sign that may be left out and at least one digit, or nothing. -/
def exponent : Reader (Option (Bool × List Char)) := do
  let marked ← if ← eat 'e' then pure true else eat 'E'
  unless marked do return none
  let negative ← if ← eat '+' then pure false else eat '-'
  let d ← next
  guard d.isDigit
  return some (negative, d :: (← takeWhile Char.isDigit))

/-- A number. -/
def numeral : Reader Numeral := do
  let negative ← eat '-'
  let whole ← whole
  let fraction ← fraction
  let exponent ← exponent
  return ⟨negative, whole, fraction, exponent⟩

/-- The number that decimal digits write. -/
def decimal (ds : List Char) : Nat := ds.foldl (fun n c => 10 * n + (c.toNat - '0'.toNat)) 0

/-- The digits behind the one with which the number they write, begun as `n`, passes `limit`. -/
def behindLimit (limit : Nat) : (n : Nat) → List Char → List Char
  | _, [] => []
  | n, c :: cs =>
    let n := 10 * n + (c.toNat - '0'.toNat)
    if limit < n then cs else behindLimit limit n cs

/-- The digits that are left unread: a positive exponent of a number other than zero is given up
once it passes the greatest 32-bit integer. -/
def Numeral.unread (n : Numeral) : List Char :=
  match n.exponent with
  | some (false, ds) =>
    if (n.whole ++ n.fraction).all (· == '0') then [] else behindLimit 0x7fffffff 0 ds
  | _ => []

/-- A natural in plain digits: no sign, point or exponent. -/
def natural : Reader Nat := do
  let n ← numeral
  modify (n.unread.map Char.toUInt8 ++ ·)
  match n with
  | ⟨false, ds, [], none⟩ => return decimal ds
  | _ => failure

/-! ## Strings -/

/-- The byte behind a one-letter escape. -/
def escaped? : Char → Option UInt8
  | '"' => some 0x22
  | '\\' => some 0x5c
  | '/' => some 0x2f
  | 'b' => some 0x08
  | 'f' => some 0x0c
  | 'n' => some 0x0a
  | 'r' => some 0x0d
  | 't' => some 0x09
  | _ => none

/-- The number that hexadecimal digits write. -/
def hexadecimal? (ds : List Char) : Option Nat :=
  ds.foldlM (fun n c => (Text.Hex.digitValue? c).map (16 * n + ·)) 0

/-- The number of a code unit, in four digits that are taken all together. -/
def codeUnit : Reader Nat := do
  let text ← get
  set (text.drop 4)
  guard (4 ≤ text.length)
  match hexadecimal? ((text.take 4).map Char.ofUInt8) with
  | some u => return u
  | none => failure

def isHighSurrogate (u : Nat) : Bool := 0xd800 ≤ u && u < 0xdc00
def isLowSurrogate (u : Nat) : Bool := 0xdc00 ≤ u && u < 0xe000

/-- The character of an escaped code unit. A high surrogate needs a low one right behind it. -/
def character : Reader Char := do
  let u ← codeUnit
  guard !(isLowSurrogate u)
  unless isHighSurrogate u do return Char.ofNat u
  expect '\\'
  expect 'u'
  let v ← codeUnit
  guard (isLowSurrogate v)
  return Char.ofNat (0x10000 + (u - 0xd800) * 0x400 + (v - 0xdc00))

/-- The bytes that an escape stands for, its backslash taken. -/
def escape : Reader (List UInt8) := do
  let c ← next
  if c == 'u' then return String.utf8EncodeChar (← character)
  match escaped? c with
  | some b => return [b]
  | none => failure

/-- The bytes of a string from some place in it on. Every call but the last takes a byte, which
bounds the fuel. -/
def stringFrom : (fuel : Nat) → Reader (List UInt8)
  | 0 => failure
  | fuel + 1 => do
    let c ← next
    if c == '"' then return []
    else if c == '\\' then
      let bs ← escape
      return bs ++ (← stringFrom fuel)
    else
      guard (0x20 ≤ c.toNat)
      return c.toUInt8 :: (← stringFrom fuel)

/-- The bytes of a string. -/
def string : Reader (List UInt8) := do
  expect '"'
  stringFrom ((← get).length + 1)

/-- Passes over the rest of a string. Its escapes need not make sense as text. -/
def skipStringFrom : (fuel : Nat) → Reader Unit
  | 0 => failure
  | fuel + 1 => do
    let c ← next
    unless c == '"' do
      if c == '\\' then
        let e ← next
        if e == 'u' then
          let _ ← codeUnit
        else guard (escaped? e).isSome
      else guard (0x20 ≤ c.toNat)
      skipStringFrom fuel

/-- Passes over a string. -/
def skipString : Reader Unit := do
  expect '"'
  skipStringFrom ((← get).length + 1)

/-! ## Bytes -/

/-- A byte written as a number. A literal or a string in its place is taken before it is refused. -/
def byte : Reader UInt8 := do
  blanks
  match ← peek with
  | some 'n' => do literal "null"; failure
  | some 't' => do literal "true"; failure
  | some 'f' => do literal "false"; failure
  | some '"' => do let _ ← string; failure
  | some c =>
    guard (c == '-' || c.isDigit)
    let n ← natural
    guard (n < 256)
    return UInt8.ofNat n
  | none => failure

end SszMerkle.Json
