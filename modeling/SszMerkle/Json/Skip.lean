/-
Passing over JSON values of any kind. The brackets that are still open are a list, the innermost
first, so the depth of a value costs nothing.
-/
import SszMerkle.Json.Scalar

namespace SszMerkle.Json

/-- What a bracket opens. -/
inductive Bracket where
  | array
  | object
deriving DecidableEq

namespace Bracket

def closing : Bracket → Char
  | array => ']'
  | object => '}'

end Bracket

/-- Passes over the key of a member. -/
def skipKey : Reader Unit := do
  blanks
  skipString
  blanks
  expect ':'

/-- Passes over what stands before the value of an item. -/
def Bracket.skipLabel : Bracket → Reader Unit
  | array => return ()
  | object => skipKey

mutual

/-- Passes over a value and what is left inside the open brackets. -/
def skipFrom : (fuel : Nat) → (unclosed : List Bracket) → Reader Unit
  | 0, _ => failure
  | fuel + 1, unclosed => do
    blanks
    match ← peek with
    | some '[' => openBracket fuel .array unclosed
    | some '{' => openBracket fuel .object unclosed
    | some '"' =>
      skipString
      skipRest fuel unclosed
    | some 'n' =>
      literal "null"
      skipRest fuel unclosed
    | some 't' =>
      literal "true"
      skipRest fuel unclosed
    | some 'f' =>
      literal "false"
      skipRest fuel unclosed
    | _ =>
      let _ ← numeral
      skipRest fuel unclosed

/-- Passes over an opening bracket and goes on inside it, or behind it if nothing is in it. -/
def openBracket : (fuel : Nat) → Bracket → (unclosed : List Bracket) → Reader Unit
  | 0, _, _ => failure
  | fuel + 1, b, unclosed => do
    let _ ← next
    blanks
    if ← eat b.closing then skipRest fuel unclosed
    else
      b.skipLabel
      skipFrom fuel (b :: unclosed)

/-- Goes on behind a value. -/
def skipRest : (fuel : Nat) → (unclosed : List Bracket) → Reader Unit
  | _, [] => return ()
  | 0, _ => failure
  | fuel + 1, b :: outer => do
    blanks
    if ← eat ',' then
      b.skipLabel
      skipFrom fuel (b :: outer)
    else
      expect b.closing
      skipRest fuel outer

end

/-- Passes over a value. Of two calls in a row one takes a byte, which bounds the fuel. -/
def skipValue : Reader Unit := do skipFrom (2 * (← get).length + 2) []

end SszMerkle.Json
