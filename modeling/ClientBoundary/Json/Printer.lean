import ClientBoundary.Json.Basic
import ClientBoundary.Text.Shown

/-!
# Printing JSON

A value is printed on one line, with a space after each comma and colon. Strings are printed in
ASCII: every other code point is escaped by its number, one beyond the basic plane by the numbers
of two surrogates.
-/

namespace ClientBoundary

namespace Json

/-- The escape of a code point by its number. -/
def numberEscape (n : Nat) : Text :=
  if n < 0x10000 then "\\u" ++ Text.hexDigits 4 n
  else
    let high := 0xd800 + (n - 0x10000) / 0x400
    let low := 0xdc00 + (n - 0x10000) % 0x400
    "\\u" ++ Text.hexDigits 4 high ++ "\\u" ++ Text.hexDigits 4 low

/-- A code point in a string. -/
def printPoint (p : CodePoint) : Text :=
  match p with
  | .char '"' => "\\\""
  | .char '\\' => "\\\\"
  | .char '\n' => "\\n"
  | .char '\r' => "\\r"
  | .char '\t' => "\\t"
  | .char '\x0c' => "\\f"
  | .char '\x08' => "\\b"
  | p => if 0x20 ≤ p.toNat ∧ p.toNat ≤ 0x7e then [p] else numberEscape p.toNat

/-- A string. -/
def printString (t : Text) : Text := .char '"' :: t.flatMap printPoint ++ [.char '"']

mutual

/-- A value. -/
def print : Json → Text
  | .null => "null"
  | .bool true => "true"
  | .bool false => "false"
  | .number written => written
  | .string value => printString value
  | .array elements => "[" ++ printElements elements ++ "]"
  | .object members => "\x7b" ++ printMembers members ++ "\x7d"

/-- The elements of an array. -/
def printElements : List Json → Text
  | [] => ""
  | [j] => print j
  | j :: js => print j ++ ", " ++ printElements js

/-- The members of an object. -/
def printMembers : List (Text × Json) → Text
  | [] => ""
  | [(k, j)] => printString k ++ ": " ++ print j
  | (k, j) :: ms => printString k ++ ": " ++ print j ++ ", " ++ printMembers ms

end

end Json

end ClientBoundary
