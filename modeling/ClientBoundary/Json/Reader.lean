import ClientBoundary.Json.Basic
import ClientBoundary.Text.Digit

/-!
# Reading JSON

A text is read from left to right up to the first place where it stops being JSON, and the error
says what was expected there. Three number words beyond the format are read, `NaN`, `Infinity` and
`-Infinity`. A string may hold any code point but the controls below `0x20`; the escapes of two
surrogates that make a pair stand for one code point.

An integer of more than 4300 digits is refused, and that is not counted among the errors of the
format.
-/

namespace ClientBoundary

namespace Json

/-- What is wrong at a place of a text. -/
inductive Fault where
  | byteOrderMark
  | expectingValue
  | expectingName
  | expectingColon
  | expectingComma
  | unterminatedString
  | invalidControl
  | invalidEscape
  | invalidNumberEscape
  | extraData
deriving DecidableEq, Repr, Inhabited

namespace Fault

/-- What a fault is called. -/
def text : Fault → Text
  | .byteOrderMark => "Unexpected UTF-8 BOM (decode using utf-8-sig)"
  | .expectingValue => "Expecting value"
  | .expectingName => "Expecting property name enclosed in double quotes"
  | .expectingColon => "Expecting ':' delimiter"
  | .expectingComma => "Expecting ',' delimiter"
  | .unterminatedString => "Unterminated string starting at"
  | .invalidControl => "Invalid control character at"
  | .invalidEscape => "Invalid \\escape"
  | .invalidNumberEscape => "Invalid \\uXXXX escape"
  | .extraData => "Extra data"

end Fault

/-- Why a text could not be read. -/
inductive ReadError where
  /-- It is not JSON from some place on. -/
  | malformed (fault : Fault) (offset : Nat)
  /-- It holds an integer with too many digits. -/
  | tooManyDigits
deriving DecidableEq, Repr, Inhabited

/-- The message for a fault at a place of a text. -/
def faultMessage (source : Text) (fault : Fault) (offset : Nat) : Text :=
  let before := source.take offset
  let lines := Text.splitOn (.char '\n') before
  let column := (lines.getLastD []).length + 1
  fault.text ++ ": line " ++ Text.ofNat lines.length ++ " column " ++ Text.ofNat column
    ++ " (char " ++ Text.ofNat offset ++ ")"

namespace Reader

/-- What is left to read, and the offset at which it begins. -/
structure Cursor where
  offset : Nat
  rest : Text
deriving Repr, Inhabited

/-- The cursor some code points further on. -/
def Cursor.advance (c : Cursor) (n : Nat) : Cursor := ⟨c.offset + n, c.rest.drop n⟩

/-- Reading, which may fail. What was read goes with the cursor after it. -/
abbrev Reading := Except ReadError

/-- Fail at a cursor. -/
def fail {α : Type} (fault : Fault) (c : Cursor) : Reading α := .error (.malformed fault c.offset)

/-- Whether a code point may stand between the parts of a value. -/
def isSpace (p : CodePoint) : Bool :=
  p = .char ' ' || p = .char '\t' || p = .char '\n' || p = .char '\r'

/-- The cursor after any spaces. -/
def skipSpaces (c : Cursor) : Cursor := c.advance (c.rest.takeWhile isSpace).length

/-- Whether a code point is one of the ten digits. -/
def isAsciiDigit (p : CodePoint) : Bool := 0x30 ≤ p.toNat && p.toNat ≤ 0x39

/-- How many digits a text begins with. -/
def digitCount (t : Text) : Nat := (t.takeWhile isAsciiDigit).length

-- ---------------------------------------------------------------------------------------------
-- Strings
-- ---------------------------------------------------------------------------------------------

/-- The code point that a one-letter escape stands for. -/
def letterEscape? : CodePoint → Option CodePoint
  | .char '"' => some (.char '"')
  | .char '\\' => some (.char '\\')
  | .char '/' => some (.char '/')
  | .char 'b' => some (.char '\x08')
  | .char 'f' => some (.char '\x0c')
  | .char 'n' => some (.char '\n')
  | .char 'r' => some (.char '\r')
  | .char 't' => some (.char '\t')
  | _ => none

/-- The value of four hexadecimal digits, if a text begins with them and does not end there. -/
def fourDigits? : Text → Option Nat
  | a :: b :: c :: d :: _ :: _ =>
    match a.hexDigit?, b.hexDigit?, c.hexDigit?, d.hexDigit? with
    | some a, some b, some c, some d => some (((a * 16 + b) * 16 + c) * 16 + d)
    | _, _, _, _ => none
  | _ => none

/-- Whether a number is that of a high surrogate. -/
def isHigh (n : Nat) : Bool := 0xd800 ≤ n && n ≤ 0xdbff

/-- Whether a number is that of a low surrogate. -/
def isLow (n : Nat) : Bool := 0xdc00 ≤ n && n ≤ 0xdfff

/-- The code point of a number below the end of the code space. -/
def point (n : Nat) : CodePoint := (CodePoint.ofNat? n).getD (.char '\x00')

/-- The escape of a second surrogate, if a text begins with one that is followed by something:
its number, or that its digits are wrong. -/
def secondEscape? : Text → Option (Option Nat)
  | .char '\\' :: .char 'u' :: a :: b :: c :: d :: e :: _ =>
    some (fourDigits? [a, b, c, d, e])
  | _ => none

/-- Read a string from after its quote. `start` is the offset of the quote, `value` what was read
so far, newest first. -/
def string (start : Nat) : (fuel : Nat) → (value : Text) → Cursor → Reading (Text × Cursor)
  | 0, _, _ => .error (.malformed .unterminatedString start)
  | fuel + 1, value, c =>
    match c.rest with
    | [] => .error (.malformed .unterminatedString start)
    | .char '"' :: _ => .ok (value.reverse, c.advance 1)
    | .char '\\' :: [] => .error (.malformed .unterminatedString start)
    | .char '\\' :: .char 'u' :: digits =>
      match fourDigits? digits with
      | none => fail .invalidNumberEscape (c.advance 1)
      | some n =>
        let next := c.advance 6
        if isHigh n then
          match secondEscape? next.rest with
          | none => string start fuel (point n :: value) next
          | some none => fail .invalidNumberEscape (next.advance 1)
          | some (some low) =>
            if isLow low then
              let joined := 0x10000 + (n - 0xd800) * 0x400 + (low - 0xdc00)
              string start fuel (point joined :: value) (next.advance 6)
            else string start fuel (point n :: value) next
        else string start fuel (point n :: value) next
    | .char '\\' :: letter :: _ =>
      match letterEscape? letter with
      | some p => string start fuel (p :: value) (c.advance 2)
      | none => fail .invalidEscape c
    | p :: _ =>
      if p.toNat < 0x20 then fail .invalidControl c
      else string start fuel (p :: value) (c.advance 1)

/-- Read a string from its quote on. -/
def quotedString (c : Cursor) : Reading (Text × Cursor) :=
  string c.offset (c.rest.length + 1) [] (c.advance 1)

-- ---------------------------------------------------------------------------------------------
-- Numbers
-- ---------------------------------------------------------------------------------------------

/-- How long the sign is that a text begins with, if it is one of the given. -/
def signLength (signs : Text) : Text → Nat
  | p :: _ => if signs.contains p then 1 else 0
  | [] => 0

/-- How long the whole part of a number is, if a text begins with one. -/
def wholeLength? : Text → Option Nat
  | .char '0' :: _ => some 1
  | p :: t => if isAsciiDigit p then some (1 + digitCount t) else none
  | [] => none

/-- How long the fraction is that a text begins with. -/
def fractionLength : Text → Nat
  | .char '.' :: t => if digitCount t = 0 then 0 else 1 + digitCount t
  | _ => 0

/-- How long the exponent is that a text begins with. -/
def exponentLength : Text → Nat
  | p :: t =>
    if p = .char 'e' ∨ p = .char 'E' then
      let sign := signLength "+-" t
      let digits := digitCount (t.drop sign)
      if digits = 0 then 0 else 1 + sign + digits
    else 0
  | [] => 0

/-- The most digits that an integer may have. -/
def maxDigits : Nat := 4300

/-- Read a number. -/
def number (c : Cursor) : Reading (Json × Cursor) :=
  let sign := signLength "-" c.rest
  match wholeLength? (c.rest.drop sign) with
  | none => fail .expectingValue c
  | some whole =>
    let fraction := fractionLength (c.rest.drop (sign + whole))
    let exponent := exponentLength (c.rest.drop (sign + whole + fraction))
    if fraction + exponent = 0 ∧ maxDigits < whole then .error .tooManyDigits
    else
      let n := sign + whole + fraction + exponent
      .ok (.number (c.rest.take n), c.advance n)

-- ---------------------------------------------------------------------------------------------
-- Values
-- ---------------------------------------------------------------------------------------------

/-- The words that stand for a value. -/
def words : List (Text × Json) :=
  [("null", .null), ("true", .bool true), ("false", .bool false), ("NaN", .number "NaN"),
   ("Infinity", .number "Infinity"), ("-Infinity", .number "-Infinity")]

/-- The word that a text begins with. -/
def word? (t : Text) : Option (Text × Json) := words.find? fun w => t.startsWith w.1

mutual

/-- Read a value. -/
def value : (fuel : Nat) → Cursor → Reading (Json × Cursor)
  | 0, c => fail .expectingValue c
  | fuel + 1, c =>
    match c.rest with
    | .char '"' :: _ => do
      let (t, c) ← quotedString c
      return (.string t, c)
    | .char '\x7b' :: _ =>
      let c := skipSpaces (c.advance 1)
      match c.rest with
      | .char '\x7d' :: _ => .ok (.object [], c.advance 1)
      | _ => do
        let (ms, c) ← members fuel c
        return (.object ms, c)
    | .char '[' :: _ =>
      let c := skipSpaces (c.advance 1)
      match c.rest with
      | .char ']' :: _ => .ok (.array [], c.advance 1)
      | _ => do
        let (es, c) ← elements fuel c
        return (.array es, c)
    | _ =>
      match word? c.rest with
      | some (w, j) => .ok (j, c.advance w.length)
      | none => number c

/-- Read the elements of an array, of which there is one at least, and its end. -/
def elements : (fuel : Nat) → Cursor → Reading (List Json × Cursor)
  | 0, c => fail .expectingValue c
  | fuel + 1, c => do
    let (j, c) ← value fuel c
    let c := skipSpaces c
    match c.rest with
    | .char ']' :: _ => return ([j], c.advance 1)
    | .char ',' :: _ =>
      let (js, c) ← elements fuel (skipSpaces (c.advance 1))
      return (j :: js, c)
    | _ => fail .expectingComma c

/-- Read the members of an object, of which there is one at least, and its end. -/
def members : (fuel : Nat) → Cursor → Reading (List (Text × Json) × Cursor)
  | 0, c => fail .expectingName c
  | fuel + 1, c =>
    match c.rest with
    | .char '"' :: _ => do
      let (k, c) ← quotedString c
      let c := skipSpaces c
      match c.rest with
      | .char ':' :: _ =>
        let (j, c) ← value fuel (skipSpaces (c.advance 1))
        let c := skipSpaces c
        match c.rest with
        | .char '\x7d' :: _ => return ([(k, j)], c.advance 1)
        | .char ',' :: _ =>
          let (ms, c) ← members fuel (skipSpaces (c.advance 1))
          return ((k, j) :: ms, c)
        | _ => fail .expectingComma c
      | _ => fail .expectingColon c
    | _ => fail .expectingName c

end

end Reader

/-- Read a text that is one JSON value. -/
def parse (source : Text) : Except ReadError Json := do
  if source.head? = some (.char '\ufeff') then
    .error (.malformed .byteOrderMark 0)
  let (j, c) ← Reader.value (2 * source.length + 2) (Reader.skipSpaces ⟨0, source⟩)
  let c := Reader.skipSpaces c
  if c.rest.isEmpty then return j else .error (.malformed .extraData c.offset)

end Json

end ClientBoundary
