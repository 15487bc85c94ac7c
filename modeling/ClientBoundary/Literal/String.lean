import ClientBoundary.Literal.Error
import ClientBoundary.Text.Digit

/-!
# Values of string literals

The value of a string literal is its body with every escape replaced by what it denotes. Each
escape gives one code point at most: two escaped surrogates stay two code points. A backslash
before a line end joins the lines; before anything that has no meaning of its own it is dropped.

Decoding is one walk over the body. What an escape denotes is never looked at again.
-/

namespace ClientBoundary

namespace StringLiteral

/-- What a single code point after a backslash denotes. -/
def simpleEscape (p : CodePoint) : Text :=
  match p with
  | .char 'n' => [.char '\n']
  | .char 't' => [.char '\t']
  | .char 'r' => [.char '\r']
  | .char 'b' => [.char '\x08']
  | .char 'f' => [.char '\x0c']
  | .char 'v' => [.char '\x0b']
  | .char '0' => [.char '\x00']
  | .char '\n' | .char '\u2028' | .char '\u2029' => []
  | p => [p]

/-- The code point that an escape names by its number. -/
def named (n : Nat) : Except LiteralError Text :=
  if 0x7FFFFFFF < n then .error .escapeTooWide
  else
    match CodePoint.ofNat? n with
    | some p => .ok [p]
    | none => .error .escapeOutOfRange

/-- The braced escape at the start of a text that follows `\u`: its digits. -/
def bracedDigits? : Text → Option Text
  | .char '\x7b' :: t =>
    let digits := t.takeWhile (·.isHexDigit)
    match digits, t.drop digits.length with
    | _ :: _, .char '\x7d' :: _ => some digits
    | _, _ => none
  | _ => none

/-- The next `n` code points, if all are hexadecimal digits. -/
def fixedDigits? (n : Nat) (t : Text) : Option Text :=
  let digits := t.take n
  if digits.length = n && digits.all (·.isHexDigit) then some digits else none

/-- The escape that follows a backslash: what it denotes, and how many code points it takes. -/
def escape : Text → Except LiteralError Text × Nat
  | [] => (.ok [.char '\\'], 0)
  | .char 'u' :: t =>
    match bracedDigits? t with
    | some digits => (named (Text.hexValue digits), digits.length + 3)
    | none =>
      match fixedDigits? 4 t with
      | some digits => (named (Text.hexValue digits), 5)
      | none => (.ok [.char 'u'], 1)
  | .char 'x' :: t =>
    match fixedDigits? 2 t with
    | some digits => (named (Text.hexValue digits), 3)
    | none => (.ok [.char 'x'], 1)
  | .char '\r' :: .char '\n' :: _ => (.ok [], 2)
  | p :: _ => (.ok (simpleEscape p), 1)

/-- Decode the body of a literal after leaving out its first `skip` code points, which belong to
an escape that has been decoded. -/
def decodeFrom : (skip : Nat) → Text → Except LiteralError Text
  | _, [] => .ok []
  | skip + 1, _ :: t => decodeFrom skip t
  | 0, .char '\\' :: t => do
    let (denoted, taken) := escape t
    let head ← denoted
    let rest ← decodeFrom taken t
    return head ++ rest
  | 0, p :: t => do
    let rest ← decodeFrom 0 t
    return p :: rest

/-- The value of a literal: its first and last code points are the quotes. -/
def value (raw : Text) : Except LiteralError Text := decodeFrom 0 (raw.drop 1).dropLast

end StringLiteral

end ClientBoundary
