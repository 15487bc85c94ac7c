import ClientBoundary.Text.Printable

/-!
# Texts shown in messages

A message shows a text in single quotes, or in double quotes when it holds a single quote and no
double one. The quote in use, the backslash and line ends are escaped with a backslash, and
code points that are not printable are spelled by their number in hexadecimal digits: two of them
below `0x100`, four below `0x10000` and eight above.
-/

namespace ClientBoundary

namespace Text

/-- A hexadecimal digit. -/
def hexDigit (n : Nat) : CodePoint :=
  .char (if n < 10 then Char.ofNat (0x30 + n) else Char.ofNat (0x61 + (n - 10)))

/-- The last `width` hexadecimal digits of a number. -/
def hexDigits : (width : Nat) → Nat → Text
  | 0, _ => []
  | width + 1, n => hexDigits width (n / 16) ++ [hexDigit (n % 16)]

/-- A code point as it is shown between the given quotes. -/
def showPoint (quote : Char) (p : CodePoint) : Text :=
  if p = .char quote then [.char '\\', p]
  else if p = .char '\\' then "\\\\"
  else if p = .char '\n' then "\\n"
  else if p = .char '\r' then "\\r"
  else if p = .char '\t' then "\\t"
  else if p.isPrintable then [p]
  else
    let n := p.toNat
    if n < 0x100 then "\\x" ++ hexDigits 2 n
    else if n < 0x10000 then "\\u" ++ hexDigits 4 n
    else "\\U" ++ hexDigits 8 n

/-- A text as messages show it. -/
def shown (t : Text) : Text :=
  let quote := if t.contains (.char '\'') && !t.contains (.char '"') then '"' else '\''
  .char quote :: t.flatMap (showPoint quote) ++ [.char quote]

end Text

end ClientBoundary
