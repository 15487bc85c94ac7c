import ClientBoundary.Text.Shown

/-!
# Quoted texts

A text in double quotes, as the strings of synthetic nodes are written. The quote, the backslash
and the controls below `0x20` are escaped, the latter by a letter where there is one and by four
hexadecimal digits elsewhere. Everything else stands for itself.
-/

namespace ClientBoundary

namespace Text

/-- A code point between double quotes. -/
def quotePoint (p : CodePoint) : Text :=
  match p with
  | .char '"' => "\\\""
  | .char '\\' => "\\\\"
  | .char '\n' => "\\n"
  | .char '\r' => "\\r"
  | .char '\t' => "\\t"
  | .char '\x0c' => "\\f"
  | .char '\x08' => "\\b"
  | p => if p.toNat < 0x20 then "\\u" ++ hexDigits 4 p.toNat else [p]

/-- A text in double quotes. -/
def quoted (t : Text) : Text := .char '"' :: t.flatMap quotePoint ++ [.char '"']

end Text

end ClientBoundary
