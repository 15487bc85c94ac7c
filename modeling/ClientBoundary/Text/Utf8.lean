import ClientBoundary.Text.CodePoint

/-!
# Texts in files

A file holds a text in UTF-8. When it is read, a carriage return that is followed by a line feed
is dropped, and any other carriage return becomes a line feed. When it is written nothing is
changed.
-/

namespace ClientBoundary

namespace Text

/-- The text that bytes encode, if they are well-formed UTF-8. -/
def decode? (bytes : ByteArray) : Option Text := (String.fromUTF8? bytes).map Text.ofString

/-- The bytes of a text, if it holds no surrogate. -/
def encode? (t : Text) : Option ByteArray := t.toString?.map String.toUTF8

/-- A text with a line feed for every line break. -/
def unifyBreaks : Text → Text
  | [] => []
  | .char '\r' :: .char '\n' :: t => .char '\n' :: unifyBreaks t
  | .char '\r' :: t => .char '\n' :: unifyBreaks t
  | p :: t => p :: unifyBreaks t

/-- The text of a file, if it is well-formed. -/
def ofFile? (bytes : ByteArray) : Option Text := (decode? bytes).map unifyBreaks

end Text

end ClientBoundary
