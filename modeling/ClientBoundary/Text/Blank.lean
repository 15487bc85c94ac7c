import ClientBoundary.Text.Ranges

/-!
# Blanks

White space in the wide sense that holds between the parts of a JSX tag: the ASCII blanks, the
four information separators `U+001C` to `U+001F`, the next-line character and the space
characters of Unicode. The byte order mark `U+FEFF` is none of them.
-/

namespace ClientBoundary

/-- The ranges of white space. -/
def Text.blankRanges : List (Nat × Nat) :=
  [(0x9, 0xd), (0x1c, 0x20), (0x85, 0x85), (0xa0, 0xa0), (0x1680, 0x1680), (0x2000, 0x200a),
   (0x2028, 0x2029), (0x202f, 0x202f), (0x205f, 0x205f), (0x3000, 0x3000)]

/-- Whether the code point is white space. -/
def CodePoint.isBlank (p : CodePoint) : Bool := Text.inRanges Text.blankRanges p.toNat

/-- The text without the white space at both its ends. -/
def Text.trim (t : Text) : Text :=
  ((t.dropWhile (·.isBlank)).reverse.dropWhile (·.isBlank)).reverse

end ClientBoundary
