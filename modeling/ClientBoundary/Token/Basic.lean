import ClientBoundary.Span
import ClientBoundary.Token.Terminal

/-!
# Tokens

A `Token` is a piece of source text with its terminal and the places of its two ends. A `Place`
is an offset with its line and column; only a line feed starts a new line, and a column counts
code points.
-/

namespace ClientBoundary

/-- A place in a source: an offset with the line and column it lies in. -/
structure Place where
  offset : Nat
  line : Nat
  column : Nat
deriving DecidableEq, Repr, Inhabited

namespace Place

/-- The start of a source. -/
def start : Place := ⟨0, 1, 1⟩

/-- The place one code point further on. -/
def next (p : Place) (c : CodePoint) : Place :=
  if c = .char '\n' then ⟨p.offset + 1, p.line + 1, 1⟩
  else ⟨p.offset + 1, p.line, p.column + 1⟩

/-- The place after a text that begins here. -/
def after (p : Place) (t : Text) : Place := t.foldl next p

/-- The location from one place to another. -/
def locate (start stop : Place) : Location :=
  { line := some start.line
    column := some start.column
    endLine := some stop.line
    endColumn := some stop.column
    startPos := some start.offset
    endPos := some stop.offset }

end Place

/-- A token of a source. -/
structure Token where
  kind : Terminal
  text : Text
  start : Place
  stop : Place
deriving DecidableEq, Repr, Inhabited

end ClientBoundary
