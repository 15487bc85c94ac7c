import ClientBoundary.Text.CodePoint

/-!
# Source spans

A `Span` says where in a source something stands: its file, the line and column of its start and
of its end, and the offsets `lo` and `hi` of its first code point and of the one after its last.
Every part may be unknown; a span that knows neither its line nor its offset is a *dummy*, the
span of all synthetic nodes. The offset `lo` is also the key under which comments are filed.

Offsets are counted in code points from zero, lines and columns from one. They are integers and
not naturals because an error at the end of the input is reported at line and column `-1`.
-/

namespace ClientBoundary

/-- A source span, each part of which may be unknown. -/
structure Span where
  file : Option Text := none
  line : Option Int := none
  column : Option Int := none
  endLine : Option Int := none
  endColumn : Option Int := none
  lo : Option Int := none
  hi : Option Int := none
deriving DecidableEq, Repr, Inhabited

/-- The place of a token or of a piece of the tree as the reader of a source records it. -/
structure Location where
  line : Option Int := none
  column : Option Int := none
  endLine : Option Int := none
  endColumn : Option Int := none
  startPos : Option Int := none
  endPos : Option Int := none
  /-- Nothing was read here, so there is no place. -/
  empty : Bool := false
  file : Option Text := none
  filename : Option Text := none
deriving DecidableEq, Repr, Inhabited

namespace Span

/-- The span of synthetic nodes. -/
def dummy : Span := {}

/-- A span is a dummy when it knows neither its line nor its offset. -/
def isDummy (s : Span) : Bool := s.lo.isNone && s.line.isNone

/-- A file name counts only when it is not empty. -/
def named : Option Text → Option Text
  | some (p :: t) => some (p :: t)
  | _ => none

/-- The span of a location. The name given here goes before the names the location carries; an
empty location has a file at most. -/
def ofLocation (loc : Location) (file : Option Text) : Span :=
  if loc.empty then { file := file }
  else
    { file := (named file).or ((named loc.file).or (named loc.filename))
      line := loc.line
      column := loc.column
      endLine := loc.endLine
      endColumn := loc.endColumn
      lo := loc.startPos
      hi := loc.endPos }

/-- The span from the start of `s` to the end of `t`. A dummy gives way to the other span. -/
def through (s t : Span) : Span :=
  if s.isDummy then t
  else if t.isDummy then s
  else
    { file := s.file
      line := s.line
      column := s.column
      endLine := t.endLine
      endColumn := t.endColumn
      lo := s.lo
      hi := t.hi }

/-- The form `file:line:column`, with a mark for each part that is unknown. -/
def short (s : Span) : Text :=
  let file : Text := (named s.file).getD "<unknown>"
  let number : Option Int → Text := fun n => (n.map Text.ofInt).getD "?"
  file ++ ":" ++ number s.line ++ ":" ++ number s.column

/-- The short form of a span that may be missing altogether. -/
def short? : Option Span → Text
  | none => "<unknown location>"
  | some s => s.short

end Span

end ClientBoundary
