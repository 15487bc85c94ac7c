import ClientBoundary.Span

/-!
# Diagnostics

What is wrong with a source is reported as a diagnostic, never as a failure of the program. All
diagnostics of a run go into one sink, in the order in which they were found; whether they fail
the run is for the caller to decide.
-/

namespace ClientBoundary

/-- A report on a source. -/
structure Diagnostic where
  message : Text
  code : Option Text := none
  /-- The step of the work that found it. -/
  phase : Option Text := none
  severity : Text := "error"
  span : Span := {}
  notes : List Text := []
deriving DecidableEq, Repr, Inhabited

namespace Diagnostic

/-- Whether a diagnostic is an error. -/
def isError (d : Diagnostic) : Bool := d.severity = Text.ofString "error"

/-- The line that a diagnostic is shown as. -/
def line (d : Diagnostic) : Text := d.span.short ++ ": " ++ d.severity ++ ": " ++ d.message

end Diagnostic

/-- The diagnostics found so far, the oldest first. -/
structure DiagnosticSink where
  diagnostics : List Diagnostic := []
deriving DecidableEq, Repr, Inhabited

namespace DiagnosticSink

/-- Add a diagnostic. -/
def emit (s : DiagnosticSink) (d : Diagnostic) : DiagnosticSink := ⟨s.diagnostics ++ [d]⟩

/-- Add several diagnostics. -/
def extend (s : DiagnosticSink) (ds : List Diagnostic) : DiagnosticSink := ⟨s.diagnostics ++ ds⟩

/-- The diagnostics whose span lies in a file. -/
def forFile (s : DiagnosticSink) (file : Text) : List Diagnostic :=
  s.diagnostics.filter (·.span.file = some file)

/-- Whether some diagnostic is an error. -/
def hasErrors (s : DiagnosticSink) : Bool := s.diagnostics.any Diagnostic.isError

/-- The number of diagnostics. -/
def size (s : DiagnosticSink) : Nat := s.diagnostics.length

end DiagnosticSink

end ClientBoundary
