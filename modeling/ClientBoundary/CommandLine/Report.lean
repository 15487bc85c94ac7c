import ClientBoundary.Diagnostic
import ClientBoundary.Json.Printer
import ClientBoundary.Path.Basic

/-!
# The report of a run

On request the diagnostics of a run are reported as one JSON value with the exit code.
-/

namespace ClientBoundary

namespace CommandLine

/-- The report of a run. -/
structure Report where
  exitCode : Nat
  diagnostics : List Diagnostic
  /-- The path that diagnostics without a file are about. -/
  source : Option Path
deriving DecidableEq, Repr, Inhabited

namespace Report

/-- The phase of a diagnostic that names none. -/
def defaultPhase : Text := "rsc"

/-- A diagnostic as a JSON value. -/
def diagnosticJson (source : Option Path) (d : Diagnostic) : Json :=
  .object
    [("phase", .string ((Span.named d.phase).getD defaultPhase)),
     ("message", .string d.message),
     ("severity", .string d.severity),
     ("code", .ofText? d.code),
     ("file", .ofText? (d.span.file.or (source.map Path.text))),
     ("line", .ofInt? d.span.line),
     ("column", .ofInt? d.span.column),
     ("notes", .array (d.notes.map .string))]

/-- The report as a JSON value. -/
def json (r : Report) : Json :=
  .object
    [("exit_code", .ofInt r.exitCode),
     ("diagnostics", .array (r.diagnostics.map (diagnosticJson r.source)))]

/-- The line that is printed. -/
def line (r : Report) : Text := r.json.print

end Report

end CommandLine

end ClientBoundary
