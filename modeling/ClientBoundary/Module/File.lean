import ClientBoundary.Diagnostic
import ClientBoundary.Module.Reader
import ClientBoundary.Path.Basic
import ClientBoundary.Text.Blank
import ClientBoundary.Text.Utf8

/-!
# Modules in files

A module is read from the bytes of a file. That its text is no module is reported as a
diagnostic. That the bytes are no text, or that a literal has no value, is a failure.
-/

namespace ClientBoundary

/-- Why a file could not be dealt with at all. -/
inductive FileFailure where
  /-- The file is not well-formed UTF-8. -/
  | notUtf8
  /-- A literal has no value. -/
  | literal (error : LiteralError)
deriving DecidableEq, Repr, Inhabited

/-- The report of a syntax error in a file. -/
def SyntaxError.diagnostic (e : SyntaxError) (file : Text) : Diagnostic :=
  { message := Text.trim e.message
    phase := some "parser"
    span := { file := some file, line := some e.line, column := some e.column } }

/-- Read a module from the bytes of a file with a name. -/
def parseFile (file : Text) (bytes : ByteArray) :
    Except FileFailure (Except Diagnostic ParsedModule) :=
  match Text.ofFile? bytes with
  | none => .error .notUtf8
  | some source =>
    match parseModule source (some file) with
    | .ok parsed => .ok (.ok parsed)
    | .error (.syntaxError e) => .ok (.error (e.diagnostic file))
    | .error (.literal e) => .error (.literal e)

/-- The name that is recorded for a file: the one given, unless it is empty, or its path. -/
def recordedName (file : Option Text) (path : Path) : Text := (Span.named file).getD path.text

end ClientBoundary
