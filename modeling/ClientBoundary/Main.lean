import ClientBoundary.CommandLine.Run

/-!
# The program

The outer layer: the disk of the machine, and the two channels of the program.
-/

namespace ClientBoundary

namespace Program

/-- A text for the screen; a surrogate has no form there. -/
def display (t : Text) : String :=
  String.ofList (t.map fun
    | .char c => c
    | .surrogate _ => '�')

/-- The fault that an error of the machine is. -/
def faultOf : IO.Error → DiskFault
  | .noFileOrDirectory .. => .notFound
  | .permissionDenied .. => .permissionDenied
  | .alreadyExists .. => .alreadyExists
  | .inappropriateType _ 20 _ => .notADirectory
  | .inappropriateType _ 21 _ => .isADirectory
  | e => .other 5 (toString e)

/-- Do something that may fail on the machine. -/
def attempt {α : Type} (action : IO α) : IO (Except DiskFault α) := do
  match ← action.toBaseIO with
  | .ok a => return .ok a
  | .error e => return .error (faultOf e)

/-- What a path leads to on the machine. -/
def status (path : String) : IO (Option DiskEntry) := do
  try
    let found ← (← IO.FS.realPath path).metadata
    return some (if found.type matches .dir then .directory else .file)
  catch _ => return none

/-- The place that a path leads to on the machine. -/
def place (p : Path) : IO (List Text) := do
  try
    return (Path.ofText (← IO.FS.realPath (display p.text)).toString).names
  catch _ => return p.place (Path.ofText (← IO.currentDir).toString).names

instance : MonadDisk IO where
  read p := attempt (IO.FS.readBinFile (display p.text))
  status p := status (display p.text)
  place := place
  makeDirectory p := attempt (IO.FS.createDir (display p.text))
  write p content := attempt (IO.FS.writeBinFile (display p.text) content)

/-- What is said about a run that broke off. -/
def failureText : CommandLine.Failure → Text
  | .file .notUtf8 => "a file is not valid UTF-8"
  | .file (.literal .escapeOutOfRange) => "an escape is beyond the last code point"
  | .file (.literal .escapeTooWide) => "an escape has too many digits"
  | .file (.literal .numberTooLarge) => "a number is too large"
  | .tooManyDigits => "a number of the config has too many digits"
  | .disk fault => "cannot write output: " ++ fault.text
  | .notEncodable => "an output holds a lone surrogate"

end Program

end ClientBoundary

open ClientBoundary in
/-- Compile the modules that the arguments name. -/
def main (args : List String) : IO UInt32 := do
  let outcome ← (CommandLine.run (args.map Text.ofString) : IO CommandLine.Outcome)
  IO.eprint (Program.display outcome.errorText)
  IO.print (Program.display outcome.printed.text)
  match outcome.exit with
  | .ok code => return UInt32.ofNat code
  | .error failure =>
    IO.eprintln (Program.display ("rscc: " ++ Program.failureText failure))
    return 1
