import ClientBoundary.Ast.Printer
import ClientBoundary.Boundary.Compile
import ClientBoundary.CommandLine.Arguments
import ClientBoundary.CommandLine.Report
import ClientBoundary.Config.Reader
import ClientBoundary.Module.File
import ClientBoundary.Path.Layout

/-!
# A run of the command line

A run reads the arguments and the configuration, compiles all sources and then writes all outputs.
Nothing is written when a source has an error. The exit code is 0 for a clean run, 1 when there
was an error in a source, and 2 when the arguments or the configuration were wrong.

What the run says on its two channels is part of its outcome; only files are written while it
goes on.

With more than one job the sources may be compiled side by side. Outputs are then still in the order
of the sources, and so are the diagnostics and log entries of each source among themselves, but
those of different sources may come in any order. Here they always come in the order of the sources,
which is the order of a run with one job.
-/

namespace ClientBoundary

namespace CommandLine

/-- Why a run broke off. -/
inductive Failure where
  | file (failure : FileFailure)
  /-- The configuration holds an integer with too many digits. -/
  | tooManyDigits
  /-- An output could not be written. -/
  | disk (fault : DiskFault)
  /-- An output holds a surrogate. -/
  | notEncodable
deriving DecidableEq, Repr, Inhabited

/-- What a run prints. -/
inductive Printed where
  | code (text : Text)
  | report (report : Report)
deriving DecidableEq, Repr, Inhabited

/-- What a run prints, as text. -/
def Printed.text : Printed → Text
  | .code t => t
  | .report r => r.line ++ "\n"

/-- The outcome of a run. -/
structure Outcome where
  exit : Except Failure Nat
  printed : Printed := .code []
  /-- The lines of the error channel. -/
  errorLines : List Text := []

namespace Outcome

/-- The text of the error channel. -/
def errorText (o : Outcome) : Text := o.errorLines.flatMap fun l => l ++ Text.ofString "\n"

/-- The outcome when the arguments are wrong. -/
def ofUsage (e : UsageError) : Outcome := { exit := .ok 2, errorLines := [e.line] }

/-- The outcome when the configuration is wrong. -/
def ofConfigError (path : Path) (json : Bool) (e : ConfigError) : Outcome :=
  if json then
    { exit := .ok 2
      printed := .report
        { exitCode := 2
          diagnostics := [{ message := e.message, phase := some "config" }]
          source := some path } }
  else { exit := .ok 2, errorLines := [path.text ++ ": error: " ++ e.message] }

end Outcome

/-- The compilation of the sources so far. -/
structure Progress where
  sink : DiagnosticSink := {}
  log : List LogEntry := []
  /-- The printed modules, and none for a source without one. -/
  outputs : List (Option Text) := []

section Steps

variable {m : Type → Type} [Monad m] [MonadDisk m]

/-- Compile the bytes of a source. -/
def compileBytes (config : Config) (source : Path) (p : Progress) (bytes : ByteArray) :
    Except Failure Progress :=
  match parseFile source.text bytes with
  | .error failure => .error (.file failure)
  | .ok (.error d) => .ok { p with sink := p.sink.emit d, outputs := p.outputs ++ [none] }
  | .ok (.ok parsed) =>
    let compiled := compileModule config source.text parsed.module parsed.comments p.sink
    .ok
      { sink := compiled.sink
        log := p.log ++ compiled.log
        outputs := p.outputs ++ [some (printModule compiled.module (some compiled.comments))] }

/-- The report of a source that cannot be read. -/
def unreadable (source : Path) (fault : DiskFault) : Diagnostic :=
  { message := "cannot read source: " ++ fault.message source
    phase := some "driver"
    span := { file := some source.text } }

/-- Compile a source. A failure keeps what was logged before it. -/
def compileSource (config : Config) (source : Path) (p : Progress) :
    m (Except (Failure × Progress) Progress) := do
  match ← MonadDisk.read source with
  | .error fault =>
    return .ok
      { p with sink := p.sink.emit (unreadable source fault), outputs := p.outputs ++ [none] }
  | .ok bytes => return (compileBytes config source p bytes).mapError (·, p)

/-- Compile sources one after the other, whatever the number of jobs. -/
def compileSources (config : Config) : List Path → Progress →
    m (Except (Failure × Progress) Progress)
  | [], p => return .ok p
  | source :: sources, p => do
    match ← compileSource config source p with
    | .error e => return .error e
    | .ok p => compileSources config sources p

/-- Write an output, and make the directories for it. -/
def writeOutput (path : Path) (text : Text) : m (Except Failure Unit) := do
  match ← MonadDisk.makeDirectories path.parent with
  | .error fault => return .error (.disk fault)
  | .ok _ =>
    match ← MonadDisk.write path ((Text.encode? text).getD .empty) with
    | .error fault => return .error (.disk fault)
    | .ok _ => return if (Text.encode? text).isSome then .ok () else .error .notEncodable

/-- Write outputs in order. -/
def writeOutputs : List (Path × Option Text) → m (Except Failure Unit)
  | [] => return .ok ()
  | (_, none) :: outputs => writeOutputs outputs
  | (path, some text) :: outputs => do
    match ← writeOutput path text with
    | .error e => return .error e
    | .ok _ => writeOutputs outputs

/-- Where the outputs of sources go: to the path itself for one source unless it is a directory,
and below it otherwise. -/
def destinations (sources : List Path) (output : Path) : m (List Path) := do
  if sources.length = 1 ∧ !(← MonadDisk.isDirectory output) then return [output]
  else return outputPaths output (← sources.mapM MonadDisk.place)

/-- Whether the output of several sources would have to go to a file. -/
def outputIsFile (r : Request) : m Bool :=
  match r.output with
  | none => return false
  | some output => do
    if r.sources.length ≤ 1 then return false
    else return (← MonadDisk.status output) = some .file

/-- The configuration of a run. -/
def configOf (r : Request) : m (Except ConfigFailure Config) :=
  match r.config with
  | some path => Config.load path
  | none => return .ok (.options !r.client)

/-- The lines of a log, if it is to be shown. -/
def logLines (r : Request) (log : List LogEntry) : List Text :=
  if r.verbose then log.map LogEntry.line else []

/-- Finish a run whose sources were compiled. -/
def finish (r : Request) (p : Progress) : m Outcome := do
  let exitCode := if p.sink.hasErrors then 1 else 0
  let report : Report := ⟨exitCode, p.sink.diagnostics, r.sources.head?⟩
  let shown := if r.json then [] else p.sink.diagnostics.map Diagnostic.line
  let errorLines := logLines r p.log ++ shown
  let printed : Printed := if r.json then .report report else .code []
  if exitCode ≠ 0 then return { exit := .ok exitCode, printed, errorLines }
  else
    match r.output with
    | none =>
      let printed := if r.json then printed else .code (p.outputs.filterMap id).flatten
      return { exit := .ok exitCode, printed, errorLines }
    | some output =>
      let paths ← destinations r.sources output
      match ← writeOutputs (paths.zip p.outputs) with
      | .error failure => return { exit := .error failure, printed, errorLines }
      | .ok _ => return { exit := .ok exitCode, printed, errorLines }

/-- Compile the sources of a request with a configuration. -/
def runWith (r : Request) (config : Config) : m Outcome := do
  match ← compileSources config r.sources { log := [.configured config] } with
  | .error (failure, p) => return { exit := .error failure, errorLines := logLines r p.log }
  | .ok p => finish r p

/-- Run a request. -/
def runRequest (r : Request) : m Outcome := do
  if r.jobs < 1 then return .ofUsage .jobsTooFew
  else if ← outputIsFile r then return .ofUsage .outputNotDirectory
  else
    match ← configOf r with
    | .ok config => runWith r config
    | .error (.config e) => return .ofConfigError (r.config.getD ⟨.working, []⟩) r.json e
    | .error .notUtf8 => return { exit := .error (.file .notUtf8) }
    | .error .tooManyDigits => return { exit := .error .tooManyDigits }

/-- Run the command line. -/
def run (argv : List Text) : m Outcome :=
  match request argv with
  | .ok r => runRequest r
  | .error (.usage e) => return .ofUsage e
  | .error .help => return { exit := .ok 0 }

end Steps

end CommandLine

end ClientBoundary
