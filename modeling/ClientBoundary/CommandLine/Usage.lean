import ClientBoundary.Path.Basic
import ClientBoundary.Text.Shown

/-!
# Options of the command line

The options with their spellings, and the ways in which arguments can be wrong.
-/

namespace ClientBoundary

namespace CommandLine

/-- The options. -/
inductive Flag where
  | help
  | server
  | client
  | config
  | output
  | json
  | jobs
  | verbose
deriving DecidableEq, Repr, Inhabited

namespace Flag

/-- All options, in the order in which they are listed. -/
def all : List Flag := [.help, .server, .client, .config, .output, .json, .jobs, .verbose]

/-- The spellings of an option. -/
def spellings : Flag → List Text
  | .help => ["-h", "--help"]
  | .server => ["--server"]
  | .client => ["--client"]
  | .config => ["--config"]
  | .output => ["-o", "--output"]
  | .json => ["--json"]
  | .jobs => ["-j", "--jobs"]
  | .verbose => ["-v", "--verbose"]

/-- The name of an option in messages. -/
def title (f : Flag) : Text := Text.join "/" f.spellings

/-- Whether an option takes a value. -/
def takesValue : Flag → Bool
  | .config | .output | .jobs => true
  | _ => false

/-- Of these options only one may be given. -/
def exclusive : List Flag := [.server, .client, .config]

/-- All spellings with their options, in order. -/
def table : List (Text × Flag) := all.flatMap fun f => f.spellings.map fun s => (s, f)

/-- The option with a spelling. -/
def ofSpelling? (t : Text) : Option Flag := (table.find? (·.1 = t)).map (·.2)

end Flag

/-- What is wrong with the arguments. -/
inductive UsageError where
  | ambiguous (written : Text) (spellings : List Text)
  | expectedValue (flag : Flag)
  | ignoredValue (flag : Flag) (value : Text)
  | invalidNumber (flag : Flag) (value : Text)
  | notAllowedWith (flag other : Flag)
  | sourceMissing
  | unrecognized (arguments : List Text)
  | jobsTooFew
  | outputNotDirectory
deriving DecidableEq, Repr, Inhabited

namespace UsageError

/-- An error in the value of an option. -/
def about (flag : Flag) (text : Text) : Text := "argument " ++ flag.title ++ ": " ++ text

/-- What is said about an error. -/
def message : UsageError → Text
  | .ambiguous written spellings =>
    "ambiguous option: " ++ written ++ " could match " ++ Text.join ", " spellings
  | .expectedValue flag => about flag "expected one argument"
  | .ignoredValue flag value => about flag ("ignored explicit argument " ++ value.shown)
  | .invalidNumber flag value => about flag ("invalid int value: " ++ value.shown)
  | .notAllowedWith flag other => about flag ("not allowed with argument " ++ other.title)
  | .sourceMissing => "the following arguments are required: source"
  | .unrecognized arguments => "unrecognized arguments: " ++ Text.join " " arguments
  | .jobsTooFew => "--jobs must be at least 1"
  | .outputNotDirectory => "--output must be a directory when several sources are given"

/-- The line that an error is shown as. -/
def line (e : UsageError) : Text := "rscc: error: " ++ e.message

end UsageError

end CommandLine

end ClientBoundary
