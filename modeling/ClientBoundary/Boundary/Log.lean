import ClientBoundary.Config.Basic

/-!
# What the compilation decided

The decisions of a run are kept as a log, which is shown on request.
-/

namespace ClientBoundary

/-- A decision of a run. -/
inductive LogEntry where
  /-- The configuration of the run. -/
  | configured (config : Config)
  /-- The configuration switched the compilation off. -/
  | disabled (file : Text)
  /-- The module is a client boundary. -/
  | boundaryFound (file : Text)
  /-- The module was replaced by a reference. -/
  | referenced (file : Text)
  /-- The imports of the module were checked. -/
  | checked (file : Text) (imports : Nat) (target : Target) (diagnostics : Nat)
deriving DecidableEq, Repr, Inhabited

namespace LogEntry

/-- The word for a boolean in the log. -/
def boolText : Bool → Text
  | true => "True"
  | false => "False"

/-- The form of a configuration in the log. -/
def configText : Config → Text
  | .all on => "ConfigAll(enabled=" ++ boolText on ++ ")"
  | .options isServer =>
    "ConfigWithOptions(options=Options(is_server=" ++ boolText isServer ++ "))"

/-- The part of the program that a decision is attributed to. -/
def source : LogEntry → Text
  | .configured _ => "rscc.rscc"
  | _ => "rscc.transform.react_server_components"

/-- The text of a decision. -/
def message : LogEntry → Text
  | .configured config => "config: " ++ configText config
  | .disabled file => file ++ ": pass disabled by config"
  | .boundaryFound file => file ++ ": client boundary directive found"
  | .referenced file => file ++ ": rewritten to client module reference"
  | .checked file imports target diagnostics =>
    file ++ ": validated " ++ Text.ofNat imports ++ " import(s) for " ++ target.name
      ++ " compilation, " ++ Text.ofNat diagnostics ++ " diagnostic(s)"

/-- The line that a decision is shown as. -/
def line (e : LogEntry) : Text := "DEBUG " ++ e.source ++ ": " ++ e.message

end LogEntry

end ClientBoundary
