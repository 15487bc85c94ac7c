import ClientBoundary.Text.CodePoint

/-!
# Configuration

The compilation is switched on or off by a bare boolean, or told by an option which of the two
graphs of modules it is for. The bare `true` means the server graph.
-/

namespace ClientBoundary

/-- The graph of modules that a compilation is for. -/
inductive Target where
  | server
  | client
deriving DecidableEq, Repr, Inhabited

/-- The name of a target. -/
def Target.name : Target → Text
  | .server => "server"
  | .client => "client"

/-- The configuration of the compilation. -/
inductive Config where
  /-- On for the server graph, or off. -/
  | all (enabled : Bool)
  /-- On for the graph that the option names. -/
  | options (isServer : Bool)
deriving DecidableEq, Repr, Inhabited

namespace Config

/-- Whether modules are compiled at all. -/
def enabled : Config → Bool
  | .all on => on
  | .options _ => true

/-- The graph that modules are compiled for. -/
def target : Config → Target
  | .all _ => .server
  | .options true => .server
  | .options false => .client

end Config

end ClientBoundary
