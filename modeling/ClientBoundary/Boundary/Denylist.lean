import ClientBoundary.Boundary.Import
import ClientBoundary.Config.Basic
import ClientBoundary.Diagnostic

/-!
# The check of the import graph

Some modules may not be imported into the server graph, some names of `react` and `react-dom`
neither, and some modules not into the client graph. Every import that breaks such a rule is
reported, in the order of the source.
-/

namespace ClientBoundary

namespace Denylist

/-- The modules that the server graph may not import. -/
def serverSources : List Text := ["client-only", "react-dom/client", "react-dom/server"]

/-- The modules that the client graph may not import. -/
def clientSources : List Text := ["server-only"]

/-- The names that the server graph may not import from `react`. -/
def reactNames : List Text :=
  ["Component", "createContext", "createFactory", "PureComponent", "useDeferredValue",
   "useEffect", "useImperativeHandle", "useInsertionEffect", "useLayoutEffect", "useReducer",
   "useRef", "useState", "useSyncExternalStore", "useTransition"]

/-- The names that the server graph may not import from `react-dom`. -/
def reactDomNames : List Text := ["findDOMNode", "flushSync", "unstable_batchedUpdates"]

/-- A rule that an import breaks. -/
inductive Violation where
  /-- A module that the graph may not import. -/
  | source (target : Target) (name : Text) (span : Span)
  /-- A name that the server graph may not import from `react`. -/
  | react (name : Text) (span : Span)
  /-- A name that the server graph may not import from `react-dom`. -/
  | reactDom (name : Text) (span : Span)
deriving DecidableEq, Repr, Inhabited

/-- The name of a graph in a message. -/
def graphName : Target → Text
  | .server => "Server Components"
  | .client => "Client Components"

namespace Violation

/-- The message of a violation. -/
def message : Violation → Text
  | .source target name _ =>
    "Disallowed import of \x60" ++ name ++ "\x60 in the " ++ graphName target ++ " compilation."
  | .react name _ =>
    "Disallowed React API \x60" ++ name ++ "\x60 in the Server Components compilation."
  | .reactDom name _ =>
    "Disallowed ReactDOM API \x60" ++ name ++ "\x60 in the Server Components compilation."

/-- The code of a violation. -/
def code : Violation → Text
  | .source .. => "RSC_DISALLOWED_IMPORT"
  | .react .. | .reactDom .. => "RSC_DISALLOWED_API"

/-- Where a violation is. -/
def span : Violation → Span
  | .source _ _ s | .react _ s | .reactDom _ s => s

/-- The report of a violation. -/
def diagnostic (v : Violation) : Diagnostic :=
  { message := v.message, code := some v.code, phase := some "rsc", span := v.span }

end Violation

/-- The names of an import that are on a list. -/
def listed (names : List Text) (r : ImportRecord) : List ImportedName :=
  r.names.filter (·.name ∈ names)

/-- The rules of the server graph that an import breaks. -/
def serverViolations (r : ImportRecord) : List Violation :=
  (if r.source ∈ serverSources then [.source .server r.source r.span] else [])
    ++ (if r.source = Text.ofString "react" then
          (listed reactNames r).map fun n => .react n.name n.span
        else [])
    ++ (if r.source = Text.ofString "react-dom" then
          (listed reactDomNames r).map fun n => .reactDom n.name n.span
        else [])

/-- The rules of the client graph that an import breaks. -/
def clientViolations (r : ImportRecord) : List Violation :=
  if r.source ∈ clientSources then [.source .client r.source r.span] else []

/-- The rules of a graph that an import breaks. -/
def violations : Target → ImportRecord → List Violation
  | .server => serverViolations
  | .client => clientViolations

end Denylist

/-- The reports on the imports of a module. -/
def checkImports (target : Target) (imports : List ImportRecord) : List Diagnostic :=
  (imports.flatMap (Denylist.violations target)).map Denylist.Violation.diagnostic

end ClientBoundary
