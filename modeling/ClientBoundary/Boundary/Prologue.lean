import ClientBoundary.Boundary.Import
import ClientBoundary.Comment

/-!
# The directive prologue

The string statements at the start of a module are its *prologue*. A module whose prologue holds
the directive `"client"` is a client boundary. The compilation takes these directives out and
leaves the other strings where they are.

The comments before a directive that is taken out are handed on to the next item that stays and
has a place, in front of that item's own; if there is none they go to the end of the module. The
comments at the very start belong to the module and not to its first item, and stay.
-/

namespace ClientBoundary

/-- The directive of a client boundary. -/
def clientDirective : Text := "client"

namespace ModuleItem

/-- The value of a statement that is a string and nothing else. -/
def directive? : ModuleItem → Option Text
  | .stmt (.exprStmt (.str l) _) => some l.value
  | _ => none

/-- Whether an item could be part of a prologue. -/
def isDirective (i : ModuleItem) : Bool := i.directive?.isSome

/-- Whether an item is the directive of a client boundary. -/
def isClientDirective (i : ModuleItem) : Bool := i.directive? = some clientDirective

end ModuleItem

namespace CommentTable

/-- Hand comments to the item at a position, in front of its own. -/
def handLeading (t : CommentTable) (pos : Int) (cs : List Comment) : CommentTable :=
  let (own, t) := t.takeLeading pos
  t.addAllLeading pos (cs ++ own)

/-- Hand comments to the end of the module at a position, in front of those that are there. -/
def handTrailing (t : CommentTable) (pos : Int) (cs : List Comment) : CommentTable :=
  let (own, t) := t.takeTrailing pos
  t.addAllTrailing pos (cs ++ own)

end CommentTable

namespace Prologue

/-- Comments on their way to the next item, and the table they came from. -/
structure Carried where
  comments : List Comment := []
  table : CommentTable
deriving DecidableEq, Repr, Inhabited

/-- Pick up the comments of a directive that is taken out. Those at the start of the module
stay. -/
def Carried.pickUp (c : Carried) (moduleLo lo : Option Int) : Carried :=
  match lo with
  | none => c
  | some pos =>
    if lo = moduleLo then c
    else
      let (found, table) := c.table.takeLeading pos
      ⟨c.comments ++ found, table⟩

/-- Hand the comments on to an item that stays. -/
def Carried.handOver (c : Carried) (lo : Option Int) : Carried :=
  match c.comments, lo with
  | _ :: _, some pos => ⟨[], c.table.handLeading pos c.comments⟩
  | _, _ => c

/-- Leave what is still carried at the end of the module. -/
def Carried.finish (c : Carried) (moduleHi : Option Int) : CommentTable :=
  match c.comments with
  | [] => c.table
  | cs => c.table.handTrailing (moduleHi.getD 0) cs

/-- How far the scan of a body has come: whether it is still in the prologue, what it has found, and
the items and comments that stay. -/
structure Scan where
  inPrologue : Bool := true
  isClientBoundary : Bool := false
  imports : List ImportRecord := []
  kept : List ModuleItem := []
  carried : Carried

/-- Keep an item, with the comments that are on their way to it. -/
def Scan.keep (s : Scan) (i : ModuleItem) : Scan :=
  { s with kept := s.kept ++ [i], carried := s.carried.handOver i.span.lo }

/-- Pass an item. Imports are recorded wherever they stand; strings leave the prologue open, and
every other item closes it. -/
def Scan.step (moduleLo : Option Int) (s : Scan) (i : ModuleItem) : Scan :=
  match ImportRecord.ofItem? i with
  | some found => { s with inPrologue := false, imports := s.imports ++ [found] }.keep i
  | none =>
    if s.inPrologue && i.isDirective then
      if i.isClientDirective then
        { s with isClientBoundary := true, carried := s.carried.pickUp moduleLo i.span.lo }
      else s.keep i
    else { s with inPrologue := false }.keep i

end Prologue

/-- What the prologue and the imports of a module say, and the module and its comments after the
directives were taken out. -/
structure Collected where
  isClientBoundary : Bool
  imports : List ImportRecord
  module : Module
  comments : CommentTable

/-- Take the directives out of a module, and collect its imports. -/
def collect (m : Module) (table : CommentTable) : Collected :=
  let scan := m.body.foldl (Prologue.Scan.step m.span.lo) { carried := { table } }
  { isClientBoundary := scan.isClientBoundary
    imports := scan.imports
    module := { m with body := scan.kept }
    comments := scan.carried.finish m.span.hi }

end ClientBoundary
