import ClientBoundary.Comment
import ClientBoundary.Grammar.Chart
import ClientBoundary.Grammar.Rules
import ClientBoundary.Module.SyntaxError
import ClientBoundary.Token.Terminators

/-!
# Reading a module

A source is read in four steps: its tokens are taken off one by one and matched against the
grammar, the tree of the matched tokens is chosen, the module is built from the tree, and the
comments that stand between the items are filed beside it.

Tokens are matched as they come, so a token that cannot follow is reported before a character
further on where no token begins. Literals are decoded and closing names compared when the module
is built, after the whole source has been matched.
-/

namespace ClientBoundary

/-- Why a source could not be read. -/
inductive ReadError where
  | syntaxError (cause : SyntaxError)
  | literal (cause : LiteralError)
deriving DecidableEq, Repr, Inhabited

/-- A module with the comments beside it. -/
structure ParsedModule where
  module : Module
  comments : CommentTable

/-- The slots of the grammar of modules. -/
def moduleLayout : Grammar.Layout Category :=
  Grammar.Layout.of Category.all Category.ctorIdx moduleGrammar.shape

/-- A tree of all the items of a module. -/
abbrev ItemsTree := Grammar.Tree moduleGrammar (.cat .items)

namespace Reader

open Grammar (Chart)

/-- The names of what can come next. -/
def expectedNames (chart : Chart) : List Text :=
  (chart.expected moduleLayout).map fun t => Text.ofString t.label

/-- Match tokens against the grammar, after those that a chart was made from. -/
def recognize : Chart → List Token → Except SyntaxError Chart
  | chart, [] => .ok chart
  | chart, t :: ts =>
    match chart.next moduleLayout t.kind with
    | none => .error (.unexpectedToken t (expectedNames chart))
    | some column => recognize (chart.push column) ts

/-- The chart before the first token. -/
def start : Chart := Chart.start moduleLayout .items

/-- The preferred tree of tokens that are a whole list of items. -/
def itemsTree? (tokens : List Token) (chart : Chart) : Option ItemsTree :=
  let n := tokens.length
  Chart.tree moduleGrammar moduleLayout chart tokens.toArray
    ((n + 1) * (Category.all.length + 1)) (.cat .items) 0 n

/-- Match the tokens of a source. A source without tokens has no items, and so no tree. -/
def syntaxTree (source : Text) (lexing : Lexing) : Except SyntaxError (Option ItemsTree) := do
  let tokens := lexing.statements
  let chart ← recognize start tokens
  match lexing.failure with
  | some place => .error (.unexpectedCharacter place source)
  | none =>
    if tokens.isEmpty then .ok none
    else if chart.accepts moduleLayout .items then
      match itemsTree? tokens chart with
      | some tree => .ok (some tree)
      | none => .error (.unexpectedEnd (expectedNames chart))
    else .error (.unexpectedEnd (expectedNames chart))

/-- The span of a module: its start, and the offset of its end. -/
def moduleSpan (source : Text) (file : Option Text) : Span :=
  { file := file, line := some 1, column := some 1, lo := some 0, hi := some source.length }

/-- The items that a tree stands for. -/
def buildItems (file : Option Text) : Option ItemsTree → Build (List ModuleItem)
  | none => .ok []
  | some tree => tree.value file

/-- A comment from its lexeme. -/
def commentOf (file : Option Text) (l : Lexeme) : Comment :=
  let span := Span.ofLocation (Place.locate l.start l.stop) file
  match l.kind with
  | .lineComment => ⟨.line, l.text.drop 2, span⟩
  | _ => ⟨.block, (l.text.drop 2).take (l.text.length - 4), span⟩

/-- Where a comment belongs among the items of a module. -/
inductive Attachment where
  /-- Inside an item; it is not recorded. -/
  | inside
  /-- Before the first item. -/
  | first
  /-- Before the item at an offset. -/
  | before (lo : Int)
  /-- After the last item. -/
  | trailing
deriving DecidableEq, Repr

/-- The first item that begins at or after an offset: whether it is the very first, and its
offset; and where the item before it ends. -/
def nextItem (stop : Int) : (first : Bool) → (previous : Option Int) → List ModuleItem →
    Option (Bool × Int) × Option Int
  | _, previous, [] => (none, previous)
  | first, previous, item :: items =>
    match item.span.lo with
    | some lo =>
      if stop ≤ lo then (some (first, lo), previous)
      else nextItem stop false item.span.hi items
    | none => nextItem stop false item.span.hi items

/-- Where a comment belongs that stretches from `start` to `stop`. -/
def attachment (items : List ModuleItem) (start stop : Int) : Attachment :=
  let (next, previous) := nextItem stop true none items
  let inside : Bool := match previous with
    | some hi => start < hi
    | none => false
  if inside then .inside
  else
    match next with
    | none => .trailing
    | some (true, _) => .first
    | some (false, lo) => .before lo

/-- File one comment of a source. -/
def attach (module : Module) (file : Option Text) (table : CommentTable) (l : Lexeme) :
    CommentTable :=
  let comment := commentOf file l
  match attachment module.body l.start.offset l.stop.offset with
  | .inside => table
  | .first => table.addLeading (module.span.lo.getD 0) comment
  | .before lo => table.addLeading lo comment
  | .trailing => table.addTrailing (module.span.hi.getD 0) comment

/-- The error that a failure to build is reported as. -/
def ofBuildError : BuildError → ReadError
  | .literal cause => .literal cause
  | .closingName closing opening => .syntaxError (.unexpectedToken closing [opening])

end Reader

/-- Read a module from its source. The file name is recorded in all spans. -/
def parseModule (source : Text) (file : Option Text) : Except ReadError ParsedModule := do
  let lexing := lex source
  let tree ← (Reader.syntaxTree source lexing).mapError .syntaxError
  let items ← (Reader.buildItems file tree).mapError Reader.ofBuildError
  let module : Module := ⟨items, Reader.moduleSpan source file⟩
  return ⟨module, lexing.comments.foldl (Reader.attach module file) {}⟩

end ClientBoundary
