import ClientBoundary.Ast.Basic
import ClientBoundary.Comment
import ClientBoundary.Decimal.Shortest
import ClientBoundary.Text.Quoted

/-!
# Printing a module

A module is printed with one item to a line, an indentation of two spaces and a semicolon after
every statement that takes one. Literals are printed in the form they were written in.
Parentheses come from the parentheses of the tree; the printer adds them only where a statement
or the body of an arrow function would otherwise begin with a brace, `function` or `class` and
be read as something else.

Comments are printed on lines of their own, those of an item before it and the trailing ones of
the module at the end.
-/

namespace ClientBoundary

namespace Printer

/-- The indentation at a depth of nesting. -/
def pad (depth : Nat) : Text := List.replicate (2 * depth) (.char ' ')

/-- Texts with commas between them. -/
def commas (ts : List Text) : Text := Text.join ", " ts

/-- A string literal. -/
def str (l : StrLit) : Text := l.raw.getD (Text.quoted l.value)

/-- A number literal. -/
def num (l : NumLit) : Text := l.raw.getD l.value.text

/-- The words before the key of a method or accessor. -/
def methodHead (isStatic : Bool) (kind : MethodKind) (isAsync isGenerator : Bool) : Text :=
  let static : Text := if isStatic then "static " else ""
  let accessor : Text := match kind with
    | .get | .set => kind.word ++ " "
    | .method | .constructor => ""
  static ++ accessor ++ (if isAsync then "async " else "") ++ (if isGenerator then "*" else "")

/-- The words before the name of a function. -/
def functionHead (isAsync isGenerator : Bool) : Text :=
  (if isAsync then "async function" else "function") ++ (if isGenerator then "*" else "")

/-- A name after a space, if there is one. -/
def spacedName : Option Ident → Text
  | none => ""
  | some i => " " ++ i.sym

/-- Whether a unary operator is a word. -/
def isWordOperator (op : Text) : Bool :=
  op = Text.ofString "typeof" || op = Text.ofString "void" || op = Text.ofString "delete"

/-- A unary operation. A space keeps a word apart from its operand, and a sign from a sign. -/
def unary (op arg : Text) : Text :=
  if isWordOperator op || arg.startsWith op then op ++ " " ++ arg else op ++ arg

/-- Lines in braces, indented one step more than the closing brace. -/
def braced (depth : Nat) (lines : List Text) : Text :=
  match lines with
  | [] => "\x7b\x7d"
  | lines =>
    let indented : Text := lines.flatMap fun l => pad (depth + 1) ++ l ++ Text.ofString "\n"
    "\x7b\n" ++ indented ++ pad depth ++ "\x7d"

/-- Elements in braces on one line. -/
def inlineBraces (parts : List Text) : Text :=
  match parts with
  | [] => "\x7b\x7d"
  | parts => "\x7b " ++ commas parts ++ " \x7d"

/-- The start of a class up to its body. -/
def classHead (name : Option Ident) (superClass : Option Text) : Text :=
  "class" ++ spacedName name ++ (match superClass with
    | none => ""
    | some e => " extends " ++ e) ++ " "

/-- Whether a statement that begins with the expression would be read as something else. -/
def needsParens : Expr → Bool
  | .object .. | .fnExpr .. | .classExpr .. => true
  | _ => false

/-- Whether an expression is an object. -/
def isObject : Expr → Bool
  | .object .. => true
  | _ => false

/-- A text in parentheses. -/
def parens (t : Text) : Text := "(" ++ t ++ ")"

/-- The chunks of a template with the expressions between them. -/
def templateRest : List Text → List Text → Text
  | e :: es, q :: qs => "$\x7b" ++ e ++ "\x7d" ++ q ++ templateRest es qs
  | _, _ => ""

/-- A template. -/
def template (head : Text) (rest exprs : List Text) : Text :=
  "\x60" ++ head ++ templateRest exprs rest ++ "\x60"

mutual

/-- An expression at a depth of nesting. -/
def expr (depth : Nat) : Expr → Text
  | .ident i => i.sym
  | .str l => str l
  | .num l => num l
  | .bool b _ => if b then "true" else "false"
  | .null _ => "null"
  | .tpl t => tpl depth t
  | .taggedTpl tag t _ => expr depth tag ++ tpl depth t
  | .regex p f _ => "/" ++ p ++ "/" ++ f
  | .thisExpr _ => "this"
  | .superExpr _ => "super"
  | .importExpr _ => "import"
  | .spread e _ => "..." ++ expr depth e
  | .elision => ""
  | .array es _ => "[" ++ commas (exprs depth es) ++ "]"
  | .object ps _ => inlineBraces (props depth ps)
  | .fnExpr i (.mk ps b isAsync isGenerator _) _ =>
    functionHead isAsync isGenerator ++ spacedName i ++ parens (commas (pats depth ps)) ++ " "
      ++ block depth b
  | .arrow ps b isAsync _ =>
    (if isAsync then "async " else "") ++ parens (commas (pats depth ps)) ++ " => "
      ++ arrowBody depth b
  | .classExpr i (.mk sup ms _) _ =>
    classHead i (optExpr depth sup) ++ braced depth (members (depth + 1) ms)
  | .paren e _ => parens (expr depth e)
  | .member o p _ => expr depth o ++ memberKey depth p
  | .call c as _ => expr depth c ++ parens (commas (exprs depth as))
  | .newCall c as _ => "new " ++ expr depth c ++ parens (commas (exprs depth as))
  | .newBare c _ => "new " ++ expr depth c
  | .unary op e _ => unary op (expr depth e)
  | .awaitExpr e _ => "await " ++ expr depth e
  | .binary op l r _ => expr depth l ++ " " ++ op ++ " " ++ expr depth r
  | .cond a b c _ => expr depth a ++ " ? " ++ expr depth b ++ " : " ++ expr depth c
  | .assign op l r _ => target depth l ++ " " ++ op ++ " " ++ expr depth r
  | .jsx n => jsx depth n
  | .invalid _ => "<invalid expr>"

/-- Expressions, each on its own. -/
def exprs (depth : Nat) : List Expr → List Text
  | [] => []
  | e :: es => expr depth e :: exprs depth es

/-- An expression that may be missing. -/
def optExpr (depth : Nat) : Option Expr → Option Text
  | none => none
  | some e => some (expr depth e)

/-- A template. -/
def tpl (depth : Nat) : Template → Text
  | .mk head rest es _ => template head rest (exprs depth es)

/-- What an assignment assigns to. -/
def target (depth : Nat) : AssignTarget → Text
  | .expr e => expr depth e
  | .pat p => pat depth p

/-- The key of a member access. -/
def memberKey (depth : Nat) : MemberKey → Text
  | .ident i => "." ++ i.sym
  | .computed e _ => "[" ++ expr depth e ++ "]"

/-- The key of a property. -/
def propName (depth : Nat) : PropName → Text
  | .ident i => i.sym
  | .str l => str l
  | .num l => num l
  | .computed e _ => "[" ++ expr depth e ++ "]"
  | .invalid _ => "<invalid key>"

/-- A property of an object. -/
def prop (depth : Nat) : Property → Text
  | .keyValue k v _ => propName depth k ++ ": " ++ expr depth v
  | .shorthand i _ => i.sym
  | .method k (.mk ps b isAsync isGenerator _) kind _ =>
    methodHead false kind isAsync isGenerator ++ propName depth k
      ++ parens (commas (pats depth ps)) ++ " " ++ block depth b
  | .spread e _ => "..." ++ expr depth e
  | .invalid _ => "<invalid prop>"

/-- Properties, each on its own. -/
def props (depth : Nat) : List Property → List Text
  | [] => []
  | p :: ps => prop depth p :: props depth ps

/-- The body of an arrow function. -/
def arrowBody (depth : Nat) : ArrowBody → Text
  | .block b => block depth b
  | .expr e => if isObject e then parens (expr depth e) else expr depth e

/-- A member of a class. -/
def member (depth : Nat) : ClassMember → Text
  | .method k (.mk ps b isAsync isGenerator _) kind isStatic _ =>
    methodHead isStatic kind isAsync isGenerator ++ propName depth k
      ++ parens (commas (pats depth ps)) ++ " " ++ block depth b
  | .field k v isStatic _ =>
    (if isStatic then "static " else "") ++ propName depth k ++ (match optExpr depth v with
      | none => ""
      | some e => " = " ++ e) ++ ";"
  | .invalid _ => "<invalid member>"

/-- Members of a class, each on its own. -/
def members (depth : Nat) : List ClassMember → List Text
  | [] => []
  | m :: ms => member depth m :: members depth ms

/-- A pattern. -/
def pat (depth : Nat) : Pat → Text
  | .ident i => i.sym
  | .object ps _ => inlineBraces (patProps depth ps)
  | .array es _ => "[" ++ commas (pats depth es) ++ "]"
  | .assign l r _ => pat depth l ++ " = " ++ expr depth r
  | .rest a _ => "..." ++ pat depth a
  | .elision => ""
  | .invalid _ => "<invalid pattern>"

/-- Patterns, each on its own. -/
def pats (depth : Nat) : List Pat → List Text
  | [] => []
  | p :: ps => pat depth p :: pats depth ps

/-- A property of an object pattern. -/
def patProp (depth : Nat) : PatProp → Text
  | .assign k v _ => k.sym ++ (match optExpr depth v with
      | none => ""
      | some e => " = " ++ e)
  | .keyValue k v _ => propName depth k ++ ": " ++ pat depth v
  | .pat p => pat depth p

/-- Properties of an object pattern, each on its own. -/
def patProps (depth : Nat) : List PatProp → List Text
  | [] => []
  | p :: ps => patProp depth p :: patProps depth ps

/-- An element or fragment. -/
def jsx (depth : Nat) : JsxNode → Text
  | .element name as cs selfClosing _ =>
    let head := Text.join " " (name.text :: attrs depth as)
    if selfClosing then "<" ++ head ++ " />"
    else "<" ++ head ++ ">" ++ children depth cs ++ "</" ++ name.text ++ ">"
  | .fragment cs _ => "<>" ++ children depth cs ++ "</>"

/-- An attribute. -/
def attr (depth : Nat) : JsxAttr → Text
  | .named name v _ => name ++ optAttrValue depth v
  | .spread e _ => "\x7b..." ++ expr depth e ++ "\x7d"

/-- Attributes, each on its own. -/
def attrs (depth : Nat) : List JsxAttr → List Text
  | [] => []
  | a :: as => attr depth a :: attrs depth as

/-- The value of an attribute with the sign before it. -/
def optAttrValue (depth : Nat) : Option JsxAttrValue → Text
  | none => ""
  | some v => "=" ++ attrValue depth v

/-- The value of an attribute. Its strings have no escapes and are printed as written. -/
def attrValue (depth : Nat) : JsxAttrValue → Text
  | .str l => l.raw.getD "None"
  | .child c => child depth c

/-- A child of an element; text is printed as it is. -/
def child (depth : Nat) : JsxChild → Text
  | .text raw _ => raw
  | .container e _ => "\x7b" ++ (optExpr depth e).getD [] ++ "\x7d"
  | .spread e _ => "\x7b..." ++ expr depth e ++ "\x7d"
  | .node n => jsx depth n

/-- The children of an element. -/
def children (depth : Nat) : List JsxChild → Text
  | [] => []
  | c :: cs => child depth c ++ children depth cs

/-- A block. -/
def block (depth : Nat) : Block → Text
  | .mk ss _ => braced depth (stmts (depth + 1) ss)

/-- A statement at a depth of nesting. -/
def stmt (depth : Nat) : Stmt → Text
  | .exprStmt e _ =>
    (if needsParens e then parens (expr depth e) else expr depth e) ++ ";"
  | .blockStmt b => block depth b
  | .emptyStmt _ => ";"
  | .varDecl k ds _ => k.word ++ " " ++ commas (declarators depth ds) ++ ";"
  | .fnDecl i (.mk ps b isAsync isGenerator _) _ =>
    functionHead isAsync isGenerator ++ " " ++ i.sym ++ parens (commas (pats depth ps)) ++ " "
      ++ block depth b
  | .classDecl i (.mk sup ms _) _ =>
    classHead (some i) (optExpr depth sup) ++ braced depth (members (depth + 1) ms)
  | .returnStmt e _ => match optExpr depth e with
    | none => "return;"
    | some e => "return " ++ e ++ ";"
  | .throwStmt e _ => "throw " ++ expr depth e ++ ";"
  | .ifStmt t c a _ => "if (" ++ expr depth t ++ ") " ++ stmt depth c ++ optElse depth a
  | .whileStmt t b _ => "while (" ++ expr depth t ++ ") " ++ stmt depth b
  | .invalid _ => "<invalid stmt>"

/-- The branch after `else`, if there is one. -/
def optElse (depth : Nat) : Option Stmt → Text
  | none => ""
  | some s => " else " ++ stmt depth s

/-- Statements, each on its own. -/
def stmts (depth : Nat) : List Stmt → List Text
  | [] => []
  | s :: ss => stmt depth s :: stmts depth ss

/-- A variable with its initial value. -/
def declarator (depth : Nat) : Declarator → Text
  | .mk name init _ => pat depth name ++ (match optExpr depth init with
      | none => ""
      | some e => " = " ++ e)

/-- Variables, each on its own. -/
def declarators (depth : Nat) : List Declarator → List Text
  | [] => []
  | d :: ds => declarator depth d :: declarators depth ds

end

/-- The name of something exported. -/
def exportName : ExportName → Text
  | .ident i => i.sym
  | .str l => str l

/-- What stands in the braces of an import for a specifier, if it stands there. -/
def namedImport? : ImportSpecifier → Option Text
  | .named i none _ => some i.sym
  | .named i (some imported) _ => some (exportName imported ++ " as " ++ i.sym)
  | _ => none

/-- What stands outside the braces of an import for a specifier, if it stands there. -/
def bareImport? : ImportSpecifier → Option Text
  | .default i _ => some i.sym
  | .starAs i _ => some ("* as " ++ i.sym)
  | .named .. => none

/-- An import declaration. -/
def importDecl (specifiers : List ImportSpecifier) (src : StrLit) : Text :=
  match specifiers with
  | [] => "import " ++ str src ++ ";"
  | specifiers =>
    let named := specifiers.filterMap namedImport?
    let parts := specifiers.filterMap bareImport?
      ++ (if named.isEmpty then [] else [inlineBraces named])
    "import " ++ commas parts ++ " from " ++ str src ++ ";"

/-- One name of an export list. -/
def exportSpecifier (e : ExportSpecifier) : Text :=
  exportName e.orig ++ (match e.exported with
    | none => ""
    | some n => " as " ++ exportName n)

/-- A top-level item. -/
def item (depth : Nat) : ModuleItem → Text
  | .stmt s => stmt depth s
  | .importDecl specifiers src _ => importDecl specifiers src
  | .exportDecl d _ => "export " ++ stmt depth d
  | .exportDefaultDecl e _ => "export default " ++ expr depth e
  | .exportDefaultExpr e _ => "export default " ++ expr depth e ++ ";"
  | .namedExport specifiers src _ =>
    "export " ++ inlineBraces (specifiers.map exportSpecifier) ++ (match src with
      | none => ""
      | some l => " from " ++ str l) ++ ";"
  | .exportAll src name _ =>
    "export *" ++ (match name with
      | none => ""
      | some n => " as " ++ exportName n) ++ " from " ++ str src ++ ";"

/-- The comments before an item. Those at the start of the module are the module's own. -/
def itemComments (comments : Option CommentTable) (moduleLo : Int) (i : ModuleItem) :
    List Comment :=
  match comments, i.span.lo with
  | some table, some lo => if lo = moduleLo then [] else table.getLeading (some lo)
  | _, _ => []

/-- The lines of a module. -/
def moduleLines (m : Module) (comments : Option CommentTable) : List Text :=
  let moduleLo := m.span.lo.getD 0
  let leading := (comments.map (·.getLeading (some moduleLo))).getD []
  let trailing := (comments.map (·.getTrailing m.span.hi)).getD []
  leading.map Comment.render
    ++ m.body.flatMap (fun i =>
        (itemComments comments moduleLo i).map Comment.render ++ [item 0 i])
    ++ trailing.map Comment.render

end Printer

/-- The text of a module, with the comments of a table if one is given. -/
def printModule (m : Module) (comments : Option CommentTable) : Text :=
  match Printer.moduleLines m comments with
  | [] => []
  | lines => Text.join "\n" lines ++ "\n"

end ClientBoundary
