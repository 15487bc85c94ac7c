import ClientBoundary.Decimal.Binary64
import ClientBoundary.Span

/-!
# The tree of a module

The nodes of an ECMAScript module with JSX. Every node carries its span; synthetic nodes carry
the dummy span. Literals keep the form they were written in, so that printing gives it back, and
a literal without such a form is printed from its value.

Declarations are statements, spread elements are expressions that stand in lists only, and an
elision is the missing element of an array. The constructors called `invalid` stand where a tree
built by hand holds something of another sort; reading a source never yields them.
-/

namespace ClientBoundary

/-- An identifier, or a word in the place of one. -/
structure Ident where
  sym : Text
  span : Span := {}
deriving DecidableEq, Repr, Inhabited

/-- A string literal: its decoded value, and the form it was written in, quotes included. -/
structure StrLit where
  value : Text
  raw : Option Text := none
  span : Span := {}
deriving DecidableEq, Repr, Inhabited

/-- A number literal. -/
structure NumLit where
  value : Binary64
  raw : Option Text := none
  span : Span := {}
deriving DecidableEq, Repr, Inhabited

/-- The word a variable declaration begins with. -/
inductive VarKind where
  | var | let_ | const
deriving DecidableEq, Repr, Inhabited

/-- The word that begins a variable declaration. -/
def VarKind.word : VarKind → Text
  | .var => "var"
  | .let_ => "let"
  | .const => "const"

/-- What a method of a class or an object is. -/
inductive MethodKind where
  | method | get | set | constructor
deriving DecidableEq, Repr, Inhabited

/-- The word for what a method is. -/
def MethodKind.word : MethodKind → Text
  | .method => "method"
  | .get => "get"
  | .set => "set"
  | .constructor => "constructor"

/-- The name of an element: parts joined by points, or a name in a name space. -/
inductive JsxName where
  | member (parts : List Text) (span : Span)
  | namespaced (ns name : Text) (span : Span)
deriving DecidableEq, Repr, Inhabited

mutual

/-- An expression. -/
inductive Expr where
  | ident (ident : Ident)
  | str (lit : StrLit)
  | num (lit : NumLit)
  | bool (value : Bool) (span : Span)
  | null (span : Span)
  | tpl (template : Template)
  | taggedTpl (tag : Expr) (template : Template) (span : Span)
  | regex (pattern flags : Text) (span : Span)
  | thisExpr (span : Span)
  | superExpr (span : Span)
  /-- The callee of a dynamic import. -/
  | importExpr (span : Span)
  | spread (expr : Expr) (span : Span)
  | elision
  | array (elems : List Expr) (span : Span)
  | object (props : List Property) (span : Span)
  | fnExpr (ident : Option Ident) (function : Function) (span : Span)
  | arrow (params : List Pat) (body : ArrowBody) (isAsync : Bool) (span : Span)
  | classExpr (ident : Option Ident) (cls : Class) (span : Span)
  | paren (expr : Expr) (span : Span)
  | member (obj : Expr) (prop : MemberKey) (span : Span)
  | call (callee : Expr) (args : List Expr) (span : Span)
  | newCall (callee : Expr) (args : List Expr) (span : Span)
  /-- A `new` without arguments. -/
  | newBare (callee : Expr) (span : Span)
  | unary (op : Text) (arg : Expr) (span : Span)
  | awaitExpr (arg : Expr) (span : Span)
  | binary (op : Text) (left right : Expr) (span : Span)
  | cond (test cons alt : Expr) (span : Span)
  | assign (op : Text) (left : AssignTarget) (right : Expr) (span : Span)
  | jsx (node : JsxNode)
  | invalid (span : Span)

/-- A template: a chunk of text, and expressions with a further chunk after each. -/
inductive Template where
  | mk (head : Text) (rest : List Text) (exprs : List Expr) (span : Span)

/-- A property of an object. -/
inductive Property where
  | keyValue (key : PropName) (value : Expr) (span : Span)
  | shorthand (ident : Ident) (span : Span)
  | method (key : PropName) (function : Function) (kind : MethodKind) (span : Span)
  | spread (expr : Expr) (span : Span)
  | invalid (span : Span)

/-- The key of a property. -/
inductive PropName where
  | ident (ident : Ident)
  | str (lit : StrLit)
  | num (lit : NumLit)
  | computed (expr : Expr) (span : Span)
  | invalid (span : Span)

/-- The key of a member access. -/
inductive MemberKey where
  | ident (ident : Ident)
  | computed (expr : Expr) (span : Span)

/-- What an assignment assigns to. -/
inductive AssignTarget where
  | expr (expr : Expr)
  | pat (pat : Pat)

/-- Parameters and body of a function. -/
inductive Function where
  | mk (params : List Pat) (body : Block) (isAsync isGenerator : Bool) (span : Span)

/-- The body of an arrow function. -/
inductive ArrowBody where
  | block (block : Block)
  | expr (expr : Expr)

/-- Superclass and members of a class. -/
inductive Class where
  | mk (superClass : Option Expr) (body : List ClassMember) (span : Span)

/-- A member of a class. -/
inductive ClassMember where
  | method (key : PropName) (function : Function) (kind : MethodKind) (isStatic : Bool)
      (span : Span)
  | field (key : PropName) (value : Option Expr) (isStatic : Bool) (span : Span)
  | invalid (span : Span)

/-- A binding pattern. -/
inductive Pat where
  | ident (ident : Ident)
  | object (props : List PatProp) (span : Span)
  | array (elems : List Pat) (span : Span)
  | assign (left : Pat) (right : Expr) (span : Span)
  | rest (arg : Pat) (span : Span)
  | elision
  | invalid (span : Span)

/-- A property of an object pattern. -/
inductive PatProp where
  | assign (key : Ident) (value : Option Expr) (span : Span)
  | keyValue (key : PropName) (value : Pat) (span : Span)
  | pat (pat : Pat)

/-- A JSX element or fragment. -/
inductive JsxNode where
  | element (name : JsxName) (attrs : List JsxAttr) (children : List JsxChild)
      (selfClosing : Bool) (span : Span)
  | fragment (children : List JsxChild) (span : Span)

/-- An attribute of an element. -/
inductive JsxAttr where
  | named (name : Text) (value : Option JsxAttrValue) (span : Span)
  | spread (expr : Expr) (span : Span)

/-- The value of an attribute. -/
inductive JsxAttrValue where
  | str (lit : StrLit)
  | child (child : JsxChild)

/-- A child of an element. -/
inductive JsxChild where
  | text (raw : Text) (span : Span)
  | container (expr : Option Expr) (span : Span)
  | spread (expr : Expr) (span : Span)
  | node (node : JsxNode)

/-- Statements in braces. -/
inductive Block where
  | mk (stmts : List Stmt) (span : Span)

/-- A statement. -/
inductive Stmt where
  | exprStmt (expr : Expr) (span : Span)
  | blockStmt (block : Block)
  | emptyStmt (span : Span)
  | varDecl (kind : VarKind) (decls : List Declarator) (span : Span)
  | fnDecl (ident : Ident) (function : Function) (span : Span)
  | classDecl (ident : Ident) (cls : Class) (span : Span)
  | returnStmt (arg : Option Expr) (span : Span)
  | throwStmt (arg : Expr) (span : Span)
  | ifStmt (test : Expr) (cons : Stmt) (alt : Option Stmt) (span : Span)
  | whileStmt (test : Expr) (body : Stmt) (span : Span)
  | invalid (span : Span)

/-- One variable of a declaration. -/
inductive Declarator where
  | mk (name : Pat) (init : Option Expr) (span : Span)

end

/-- The name of something exported: an identifier name or a string. -/
inductive ExportName where
  | ident (ident : Ident)
  | str (lit : StrLit)
deriving DecidableEq, Repr, Inhabited

/-- What an import declaration binds. -/
inductive ImportSpecifier where
  | named (local_ : Ident) (imported : Option ExportName) (span : Span)
  | default (local_ : Ident) (span : Span)
  | starAs (local_ : Ident) (span : Span)
deriving DecidableEq, Repr, Inhabited

/-- One name of an export list. -/
structure ExportSpecifier where
  orig : ExportName
  exported : Option ExportName := none
  span : Span := {}
deriving DecidableEq, Repr, Inhabited

/-- A top-level item of a module. -/
inductive ModuleItem where
  | stmt (stmt : Stmt)
  | importDecl (specifiers : List ImportSpecifier) (src : StrLit) (span : Span)
  | exportDecl (decl : Stmt) (span : Span)
  | exportDefaultDecl (decl : Expr) (span : Span)
  | exportDefaultExpr (expr : Expr) (span : Span)
  | namedExport (specifiers : List ExportSpecifier) (src : Option StrLit) (span : Span)
  | exportAll (src : StrLit) (name : Option ExportName) (span : Span)

/-- A module. -/
structure Module where
  body : List ModuleItem := []
  span : Span := {}

namespace Template

/-- The span of a template. -/
def span : Template → Span
  | .mk _ _ _ s => s

end Template

namespace Block

/-- The span of a block. -/
def span : Block → Span
  | .mk _ s => s

end Block

namespace JsxName

/-- The span of a name. -/
def span : JsxName → Span
  | .member _ s | .namespaced _ _ s => s

/-- The name as it is written, which is also what opening and closing names are compared by. -/
def text : JsxName → Text
  | .member parts _ => Text.join "." parts
  | .namespaced ns name _ => ns ++ ":" ++ name

end JsxName

namespace JsxNode

/-- The span of an element or fragment. -/
def span : JsxNode → Span
  | .element _ _ _ _ s | .fragment _ s => s

end JsxNode

namespace Expr

/-- The span of an expression. -/
def span : Expr → Span
  | .ident i => i.span
  | .str l => l.span
  | .num l => l.span
  | .tpl t => t.span
  | .jsx n => n.span
  | .elision => {}
  | .bool _ s | .null s | .taggedTpl _ _ s | .regex _ _ s | .thisExpr s | .superExpr s
  | .importExpr s | .spread _ s | .array _ s | .object _ s | .fnExpr _ _ s | .arrow _ _ _ s
  | .classExpr _ _ s | .paren _ s | .member _ _ s | .call _ _ s | .newCall _ _ s | .newBare _ s
  | .unary _ _ s | .awaitExpr _ s | .binary _ _ _ s | .cond _ _ _ s | .assign _ _ _ s
  | .invalid s => s

end Expr

namespace Stmt

/-- The span of a statement. -/
def span : Stmt → Span
  | .blockStmt b => b.span
  | .exprStmt _ s | .emptyStmt s | .varDecl _ _ s | .fnDecl _ _ s | .classDecl _ _ s
  | .returnStmt _ s | .throwStmt _ s | .ifStmt _ _ _ s | .whileStmt _ _ s | .invalid s => s

end Stmt

namespace ModuleItem

/-- The span of an item. -/
def span : ModuleItem → Span
  | .stmt s => s.span
  | .importDecl _ _ s | .exportDecl _ s | .exportDefaultDecl _ s | .exportDefaultExpr _ s
  | .namedExport _ _ s | .exportAll _ _ s => s

end ModuleItem

end ClientBoundary
