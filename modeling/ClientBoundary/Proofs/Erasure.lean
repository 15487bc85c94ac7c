import ClientBoundary.Ast.Basic

/-!
# Trees up to spans

Two trees are often compared by what they say and not by where they stand. `Erasure` says what is
left out besides the spans: the forms that literals were written in, or the parentheses. An erased
node carries the dummy span. The name of a property that is accessed may be changed on the way.
-/

namespace ClientBoundary

/-- What is left out of a tree besides its spans. -/
structure Erasure where
  /-- Leave out the forms that literals were written in. -/
  raws : Bool := false
  /-- Leave out parentheses. -/
  parens : Bool := false
  /-- What the property of an access by name is called. -/
  key : Ident → Text := Ident.sym

namespace Erasure

variable (r : Erasure)

/-- The written form of a literal. -/
def raw (t : Option Text) : Option Text := if r.raws then none else t

/-- An erased identifier. -/
def ident (i : Ident) : Ident := ⟨i.sym, {}⟩

/-- An erased string literal. -/
def str (l : StrLit) : StrLit := ⟨l.value, r.raw l.raw, {}⟩

/-- An erased number literal. -/
def num (l : NumLit) : NumLit := ⟨l.value, r.raw l.raw, {}⟩

/-- An erased name of an element. -/
def jsxName : JsxName → JsxName
  | .member parts _ => .member parts {}
  | .namespaced ns name _ => .namespaced ns name {}

mutual

/-- An erased expression. -/
def expr : Expr → Expr
  | .ident i => .ident (ident i)
  | .str l => .str (r.str l)
  | .num l => .num (r.num l)
  | .bool b _ => .bool b {}
  | .null _ => .null {}
  | .tpl t => .tpl (template t)
  | .taggedTpl tag t _ => .taggedTpl (expr tag) (template t) {}
  | .regex p f _ => .regex p f {}
  | .thisExpr _ => .thisExpr {}
  | .superExpr _ => .superExpr {}
  | .importExpr _ => .importExpr {}
  | .spread e _ => .spread (expr e) {}
  | .elision => .elision
  | .array es _ => .array (exprs es) {}
  | .object ps _ => .object (props ps) {}
  | .fnExpr i f _ => .fnExpr (i.map ident) (function f) {}
  | .arrow ps b isAsync _ => .arrow (pats ps) (arrowBody b) isAsync {}
  | .classExpr i c _ => .classExpr (i.map ident) (cls c) {}
  | .paren e _ => if r.parens then expr e else .paren (expr e) {}
  | .member o p _ => .member (expr o) (memberKey p) {}
  | .call c as _ => .call (expr c) (exprs as) {}
  | .newCall c as _ => .newCall (expr c) (exprs as) {}
  | .newBare c _ => .newBare (expr c) {}
  | .unary op e _ => .unary op (expr e) {}
  | .awaitExpr e _ => .awaitExpr (expr e) {}
  | .binary op a b _ => .binary op (expr a) (expr b) {}
  | .cond a b c _ => .cond (expr a) (expr b) (expr c) {}
  | .assign op l e _ => .assign op (target l) (expr e) {}
  | .jsx n => .jsx (jsx n)
  | .invalid _ => .invalid {}

def exprs : List Expr → List Expr
  | [] => []
  | e :: es => expr e :: exprs es

def optExpr : Option Expr → Option Expr
  | none => none
  | some e => some (expr e)

def template : Template → Template
  | .mk head rest es _ => .mk head rest (exprs es) {}

def target : AssignTarget → AssignTarget
  | .expr e => .expr (expr e)
  | .pat p => .pat (pat p)

def memberKey : MemberKey → MemberKey
  | .ident i => .ident ⟨r.key i, {}⟩
  | .computed e _ => .computed (expr e) {}

def propName : PropName → PropName
  | .ident i => .ident (ident i)
  | .str l => .str (r.str l)
  | .num l => .num (r.num l)
  | .computed e _ => .computed (expr e) {}
  | .invalid _ => .invalid {}

def prop : Property → Property
  | .keyValue k v _ => .keyValue (propName k) (expr v) {}
  | .shorthand i _ => .shorthand (ident i) {}
  | .method k f kind _ => .method (propName k) (function f) kind {}
  | .spread e _ => .spread (expr e) {}
  | .invalid _ => .invalid {}

def props : List Property → List Property
  | [] => []
  | p :: ps => prop p :: props ps

def function : Function → Function
  | .mk ps b isAsync isGenerator _ => .mk (pats ps) (block b) isAsync isGenerator {}

def arrowBody : ArrowBody → ArrowBody
  | .block b => .block (block b)
  | .expr e => .expr (expr e)

def cls : Class → Class
  | .mk sup ms _ => .mk (optExpr sup) (members ms) {}

def member : ClassMember → ClassMember
  | .method k f kind isStatic _ => .method (propName k) (function f) kind isStatic {}
  | .field k v isStatic _ => .field (propName k) (optExpr v) isStatic {}
  | .invalid _ => .invalid {}

def members : List ClassMember → List ClassMember
  | [] => []
  | m :: ms => member m :: members ms

def pat : Pat → Pat
  | .ident i => .ident (ident i)
  | .object ps _ => .object (patProps ps) {}
  | .array es _ => .array (pats es) {}
  | .assign l e _ => .assign (pat l) (expr e) {}
  | .rest a _ => .rest (pat a) {}
  | .elision => .elision
  | .invalid _ => .invalid {}

def pats : List Pat → List Pat
  | [] => []
  | p :: ps => pat p :: pats ps

def patProp : PatProp → PatProp
  | .assign k v _ => .assign (ident k) (optExpr v) {}
  | .keyValue k v _ => .keyValue (propName k) (pat v) {}
  | .pat p => .pat (pat p)

def patProps : List PatProp → List PatProp
  | [] => []
  | p :: ps => patProp p :: patProps ps

def jsx : JsxNode → JsxNode
  | .element name as cs selfClosing _ =>
    .element (jsxName name) (attrs as) (children cs) selfClosing {}
  | .fragment cs _ => .fragment (children cs) {}

def attr : JsxAttr → JsxAttr
  | .named name v _ => .named name (optAttrValue v) {}
  | .spread e _ => .spread (expr e) {}

def attrs : List JsxAttr → List JsxAttr
  | [] => []
  | a :: as => attr a :: attrs as

def optAttrValue : Option JsxAttrValue → Option JsxAttrValue
  | none => none
  | some v => some (attrValue v)

def attrValue : JsxAttrValue → JsxAttrValue
  | .str l => .str (r.str l)
  | .child c => .child (child c)

def child : JsxChild → JsxChild
  | .text t _ => .text t {}
  | .container e _ => .container (optExpr e) {}
  | .spread e _ => .spread (expr e) {}
  | .node n => .node (jsx n)

def children : List JsxChild → List JsxChild
  | [] => []
  | c :: cs => child c :: children cs

/-- An erased block. -/
def block : Block → Block
  | .mk ss _ => .mk (stmts ss) {}

/-- An erased statement. -/
def stmt : Stmt → Stmt
  | .exprStmt e _ => .exprStmt (expr e) {}
  | .blockStmt b => .blockStmt (block b)
  | .emptyStmt _ => .emptyStmt {}
  | .varDecl k ds _ => .varDecl k (declarators ds) {}
  | .fnDecl i f _ => .fnDecl (ident i) (function f) {}
  | .classDecl i c _ => .classDecl (ident i) (cls c) {}
  | .returnStmt e _ => .returnStmt (optExpr e) {}
  | .throwStmt e _ => .throwStmt (expr e) {}
  | .ifStmt t c a _ => .ifStmt (expr t) (stmt c) (optStmt a) {}
  | .whileStmt t b _ => .whileStmt (expr t) (stmt b) {}
  | .invalid _ => .invalid {}

def stmts : List Stmt → List Stmt
  | [] => []
  | s :: ss => stmt s :: stmts ss

def optStmt : Option Stmt → Option Stmt
  | none => none
  | some s => some (stmt s)

def declarator : Declarator → Declarator
  | .mk name init _ => .mk (pat name) (optExpr init) {}

def declarators : List Declarator → List Declarator
  | [] => []
  | d :: ds => declarator d :: declarators ds

end

/-- An erased name of something exported. -/
def exportName : ExportName → ExportName
  | .ident i => .ident (ident i)
  | .str l => .str (r.str l)

/-- An erased import specifier. -/
def importSpecifier : ImportSpecifier → ImportSpecifier
  | .named i imported _ => .named (ident i) (imported.map r.exportName) {}
  | .default i _ => .default (ident i) {}
  | .starAs i _ => .starAs (ident i) {}

/-- An erased export specifier. -/
def exportSpecifier (e : ExportSpecifier) : ExportSpecifier :=
  ⟨r.exportName e.orig, e.exported.map r.exportName, {}⟩

/-- An erased top-level item. -/
def item : ModuleItem → ModuleItem
  | .stmt s => .stmt (r.stmt s)
  | .importDecl specifiers src _ =>
    .importDecl (specifiers.map r.importSpecifier) (r.str src) {}
  | .exportDecl d _ => .exportDecl (r.stmt d) {}
  | .exportDefaultDecl e _ => .exportDefaultDecl (r.expr e) {}
  | .exportDefaultExpr e _ => .exportDefaultExpr (r.expr e) {}
  | .namedExport specifiers src _ =>
    .namedExport (specifiers.map r.exportSpecifier) (src.map r.str) {}
  | .exportAll src name _ => .exportAll (r.str src) (name.map r.exportName) {}

/-- The erased items of a module. -/
def body (m : Module) : List ModuleItem := m.body.map r.item

end Erasure

end ClientBoundary
