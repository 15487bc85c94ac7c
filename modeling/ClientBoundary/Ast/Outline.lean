import ClientBoundary.Ast.Basic
import ClientBoundary.Ast.Kind

/-!
# The outline of a tree

The syntax tree has a type for every sort of node. Its *outline* forgets the sorts: a node is a
kind, a label for those kinds that are told apart by a name, a literal or an operator, and the
outlines of its parts in the order in which they are written down in the node's type. A
traversal works on outlines, so that it is one function and not one for every sort.

Missing parts, the holes of an array among them, have no outline.
-/

namespace ClientBoundary

/-- A tree of kinds. -/
inductive Outline where
  | node (kind : NodeKind) (label : Option Text) (parts : List Outline)
deriving Inhabited

namespace Outline

/-- The kind of the root. -/
def kind : Outline → NodeKind
  | .node k _ _ => k

/-- The label of the root. -/
def label : Outline → Option Text
  | .node _ l _ => l

/-- The parts of the root. -/
def parts : Outline → List Outline
  | .node _ _ ps => ps

/-- A node without a label. -/
def plain (kind : NodeKind) (parts : List Outline) : Outline := .node kind none parts

/-- A node with a label. -/
def labelled (kind : NodeKind) (label : Text) (parts : List Outline) : Outline :=
  .node kind (some label) parts

/-- The outline of an identifier. -/
def ofIdent (i : Ident) : Outline := labelled .ident i.sym []

/-- The outline of an identifier that may be missing. -/
def ofOptIdent : Option Ident → List Outline
  | none => []
  | some i => [ofIdent i]

/-- The outline of a string. -/
def ofStr (l : StrLit) : Outline := .node .str l.raw []

/-- The outline of a number. -/
def ofNum (l : NumLit) : Outline := .node .num l.raw []

/-- The outline of the name of an element. -/
def ofJsxName : JsxName → Outline
  | .member _ _ => plain .jsxMemberName []
  | .namespaced _ name _ => labelled .jsxNamespacedName name []

mutual

/-- The outline of an expression; a hole has none. -/
def ofExpr : Expr → List Outline
  | .ident i => [ofIdent i]
  | .str l => [ofStr l]
  | .num l => [ofNum l]
  | .bool _ _ => [plain .bool []]
  | .null _ => [plain .null []]
  | .tpl t => [ofTemplate t]
  | .taggedTpl tag t _ => [plain .taggedTpl (ofExpr tag ++ [ofTemplate t])]
  | .regex _ _ _ => [plain .regex []]
  | .thisExpr _ => [plain .thisExpr []]
  | .superExpr _ => [plain .superExpr []]
  | .importExpr _ => [plain .importExpr []]
  | .spread e _ => [plain .spreadElement (ofExpr e)]
  | .elision => []
  | .array es _ => [plain .arrayLit (ofExprs es)]
  | .object ps _ => [plain .objectLit (ofProps ps)]
  | .fnExpr i f _ => [plain .fnExpr (ofOptIdent i ++ [ofFunction f])]
  | .arrow ps b _ _ => [plain .arrowExpr (ofPats ps ++ ofArrowBody b)]
  | .classExpr i c _ => [plain .classExpr (ofOptIdent i ++ [ofClass c])]
  | .paren e _ => [plain .parenExpr (ofExpr e)]
  | .member o p _ => [plain .memberExpr (ofExpr o ++ [ofMemberKey p])]
  | .call c as _ => [plain .callExpr (ofExpr c ++ ofExprs as)]
  | .newCall c as _ => [plain .newExpr (ofExpr c ++ ofExprs as)]
  | .newBare c _ => [plain .newExpr (ofExpr c)]
  | .unary op e _ => [labelled .unaryExpr op (ofExpr e)]
  | .awaitExpr e _ => [plain .awaitExpr (ofExpr e)]
  | .binary op l r _ => [labelled .binExpr op (ofExpr l ++ ofExpr r)]
  | .cond a b c _ => [plain .condExpr (ofExpr a ++ ofExpr b ++ ofExpr c)]
  | .assign op l r _ => [labelled .assignExpr op (ofTarget l ++ ofExpr r)]
  | .jsx n => [ofJsx n]
  | .invalid _ => [plain .invalid []]

/-- The outlines of expressions. -/
def ofExprs : List Expr → List Outline
  | [] => []
  | e :: es => ofExpr e ++ ofExprs es

/-- The outline of an expression that may be missing. -/
def ofOptExpr : Option Expr → List Outline
  | none => []
  | some e => ofExpr e

/-- The outline of a template. -/
def ofTemplate : Template → Outline
  | .mk _ _ es _ => plain .tpl (ofExprs es)

/-- The outline of what an assignment assigns to. -/
def ofTarget : AssignTarget → List Outline
  | .expr e => ofExpr e
  | .pat p => ofPat p

/-- The outline of the key of a member access. -/
def ofMemberKey : MemberKey → Outline
  | .ident i => ofIdent i
  | .computed e _ => plain .computedPropName (ofExpr e)

/-- The outline of the key of a property. -/
def ofPropName : PropName → Outline
  | .ident i => ofIdent i
  | .str l => ofStr l
  | .num l => ofNum l
  | .computed e _ => plain .computedPropName (ofExpr e)
  | .invalid _ => plain .invalid []

/-- The outline of a property. -/
def ofProp : Property → Outline
  | .keyValue k v _ => plain .keyValueProp (ofPropName k :: ofExpr v)
  | .shorthand i _ => plain .shorthandProp [ofIdent i]
  | .method k f kind _ => labelled .methodProp kind.word [ofPropName k, ofFunction f]
  | .spread e _ => plain .spreadElement (ofExpr e)
  | .invalid _ => plain .invalid []

/-- The outlines of properties. -/
def ofProps : List Property → List Outline
  | [] => []
  | p :: ps => ofProp p :: ofProps ps

/-- The outline of a function. -/
def ofFunction : Function → Outline
  | .mk ps b _ _ _ => plain .function (ofPats ps ++ [ofBlock b])

/-- The outline of the body of an arrow function. -/
def ofArrowBody : ArrowBody → List Outline
  | .block b => [ofBlock b]
  | .expr e => ofExpr e

/-- The outline of a class. -/
def ofClass : Class → Outline
  | .mk sup ms _ => plain .class_ (ofOptExpr sup ++ ofMembers ms)

/-- The outline of a member of a class. -/
def ofMember : ClassMember → Outline
  | .method k f kind _ _ => labelled .classMethod kind.word [ofPropName k, ofFunction f]
  | .field k v _ _ => plain .classProp (ofPropName k :: ofOptExpr v)
  | .invalid _ => plain .invalid []

/-- The outlines of members. -/
def ofMembers : List ClassMember → List Outline
  | [] => []
  | m :: ms => ofMember m :: ofMembers ms

/-- The outline of a pattern; a hole has none. -/
def ofPat : Pat → List Outline
  | .ident i => [ofIdent i]
  | .object ps _ => [plain .objectPat (ofPatProps ps)]
  | .array es _ => [plain .arrayPat (ofPats es)]
  | .assign l r _ => [plain .assignPat (ofPat l ++ ofExpr r)]
  | .rest a _ => [plain .restPat (ofPat a)]
  | .elision => []
  | .invalid _ => [plain .invalid []]

/-- The outlines of patterns. -/
def ofPats : List Pat → List Outline
  | [] => []
  | p :: ps => ofPat p ++ ofPats ps

/-- The outline of a property of an object pattern. -/
def ofPatProp : PatProp → List Outline
  | .assign k v _ => [plain .assignPatProp (ofIdent k :: ofOptExpr v)]
  | .keyValue k v _ => [plain .keyValuePatProp (ofPropName k :: ofPat v)]
  | .pat p => ofPat p

/-- The outlines of properties of an object pattern. -/
def ofPatProps : List PatProp → List Outline
  | [] => []
  | p :: ps => ofPatProp p ++ ofPatProps ps

/-- The outline of an element or fragment. -/
def ofJsx : JsxNode → Outline
  | .element name as cs _ _ => plain .jsxElement (ofJsxName name :: ofAttrs as ++ ofChildren cs)
  | .fragment cs _ => plain .jsxFragment (ofChildren cs)

/-- The outline of an attribute. -/
def ofAttr : JsxAttr → Outline
  | .named name v _ => labelled .jsxAttr name (ofOptAttrValue v)
  | .spread e _ => plain .jsxSpreadAttr (ofExpr e)

/-- The outlines of attributes. -/
def ofAttrs : List JsxAttr → List Outline
  | [] => []
  | a :: as => ofAttr a :: ofAttrs as

/-- The outline of the value of an attribute that may be missing. -/
def ofOptAttrValue : Option JsxAttrValue → List Outline
  | none => []
  | some v => [ofAttrValue v]

/-- The outline of the value of an attribute. -/
def ofAttrValue : JsxAttrValue → Outline
  | .str l => ofStr l
  | .child c => ofChild c

/-- The outline of a child. -/
def ofChild : JsxChild → Outline
  | .text raw _ => labelled .jsxText raw []
  | .container e _ => plain .jsxExprContainer (ofOptExpr e)
  | .spread e _ => plain .jsxSpreadChild (ofExpr e)
  | .node n => ofJsx n

/-- The outlines of children. -/
def ofChildren : List JsxChild → List Outline
  | [] => []
  | c :: cs => ofChild c :: ofChildren cs

/-- The outline of a block. -/
def ofBlock : Block → Outline
  | .mk ss _ => plain .blockStmt (ofStmts ss)

/-- The outline of a statement. -/
def ofStmt : Stmt → Outline
  | .exprStmt e _ => plain .exprStmt (ofExpr e)
  | .blockStmt b => ofBlock b
  | .emptyStmt _ => plain .emptyStmt []
  | .varDecl k ds _ => labelled .varDecl k.word (ofDeclarators ds)
  | .fnDecl i f _ => plain .fnDecl [ofIdent i, ofFunction f]
  | .classDecl i c _ => plain .classDecl [ofIdent i, ofClass c]
  | .returnStmt e _ => plain .returnStmt (ofOptExpr e)
  | .throwStmt e _ => plain .throwStmt (ofExpr e)
  | .ifStmt t c a _ => plain .ifStmt (ofExpr t ++ ofStmt c :: ofOptStmt a)
  | .whileStmt t b _ => plain .whileStmt (ofExpr t ++ [ofStmt b])
  | .invalid _ => plain .invalid []

/-- The outlines of statements. -/
def ofStmts : List Stmt → List Outline
  | [] => []
  | s :: ss => ofStmt s :: ofStmts ss

/-- The outline of a statement that may be missing. -/
def ofOptStmt : Option Stmt → List Outline
  | none => []
  | some s => [ofStmt s]

/-- The outline of a variable with its initial value. -/
def ofDeclarator : Declarator → Outline
  | .mk name init _ => plain .varDeclarator (ofPat name ++ ofOptExpr init)

/-- The outlines of variables. -/
def ofDeclarators : List Declarator → List Outline
  | [] => []
  | d :: ds => ofDeclarator d :: ofDeclarators ds

end

/-- The outline of the name of something exported. -/
def ofExportName : ExportName → Outline
  | .ident i => ofIdent i
  | .str l => ofStr l

/-- The outline of the name of something exported that may be missing. -/
def ofOptExportName : Option ExportName → List Outline
  | none => []
  | some n => [ofExportName n]

/-- The outline of an import specifier. -/
def ofImportSpecifier : ImportSpecifier → Outline
  | .named i imported _ => plain .importNamedSpecifier (ofIdent i :: ofOptExportName imported)
  | .default i _ => plain .importDefaultSpecifier [ofIdent i]
  | .starAs i _ => plain .importStarAsSpecifier [ofIdent i]

/-- The outline of an export specifier. -/
def ofExportSpecifier (e : ExportSpecifier) : Outline :=
  plain .exportNamedSpecifier (ofExportName e.orig :: ofOptExportName e.exported)

/-- The outline of a top-level item. -/
def ofItem : ModuleItem → Outline
  | .stmt s => ofStmt s
  | .importDecl specifiers src _ =>
    plain .importDecl (specifiers.map ofImportSpecifier ++ [ofStr src])
  | .exportDecl d _ => plain .exportDecl [ofStmt d]
  | .exportDefaultDecl e _ => plain .exportDefaultDecl (ofExpr e)
  | .exportDefaultExpr e _ => plain .exportDefaultExpr (ofExpr e)
  | .namedExport specifiers src _ =>
    plain .namedExport (specifiers.map ofExportSpecifier ++ (src.map ofStr).toList)
  | .exportAll src name _ => plain .exportAll (ofStr src :: ofOptExportName name)

/-- The outline of a module. -/
def ofModule (m : Module) : Outline := plain .module (m.body.map ofItem)

end Outline

namespace ModuleItem

/-- The kind of a top-level item. -/
def kind (i : ModuleItem) : NodeKind := (Outline.ofItem i).kind

end ModuleItem

end ClientBoundary
