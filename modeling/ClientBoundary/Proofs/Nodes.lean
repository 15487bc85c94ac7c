import ClientBoundary.Proofs.PhraseValues

/-!
# The nodes of a module

A module is a tree of nodes of many sorts. `Node` is a node of any sort, `Node.parts` are the nodes
it directly consists of and `Node.span` is its span. A node that only stands for one of another sort,
as an expression that is an identifier does, has that one as its only part.

* `Node.Within` — the nodes of a tree, and `Node.All` what holds of all of them (`All.of_within`).
* `Category.Each` — what holds of the nodes that the value of a phrase consists of.
-/

namespace ClientBoundary

open Grammar

/-- A node of a module, of whatever sort. The strings that are values of attributes are a sort of
their own, because they are read differently. -/
inductive Node where
  | module (m : Module)
  | item (i : ModuleItem)
  | importSpecifier (i : ImportSpecifier)
  | exportSpecifier (e : ExportSpecifier)
  | exportName (e : ExportName)
  | ident (i : Ident)
  | str (l : StrLit)
  | attrStr (l : StrLit)
  | num (l : NumLit)
  | expr (e : Expr)
  | template (t : Template)
  | property (p : Property)
  | propName (n : PropName)
  | memberKey (k : MemberKey)
  | target (t : AssignTarget)
  | function (f : Function)
  | arrowBody (b : ArrowBody)
  | cls (c : Class)
  | classMember (m : ClassMember)
  | pat (p : Pat)
  | patProp (p : PatProp)
  | jsx (n : JsxNode)
  | jsxName (n : JsxName)
  | attr (a : JsxAttr)
  | attrValue (v : JsxAttrValue)
  | child (c : JsxChild)
  | block (b : Block)
  | stmt (s : Stmt)
  | declarator (d : Declarator)

namespace Node

-- ---------------------------------------------------------------------------------------------
-- Parts and spans
-- ---------------------------------------------------------------------------------------------

/-- What an item consists of. -/
def itemParts : ModuleItem → List Node
  | .stmt s => [.stmt s]
  | .importDecl specifiers src _ => specifiers.map .importSpecifier ++ [.str src]
  | .exportDecl d _ => [.stmt d]
  | .exportDefaultDecl e _ | .exportDefaultExpr e _ => [.expr e]
  | .namedExport specifiers src _ => specifiers.map .exportSpecifier ++ src.toList.map .str
  | .exportAll src name _ => name.toList.map .exportName ++ [.str src]

/-- What an expression consists of. -/
def exprParts : Expr → List Node
  | .ident i => [.ident i]
  | .str l => [.str l]
  | .num l => [.num l]
  | .tpl t => [.template t]
  | .jsx n => [.jsx n]
  | .taggedTpl tag t _ => [.expr tag, .template t]
  | .array es _ => es.map .expr
  | .object ps _ => ps.map .property
  | .fnExpr i f _ => i.toList.map .ident ++ [.function f]
  | .classExpr i c _ => i.toList.map .ident ++ [.cls c]
  | .arrow ps b _ _ => ps.map .pat ++ [.arrowBody b]
  | .spread e _ | .paren e _ | .newBare e _ | .unary _ e _ | .awaitExpr e _ => [.expr e]
  | .member o k _ => [.expr o, .memberKey k]
  | .call c args _ | .newCall c args _ => .expr c :: args.map .expr
  | .binary _ l r _ => [.expr l, .expr r]
  | .cond t c a _ => [.expr t, .expr c, .expr a]
  | .assign _ l r _ => [.target l, .expr r]
  | .bool .. | .null _ | .regex .. | .thisExpr _ | .superExpr _ | .importExpr _ | .elision
  | .invalid _ => []

/-- What a statement consists of. -/
def stmtParts : Stmt → List Node
  | .exprStmt e _ | .throwStmt e _ => [.expr e]
  | .blockStmt b => [.block b]
  | .varDecl _ ds _ => ds.map .declarator
  | .fnDecl i f _ => [.ident i, .function f]
  | .classDecl i c _ => [.ident i, .cls c]
  | .returnStmt e _ => e.toList.map .expr
  | .ifStmt t c a _ => [.expr t, .stmt c] ++ a.toList.map .stmt
  | .whileStmt t b _ => [.expr t, .stmt b]
  | .emptyStmt _ | .invalid _ => []

/-- What a pattern consists of. -/
def patParts : Pat → List Node
  | .ident i => [.ident i]
  | .object ps _ => ps.map .patProp
  | .array es _ => es.map .pat
  | .assign l r _ => [.pat l, .expr r]
  | .rest p _ => [.pat p]
  | .elision | .invalid _ => []

/-- The nodes that a node directly consists of. -/
def parts : Node → List Node
  | .module m => m.body.map .item
  | .item i => itemParts i
  | .importSpecifier (.named i imported _) => imported.toList.map .exportName ++ [.ident i]
  | .importSpecifier (.default i _) | .importSpecifier (.starAs i _) => [.ident i]
  | .exportSpecifier e => .exportName e.orig :: e.exported.toList.map .exportName
  | .exportName (.ident i) => [.ident i]
  | .exportName (.str l) => [.str l]
  | .expr e => exprParts e
  | .template (.mk _ _ es _) => es.map .expr
  | .property (.keyValue k v _) => [.propName k, .expr v]
  | .property (.shorthand i _) => [.ident i]
  | .property (.method k f _ _) => [.propName k, .function f]
  | .property (.spread e _) => [.expr e]
  | .propName (.ident i) => [.ident i]
  | .propName (.str l) => [.str l]
  | .propName (.num l) => [.num l]
  | .propName (.computed e _) => [.expr e]
  | .memberKey (.ident i) => [.ident i]
  | .memberKey (.computed e _) => [.expr e]
  | .target (.expr e) => [.expr e]
  | .target (.pat p) => [.pat p]
  | .function (.mk ps b _ _ _) => ps.map .pat ++ [.block b]
  | .arrowBody (.block b) => [.block b]
  | .arrowBody (.expr e) => [.expr e]
  | .cls (.mk e ms _) => e.toList.map .expr ++ ms.map .classMember
  | .classMember (.method k f _ _ _) => [.propName k, .function f]
  | .classMember (.field k v _ _) => .propName k :: v.toList.map .expr
  | .pat p => patParts p
  | .patProp (.assign i v _) => .ident i :: v.toList.map .expr
  | .patProp (.keyValue k p _) => [.propName k, .pat p]
  | .patProp (.pat p) => [.pat p]
  | .jsx (.element n as cs _ _) => .jsxName n :: (as.map .attr ++ cs.map .child)
  | .jsx (.fragment cs _) => cs.map .child
  | .attr (.named _ v _) => v.toList.map .attrValue
  | .attr (.spread e _) => [.expr e]
  | .attrValue (.str l) => [.attrStr l]
  | .attrValue (.child c) => [.child c]
  | .child (.container e _) => e.toList.map .expr
  | .child (.spread e _) => [.expr e]
  | .child (.node n) => [.jsx n]
  | .block (.mk ss _) => ss.map .stmt
  | .stmt s => stmtParts s
  | .declarator (.mk p e _) => .pat p :: e.toList.map .expr
  | .ident _ | .str _ | .attrStr _ | .num _ | .property (.invalid _) | .propName (.invalid _)
  | .classMember (.invalid _) | .jsxName _ | .child (.text ..) => []

/-- The span of the key of a property. -/
def propNameSpan : PropName → Span
  | .ident i => i.span
  | .str l => l.span
  | .num l => l.span
  | .computed _ s | .invalid s => s

/-- The span of a pattern. -/
def patSpan : Pat → Span
  | .ident i => i.span
  | .elision => {}
  | .object _ s | .array _ s | .assign _ _ s | .rest _ s | .invalid s => s

/-- The span of a child of an element. -/
def childSpan : JsxChild → Span
  | .text _ s | .container _ s | .spread _ s => s
  | .node n => n.span

/-- The span of a node. -/
def span : Node → Span
  | .module m => m.span
  | .item i => i.span
  | .importSpecifier (.named _ _ s) | .importSpecifier (.default _ s)
  | .importSpecifier (.starAs _ s) => s
  | .exportSpecifier e => e.span
  | .exportName (.ident i) => i.span
  | .exportName (.str l) => l.span
  | .ident i => i.span
  | .str l | .attrStr l => l.span
  | .num l => l.span
  | .expr e => e.span
  | .template t => t.span
  | .property (.keyValue _ _ s) | .property (.shorthand _ s) | .property (.method _ _ _ s)
  | .property (.spread _ s) | .property (.invalid s) => s
  | .propName n => propNameSpan n
  | .memberKey (.ident i) => i.span
  | .memberKey (.computed _ s) => s
  | .target (.expr e) => e.span
  | .target (.pat p) => patSpan p
  | .function (.mk _ _ _ _ s) => s
  | .arrowBody (.block b) => b.span
  | .arrowBody (.expr e) => e.span
  | .cls (.mk _ _ s) => s
  | .classMember (.method _ _ _ _ s) | .classMember (.field _ _ _ s) | .classMember (.invalid s) => s
  | .pat p => patSpan p
  | .patProp (.assign _ _ s) | .patProp (.keyValue _ _ s) => s
  | .patProp (.pat p) => patSpan p
  | .jsx n => n.span
  | .jsxName n => n.span
  | .attr (.named _ _ s) | .attr (.spread _ s) => s
  | .attrValue (.str l) => l.span
  | .attrValue (.child c) => childSpan c
  | .child c => childSpan c
  | .block b => b.span
  | .stmt s => s.span
  | .declarator (.mk _ _ s) => s

-- ---------------------------------------------------------------------------------------------
-- Trees of nodes
-- ---------------------------------------------------------------------------------------------

/-- The nodes of the tree under a node, which is one of them. -/
inductive Within (root : Node) : Node → Prop where
  | self : Within root root
  | part {n p : Node} (h : Within root n) (hPart : p ∈ n.parts) : Within root p

/-- All nodes of the tree under a node have a property. -/
inductive All (Good : Node → Prop) : Node → Prop where
  | mk {n : Node} (here : Good n) (parts : ∀ p ∈ n.parts, All Good p) : All Good n

variable {Good : Node → Prop} {n p root : Node}

theorem All.here (h : All Good n) : Good n := by
  cases h with
  | mk here _ => exact here

theorem All.parts (h : All Good n) : ∀ p ∈ n.parts, All Good p := by
  cases h with
  | mk _ parts => exact parts

theorem All.within (h : All Good root) (hWithin : Within root n) : All Good n := by
  induction hWithin with
  | self => exact h
  | part _ hPart ih => exact ih.parts _ hPart

/-- What holds of all nodes holds of each. -/
theorem All.of_within (h : All Good root) (hWithin : Within root n) : Good n :=
  (h.within hWithin).here

/-- A node whose parts are all there is to check. -/
theorem All.of_leaf (here : Good n) (hParts : n.parts = []) : All Good n :=
  .mk here (by rw [hParts]; exact List.forall_mem_nil _)

end Node

-- ---------------------------------------------------------------------------------------------
-- The nodes in the value of a phrase
-- ---------------------------------------------------------------------------------------------

/-- The nodes that the value of a phrase consists of have a property. -/
def Category.Each (Good : Node → Prop) : (c : Category) → c.Value → Prop
  | .stmtEnd | .jsxNameRest | .jsxAttrName | .assignOp | .varKind => fun _ => True
  | .ident | .propIdent => fun i => Good (.ident i)
  | .strLit => IfBuilt fun l => Good (.str l)
  | .jsxStr => IfBuilt fun l => Good (.attrStr l)
  | .numLit => IfBuilt fun l => Good (.num l)
  | .exportName => IfBuilt fun e => Good (.exportName e)
  | .computedProp | .propName => IfBuilt fun n => Good (.propName n)
  | .jsxName | .jsxClosing => fun t => Good (.jsxName t.name)
  | .jsxSelfClosing | .jsxOpening =>
    IfBuilt fun t => Good (.jsxName t.name) ∧ ∀ a ∈ t.attrs, Good (.attr a)
  | .jsxElement | .jsxFragment => IfBuilt fun n => Good (.jsx n)
  | .jsxText | .jsxContainer | .jsxSpreadChild | .jsxChild => IfBuilt fun c => Good (.child c)
  | .jsxChildren => IfBuilt fun cs => ∀ c ∈ cs, Good (.child c)
  | .jsxAttrValue => IfBuilt fun v => Good (.attrValue v)
  | .jsxAttr | .jsxSpreadAttr => IfBuilt fun a => Good (.attr a)
  | .jsxAttrs => IfBuilt fun as => ∀ a ∈ as, Good (.attr a)
  | .params | .paramList | .arrowParams | .patElems => IfBuilt fun ps => ∀ p ∈ ps, Good (.pat p)
  | .blockStmt => IfBuilt fun b => Good (.block b)
  | .classBody | .classItem | .classItems => IfBuilt fun ms => ∀ m ∈ ms, Good (.classMember m)
  | .tplRest => IfBuilt fun ps => ∀ p ∈ ps, Good (.expr p.2)
  | .tplLit => IfBuilt fun t => Good (.template t)
  | .arguments | .args => IfBuilt fun es => ∀ e ∈ es, Good (.expr e)
  | .fnExpr | .classHeritage | .classExpr | .objectLit | .arrayLit | .parenExpr
  | .primary | .member | .call | .newOnly | .lhs
  | .unary | .multiplicative | .additive | .shift | .relational | .equality
  | .bitAnd | .bitXor | .bitOr | .logicAnd | .logicOr | .cond
  | .arrowFn | .assign | .expr | .arg => IfBuilt fun e => Good (.expr e)
  | .spread => IfBuilt fun p => Good (.expr p.expr) ∧ Good (.expr (.spread p.expr p.span)) ∧
      Good (.property (.spread p.expr p.span))
  | .objectPat | .arrayPat | .pat | .assignPat | .restPat | .patElem | .param =>
    IfBuilt fun p => Good (.pat p)
  | .assignPatProp | .keyValuePatProp | .patProp => IfBuilt fun p => Good (.patProp p)
  | .patProps => IfBuilt fun ps => ∀ p ∈ ps, Good (.patProp p)
  | .keyValueProp | .shorthandProp | .prop => IfBuilt fun p => Good (.property p)
  | .props => IfBuilt fun ps => ∀ p ∈ ps, Good (.property p)
  | .methodDef | .getterDef | .setterDef | .methodLike =>
    IfBuilt fun m => Good (.propName m.key) ∧ Good (.function m.function) ∧
      Good (.property (.method m.key m.function m.kind m.span))
  | .classMethod | .classProp => IfBuilt fun m => Good (.classMember m)
  | .varDeclarator => IfBuilt fun d => Good (.declarator d)
  | .varDeclarators => IfBuilt fun ds => ∀ d ∈ ds, Good (.declarator d)
  | .varDecl | .fnDecl | .classDecl | .returnStmt | .throwStmt | .ifStmt | .whileStmt
  | .exprStmt | .emptyStmt | .stmt => IfBuilt fun s => Good (.stmt s)
  | .blockItem | .blockItems => IfBuilt fun ss => ∀ s ∈ ss, Good (.stmt s)
  | .namespaceSpec => fun i => Good (.importSpecifier i)
  | .namedSpec => IfBuilt fun i => Good (.importSpecifier i)
  | .namedSpecs => IfBuilt fun is => ∀ i ∈ is, Good (.importSpecifier i)
  | .exportSpec => IfBuilt fun e => Good (.exportSpecifier e)
  | .exportSpecs => IfBuilt fun es => ∀ e ∈ es, Good (.exportSpecifier e)
  | .importDecl | .importBare | .exportDefaultDecl | .exportDefaultExpr | .exportNamedDecl
  | .namedExport | .exportAll | .moduleDecl => IfBuilt fun i => Good (.item i)
  | .item | .items => IfBuilt fun is => ∀ i ∈ is, Good (.item i)

end ClientBoundary
