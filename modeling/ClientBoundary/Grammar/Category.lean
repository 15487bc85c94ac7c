import ClientBoundary.Ast.Basic
import ClientBoundary.Grammar.Basic
import ClientBoundary.Literal.Error

/-!
# The categories of a module

The categories that the grammar of modules is written over, and the values of their phrases. A
value is built from the values of its parts; building can fail, because a literal may denote
nothing and because an element may be closed under another name than it was opened with. Which
of several failures is reported depends on the order in which parts are built, so the values of
phrases that can fail are handed on as `Build` values and each rule opens them in its own order.

Categories are listed from the parts to the wholes: a category that may consist of one other
category alone stands after that other one.
-/

namespace ClientBoundary

/-- Why no tree could be built from a module that follows the grammar. -/
inductive BuildError where
  | literal (cause : LiteralError)
  /-- An element opened as `opening` is closed under another name, whose first token is given. -/
  | closingName (closing : Token) (opening : Text)
deriving DecidableEq, Repr, Inhabited

/-- A value that may fail to be built. -/
abbrev Build := Except BuildError

/-- What a method, an accessor of an object or one of a class consists of. -/
structure MethodParts where
  key : PropName
  function : Function
  kind : MethodKind
  span : Span

/-- A spread element: what is spread, and the span with the dots. -/
structure SpreadParts where
  expr : Expr
  span : Span

/-- The name in a tag, with its first token. -/
structure TagName where
  name : JsxName
  first : Token

/-- The opening tag of an element. -/
structure OpeningTag where
  name : JsxName
  attrs : List JsxAttr

/-- A category of phrases. -/
inductive Category where
  | stmtEnd
  | ident | propIdent | strLit | numLit | exportName | computedProp | propName
  | jsxText | jsxStr | jsxNameRest | jsxName | jsxAttrName
  | jsxSelfClosing | jsxOpening | jsxClosing | jsxElement | jsxFragment
  | jsxContainer | jsxSpreadChild | jsxChild | jsxChildren
  | jsxAttrValue | jsxAttr | jsxSpreadAttr | jsxAttrs
  | params | blockStmt | fnExpr | classHeritage | classBody | classExpr
  | objectLit | arrayLit | parenExpr | tplRest | tplLit
  | primary | arguments | member | call | newOnly | lhs
  | unary | multiplicative | additive | shift | relational | equality
  | bitAnd | bitXor | bitOr | logicAnd | logicOr | cond
  | arrowParams | arrowFn | assignOp | assign | expr | spread | arg | args
  | objectPat | arrayPat | pat | assignPat | restPat | patElem | patElems
  | assignPatProp | keyValuePatProp | patProp | patProps | param | paramList
  | keyValueProp | shorthandProp | methodDef | getterDef | setterDef | methodLike | prop | props
  | classMethod | classProp | classItem | classItems
  | varKind | varDeclarator | varDeclarators
  | varDecl | fnDecl | classDecl | returnStmt | throwStmt | ifStmt | whileStmt
  | exprStmt | emptyStmt | stmt | blockItem | blockItems
  | namespaceSpec | namedSpec | namedSpecs | exportSpec | exportSpecs
  | importDecl | importBare | exportDefaultDecl | exportDefaultExpr | exportNamedDecl
  | namedExport | exportAll | moduleDecl | item | items
deriving DecidableEq, Repr, Inhabited

namespace Category

/-- All categories, from the parts to the wholes. -/
def all : List Category :=
  [.stmtEnd,
   .ident, .propIdent, .strLit, .numLit, .exportName, .computedProp, .propName,
   .jsxText, .jsxStr, .jsxNameRest, .jsxName, .jsxAttrName,
   .jsxSelfClosing, .jsxOpening, .jsxClosing, .jsxElement, .jsxFragment,
   .jsxContainer, .jsxSpreadChild, .jsxChild, .jsxChildren,
   .jsxAttrValue, .jsxAttr, .jsxSpreadAttr, .jsxAttrs,
   .params, .blockStmt, .fnExpr, .classHeritage, .classBody, .classExpr,
   .objectLit, .arrayLit, .parenExpr, .tplRest, .tplLit,
   .primary, .arguments, .member, .call, .newOnly, .lhs,
   .unary, .multiplicative, .additive, .shift, .relational, .equality,
   .bitAnd, .bitXor, .bitOr, .logicAnd, .logicOr, .cond,
   .arrowParams, .arrowFn, .assignOp, .assign, .expr, .spread, .arg, .args,
   .objectPat, .arrayPat, .pat, .assignPat, .restPat, .patElem, .patElems,
   .assignPatProp, .keyValuePatProp, .patProp, .patProps, .param, .paramList,
   .keyValueProp, .shorthandProp, .methodDef, .getterDef, .setterDef, .methodLike, .prop, .props,
   .classMethod, .classProp, .classItem, .classItems,
   .varKind, .varDeclarator, .varDeclarators,
   .varDecl, .fnDecl, .classDecl, .returnStmt, .throwStmt, .ifStmt, .whileStmt,
   .exprStmt, .emptyStmt, .stmt, .blockItem, .blockItems,
   .namespaceSpec, .namedSpec, .namedSpecs, .exportSpec, .exportSpecs,
   .importDecl, .importBare, .exportDefaultDecl, .exportDefaultExpr, .exportNamedDecl,
   .namedExport, .exportAll, .moduleDecl, .item, .items]

/-- The list of all categories leaves none out. -/
theorem mem_all (c : Category) : c ∈ all := by
  cases c <;> decide

/-- The value of a phrase of a category. -/
abbrev Value : Category → Type
  | .stmtEnd => Unit
  | .ident | .propIdent => Ident
  | .strLit | .jsxStr => Build StrLit
  | .numLit => Build NumLit
  | .exportName => Build ExportName
  | .computedProp | .propName => Build PropName
  | .jsxNameRest => List Text
  | .jsxName | .jsxClosing => TagName
  | .jsxAttrName => Text
  | .jsxSelfClosing | .jsxOpening => Build OpeningTag
  | .jsxElement | .jsxFragment => Build JsxNode
  | .jsxText | .jsxContainer | .jsxSpreadChild | .jsxChild => Build JsxChild
  | .jsxChildren => Build (List JsxChild)
  | .jsxAttrValue => Build JsxAttrValue
  | .jsxAttr | .jsxSpreadAttr => Build JsxAttr
  | .jsxAttrs => Build (List JsxAttr)
  | .params | .paramList | .arrowParams | .patElems => Build (List Pat)
  | .blockStmt => Build Block
  | .classBody | .classItem | .classItems => Build (List ClassMember)
  | .tplRest => Build (List (Text × Expr))
  | .tplLit => Build Template
  | .arguments | .args => Build (List Expr)
  | .assignOp => Text
  | .fnExpr | .classHeritage | .classExpr | .objectLit | .arrayLit | .parenExpr
  | .primary | .member | .call | .newOnly | .lhs
  | .unary | .multiplicative | .additive | .shift | .relational | .equality
  | .bitAnd | .bitXor | .bitOr | .logicAnd | .logicOr | .cond
  | .arrowFn | .assign | .expr | .arg => Build Expr
  | .spread => Build SpreadParts
  | .objectPat | .arrayPat | .pat | .assignPat | .restPat | .patElem | .param => Build Pat
  | .assignPatProp | .keyValuePatProp | .patProp => Build PatProp
  | .patProps => Build (List PatProp)
  | .keyValueProp | .shorthandProp | .prop => Build Property
  | .props => Build (List Property)
  | .methodDef | .getterDef | .setterDef | .methodLike => Build MethodParts
  | .classMethod | .classProp => Build ClassMember
  | .varKind => VarKind
  | .varDeclarator => Build Declarator
  | .varDeclarators => Build (List Declarator)
  | .varDecl | .fnDecl | .classDecl | .returnStmt | .throwStmt | .ifStmt | .whileStmt
  | .exprStmt | .emptyStmt | .stmt => Build Stmt
  | .blockItem | .blockItems => Build (List Stmt)
  | .namespaceSpec => ImportSpecifier
  | .namedSpec => Build ImportSpecifier
  | .namedSpecs => Build (List ImportSpecifier)
  | .exportSpec => Build ExportSpecifier
  | .exportSpecs => Build (List ExportSpecifier)
  | .importDecl | .importBare | .exportDefaultDecl | .exportDefaultExpr | .exportNamedDecl
  | .namedExport | .exportAll | .moduleDecl => Build ModuleItem
  | .item | .items => Build (List ModuleItem)

end Category

end ClientBoundary
