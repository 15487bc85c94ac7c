/-!
# Kinds of nodes

Every node of a tree is of one of these kinds. Their names are what a traversal selects nodes by.
-/

namespace ClientBoundary

/-- The kinds of nodes. `invalid` is the kind of what stands where nothing of its sort may. -/
inductive NodeKind where
  | ident | str | num | bool | null | tpl | regex | thisExpr | superExpr | spreadElement | arrayLit
  | computedPropName | keyValueProp | shorthandProp | methodProp | objectLit | function | fnExpr
  | arrowExpr | classMethod | classProp | class_ | classExpr | parenExpr | memberExpr | callExpr
  | importExpr | taggedTpl | newExpr | unaryExpr | awaitExpr | binExpr | condExpr | assignExpr
  | assignPatProp | keyValuePatProp | restPat | objectPat | arrayPat | assignPat | jsxMemberName
  | jsxNamespacedName | jsxText | jsxExprContainer | jsxSpreadChild | jsxAttr | jsxSpreadAttr
  | jsxElement | jsxFragment | exprStmt | blockStmt | emptyStmt | varDeclarator | varDecl | fnDecl
  | classDecl | returnStmt | throwStmt | ifStmt | whileStmt | importNamedSpecifier
  | importDefaultSpecifier | importStarAsSpecifier | importDecl | exportDecl | exportDefaultDecl
  | exportDefaultExpr | exportNamedSpecifier | namedExport | exportAll | module | invalid
deriving DecidableEq, Repr, Inhabited

namespace NodeKind

/-- The name of a kind. -/
def name : NodeKind → String
  | .ident => "Ident"
  | .str => "Str"
  | .num => "Num"
  | .bool => "Bool"
  | .null => "Null"
  | .tpl => "Tpl"
  | .regex => "Regex"
  | .thisExpr => "ThisExpr"
  | .superExpr => "SuperExpr"
  | .spreadElement => "SpreadElement"
  | .arrayLit => "ArrayLit"
  | .computedPropName => "ComputedPropName"
  | .keyValueProp => "KeyValueProp"
  | .shorthandProp => "ShorthandProp"
  | .methodProp => "MethodProp"
  | .objectLit => "ObjectLit"
  | .function => "Function"
  | .fnExpr => "FnExpr"
  | .arrowExpr => "ArrowExpr"
  | .classMethod => "ClassMethod"
  | .classProp => "ClassProp"
  | .class_ => "Class"
  | .classExpr => "ClassExpr"
  | .parenExpr => "ParenExpr"
  | .memberExpr => "MemberExpr"
  | .callExpr => "CallExpr"
  | .importExpr => "Import"
  | .taggedTpl => "TaggedTpl"
  | .newExpr => "NewExpr"
  | .unaryExpr => "UnaryExpr"
  | .awaitExpr => "AwaitExpr"
  | .binExpr => "BinExpr"
  | .condExpr => "CondExpr"
  | .assignExpr => "AssignExpr"
  | .assignPatProp => "AssignPatProp"
  | .keyValuePatProp => "KeyValuePatProp"
  | .restPat => "RestPat"
  | .objectPat => "ObjectPat"
  | .arrayPat => "ArrayPat"
  | .assignPat => "AssignPat"
  | .jsxMemberName => "JSXMemberName"
  | .jsxNamespacedName => "JSXNamespacedName"
  | .jsxText => "JSXText"
  | .jsxExprContainer => "JSXExprContainer"
  | .jsxSpreadChild => "JSXSpreadChild"
  | .jsxAttr => "JSXAttr"
  | .jsxSpreadAttr => "JSXSpreadAttr"
  | .jsxElement => "JSXElement"
  | .jsxFragment => "JSXFragment"
  | .exprStmt => "ExprStmt"
  | .blockStmt => "BlockStmt"
  | .emptyStmt => "EmptyStmt"
  | .varDeclarator => "VarDeclarator"
  | .varDecl => "VarDecl"
  | .fnDecl => "FnDecl"
  | .classDecl => "ClassDecl"
  | .returnStmt => "ReturnStmt"
  | .throwStmt => "ThrowStmt"
  | .ifStmt => "IfStmt"
  | .whileStmt => "WhileStmt"
  | .importNamedSpecifier => "ImportNamedSpecifier"
  | .importDefaultSpecifier => "ImportDefaultSpecifier"
  | .importStarAsSpecifier => "ImportStarAsSpecifier"
  | .importDecl => "ImportDecl"
  | .exportDecl => "ExportDecl"
  | .exportDefaultDecl => "ExportDefaultDecl"
  | .exportDefaultExpr => "ExportDefaultExpr"
  | .exportNamedSpecifier => "ExportNamedSpecifier"
  | .namedExport => "NamedExport"
  | .exportAll => "ExportAll"
  | .module => "Module"
  | .invalid => "Invalid"

end NodeKind

end ClientBoundary
