import ClientBoundary.Grammar.Rules
import ClientBoundary.Proofs.Clause

/-!
# The sentences of modules

The language of modules as it is written down: one clause for each rule, with options, repetitions
and lists, and no word of how a phrase is read or which of two readings is meant. A sequence of
terminals is a `Sentence` when the rule of modules derives it.

The grammar that is run has categories for the repeated parts and the small rules put where they are
used. `moduleLowering_faithful` compares the two rule by rule, so both have the same sentences
(`sentence_iff`).
-/

namespace ClientBoundary

open Grammar (Clause Role Lowering)

/-- The rules of the language of modules. -/
inductive RuleName where
  | start | module | item | term
  | moduleDecl | importDecl | importBare | importClause | defaultSpec | namespaceSpec | namedSpecs
  | namedSpec | moduleExportName | exportDefaultDecl | exportDefaultExpr | exportNamedDecl
  | namedExport | exportSpec | exportAll
  | stmt | blockStmt | blockItem | emptyStmt | exprStmt | varDecl | varKind | varDeclarator
  | fnDecl | classDecl | returnStmt | throwStmt | ifStmt | whileStmt
  | params | param | fnExpr | arrowFn | arrowParams | arrowBody
  | classExpr | classHeritage | classBody | classItem | classMethod | classProp
  | methodLike | methodDef | getterDef | setterDef
  | pat | objectPat | patProp | assignPatProp | keyValuePatProp | restPat | patElem | assignPat
  | arrayPat
  | expr | assign | assignOp | cond | logicOr | logicAnd | bitOr | bitXor | bitAnd | equality
  | relational | shift | additive | multiplicative | unary | lhs | newOnly | member | call
  | arguments | arg | spread | primary | parenExpr | arrayLit | objectLit | prop | keyValueProp
  | shorthandProp | propName | computedProp
  | ident | propIdent | strLit | numLit | tplLit | regexLit | trueLit | falseLit | nullLit
  | thisExpr | superExpr
  | jsxElement | jsxSelfClosing | jsxOpening | jsxClosing | jsxFragment | jsxName | jsxAttribute
  | jsxAttr | jsxAttrName | jsxAttrValue | jsxSpreadAttr | jsxChild | jsxContainer
  | jsxSpreadChild | jsxText | jsxStr
deriving DecidableEq, Repr

namespace RuleName

/-- All rules. -/
def all : List RuleName :=
  [.start, .module, .item, .term,
   .moduleDecl, .importDecl, .importBare, .importClause, .defaultSpec, .namespaceSpec, .namedSpecs,
   .namedSpec, .moduleExportName, .exportDefaultDecl, .exportDefaultExpr, .exportNamedDecl,
   .namedExport, .exportSpec, .exportAll,
   .stmt, .blockStmt, .blockItem, .emptyStmt, .exprStmt, .varDecl, .varKind, .varDeclarator,
   .fnDecl, .classDecl, .returnStmt, .throwStmt, .ifStmt, .whileStmt,
   .params, .param, .fnExpr, .arrowFn, .arrowParams, .arrowBody,
   .classExpr, .classHeritage, .classBody, .classItem, .classMethod, .classProp,
   .methodLike, .methodDef, .getterDef, .setterDef,
   .pat, .objectPat, .patProp, .assignPatProp, .keyValuePatProp, .restPat, .patElem, .assignPat,
   .arrayPat,
   .expr, .assign, .assignOp, .cond, .logicOr, .logicAnd, .bitOr, .bitXor, .bitAnd, .equality,
   .relational, .shift, .additive, .multiplicative, .unary, .lhs, .newOnly, .member, .call,
   .arguments, .arg, .spread, .primary, .parenExpr, .arrayLit, .objectLit, .prop, .keyValueProp,
   .shorthandProp, .propName, .computedProp,
   .ident, .propIdent, .strLit, .numLit, .tplLit, .regexLit, .trueLit, .falseLit, .nullLit,
   .thisExpr, .superExpr,
   .jsxElement, .jsxSelfClosing, .jsxOpening, .jsxClosing, .jsxFragment, .jsxName, .jsxAttribute,
   .jsxAttr, .jsxAttrName, .jsxAttrValue, .jsxSpreadAttr, .jsxChild, .jsxContainer,
   .jsxSpreadChild, .jsxText, .jsxStr]

/-- The list of all rules leaves none out. -/
theorem mem_all (m : RuleName) : m ∈ all := by
  cases m <;> decide

end RuleName

-- ---------------------------------------------------------------------------------------------
-- The rules
-- ---------------------------------------------------------------------------------------------

namespace ModuleRules

/-- A clause of the language of modules. -/
abbrev C := Clause RuleName

/-- A token of the given kind. -/
def t : Terminal → C := .tok

/-- A phrase of another rule. -/
def r : RuleName → C := .rule

/-- At most once. -/
def opt : C → C := .opt

/-- Any number of times. -/
def many : C → C := .many

/-- Once or more, with commas between. -/
def commas : C → C := .commas

/-- One of several tokens. -/
def oneOf (first : Terminal) (rest : List Terminal) : C :=
  rest.foldl (fun c next => c <|> t next) (t first)

/-- A list in brackets; it may be empty, and a comma may follow its last element. -/
def listIn (left : Terminal) (element : C) (right : Terminal) : C :=
  t left ++ opt (commas element ++ opt (t .comma)) ++ t right

/-- One level of binary operators, which associate to the left. -/
def level (this : RuleName) (ops : C) (next : RuleName) : C := r next <|> r this ++ ops ++ r next

/-- The clause of each rule. -/
def clause : RuleName → C
  | .start => r .module
  | .module => many (r .item)
  | .item => r .stmt <|> r .moduleDecl <|> t .terminator
  | .term => t .semi <|> t .terminator
  -- modules
  | .moduleDecl =>
    r .importDecl <|> r .importBare <|> r .exportDefaultDecl <|> r .exportDefaultExpr
    <|> r .exportNamedDecl <|> r .namedExport <|> r .exportAll
  | .importDecl => t .kwImport ++ r .importClause ++ t .kwFrom ++ r .strLit ++ r .term
  | .importBare => t .kwImport ++ r .strLit ++ r .term
  | .importClause =>
    r .defaultSpec
    <|> r .defaultSpec ++ t .comma ++ r .namespaceSpec
    <|> r .defaultSpec ++ t .comma ++ r .namedSpecs
    <|> r .namespaceSpec
    <|> r .namedSpecs
  | .defaultSpec => r .ident
  | .namespaceSpec => t .star ++ t .kwAs ++ r .ident
  | .namedSpecs => listIn .lbrace (r .namedSpec) .rbrace
  | .namedSpec => r .ident <|> r .moduleExportName ++ t .kwAs ++ r .ident
  | .moduleExportName => r .propIdent <|> r .strLit
  | .exportDefaultDecl => t .kwExport ++ t .kwDefault ++ (r .fnExpr <|> r .classExpr)
  | .exportDefaultExpr => t .kwExport ++ t .kwDefault ++ r .assign ++ r .term
  | .exportNamedDecl => t .kwExport ++ (r .varDecl <|> r .fnDecl <|> r .classDecl)
  | .namedExport =>
    t .kwExport ++ listIn .lbrace (r .exportSpec) .rbrace ++ opt (t .kwFrom ++ r .strLit) ++ r .term
  | .exportSpec => r .moduleExportName ++ opt (t .kwAs ++ r .moduleExportName)
  | .exportAll =>
    t .kwExport ++ t .star ++ opt (t .kwAs ++ r .moduleExportName) ++ t .kwFrom ++ r .strLit
    ++ r .term
  -- statements
  | .stmt =>
    r .blockStmt <|> r .emptyStmt <|> r .varDecl <|> r .fnDecl <|> r .classDecl <|> r .returnStmt
    <|> r .throwStmt <|> r .ifStmt <|> r .whileStmt <|> r .exprStmt
  | .blockStmt => t .lbrace ++ many (r .blockItem) ++ t .rbrace
  | .blockItem => r .stmt <|> t .terminator
  | .emptyStmt => t .semi
  | .exprStmt => r .expr ++ r .term
  | .varDecl => r .varKind ++ commas (r .varDeclarator) ++ r .term
  | .varKind => t .kwVar <|> t .kwLet <|> t .kwConst
  | .varDeclarator => r .pat ++ opt (t .eq ++ r .assign)
  | .fnDecl =>
    opt (t .kwAsync) ++ t .kwFunction ++ opt (t .star) ++ r .ident ++ r .params ++ r .blockStmt
  | .classDecl => t .kwClass ++ r .ident ++ opt (r .classHeritage) ++ r .classBody
  | .returnStmt => t .kwReturn ++ opt (r .assign) ++ r .term
  | .throwStmt => t .kwThrow ++ r .assign ++ r .term
  | .ifStmt =>
    t .kwIf ++ t .lpar ++ r .expr ++ t .rpar ++ r .stmt ++ opt (t .kwElse ++ r .stmt)
  | .whileStmt => t .kwWhile ++ t .lpar ++ r .expr ++ t .rpar ++ r .stmt
  -- functions and classes
  | .params => listIn .lpar (r .param) .rpar
  | .param => r .pat <|> r .assignPat <|> r .restPat
  | .fnExpr =>
    opt (t .kwAsync) ++ t .kwFunction ++ opt (t .star) ++ opt (r .ident) ++ r .params
    ++ r .blockStmt
  | .arrowFn => opt (t .kwAsync) ++ r .arrowParams ++ t .arrow ++ r .arrowBody
  | .arrowParams => r .ident <|> r .params
  | .arrowBody => r .blockStmt <|> r .assign
  | .classExpr => t .kwClass ++ opt (r .ident) ++ opt (r .classHeritage) ++ r .classBody
  | .classHeritage => t .kwExtends ++ r .lhs
  | .classBody => t .lbrace ++ many (r .classItem) ++ t .rbrace
  | .classItem => r .classMethod <|> r .classProp <|> t .terminator <|> t .semi
  | .classMethod => opt (t .kwStatic) ++ r .methodLike
  | .classProp => opt (t .kwStatic) ++ r .propName ++ opt (t .eq ++ r .assign) ++ r .term
  | .methodLike => r .methodDef <|> r .getterDef <|> r .setterDef
  | .methodDef =>
    opt (t .kwAsync) ++ opt (t .star) ++ r .propName ++ r .params ++ r .blockStmt
  | .getterDef => t .kwGet ++ r .propName ++ t .lpar ++ t .rpar ++ r .blockStmt
  | .setterDef => t .kwSet ++ r .propName ++ r .params ++ r .blockStmt
  -- patterns
  | .pat => r .ident <|> r .objectPat <|> r .arrayPat
  | .objectPat => listIn .lbrace (r .patProp) .rbrace
  | .patProp => r .assignPatProp <|> r .keyValuePatProp <|> r .restPat
  | .assignPatProp => r .ident ++ opt (t .eq ++ r .assign)
  | .keyValuePatProp => r .propName ++ t .colon ++ r .patElem
  | .restPat => t .ellipsis ++ r .pat
  | .patElem => r .pat <|> r .assignPat
  | .assignPat => r .pat ++ t .eq ++ r .assign
  | .arrayPat => listIn .lsqb (r .patElem) .rsqb
  -- expressions
  | .expr => r .assign
  | .assign => r .cond <|> r .arrowFn <|> r .lhs ++ r .assignOp ++ r .assign
  | .assignOp => t .eq <|> t .compoundAssign
  | .cond => r .logicOr <|> r .logicOr ++ t .question ++ r .assign ++ t .colon ++ r .assign
  | .logicOr => level .logicOr (t .orOp <|> t .nullish) .logicAnd
  | .logicAnd => level .logicAnd (t .andOp) .bitOr
  | .bitOr => level .bitOr (t .pipe) .bitXor
  | .bitXor => level .bitXor (t .caret) .bitAnd
  | .bitAnd => level .bitAnd (t .amp) .equality
  | .equality => level .equality (t .eqOp) .relational
  | .relational => level .relational (t .relOp <|> t .kwIn <|> t .kwInstanceof) .shift
  | .shift => level .shift (t .shiftOp) .additive
  | .additive => level .additive (t .addOp) .multiplicative
  | .multiplicative => level .multiplicative (t .star <|> t .mulOp) .unary
  | .unary =>
    r .lhs
    <|> oneOf .unaryOp [.addOp, .kwTypeof, .kwVoid, .kwDelete] ++ r .unary
    <|> t .kwAwait ++ r .unary
  | .lhs => r .newOnly <|> r .call
  | .newOnly => r .member <|> t .kwNew ++ r .newOnly
  | .member =>
    r .primary
    <|> r .member ++ t .dot ++ r .propIdent
    <|> r .member ++ t .lsqb ++ r .expr ++ t .rsqb
    <|> r .member ++ r .tplLit
    <|> t .kwNew ++ r .member ++ r .arguments
  | .call =>
    r .member ++ r .arguments
    <|> t .kwImport ++ r .arguments
    <|> r .call ++ r .arguments
    <|> r .call ++ t .dot ++ r .propIdent
    <|> r .call ++ t .lsqb ++ r .expr ++ t .rsqb
    <|> r .call ++ r .tplLit
  | .arguments => listIn .lpar (r .arg) .rpar
  | .arg => r .assign <|> r .spread
  | .spread => t .ellipsis ++ r .assign
  | .primary =>
    r .ident <|> r .strLit <|> r .numLit <|> r .tplLit <|> r .regexLit <|> r .trueLit
    <|> r .falseLit <|> r .nullLit <|> r .thisExpr <|> r .superExpr <|> r .arrayLit
    <|> r .objectLit <|> r .fnExpr <|> r .classExpr <|> r .parenExpr <|> r .jsxElement
    <|> r .jsxFragment
  | .parenExpr => t .lpar ++ r .expr ++ t .rpar
  -- the elements of an array are what the arguments of a call are
  | .arrayLit => listIn .lsqb (r .arg) .rsqb
  | .objectLit => listIn .lbrace (r .prop) .rbrace
  | .prop => r .keyValueProp <|> r .shorthandProp <|> r .methodLike <|> r .spread
  | .keyValueProp => r .propName ++ t .colon ++ r .assign
  | .shorthandProp => r .ident
  | .propName => r .propIdent <|> r .strLit <|> r .numLit <|> r .computedProp
  | .computedProp => t .lsqb ++ r .assign ++ t .rsqb
  -- names and literals
  | .ident => oneOf .name [.kwFrom, .kwAs, .kwGet, .kwSet, .kwStatic]
  | .propIdent =>
    oneOf .name
      [.kwFrom, .kwAs, .kwGet, .kwSet, .kwStatic, .kwAsync,
       .kwVar, .kwLet, .kwConst, .kwIn, .kwInstanceof, .kwTypeof, .kwVoid, .kwDelete,
       .kwImport, .kwExport, .kwDefault, .kwFunction, .kwClass, .kwExtends,
       .kwReturn, .kwThrow, .kwIf, .kwElse, .kwWhile, .kwNew, .kwThis, .kwSuper,
       .kwTrue, .kwFalse, .kwNull, .kwAwait]
  | .strLit => t .string
  | .numLit => t .number
  | .tplLit =>
    t .template <|> t .tplHead ++ r .expr ++ many (t .tplMiddle ++ r .expr) ++ t .tplTail
  | .regexLit => t .regex
  | .trueLit => t .kwTrue
  | .falseLit => t .kwFalse
  | .nullLit => t .kwNull
  | .thisExpr => t .kwThis
  | .superExpr => t .kwSuper
  -- elements
  | .jsxElement => r .jsxSelfClosing <|> r .jsxOpening ++ many (r .jsxChild) ++ r .jsxClosing
  | .jsxSelfClosing =>
    t .jsxOpen ++ r .jsxName ++ many (r .jsxAttribute) ++ t .jsxSlash ++ t .jsxGt
  | .jsxOpening => t .jsxOpen ++ r .jsxName ++ many (r .jsxAttribute) ++ t .jsxGt
  | .jsxClosing => t .jsxOpen ++ t .jsxSlash ++ r .jsxName ++ t .jsxGt
  | .jsxFragment =>
    t .jsxOpen ++ t .jsxGt ++ many (r .jsxChild) ++ t .jsxOpen ++ t .jsxSlash ++ t .jsxGt
  | .jsxName =>
    t .jsxName ++ many (t .dot ++ t .jsxName) <|> t .jsxName ++ t .colon ++ t .jsxName
  | .jsxAttribute => r .jsxAttr <|> r .jsxSpreadAttr
  | .jsxAttr => r .jsxAttrName ++ opt (t .eq ++ r .jsxAttrValue)
  | .jsxAttrName => t .jsxName ++ opt (t .colon ++ t .jsxName)
  | .jsxAttrValue => r .jsxStr <|> r .jsxContainer <|> r .jsxElement <|> r .jsxFragment
  | .jsxSpreadAttr => t .jsxLbrace ++ t .ellipsis ++ r .assign ++ t .jsxRbrace
  | .jsxChild =>
    r .jsxText <|> r .jsxContainer <|> r .jsxSpreadChild <|> r .jsxElement <|> r .jsxFragment
  | .jsxContainer => t .jsxLbrace ++ opt (r .expr) ++ t .jsxRbrace
  | .jsxSpreadChild => t .jsxLbrace ++ t .ellipsis ++ r .assign ++ t .jsxRbrace
  | .jsxText => t .jsxText
  | .jsxStr => t .jsxString

end ModuleRules

/-- A sequence of terminals that is a module, by the rules of the language. -/
def Sentence (w : List Terminal) : Prop := Clause.Derives ModuleRules.clause (.rule .start) w

-- ---------------------------------------------------------------------------------------------
-- The grammar that is run
-- ---------------------------------------------------------------------------------------------

namespace Category

open ModuleRules (t r)

/-- What each category stands for among the rules of the language. -/
def role : Category → Role RuleName
  -- lists
  | .items => .list (r .item) | .blockItems => .list (r .blockItem)
  | .classItems => .list (r .classItem) | .tplRest => .list (t .tplMiddle ++ r .expr)
  | .jsxNameRest => .list (t .dot ++ t .jsxName) | .jsxAttrs => .list (r .jsxAttribute)
  | .jsxChildren => .list (r .jsxChild)
  | .args => .commas (r .arg) | .props => .commas (r .prop) | .patElems => .commas (r .patElem)
  | .patProps => .commas (r .patProp) | .paramList => .commas (r .param)
  | .varDeclarators => .commas (r .varDeclarator) | .namedSpecs => .commas (r .namedSpec)
  | .exportSpecs => .commas (r .exportSpec)
  -- modules
  | .item => .rule .item | .stmtEnd => .rule .term | .moduleDecl => .rule .moduleDecl
  | .importDecl => .rule .importDecl | .importBare => .rule .importBare
  | .namespaceSpec => .rule .namespaceSpec | .namedSpec => .rule .namedSpec
  | .exportName => .rule .moduleExportName | .exportDefaultDecl => .rule .exportDefaultDecl
  | .exportDefaultExpr => .rule .exportDefaultExpr | .exportNamedDecl => .rule .exportNamedDecl
  | .namedExport => .rule .namedExport | .exportSpec => .rule .exportSpec
  | .exportAll => .rule .exportAll
  -- statements
  | .stmt => .rule .stmt | .blockStmt => .rule .blockStmt | .blockItem => .rule .blockItem
  | .emptyStmt => .rule .emptyStmt | .exprStmt => .rule .exprStmt | .varDecl => .rule .varDecl
  | .varKind => .rule .varKind | .varDeclarator => .rule .varDeclarator | .fnDecl => .rule .fnDecl
  | .classDecl => .rule .classDecl | .returnStmt => .rule .returnStmt
  | .throwStmt => .rule .throwStmt | .ifStmt => .rule .ifStmt | .whileStmt => .rule .whileStmt
  -- functions and classes
  | .params => .rule .params | .param => .rule .param | .fnExpr => .rule .fnExpr
  | .arrowFn => .rule .arrowFn | .arrowParams => .rule .arrowParams
  | .classExpr => .rule .classExpr | .classHeritage => .rule .classHeritage
  | .classBody => .rule .classBody | .classItem => .rule .classItem
  | .classMethod => .rule .classMethod | .classProp => .rule .classProp
  | .methodLike => .rule .methodLike | .methodDef => .rule .methodDef
  | .getterDef => .rule .getterDef | .setterDef => .rule .setterDef
  -- patterns
  | .pat => .rule .pat | .objectPat => .rule .objectPat | .patProp => .rule .patProp
  | .assignPatProp => .rule .assignPatProp | .keyValuePatProp => .rule .keyValuePatProp
  | .restPat => .rule .restPat | .patElem => .rule .patElem | .assignPat => .rule .assignPat
  | .arrayPat => .rule .arrayPat
  -- expressions
  | .expr => .rule .expr | .assign => .rule .assign | .assignOp => .rule .assignOp
  | .cond => .rule .cond | .logicOr => .rule .logicOr | .logicAnd => .rule .logicAnd
  | .bitOr => .rule .bitOr | .bitXor => .rule .bitXor | .bitAnd => .rule .bitAnd
  | .equality => .rule .equality | .relational => .rule .relational | .shift => .rule .shift
  | .additive => .rule .additive | .multiplicative => .rule .multiplicative
  | .unary => .rule .unary | .lhs => .rule .lhs | .newOnly => .rule .newOnly
  | .member => .rule .member | .call => .rule .call | .arguments => .rule .arguments
  | .arg => .rule .arg | .spread => .rule .spread | .primary => .rule .primary
  | .parenExpr => .rule .parenExpr | .arrayLit => .rule .arrayLit | .objectLit => .rule .objectLit
  | .prop => .rule .prop | .keyValueProp => .rule .keyValueProp
  | .shorthandProp => .rule .shorthandProp | .propName => .rule .propName
  | .computedProp => .rule .computedProp
  -- names and literals
  | .ident => .rule .ident | .propIdent => .rule .propIdent | .strLit => .rule .strLit
  | .numLit => .rule .numLit | .tplLit => .rule .tplLit
  -- elements
  | .jsxElement => .rule .jsxElement | .jsxSelfClosing => .rule .jsxSelfClosing
  | .jsxOpening => .rule .jsxOpening | .jsxClosing => .rule .jsxClosing
  | .jsxFragment => .rule .jsxFragment | .jsxName => .rule .jsxName | .jsxAttr => .rule .jsxAttr
  | .jsxAttrName => .rule .jsxAttrName | .jsxAttrValue => .rule .jsxAttrValue
  | .jsxSpreadAttr => .rule .jsxSpreadAttr | .jsxChild => .rule .jsxChild
  | .jsxContainer => .rule .jsxContainer | .jsxSpreadChild => .rule .jsxSpreadChild
  | .jsxText => .rule .jsxText | .jsxStr => .rule .jsxStr

end Category

/-- The grammar of modules as written out from the rules of the language. Rules without a category
are nested twice at most: the clause of an import, and the default name in it. -/
def moduleLowering : Lowering RuleName Category where
  rules := ModuleRules.clause
  categories := Category.all
  role := Category.role
  depth := 2

set_option maxRecDepth 100000 in
theorem shape_eq_alternatives (n : Category) :
    moduleGrammar.shape n ⊆ moduleLowering.alternatives n ∧
      moduleLowering.alternatives n ⊆ moduleGrammar.shape n := by
  have hAll : ∀ n ∈ Category.all, moduleGrammar.shape n ⊆ moduleLowering.alternatives n ∧
      moduleLowering.alternatives n ⊆ moduleGrammar.shape n := by
    decide +kernel
  exact hAll n (Category.mem_all n)

set_option maxRecDepth 100000 in
theorem moduleLowering_faithful : moduleLowering.Faithful moduleGrammar.shape where
  shape_sub n := (shape_eq_alternatives n).1
  sub_shape n := (shape_eq_alternatives n).2
  listed m := by
    have hAll : ∀ m ∈ RuleName.all, moduleLowering.listed (moduleLowering.rules m) = true := by
      decide +kernel
    exact hAll m (RuleName.mem_all m)
  inlined m := by
    have hAll : ∀ m ∈ RuleName.all, moduleLowering.category? (.rule m) = none →
        moduleLowering.expand (moduleLowering.rules m)
          ⊆ moduleLowering.expandTo moduleLowering.depth (moduleLowering.rules m) := by
      decide +kernel
    exact hAll m (RuleName.mem_all m)

/-- The sentences of modules are what the grammar derives from a list of items; a module without
items is the empty sentence. -/
theorem sentence_iff {w : List Terminal} :
    Sentence w ↔ w = [] ∨ Grammar.Derives moduleGrammar (.cat .items) w := by
  constructor
  · intro h
    obtain ⟨ss, hss, hDerives⟩ :=
      Lowering.reached_of_derives moduleLowering_faithful (G := moduleGrammar) h rfl
    have hExpand : moduleLowering.expand (.rule .start) = [[.cat .items], []] := by decide +kernel
    rw [hExpand] at hss
    rcases List.mem_cons.mp hss with rfl | hss
    · exact .inr (Grammar.derivesAll_single.mp hDerives)
    · obtain rfl := List.mem_singleton.mp hss
      exact .inl (Grammar.derivesAll_nil.mp hDerives)
  · intro h
    have hItems : Clause.Derives ModuleRules.clause (.many (.rule .item)) w := by
      rcases h with rfl | ⟨tree, rfl⟩
      · exact .many [] (List.forall_mem_nil _)
      · have hMeans := Lowering.means_of_tree moduleLowering_faithful tree
        exact Lowering.derives_many_of_list (L := moduleLowering) hMeans
    exact .rule (.rule hItems)

end ClientBoundary
