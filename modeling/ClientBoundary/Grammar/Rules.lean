import ClientBoundary.Grammar.Category
import ClientBoundary.Literal.Number
import ClientBoundary.Literal.String

/-!
# The grammar of modules

The rules of ECMAScript modules with JSX, each with the tree that its phrases stand for. A
statement ends with a semicolon or with a terminator; the insertion of terminators has settled
where lines end statements.

Some phrases have two readings. The rules list first the reading that is meant:

* a list of statements is read as many statements rather than few, so a brace at the start of a
  statement opens a block, and `function` and `class` there begin a declaration, whenever the
  rest can be read as further statements;
* the body of an arrow function in braces is a block;
* an `if` with an `else` is read before one without.
-/

namespace ClientBoundary

namespace ModuleGrammar

open Grammar (Rule)
open Grammar.Rule (span opt flag)

/-- A rule of the grammar of modules. -/
abbrev R (α : Type) := Rule Category.Value α

/-- A token of the given kind. -/
def tok (t : Terminal) : R Token := Rule.tok t

/-- A phrase of the given category. -/
def cat (c : Category) : R c.Value := Rule.cat c

/-- One of several tokens. -/
def oneOf (ts : List Terminal) : R Token := ⟨ts.flatMap fun t => (tok t).alternatives⟩

/-- A token whose text does not matter. -/
def mark (t : Terminal) : R Unit := (fun _ => ()) <$> tok t

-- ---------------------------------------------------------------------------------------------
-- Lists
-- ---------------------------------------------------------------------------------------------

/-- One more element at the end of a list; the list is built first. -/
def snoc {α : Type} (xs : Build (List α)) (x : Build α) : Build (List α) := do
  let xs ← xs
  let x ← x
  return xs ++ [x]

/-- A list of one element. -/
def single {α : Type} (x : Build α) : Build (List α) := do
  let x ← x
  return [x]

/-- Two lists one after the other. -/
def append {α : Type} (xs ys : Build (List α)) : Build (List α) := do
  let xs ← xs
  let ys ← ys
  return xs ++ ys

/-- The elements of a list that may be missing. -/
def orEmpty {α : Type} (xs : Option (Build (List α))) : Build (List α) := xs.getD (.ok [])

/-- An optional part, built if it is there. -/
def optional {α : Type} : Option (Build α) → Build (Option α)
  | none => .ok none
  | some x => do
    let x ← x
    return some x

/-- The rule of a category of lists with commas between the elements. -/
def commaList {α : Type} (list : R (Build (List α))) (element : R (Build α)) :
    R (Build (List α)) :=
  (snoc <$> list <* tok .comma <*> element) <|> (single <$> element)

/-- The rule of a category of lists with nothing between the elements. -/
def plainList {α : Type} (list : R (Build (List α))) (element : R (Build (List α))) :
    R (Build (List α)) :=
  (append <$> list <*> element) <|> element

/-- A list in brackets; it may be empty, and a comma may follow its last element. -/
def bracketed {α : Type} (left right : Terminal) (list : R (Build (List α))) :
    R (Build (List α)) :=
  orEmpty <$> (tok left *> opt (list <* opt (tok .comma)) <* tok right)

-- ---------------------------------------------------------------------------------------------
-- Names and literals
-- ---------------------------------------------------------------------------------------------

/-- The terminals that are identifiers. -/
def identTerminals : List Terminal := [.name, .kwFrom, .kwAs, .kwGet, .kwSet, .kwStatic]

/-- The terminals that may name a property: identifiers and all reserved words. -/
def propIdentTerminals : List Terminal :=
  [.name, .kwFrom, .kwAs, .kwGet, .kwSet, .kwStatic, .kwAsync,
   .kwVar, .kwLet, .kwConst, .kwIn, .kwInstanceof, .kwTypeof, .kwVoid, .kwDelete,
   .kwImport, .kwExport, .kwDefault, .kwFunction, .kwClass, .kwExtends,
   .kwReturn, .kwThrow, .kwIf, .kwElse, .kwWhile, .kwNew, .kwThis, .kwSuper,
   .kwTrue, .kwFalse, .kwNull, .kwAwait]

/-- An identifier from its token. -/
def makeIdent (s : Span) (t : Token) : Ident := ⟨t.text, s⟩

/-- An identifier; the words that are reserved in some places only are identifiers as well. -/
def ident : R Ident := makeIdent <$> span <*> oneOf identTerminals

/-- The name of a property, for which every word of the language may serve. -/
def propIdent : R Ident := makeIdent <$> span <*> oneOf propIdentTerminals

/-- A literal that denotes nothing cannot be built. -/
def ofLiteral {α : Type} : Except LiteralError α → Build α
  | .ok a => .ok a
  | .error e => .error (.literal e)

/-- A string literal from its token. -/
def makeStr (s : Span) (t : Token) : Build StrLit := do
  let value ← ofLiteral (StringLiteral.value t.text)
  return ⟨value, some t.text, s⟩

/-- A string literal. -/
def strLit : R (Build StrLit) := makeStr <$> span <*> tok .string

/-- A number literal from its token. -/
def makeNum (s : Span) (t : Token) : Build NumLit := do
  let value ← ofLiteral (NumberLiteral.value t.text)
  return ⟨value, some t.text, s⟩

/-- A number literal. -/
def numLit : R (Build NumLit) := makeNum <$> span <*> tok .number

/-- A text without its first code point and its last `n`. -/
def inner (n : Nat) (t : Text) : Text := (t.take (t.length - n)).drop 1

/-- A chunk of a template with the expression after it. -/
def makeChunk (t : Token) (e : Build Expr) : Build (List (Text × Expr)) := do
  let e ← e
  return [(inner 2 t.text, e)]

/-- The middle chunks of a template, each with the expression after it. -/
def tplRest : R (Build (List (Text × Expr))) :=
  plainList (cat .tplRest) (makeChunk <$> tok .tplMiddle <*> cat .expr)

/-- A template with substitutions. -/
def makeTemplate (s : Span) (head : Token) (first : Build Expr)
    (rest : Option (Build (List (Text × Expr)))) (tail : Token) : Build Template := do
  let first ← first
  let rest ← orEmpty rest
  return .mk (inner 2 head.text) (rest.map (·.1) ++ [inner 1 tail.text])
    (first :: rest.map (·.2)) s

/-- A template, with or without substitutions. -/
def tplLit : R (Build Template) :=
  ((fun s (t : Token) => .ok (.mk (inner 1 t.text) [] [] s)) <$> span <*> tok .template)
  <|> (makeTemplate <$> span <*> tok .tplHead <*> cat .expr <*> opt (cat .tplRest)
        <*> tok .tplTail)

/-- A regular expression, cut at its last slash. -/
def makeRegex (s : Span) (t : Token) : Expr :=
  let flags := (t.text.reverse.takeWhile (· ≠ .char '/')).reverse
  .regex (inner (flags.length + 1) t.text) flags s

-- ---------------------------------------------------------------------------------------------
-- Modules
-- ---------------------------------------------------------------------------------------------

/-- The end of a statement. -/
def stmtEnd : R Unit := mark .semi <|> mark .terminator

/-- The items of a module. -/
def items : R (Build (List ModuleItem)) := plainList (cat .items) (cat .item)

/-- One item of a module; a terminator on its own is none. -/
def item : R (Build (List ModuleItem)) :=
  ((fun s => single (ModuleItem.stmt <$> s)) <$> cat .stmt)
  <|> (single <$> cat .moduleDecl)
  <|> ((fun _ => .ok []) <$> tok .terminator)

/-- A declaration that only stands at the top of a module. -/
def moduleDecl : R (Build ModuleItem) :=
  cat .importDecl <|> cat .importBare <|> cat .exportDefaultDecl <|> cat .exportDefaultExpr
  <|> cat .exportNamedDecl <|> cat .namedExport <|> cat .exportAll

/-- The default name of an import. -/
def defaultSpec : R (Build (List ImportSpecifier)) :=
  (fun (i : Ident) => .ok [.default i i.span]) <$> cat .ident

/-- A specifier that binds the name space of a module. -/
def namespaceSpec : R ImportSpecifier :=
  (fun s (i : Ident) => .starAs i s) <$> span <* tok .star <* tok .kwAs <*> cat .ident

/-- The name space of an import. -/
def namespaceImport : R (Build (List ImportSpecifier)) :=
  (fun (i : ImportSpecifier) => .ok [i]) <$> cat .namespaceSpec

/-- The named specifiers of an import. -/
def namedImports : R (Build (List ImportSpecifier)) := bracketed .lbrace .rbrace (cat .namedSpecs)

/-- What an import declaration binds. -/
def importClause : R (Build (List ImportSpecifier)) :=
  defaultSpec
  <|> (append <$> defaultSpec <* tok .comma <*> namespaceImport)
  <|> (append <$> defaultSpec <* tok .comma <*> namedImports)
  <|> namespaceImport
  <|> namedImports

/-- An import declaration; its specifiers are built before its source. -/
def makeImport (s : Span) (specifiers : Build (List ImportSpecifier)) (src : Build StrLit) :
    Build ModuleItem := do
  let specifiers ← specifiers
  let src ← src
  return .importDecl specifiers src s

/-- An import that binds names. -/
def importDecl : R (Build ModuleItem) :=
  makeImport <$> span <* tok .kwImport <*> importClause <* tok .kwFrom <*> cat .strLit
    <* cat .stmtEnd

/-- An import for its effects, without names. -/
def importBare : R (Build ModuleItem) :=
  (fun s src => makeImport s (.ok []) src)
  <$> span <* tok .kwImport <*> cat .strLit <* cat .stmtEnd

/-- A specifier with another name on the importing side. -/
def makeAlias (s : Span) (imported : Build ExportName) (i : Ident) : Build ImportSpecifier := do
  let imported ← imported
  return .named i (some imported) s

/-- One named specifier of an import, with or without another name. -/
def namedSpec : R (Build ImportSpecifier) :=
  ((fun s (i : Ident) => .ok (.named i none s)) <$> span <*> cat .ident)
  <|> (makeAlias <$> span <*> cat .exportName <* tok .kwAs <*> cat .ident)

/-- The named specifiers of an import. -/
def namedSpecs : R (Build (List ImportSpecifier)) :=
  commaList (cat .namedSpecs) (cat .namedSpec)

/-- The name of an export: a word or a string. -/
def exportName : R (Build ExportName) :=
  ((fun (i : Ident) => .ok (.ident i)) <$> cat .propIdent)
  <|> ((fun (l : Build StrLit) => ExportName.str <$> l) <$> cat .strLit)

/-- A function or class as the default export. -/
def exportDefaultDecl : R (Build ModuleItem) :=
  (fun s (e : Build Expr) => return .exportDefaultDecl (← e) s)
  <$> span <* tok .kwExport <* tok .kwDefault <*> (cat .fnExpr <|> cat .classExpr)

/-- An expression as the default export. -/
def exportDefaultExpr : R (Build ModuleItem) :=
  (fun s (e : Build Expr) => return .exportDefaultExpr (← e) s)
  <$> span <* tok .kwExport <* tok .kwDefault <*> cat .assign <* cat .stmtEnd

/-- An exported declaration. -/
def exportNamedDecl : R (Build ModuleItem) :=
  (fun s (d : Build Stmt) => return .exportDecl (← d) s)
  <$> span <* tok .kwExport <*> (cat .varDecl <|> cat .fnDecl <|> cat .classDecl)

/-- A list of exported names, from another module if a source is given. -/
def makeNamedExport (s : Span) (specifiers : Build (List ExportSpecifier))
    (src : Option (Build StrLit)) : Build ModuleItem := do
  let specifiers ← specifiers
  let src ← optional src
  return .namedExport specifiers src s

/-- A list of exported names. -/
def namedExport : R (Build ModuleItem) :=
  makeNamedExport <$> span <* tok .kwExport <*> bracketed .lbrace .rbrace (cat .exportSpecs)
    <*> opt (tok .kwFrom *> cat .strLit) <* cat .stmtEnd

/-- One exported name. -/
def makeExportSpec (s : Span) (orig : Build ExportName) (exported : Option (Build ExportName)) :
    Build ExportSpecifier := do
  let orig ← orig
  let exported ← optional exported
  return ⟨orig, exported, s⟩

/-- One exported name. -/
def exportSpec : R (Build ExportSpecifier) :=
  makeExportSpec <$> span <*> cat .exportName <*> opt (tok .kwAs *> cat .exportName)

/-- The names in a list of exported names. -/
def exportSpecs : R (Build (List ExportSpecifier)) :=
  commaList (cat .exportSpecs) (cat .exportSpec)

/-- An export of everything; the source is built before the alias. -/
def makeExportAll (s : Span) (name : Option (Build ExportName)) (src : Build StrLit) :
    Build ModuleItem := do
  let src ← src
  let name ← optional name
  return .exportAll src name s

/-- An export of all that another module exports. -/
def exportAll : R (Build ModuleItem) :=
  makeExportAll <$> span <* tok .kwExport <* tok .star <*> opt (tok .kwAs *> cat .exportName)
    <* tok .kwFrom <*> cat .strLit <* cat .stmtEnd

-- ---------------------------------------------------------------------------------------------
-- Statements
-- ---------------------------------------------------------------------------------------------

/-- A statement. -/
def stmt : R (Build Stmt) :=
  ((fun (b : Build Block) => Stmt.blockStmt <$> b) <$> cat .blockStmt)
  <|> cat .emptyStmt <|> cat .varDecl <|> cat .fnDecl <|> cat .classDecl <|> cat .returnStmt
  <|> cat .throwStmt <|> cat .ifStmt <|> cat .whileStmt <|> cat .exprStmt

/-- Statements in braces. -/
def blockStmt : R (Build Block) :=
  (fun s (ss : Option (Build (List Stmt))) => return .mk (← orEmpty ss) s)
  <$> span <* tok .lbrace <*> opt (cat .blockItems) <* tok .rbrace

/-- One statement of a block; a terminator on its own is none. -/
def blockItem : R (Build (List Stmt)) :=
  (single <$> cat .stmt) <|> ((fun _ => .ok []) <$> tok .terminator)

/-- The statements of a block. -/
def blockItems : R (Build (List Stmt)) := plainList (cat .blockItems) (cat .blockItem)

/-- A semicolon on its own. -/
def emptyStmt : R (Build Stmt) := (fun s => .ok (.emptyStmt s)) <$> span <* tok .semi

/-- An expression as a statement. -/
def exprStmt : R (Build Stmt) :=
  (fun s (e : Build Expr) => return .exprStmt (← e) s) <$> span <*> cat .expr <* cat .stmtEnd

/-- A declaration of variables. -/
def varDecl : R (Build Stmt) :=
  (fun s (k : VarKind) (ds : Build (List Declarator)) => return .varDecl k (← ds) s)
  <$> span <*> cat .varKind <*> cat .varDeclarators <* cat .stmtEnd

/-- The word that begins a declaration of variables. -/
def varKind : R VarKind :=
  ((fun _ => .var) <$> tok .kwVar) <|> ((fun _ => .let_) <$> tok .kwLet)
  <|> ((fun _ => .const) <$> tok .kwConst)

/-- The variables of a declaration. -/
def varDeclarators : R (Build (List Declarator)) :=
  commaList (cat .varDeclarators) (cat .varDeclarator)

/-- One variable; its initial value is built before its pattern. -/
def makeDeclarator (s : Span) (name : Build Pat) (init : Option (Build Expr)) :
    Build Declarator := do
  let init ← optional init
  let name ← name
  return .mk name init s

/-- One variable with its initial value, if it has one. -/
def varDeclarator : R (Build Declarator) :=
  makeDeclarator <$> span <*> cat .pat <*> opt (tok .eq *> cat .assign)

/-- A function from its parts. -/
def makeFunction (s : Span) (isAsync isGenerator : Bool) (params : Build (List Pat))
    (body : Build Block) : Build Function := do
  let params ← params
  let body ← body
  return .mk params body isAsync isGenerator s

/-- A declaration of a function. -/
def fnDecl : R (Build Stmt) :=
  (fun s isAsync isGenerator (i : Ident) params body =>
    return .fnDecl i (← makeFunction s isAsync isGenerator params body) s)
  <$> span <*> flag (tok .kwAsync) <* tok .kwFunction <*> flag (tok .star) <*> cat .ident
    <*> cat .params <*> cat .blockStmt

/-- A class from its parts. -/
def makeClass (s : Span) (superClass : Option (Build Expr)) (body : Build (List ClassMember)) :
    Build Class := do
  let superClass ← optional superClass
  let body ← body
  return .mk superClass body s

/-- A declaration of a class. -/
def classDecl : R (Build Stmt) :=
  (fun s (i : Ident) superClass body => return .classDecl i (← makeClass s superClass body) s)
  <$> span <* tok .kwClass <*> cat .ident <*> opt (cat .classHeritage) <*> cat .classBody

/-- A return, with or without a value. -/
def returnStmt : R (Build Stmt) :=
  (fun s (e : Option (Build Expr)) => return .returnStmt (← optional e) s)
  <$> span <* tok .kwReturn <*> opt (cat .assign) <* cat .stmtEnd

/-- A throw. -/
def throwStmt : R (Build Stmt) :=
  (fun s (e : Build Expr) => return .throwStmt (← e) s)
  <$> span <* tok .kwThrow <*> cat .assign <* cat .stmtEnd

/-- A conditional statement; the branch after `else` is built first. -/
def makeIf (s : Span) (test : Build Expr) (cons : Build Stmt) (alt : Option (Build Stmt)) :
    Build Stmt := do
  let alt ← optional alt
  let test ← test
  let cons ← cons
  return .ifStmt test cons alt s

/-- A conditional statement. -/
def ifStmt : R (Build Stmt) :=
  makeIf <$> span <* tok .kwIf <* tok .lpar <*> cat .expr <* tok .rpar <*> cat .stmt
    <*> opt (tok .kwElse *> cat .stmt)

/-- A loop. -/
def makeWhile (s : Span) (test : Build Expr) (body : Build Stmt) : Build Stmt := do
  let test ← test
  let body ← body
  return .whileStmt test body s

/-- A loop with its condition in front. -/
def whileStmt : R (Build Stmt) :=
  makeWhile <$> span <* tok .kwWhile <* tok .lpar <*> cat .expr <* tok .rpar <*> cat .stmt

-- ---------------------------------------------------------------------------------------------
-- Functions and classes
-- ---------------------------------------------------------------------------------------------

/-- Parameters in parentheses. -/
def params : R (Build (List Pat)) := bracketed .lpar .rpar (cat .paramList)

/-- Parameters with commas between them. -/
def paramList : R (Build (List Pat)) := commaList (cat .paramList) (cat .param)

/-- One parameter. -/
def param : R (Build Pat) := cat .pat <|> cat .assignPat <|> cat .restPat

/-- A function as an expression; it may have no name. -/
def fnExpr : R (Build Expr) :=
  (fun s isAsync isGenerator (i : Option Ident) params body =>
    return .fnExpr i (← makeFunction s isAsync isGenerator params body) s)
  <$> span <*> flag (tok .kwAsync) <* tok .kwFunction <*> flag (tok .star) <*> opt (cat .ident)
    <*> cat .params <*> cat .blockStmt

/-- An arrow function. -/
def makeArrow (s : Span) (isAsync : Bool) (params : Build (List Pat)) (body : Build ArrowBody) :
    Build Expr := do
  let params ← params
  let body ← body
  return .arrow params body isAsync s

/-- The body of an arrow function; one in braces is a block. -/
def arrowBody : R (Build ArrowBody) :=
  ((fun (b : Build Block) => ArrowBody.block <$> b) <$> cat .blockStmt)
  <|> ((fun (e : Build Expr) => ArrowBody.expr <$> e) <$> cat .assign)

/-- An arrow function. -/
def arrowFn : R (Build Expr) :=
  makeArrow <$> span <*> flag (tok .kwAsync) <*> cat .arrowParams <* tok .arrow <*> arrowBody

/-- The parameters of an arrow function: one name alone, or a list in parentheses. -/
def arrowParams : R (Build (List Pat)) :=
  ((fun (i : Ident) => .ok [.ident i]) <$> cat .ident) <|> cat .params

/-- A class as an expression; it may have no name. -/
def classExpr : R (Build Expr) :=
  (fun s (i : Option Ident) superClass body =>
    return .classExpr i (← makeClass s superClass body) s)
  <$> span <* tok .kwClass <*> opt (cat .ident) <*> opt (cat .classHeritage) <*> cat .classBody

/-- The class that a class extends. -/
def classHeritage : R (Build Expr) := tok .kwExtends *> cat .lhs

/-- The members of a class in braces. -/
def classBody : R (Build (List ClassMember)) :=
  orEmpty <$> (tok .lbrace *> opt (cat .classItems) <* tok .rbrace)

/-- The members of a class. -/
def classItems : R (Build (List ClassMember)) := plainList (cat .classItems) (cat .classItem)

/-- One member of a class; a terminator or a semicolon on its own is none. -/
def classItem : R (Build (List ClassMember)) :=
  (single <$> cat .classMethod) <|> (single <$> cat .classProp)
  <|> ((fun _ => .ok []) <$> tok .terminator) <|> ((fun _ => .ok []) <$> tok .semi)

/-- The kind of a method in a class: a plain method called `constructor` that is not static is
the constructor. -/
def memberKind (isStatic : Bool) (m : MethodParts) : MethodKind :=
  match m.kind, m.key with
  | .method, .ident i =>
    if !isStatic && i.sym = Text.ofString "constructor" then .constructor else .method
  | k, _ => k

/-- A method or accessor of a class. -/
def classMethod : R (Build ClassMember) :=
  (fun s isStatic (m : Build MethodParts) => do
    let m ← m
    return .method m.key m.function (memberKind isStatic m) isStatic s)
  <$> span <*> flag (tok .kwStatic) <*> cat .methodLike

/-- A field; its value is built before its key. -/
def makeField (s : Span) (isStatic : Bool) (key : Build PropName) (value : Option (Build Expr)) :
    Build ClassMember := do
  let value ← optional value
  let key ← key
  return .field key value isStatic s

/-- A field of a class. -/
def classProp : R (Build ClassMember) :=
  makeField <$> span <*> flag (tok .kwStatic) <*> cat .propName <*> opt (tok .eq *> cat .assign)
    <* cat .stmtEnd

/-- A method, a getter or a setter. -/
def methodLike : R (Build MethodParts) := cat .methodDef <|> cat .getterDef <|> cat .setterDef

/-- A method or accessor; the key is built before the function. -/
def makeMethod (s : Span) (kind : MethodKind) (isAsync isGenerator : Bool) (key : Build PropName)
    (params : Build (List Pat)) (body : Build Block) : Build MethodParts := do
  let key ← key
  let function ← makeFunction s isAsync isGenerator params body
  return ⟨key, function, kind, s⟩

/-- A method. -/
def methodDef : R (Build MethodParts) :=
  (fun s isAsync isGenerator key params body =>
    makeMethod s .method isAsync isGenerator key params body)
  <$> span <*> flag (tok .kwAsync) <*> flag (tok .star) <*> cat .propName <*> cat .params
    <*> cat .blockStmt

/-- A getter, which takes no parameters. -/
def getterDef : R (Build MethodParts) :=
  (fun s key body => makeMethod s .get false false key (.ok []) body)
  <$> span <* tok .kwGet <*> cat .propName <* tok .lpar <* tok .rpar <*> cat .blockStmt

/-- A setter. -/
def setterDef : R (Build MethodParts) :=
  (fun s key params body => makeMethod s .set false false key params body)
  <$> span <* tok .kwSet <*> cat .propName <*> cat .params <*> cat .blockStmt

-- ---------------------------------------------------------------------------------------------
-- Patterns
-- ---------------------------------------------------------------------------------------------

/-- A pattern without a default value. -/
def pat : R (Build Pat) :=
  ((fun (i : Ident) => .ok (.ident i)) <$> cat .ident) <|> cat .objectPat <|> cat .arrayPat

/-- An object pattern. -/
def objectPat : R (Build Pat) :=
  (fun s (ps : Build (List PatProp)) => return .object (← ps) s)
  <$> span <*> bracketed .lbrace .rbrace (cat .patProps)

/-- The properties of an object pattern. -/
def patProps : R (Build (List PatProp)) := commaList (cat .patProps) (cat .patProp)

/-- One property of an object pattern. -/
def patProp : R (Build PatProp) :=
  cat .assignPatProp <|> cat .keyValuePatProp
  <|> ((fun (p : Build Pat) => PatProp.pat <$> p) <$> cat .restPat)

/-- A property bound to its own name, with or without a default value. -/
def assignPatProp : R (Build PatProp) :=
  (fun s (i : Ident) (e : Option (Build Expr)) => return .assign i (← optional e) s)
  <$> span <*> cat .ident <*> opt (tok .eq *> cat .assign)

/-- A property of an object pattern with its own pattern. -/
def makeKeyValuePat (s : Span) (key : Build PropName) (value : Build Pat) : Build PatProp := do
  let key ← key
  let value ← value
  return .keyValue key value s

/-- A property bound by a pattern. -/
def keyValuePatProp : R (Build PatProp) :=
  makeKeyValuePat <$> span <*> cat .propName <* tok .colon <*> cat .patElem

/-- A pattern for all that is left. -/
def restPat : R (Build Pat) :=
  (fun s (p : Build Pat) => return .rest (← p) s) <$> span <* tok .ellipsis <*> cat .pat

/-- A pattern with or without a default value. -/
def patElem : R (Build Pat) := cat .pat <|> cat .assignPat

/-- The elements of an array pattern. -/
def patElems : R (Build (List Pat)) := commaList (cat .patElems) (cat .patElem)

/-- A pattern with a default value. -/
def makeAssignPat (s : Span) (left : Build Pat) (right : Build Expr) : Build Pat := do
  let left ← left
  let right ← right
  return .assign left right s

/-- A pattern with a default value. -/
def assignPat : R (Build Pat) :=
  makeAssignPat <$> span <*> cat .pat <* tok .eq <*> cat .assign

/-- An array pattern. -/
def arrayPat : R (Build Pat) :=
  (fun s (ps : Build (List Pat)) => return .array (← ps) s)
  <$> span <*> bracketed .lsqb .rsqb (cat .patElems)

-- ---------------------------------------------------------------------------------------------
-- Expressions
-- ---------------------------------------------------------------------------------------------

/-- An expression. -/
def expr : R (Build Expr) := cat .assign

/-- An assignment. -/
def makeAssign (s : Span) (left : Build Expr) (op : Text) (right : Build Expr) : Build Expr := do
  let left ← left
  let right ← right
  return .assign op (.expr left) right s

/-- An expression with assignments, which associate to the right, and arrow functions. -/
def assign : R (Build Expr) :=
  cat .cond <|> cat .arrowFn
  <|> (makeAssign <$> span <*> cat .lhs <*> cat .assignOp <*> cat .assign)

/-- An operator of assignment. -/
def assignOp : R Text := (fun (t : Token) => t.text) <$> oneOf [.eq, .compoundAssign]

/-- A conditional expression. -/
def makeCond (s : Span) (test cons alt : Build Expr) : Build Expr := do
  let test ← test
  let cons ← cons
  let alt ← alt
  return .cond test cons alt s

/-- A conditional expression. -/
def cond : R (Build Expr) :=
  cat .logicOr
  <|> (makeCond <$> span <*> cat .logicOr <* tok .question <*> cat .assign <* tok .colon
        <*> cat .assign)

/-- A binary operation. -/
def makeBinary (s : Span) (left : Build Expr) (op : Token) (right : Build Expr) : Build Expr := do
  let left ← left
  let right ← right
  return .binary op.text left right s

/-- One level of binary operators, which associate to the left: a phrase of the tighter level
`next`, or one of this level, an operator and one of `next`. -/
def level (this : R (Build Expr)) (ops : List Terminal) (next : R (Build Expr)) :
    R (Build Expr) :=
  next <|> (makeBinary <$> span <*> this <*> oneOf ops <*> next)

/-- Disjunctions and choices of a value that is there. -/
def logicOr : R (Build Expr) := level (cat .logicOr) [.orOp, .nullish] (cat .logicAnd)

/-- Conjunctions. -/
def logicAnd : R (Build Expr) := level (cat .logicAnd) [.andOp] (cat .bitOr)

/-- Bitwise disjunctions. -/
def bitOr : R (Build Expr) := level (cat .bitOr) [.pipe] (cat .bitXor)

/-- Bitwise exclusive disjunctions. -/
def bitXor : R (Build Expr) := level (cat .bitXor) [.caret] (cat .bitAnd)

/-- Bitwise conjunctions. -/
def bitAnd : R (Build Expr) := level (cat .bitAnd) [.amp] (cat .equality)

/-- Tests for equality. -/
def equality : R (Build Expr) := level (cat .equality) [.eqOp] (cat .relational)

/-- Comparisons and tests for membership. -/
def relational : R (Build Expr) :=
  level (cat .relational) [.relOp, .kwIn, .kwInstanceof] (cat .shift)

/-- Shifts. -/
def shift : R (Build Expr) := level (cat .shift) [.shiftOp] (cat .additive)

/-- Sums and differences. -/
def additive : R (Build Expr) := level (cat .additive) [.addOp] (cat .multiplicative)

/-- Products, quotients and remainders. -/
def multiplicative : R (Build Expr) := level (cat .multiplicative) [.star, .mulOp] (cat .unary)

/-- Operators in front of their operand. -/
def unary : R (Build Expr) :=
  cat .lhs
  <|> ((fun s (op : Token) (e : Build Expr) => return .unary op.text (← e) s)
        <$> span <*> oneOf [.unaryOp, .addOp, .kwTypeof, .kwVoid, .kwDelete] <*> cat .unary)
  <|> ((fun s (e : Build Expr) => return .awaitExpr (← e) s)
        <$> span <* tok .kwAwait <*> cat .unary)

/-- What may stand to the left of an assignment. -/
def lhs : R (Build Expr) := cat .newOnly <|> cat .call

/-- Accesses and instantiations without arguments. -/
def newOnly : R (Build Expr) :=
  cat .member
  <|> ((fun s (e : Build Expr) => return .newBare (← e) s)
        <$> span <* tok .kwNew <*> cat .newOnly)

/-- A member access by name. -/
def makeMember (s : Span) (obj : Build Expr) (i : Ident) : Build Expr := do
  let obj ← obj
  return .member obj (.ident i) s

/-- A member access by a computed key, which is built before the object. -/
def makeIndex (s : Span) (obj key : Build Expr) : Build Expr := do
  let key ← key
  let obj ← obj
  return .member obj (.computed key key.span) s

/-- A template with a tag. -/
def makeTagged (s : Span) (tag : Build Expr) (template : Build Template) : Build Expr := do
  let tag ← tag
  let template ← template
  return .taggedTpl tag template s

/-- A call. -/
def makeCall (s : Span) (callee : Build Expr) (args : Build (List Expr)) : Build Expr := do
  let callee ← callee
  let args ← args
  return .call callee args s

/-- An instantiation with arguments. -/
def makeNew (s : Span) (callee : Build Expr) (args : Build (List Expr)) : Build Expr := do
  let callee ← callee
  let args ← args
  return .newCall callee args s

/-- The accesses that may follow an object. -/
def accesses (obj : R (Build Expr)) : R (Build Expr) :=
  (makeMember <$> span <*> obj <* tok .dot <*> cat .propIdent)
  <|> (makeIndex <$> span <*> obj <* tok .lsqb <*> cat .expr <* tok .rsqb)
  <|> (makeTagged <$> span <*> obj <*> cat .tplLit)

/-- Accesses and instantiations with arguments. -/
def member : R (Build Expr) :=
  cat .primary <|> accesses (cat .member)
  <|> (makeNew <$> span <* tok .kwNew <*> cat .member <*> cat .arguments)

/-- Calls and what follows them. -/
def call : R (Build Expr) :=
  (makeCall <$> span <*> cat .member <*> cat .arguments)
  <|> ((fun s (args : Build (List Expr)) => makeCall s (.ok (.importExpr s)) args)
        <$> span <* tok .kwImport <*> cat .arguments)
  <|> (makeCall <$> span <*> cat .call <*> cat .arguments)
  <|> accesses (cat .call)

/-- Arguments in parentheses. -/
def arguments : R (Build (List Expr)) := bracketed .lpar .rpar (cat .args)

/-- Arguments with commas between them. -/
def args : R (Build (List Expr)) := commaList (cat .args) (cat .arg)

/-- One argument, which may be spread. -/
def arg : R (Build Expr) :=
  cat .assign
  <|> ((fun (p : Build SpreadParts) => (fun p => Expr.spread p.expr p.span) <$> p)
        <$> cat .spread)

/-- Three dots and what they spread. -/
def spread : R (Build SpreadParts) :=
  (fun s (e : Build Expr) => return ⟨← e, s⟩) <$> span <* tok .ellipsis <*> cat .assign

/-- An expression that no operator splits. -/
def primary : R (Build Expr) :=
  ((fun (i : Ident) => .ok (.ident i)) <$> cat .ident)
  <|> ((fun (l : Build StrLit) => Expr.str <$> l) <$> cat .strLit)
  <|> ((fun (l : Build NumLit) => Expr.num <$> l) <$> cat .numLit)
  <|> ((fun (t : Build Template) => Expr.tpl <$> t) <$> cat .tplLit)
  <|> ((fun s (t : Token) => .ok (makeRegex s t)) <$> span <*> tok .regex)
  <|> ((fun s => .ok (.bool true s)) <$> span <* tok .kwTrue)
  <|> ((fun s => .ok (.bool false s)) <$> span <* tok .kwFalse)
  <|> ((fun s => .ok (.null s)) <$> span <* tok .kwNull)
  <|> ((fun s => .ok (.thisExpr s)) <$> span <* tok .kwThis)
  <|> ((fun s => .ok (.superExpr s)) <$> span <* tok .kwSuper)
  <|> cat .arrayLit <|> cat .objectLit <|> cat .fnExpr <|> cat .classExpr <|> cat .parenExpr
  <|> ((fun (n : Build JsxNode) => Expr.jsx <$> n) <$> cat .jsxElement)
  <|> ((fun (n : Build JsxNode) => Expr.jsx <$> n) <$> cat .jsxFragment)

/-- An expression in parentheses, which the tree keeps. -/
def parenExpr : R (Build Expr) :=
  (fun s (e : Build Expr) => return .paren (← e) s)
  <$> span <* tok .lpar <*> cat .expr <* tok .rpar

/-- An array literal. -/
def arrayLit : R (Build Expr) :=
  (fun s (es : Build (List Expr)) => return .array (← es) s)
  <$> span <*> bracketed .lsqb .rsqb (cat .args)

/-- An object literal. -/
def objectLit : R (Build Expr) :=
  (fun s (ps : Build (List Property)) => return .object (← ps) s)
  <$> span <*> bracketed .lbrace .rbrace (cat .props)

/-- The properties of an object literal. -/
def props : R (Build (List Property)) := commaList (cat .props) (cat .prop)

/-- A method of an object. -/
def makeMethodProp (m : Build MethodParts) : Build Property := do
  let m ← m
  return .method m.key m.function m.kind m.span

/-- One property of an object literal. -/
def prop : R (Build Property) :=
  cat .keyValueProp <|> cat .shorthandProp <|> (makeMethodProp <$> cat .methodLike)
  <|> ((fun (p : Build SpreadParts) => (fun p => Property.spread p.expr p.span) <$> p)
        <$> cat .spread)

/-- A property with a value. -/
def makeKeyValue (s : Span) (key : Build PropName) (value : Build Expr) : Build Property := do
  let key ← key
  let value ← value
  return .keyValue key value s

/-- A property with its value. -/
def keyValueProp : R (Build Property) :=
  makeKeyValue <$> span <*> cat .propName <* tok .colon <*> cat .assign

/-- A property named for the variable that holds its value. -/
def shorthandProp : R (Build Property) :=
  (fun s (i : Ident) => .ok (.shorthand i s)) <$> span <*> cat .ident

/-- The key of a property. -/
def propName : R (Build PropName) :=
  ((fun (i : Ident) => .ok (.ident i)) <$> cat .propIdent)
  <|> ((fun (l : Build StrLit) => PropName.str <$> l) <$> cat .strLit)
  <|> ((fun (l : Build NumLit) => PropName.num <$> l) <$> cat .numLit)
  <|> cat .computedProp

/-- A computed key in brackets. -/
def computedProp : R (Build PropName) :=
  (fun s (e : Build Expr) => return .computed (← e) s)
  <$> span <* tok .lsqb <*> cat .assign <* tok .rsqb

-- ---------------------------------------------------------------------------------------------
-- JSX
-- ---------------------------------------------------------------------------------------------

/-- An element with its closing tag. Name and attributes are built first, then the closing name
is compared, and only then the children are built. -/
def makeElement (s : Span) (opening : Build OpeningTag) (children : Option (Build (List JsxChild)))
    (closing : TagName) : Build JsxNode := do
  let tag ← opening
  if closing.name.text = tag.name.text then
    let children ← orEmpty children
    return .element tag.name tag.attrs children false s
  else
    throw (.closingName closing.first tag.name.text)

/-- An element, closed in itself or by a closing tag. -/
def jsxElement : R (Build JsxNode) :=
  ((fun s (tag : Build OpeningTag) => do
      let tag ← tag
      return .element tag.name tag.attrs [] true s)
    <$> span <*> cat .jsxSelfClosing)
  <|> (makeElement <$> span <*> cat .jsxOpening <*> opt (cat .jsxChildren) <*> cat .jsxClosing)

/-- A tag from its name and attributes. -/
def makeTag (name : TagName) (attrs : Option (Build (List JsxAttr))) : Build OpeningTag := do
  let attrs ← orEmpty attrs
  return ⟨name.name, attrs⟩

/-- A tag that closes its own element. -/
def jsxSelfClosing : R (Build OpeningTag) :=
  makeTag <$> (tok .jsxOpen *> cat .jsxName) <*> opt (cat .jsxAttrs) <* tok .jsxSlash
    <* tok .jsxGt

/-- An opening tag. -/
def jsxOpening : R (Build OpeningTag) :=
  makeTag <$> (tok .jsxOpen *> cat .jsxName) <*> opt (cat .jsxAttrs) <* tok .jsxGt

/-- A closing tag. -/
def jsxClosing : R TagName := tok .jsxOpen *> tok .jsxSlash *> cat .jsxName <* tok .jsxGt

/-- A fragment: children between tags without a name. -/
def jsxFragment : R (Build JsxNode) :=
  (fun s (cs : Option (Build (List JsxChild))) => return .fragment (← orEmpty cs) s)
  <$> span <* tok .jsxOpen <* tok .jsxGt <*> opt (cat .jsxChildren) <* tok .jsxOpen
    <* tok .jsxSlash <* tok .jsxGt

/-- The name in a tag: words with dots or with one colon between them. -/
def jsxName : R TagName :=
  ((fun s (t : Token) (rest : Option (List Text)) =>
      ⟨.member (t.text :: rest.getD []) s, t⟩)
    <$> span <*> tok .jsxName <*> opt (cat .jsxNameRest))
  <|> ((fun s (ns name : Token) => ⟨.namespaced ns.text name.text s, ns⟩)
    <$> span <*> tok .jsxName <* tok .colon <*> tok .jsxName)

/-- The words after the first in a name with dots. -/
def jsxNameRest : R (List Text) :=
  ((fun (ts : List Text) (t : Token) => ts ++ [t.text])
    <$> cat .jsxNameRest <* tok .dot <*> tok .jsxName)
  <|> ((fun (t : Token) => [t.text]) <$> (tok .dot *> tok .jsxName))

/-- The attributes of a tag. -/
def jsxAttrs : R (Build (List JsxAttr)) :=
  plainList (cat .jsxAttrs) (single <$> (cat .jsxAttr <|> cat .jsxSpreadAttr))

/-- An attribute with its value, if it has one. -/
def jsxAttr : R (Build JsxAttr) :=
  (fun s (name : Text) (v : Option (Build JsxAttrValue)) => return .named name (← optional v) s)
  <$> span <*> cat .jsxAttrName <*> opt (tok .eq *> cat .jsxAttrValue)

/-- The name of an attribute, which may have one colon. -/
def jsxAttrName : R Text :=
  (fun (a : Token) (b : Option Token) =>
    match b with
    | none => a.text
    | some b => a.text ++ ":" ++ b.text)
  <$> tok .jsxName <*> opt (tok .colon *> tok .jsxName)

/-- The value of an attribute. -/
def jsxAttrValue : R (Build JsxAttrValue) :=
  ((fun (l : Build StrLit) => JsxAttrValue.str <$> l) <$> cat .jsxStr)
  <|> ((fun (c : Build JsxChild) => JsxAttrValue.child <$> c) <$> cat .jsxContainer)
  <|> ((fun (n : Build JsxNode) => (fun n => JsxAttrValue.child (.node n)) <$> n)
        <$> cat .jsxElement)
  <|> ((fun (n : Build JsxNode) => (fun n => JsxAttrValue.child (.node n)) <$> n)
        <$> cat .jsxFragment)

/-- Attributes spread into a tag. -/
def jsxSpreadAttr : R (Build JsxAttr) :=
  (fun s (e : Build Expr) => return .spread (← e) s)
  <$> span <* tok .jsxLbrace <* tok .ellipsis <*> cat .assign <* tok .jsxRbrace

/-- The children of an element. -/
def jsxChildren : R (Build (List JsxChild)) :=
  plainList (cat .jsxChildren) (single <$> cat .jsxChild)

/-- One child of an element. -/
def jsxChild : R (Build JsxChild) :=
  cat .jsxText <|> cat .jsxContainer <|> cat .jsxSpreadChild
  <|> ((fun (n : Build JsxNode) => JsxChild.node <$> n) <$> cat .jsxElement)
  <|> ((fun (n : Build JsxNode) => JsxChild.node <$> n) <$> cat .jsxFragment)

/-- An expression in braces; the braces may be empty. -/
def jsxContainer : R (Build JsxChild) :=
  (fun s (e : Option (Build Expr)) => return .container (← optional e) s)
  <$> span <* tok .jsxLbrace <*> opt (cat .expr) <* tok .jsxRbrace

/-- Children spread into an element. -/
def jsxSpreadChild : R (Build JsxChild) :=
  (fun s (e : Build Expr) => return .spread (← e) s)
  <$> span <* tok .jsxLbrace <* tok .ellipsis <*> cat .assign <* tok .jsxRbrace

/-- Text between tags. -/
def jsxText : R (Build JsxChild) :=
  (fun s (t : Token) => .ok (.text t.text s)) <$> span <*> tok .jsxText

/-- An attribute string, whose value is the text between its quotes. -/
def jsxStr : R (Build StrLit) :=
  (fun s (t : Token) => .ok ⟨inner 1 t.text, some t.text, s⟩) <$> span <*> tok .jsxString

-- ---------------------------------------------------------------------------------------------
-- The grammar
-- ---------------------------------------------------------------------------------------------

/-- The rule of each category. -/
def rule : (c : Category) → R c.Value
  | .stmtEnd => stmtEnd
  | .ident => ident
  | .propIdent => propIdent
  | .strLit => strLit
  | .numLit => numLit
  | .exportName => exportName
  | .computedProp => computedProp
  | .propName => propName
  | .jsxText => jsxText
  | .jsxStr => jsxStr
  | .jsxNameRest => jsxNameRest
  | .jsxName => jsxName
  | .jsxAttrName => jsxAttrName
  | .jsxSelfClosing => jsxSelfClosing
  | .jsxOpening => jsxOpening
  | .jsxClosing => jsxClosing
  | .jsxElement => jsxElement
  | .jsxFragment => jsxFragment
  | .jsxContainer => jsxContainer
  | .jsxSpreadChild => jsxSpreadChild
  | .jsxChild => jsxChild
  | .jsxChildren => jsxChildren
  | .jsxAttrValue => jsxAttrValue
  | .jsxAttr => jsxAttr
  | .jsxSpreadAttr => jsxSpreadAttr
  | .jsxAttrs => jsxAttrs
  | .params => params
  | .blockStmt => blockStmt
  | .fnExpr => fnExpr
  | .classHeritage => classHeritage
  | .classBody => classBody
  | .classExpr => classExpr
  | .objectLit => objectLit
  | .arrayLit => arrayLit
  | .parenExpr => parenExpr
  | .tplRest => tplRest
  | .tplLit => tplLit
  | .primary => primary
  | .arguments => arguments
  | .member => member
  | .call => call
  | .newOnly => newOnly
  | .lhs => lhs
  | .unary => unary
  | .multiplicative => multiplicative
  | .additive => additive
  | .shift => shift
  | .relational => relational
  | .equality => equality
  | .bitAnd => bitAnd
  | .bitXor => bitXor
  | .bitOr => bitOr
  | .logicAnd => logicAnd
  | .logicOr => logicOr
  | .cond => cond
  | .arrowParams => arrowParams
  | .arrowFn => arrowFn
  | .assignOp => assignOp
  | .assign => assign
  | .expr => expr
  | .spread => spread
  | .arg => arg
  | .args => args
  | .objectPat => objectPat
  | .arrayPat => arrayPat
  | .pat => pat
  | .assignPat => assignPat
  | .restPat => restPat
  | .patElem => patElem
  | .patElems => patElems
  | .assignPatProp => assignPatProp
  | .keyValuePatProp => keyValuePatProp
  | .patProp => patProp
  | .patProps => patProps
  | .param => param
  | .paramList => paramList
  | .keyValueProp => keyValueProp
  | .shorthandProp => shorthandProp
  | .methodDef => methodDef
  | .getterDef => getterDef
  | .setterDef => setterDef
  | .methodLike => methodLike
  | .prop => prop
  | .props => props
  | .classMethod => classMethod
  | .classProp => classProp
  | .classItem => classItem
  | .classItems => classItems
  | .varKind => varKind
  | .varDeclarator => varDeclarator
  | .varDeclarators => varDeclarators
  | .varDecl => varDecl
  | .fnDecl => fnDecl
  | .classDecl => classDecl
  | .returnStmt => returnStmt
  | .throwStmt => throwStmt
  | .ifStmt => ifStmt
  | .whileStmt => whileStmt
  | .exprStmt => exprStmt
  | .emptyStmt => emptyStmt
  | .stmt => stmt
  | .blockItem => blockItem
  | .blockItems => blockItems
  | .namespaceSpec => namespaceSpec
  | .namedSpec => namedSpec
  | .namedSpecs => namedSpecs
  | .exportSpec => exportSpec
  | .exportSpecs => exportSpecs
  | .importDecl => importDecl
  | .importBare => importBare
  | .exportDefaultDecl => exportDefaultDecl
  | .exportDefaultExpr => exportDefaultExpr
  | .exportNamedDecl => exportNamedDecl
  | .namedExport => namedExport
  | .exportAll => exportAll
  | .moduleDecl => moduleDecl
  | .item => item
  | .items => items

end ModuleGrammar

/-- The grammar of modules. -/
def moduleGrammar : Grammar Category.Value := ⟨ModuleGrammar.rule⟩

end ClientBoundary
