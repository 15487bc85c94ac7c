import ClientBoundary.Proofs.Nodes
import ClientBoundary.Proofs.TokenTexts

/-!
# Regular nodes

Trees can be written down by hand that no source stands for: an operand that binds less tightly than
its operator, a spread element outside a list, a template with a chunk too many. A node is *regular*
when, as far as it and its direct parts go, it is none of these.

* `Node.Binds` — operands bind tightly enough to stand where they do without parentheses.
* `Node.Sorted` — every field holds something of a sort that belongs there.
* `Node.Faithful` — literals, templates, elements and methods agree with what they were read from.
* `Node.Regular` — all of these, and the node is none of those that cannot be printed.
-/

namespace ClientBoundary

-- ---------------------------------------------------------------------------------------------
-- Levels
-- ---------------------------------------------------------------------------------------------

/-- The binary operators with their levels: an operator of a higher level binds more tightly. -/
def operatorLevels : List (String × Nat) :=
  [("||", 3), ("??", 3), ("&&", 4), ("|", 5), ("^", 6), ("&", 7),
   ("==", 8), ("!=", 8), ("===", 8), ("!==", 8),
   ("<", 9), (">", 9), ("<=", 9), (">=", 9), ("in", 9), ("instanceof", 9),
   ("<<", 10), (">>", 10), (">>>", 10), ("+", 11), ("-", 11), ("*", 12), ("/", 12), ("%", 12)]

/-- The level of a binary operator. -/
def operatorLevel? (op : Text) : Option Nat :=
  (operatorLevels.find? fun p => Text.ofString p.1 = op).map (·.2)

/-- The level of unary operations. -/
def unaryLevel : Nat := 13

/-- The level of accesses, calls and instantiations: what may stand to the left of an assignment. -/
def lhsLevel : Nat := 14

/-- The level of what no operator splits, parentheses among it. -/
def primaryLevel : Nat := 15

namespace Expr

/-- The level of an expression: assignments and arrow functions bind least, then conditional
expressions, then the binary operators, then operators in front, accesses and calls. What is no
expression of its own, as a spread element, is below them all. -/
def level : Expr → Nat
  | .spread .. | .elision | .invalid _ => 0
  | .assign .. | .arrow .. => 1
  | .cond .. => 2
  | .binary op _ _ _ => (operatorLevel? op).getD 1
  | .unary .. | .awaitExpr .. => unaryLevel
  | .member .. | .call .. | .newCall .. | .newBare .. | .taggedTpl .. | .importExpr _ => lhsLevel
  | .ident _ | .str _ | .num _ | .bool .. | .null _ | .tpl _ | .regex .. | .thisExpr _
  | .superExpr _ | .array .. | .object .. | .fnExpr .. | .classExpr .. | .paren .. | .jsx _ =>
    primaryLevel

/-- A conditional expression, an assignment or an arrow function. -/
def isLoose : Expr → Bool
  | .cond .. | .assign .. | .arrow .. => true
  | _ => false

/-- An instantiation without arguments. -/
def isNewBare : Expr → Bool
  | .newBare .. => true
  | _ => false

/-- A call is reached by going from accesses and tagged templates to their objects and from
instantiations to what they instantiate. -/
def hasCallInSpine : Expr → Bool
  | .call .. => true
  | .member o _ _ => o.hasCallInSpine
  | .taggedTpl t _ _ => t.hasCallInSpine
  | .newCall c _ _ => c.hasCallInSpine
  | .newBare c _ => c.hasCallInSpine
  | _ => false

/-- An expression of its own, which is neither spread nor missing. -/
def isExpr : Expr → Bool
  | .spread .. | .elision | .invalid _ => false
  | _ => true

/-- An expression or a spread one. -/
def isArgument : Expr → Bool
  | .elision | .invalid _ => false
  | _ => true

/-- A function or a class. -/
def isFunctionOrClass : Expr → Bool
  | .fnExpr .. | .classExpr .. => true
  | _ => false

end Expr

/-- A pattern that is not missing. -/
def Pat.isPat : Pat → Bool
  | .elision | .invalid _ => false
  | _ => true

/-- A pattern for all that is left. -/
def Pat.isRest : Pat → Bool
  | .rest .. => true
  | _ => false

/-- A declaration that may be exported. -/
def Stmt.isDeclaration : Stmt → Bool
  | .varDecl .. | .fnDecl .. | .classDecl .. => true
  | _ => false

/-- An expression in braces, an element or a fragment. -/
def JsxChild.isValue : JsxChild → Bool
  | .container .. | .node _ => true
  | _ => false

-- ---------------------------------------------------------------------------------------------
-- Conditions on a node
-- ---------------------------------------------------------------------------------------------

namespace Node

/-- The operands of a node bind as tightly as their places ask for. -/
def Binds : Node → Prop
  | .expr (.binary op l r _) => ∃ k, operatorLevel? op = some k ∧ k ≤ l.level ∧ k < r.level
  | .expr (.unary _ e _) | .expr (.awaitExpr e _) => unaryLevel ≤ e.level
  | .expr (.cond t _ _ _) => t.isLoose = false
  | .expr (.member o _ _) | .expr (.call o _ _) | .expr (.taggedTpl o _ _) =>
    lhsLevel ≤ o.level ∧ o.isNewBare = false
  | .expr (.newCall c _ _) | .expr (.newBare c _) => c.hasCallInSpine = false
  | .expr (.assign _ t _ _) => ∃ e, t = .expr e ∧ lhsLevel ≤ e.level
  | .cls (.mk (some e) _ _) => lhsLevel ≤ e.level
  | _ => True

/-- The fields of a node hold what may stand there: expressions of their own and not spread or
missing ones, where they do not stand in a list, and likewise for patterns, declarations and the
values of attributes. -/
def Sorted : Node → Prop
  | .item (.exportDecl d _) => d.isDeclaration = true
  | .item (.exportDefaultDecl e _) => e.isFunctionOrClass = true
  | .item (.exportDefaultExpr e _) => e.isExpr = true
  | .expr (.array es _) => ∀ e ∈ es, e.isArgument = true ∨ e = .elision
  | .expr (.call c es _) | .expr (.newCall c es _) =>
    c.isExpr = true ∧ ∀ e ∈ es, e.isArgument = true
  | .expr (.spread e _) | .expr (.paren e _) | .expr (.newBare e _) | .expr (.unary _ e _)
  | .expr (.awaitExpr e _) | .expr (.member e _ _) | .expr (.taggedTpl e _ _)
  | .expr (.assign _ _ e _) => e.isExpr = true
  | .expr (.binary _ l r _) => l.isExpr = true ∧ r.isExpr = true
  | .expr (.cond t c a _) => t.isExpr = true ∧ c.isExpr = true ∧ a.isExpr = true
  | .expr (.arrow ps _ _ _) | .function (.mk ps _ _ _ _) => ∀ p ∈ ps, p.isPat = true
  | .template (.mk _ _ es _) => ∀ e ∈ es, e.isExpr = true
  | .property (.keyValue _ e _) | .property (.spread e _) | .propName (.computed e _)
  | .memberKey (.computed e _) | .target (.expr e) | .arrowBody (.expr e) => e.isExpr = true
  | .target (.pat p) => p.isPat = true
  | .cls (.mk e _ _) | .classMember (.field _ e _ _) | .patProp (.assign _ e _)
  | .child (.container e _) | .stmt (.returnStmt e _) => e.all Expr.isExpr = true
  | .pat (.array ps _) => ∀ p ∈ ps, p.isPat = true ∨ p = .elision
  | .pat (.assign p e _) => p.isPat = true ∧ e.isExpr = true
  | .pat (.rest p _) => p.isPat = true
  | .patProp (.keyValue _ p _) => p.isPat = true
  | .patProp (.pat p) => p.isRest = true
  | .attr (.spread e _) | .child (.spread e _) => e.isExpr = true
  | .attrValue (.child c) => c.isValue = true
  | .stmt (.exprStmt e _) | .stmt (.throwStmt e _) | .stmt (.ifStmt e _ _ _)
  | .stmt (.whileStmt e _ _) => e.isExpr = true
  | .declarator (.mk p e _) => p.isPat = true ∧ e.all Expr.isExpr = true
  | _ => True

/-- A literal has the form it was written in and the value of that form, a template has one chunk
more than it has expressions, an element that closes itself has no children, and a method is the
constructor of a class exactly when it is a plain one of that name that is not static. -/
def Faithful : Node → Prop
  | .str l => ∃ raw, l.raw = some raw ∧ StringLiteral.value raw = .ok l.value
  | .attrStr l => ∃ quote, l.raw = some (.char quote :: (l.value ++ [.char quote]))
  | .num l => ∃ raw, l.raw = some raw ∧ NumberLiteral.value raw = .ok l.value
  | .template (.mk head rest es _) =>
    rest.length = es.length ∧ ChunkText head ∧ ∀ q ∈ rest, ChunkText q
  | .jsx (.element _ _ cs selfClosing _) => selfClosing = true → cs = []
  | .property (.method _ _ kind _) => kind ≠ .constructor
  | .classMember (.method key _ kind isStatic _) =>
    kind = .constructor ↔ isStatic = false ∧ kind ≠ .get ∧ kind ≠ .set ∧
      ∃ i : Ident, key = .ident i ∧ i.sym = Text.ofString "constructor"
  | _ => True

/-- A node that stands for nothing. -/
def isInvalid : Node → Bool
  | .expr (.invalid _) | .propName (.invalid _) | .property (.invalid _) | .classMember (.invalid _)
  | .pat (.invalid _) | .stmt (.invalid _) => true
  | _ => false

/-- The text that the printer writes for a node of a sort in which a node may stand for nothing. -/
def text? (depth : Nat) : Node → Option Text
  | .expr e => some (Printer.expr depth e)
  | .propName k => some (Printer.propName depth k)
  | .property p => some (Printer.prop depth p)
  | .classMember m => some (Printer.member depth m)
  | .pat p => some (Printer.pat depth p)
  | .stmt s => some (Printer.stmt depth s)
  | _ => none

/-- What is printed in the place of a node that stands for nothing. It is the same at every
depth. -/
def fallback? (n : Node) : Option Text :=
  if n.isInvalid then n.text? 0 else none

/-- A node that is in order as far as it and its direct parts go. -/
structure Regular (n : Node) : Prop where
  binds : n.Binds
  sorted : n.Sorted
  faithful : n.Faithful
  printed : n.fallback? = none

end Node

end ClientBoundary
