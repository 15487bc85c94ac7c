import ClientBoundary.Token.Lexer

/-!
# Ends of statements

Statements end at a semicolon or at a `terminator`, and terminators are not written: they are
inserted between the tokens. A line feed becomes one when the token before it can end a
statement, the innermost open bracket is the brace of a block (or there is none), and the token
after it cannot go on with the expression. One more stands before the brace that closes a block,
and one at the end of the input, under the same condition on the token before.

A brace is classed when it opens. After a token that expects an expression it opens a group — an
object, a pattern, a list of specifiers — in which line feeds mean nothing; elsewhere it opens a
block. Parentheses, square brackets, substitutions and containers always group.

A `terminator` takes the place of the line feed it stands for, of the brace it precedes, or of
the last token.
-/

namespace ClientBoundary

/-- What an open bracket encloses. -/
inductive Bracket where
  | block
  | group
deriving DecidableEq, Repr, Inhabited

/-- The state of the insertion between two tokens. -/
structure Insertion where
  /-- The open brackets, innermost first. -/
  brackets : List Bracket := []
  /-- The terminal last put out, an inserted terminator included. -/
  last : Option Terminal := none
  /-- A line feed that will end the statement unless the next token goes on with it. -/
  pending : Option Token := none
  /-- The last token of the source that was put out. -/
  lastToken : Option Token := none
deriving DecidableEq, Repr, Inhabited

namespace Insertion

/-- Terminals that can end a statement. -/
def terminable : Terminal → Bool
  | .name | .string | .number | .template | .tplTail | .regex | .jsxGt
  | .kwTrue | .kwFalse | .kwNull | .kwThis | .kwSuper
  | .rpar | .rsqb | .rbrace | .kwReturn
  | .kwFrom | .kwAs | .kwGet | .kwSet | .kwStatic => true
  | _ => false

/-- Terminals that go on with the expression of the line before. -/
def continues : Terminal → Bool
  | .dot | .lpar | .lsqb | .rpar | .rsqb | .question | .colon | .comma | .semi | .arrow
  | .eq | .compoundAssign | .addOp | .star | .mulOp | .eqOp | .relOp | .shiftOp | .andOp | .orOp
  | .nullish | .pipe | .caret | .amp | .kwIn | .kwInstanceof => true
  | _ => false

/-- Terminals after which a line feed ends the statement whatever follows. -/
def restricted : Terminal → Bool
  | .kwReturn => true
  | _ => false

/-- Whether a brace opens a block after the given terminal, or at the start of the input. -/
def opensBlock : Option Terminal → Bool
  | none => true
  | some .rpar | some .arrow | some .rbrace | some .terminator | some .semi | some .lbrace
  | some .kwElse | some .kwClass | some .name
  | some .kwFrom | some .kwAs | some .kwGet | some .kwSet | some .kwStatic => true
  | _ => false

/-- Whether a line feed between two terminals ends the statement. An `else` goes on with the
block before it, and with nothing else. -/
def endsStatement (next : Terminal) (last : Option Terminal) : Bool :=
  if next = .kwElse then last ≠ some .rbrace else !continues next

/-- A terminator at the place of the given token. -/
def terminatorAt (t : Token) : Token := ⟨.terminator, [], t.start, t.stop⟩

/-- Whether the terminal last put out can end a statement. -/
def canTerminate (s : Insertion) : Bool :=
  match s.last with
  | none => false
  | some t => terminable t

/-- Whether line feeds count here: no bracket is open, or the innermost is that of a block. -/
def inBlock (s : Insertion) : Bool :=
  match s.brackets with
  | [] => true
  | b :: _ => b = .block

/-- Whether the terminal last put out is a restricted one. -/
def isRestricted (s : Insertion) : Bool :=
  match s.last with
  | none => false
  | some t => restricted t

/-- The brackets open after a token, when `last` was put out before it. -/
def bracketsAfter (brackets : List Bracket) (last : Option Terminal) : Terminal → List Bracket
  | .lpar | .lsqb | .jsxLbrace | .tplHead => .group :: brackets
  | .lbrace => (if opensBlock last then .block else .group) :: brackets
  | .rpar | .rsqb | .rbrace | .jsxRbrace | .tplTail => brackets.tail
  | _ => brackets

/-- The terminator that a waiting line feed becomes before `next`. -/
def settle (s : Insertion) (next : Terminal) : Option Token :=
  match s.pending with
  | some nl => if s.isRestricted || endsStatement next s.last then some (terminatorAt nl) else none
  | none => none

/-- The terminator that goes before the brace that closes a block. -/
def close (brackets : List Bracket) (last : Option Terminal) (t : Token) : Option Token :=
  match brackets, last with
  | .block :: _, some l =>
    if t.kind = .rbrace && terminable l then some (terminatorAt t) else none
  | _, _ => none

/-- Take one token of the source: the tokens to put out, and the state after them. -/
def step (s : Insertion) (t : Token) : List Token × Insertion :=
  if t.kind = .newline then
    if s.pending.isNone && s.canTerminate && s.inBlock then ([], { s with pending := some t })
    else ([], s)
  else
    let settled := s.settle t.kind
    let last := if settled.isSome then some .terminator else s.last
    let closed := close s.brackets last t
    let last := if closed.isSome then some .terminator else last
    (settled.toList ++ closed.toList ++ [t],
      { brackets := bracketsAfter s.brackets last t.kind
        last := some t.kind
        pending := none
        lastToken := some t })

/-- The terminator at the end of the input. -/
def finish (s : Insertion) : Option Token :=
  match s.lastToken with
  | some t => if s.canTerminate && s.inBlock then some (terminatorAt t) else none
  | none => none

/-- The tokens put out for a list of tokens, and the state after them. -/
def run (s : Insertion) : List Token → List Token × Insertion
  | [] => ([], s)
  | t :: ts =>
    let (out, s') := s.step t
    let (rest, final) := s'.run ts
    (out ++ rest, final)

end Insertion

/-- The tokens of a whole input with the ends of statements inserted. -/
def insertTerminators (tokens : List Token) : List Token :=
  let (out, final) := Insertion.run {} tokens
  out ++ final.finish.toList

/-- The tokens that the grammar is matched against. When lexing broke off before the end of the
text, no terminator is put at their end. -/
def Lexing.statements (l : Lexing) : List Token :=
  match l.failure with
  | none => insertTerminators l.tokens
  | some _ => (Insertion.run {} l.tokens).1

end ClientBoundary
