import ClientBoundary.Token.Basic
import ClientBoundary.Token.Pattern

/-!
# Lexing with a stack of modes

What a character means depends on where it stands: a `/` divides after an expression and opens a
regular expression elsewhere, a `<` compares or opens an element under the same condition, and
the text of templates and between tags is no code at all. The lexer therefore keeps a stack of
`Mode`s and the terminal of the token before.

* In **code** — the root, a container `{…}` in JSX, a substitution in a template — tokens have
  the shapes of code, and braces are counted so that the one that ends the mode is known.
* In a **tag**, between `<` and `>`, the shapes are those of JSX.
* Between tags, among the **children** of an element, all is text but braces and tags.

`Lexer.step` takes one lexeme off a text, `lex` takes them all. Blanks and comments are lexemes
as well, so the lexemes of a text lie side by side and cover it up to the place where lexing
stops.
-/

namespace ClientBoundary

/-- What kind of code a code mode reads, that is, what the brace that ends it closes. -/
inductive CodeFrame where
  /-- The whole source; nothing ends it. -/
  | root
  /-- A container in an attribute or among the children of an element. -/
  | container
  /-- A substitution in a template. -/
  | substitution
deriving DecidableEq, Repr, Inhabited

/-- What a tag turns out to be. -/
inductive TagRole where
  | opening
  | closing
  | selfClosing
deriving DecidableEq, Repr, Inhabited

/-- A mode of the lexer. -/
inductive Mode where
  /-- Code, with the number of braces opened in it and not yet closed. -/
  | code (frame : CodeFrame) (depth : Int)
  /-- A tag, with the number of tokens seen in it. -/
  | tag (role : TagRole) (seen : Nat)
  /-- The children of an element. -/
  | children
deriving DecidableEq, Repr, Inhabited

/-- The kind of a lexeme: a token, or something between tokens. -/
inductive LexemeKind where
  | token (t : Terminal)
  | blank
  | lineComment
  | blockComment
deriving DecidableEq, Repr, Inhabited

/-- A piece of a source text. -/
structure Lexeme where
  kind : LexemeKind
  text : Text
  start : Place
  stop : Place
deriving DecidableEq, Repr, Inhabited

namespace Lexeme

/-- The token that a lexeme is, if it is one. -/
def token? (l : Lexeme) : Option Token :=
  match l.kind with
  | .token t => some ⟨t, l.text, l.start, l.stop⟩
  | _ => none

/-- Whether a lexeme is a comment. -/
def isComment (l : Lexeme) : Bool := l.kind = .lineComment || l.kind = .blockComment

end Lexeme

/-- The state of the lexer between two lexemes. -/
structure Lexer where
  /-- The modes, innermost first. -/
  modes : List Mode
  /-- The terminal of the last token that was no line feed. -/
  last : Option Terminal
deriving DecidableEq, Repr, Inhabited

namespace Lexer

/-- The lexer at the start of a source. -/
def start : Lexer := ⟨[.code .root 0], none⟩

/-- After these terminals an expression has just ended. -/
def endsExpression : Terminal → Bool
  | .name | .string | .number | .template | .tplTail | .regex
  | .kwTrue | .kwFalse | .kwNull | .kwThis | .kwSuper
  | .rpar | .rsqb | .rbrace | .jsxGt
  | .kwFrom | .kwAs | .kwGet | .kwSet | .kwStatic => true
  | _ => false

/-- Whether an expression may begin here. -/
def expectsExpression (s : Lexer) : Bool :=
  match s.last with
  | none => true
  | some t => !endsExpression t

/-- The shapes of code that do not depend on the mode, tried in order. -/
def scanCode (t : Text) : Option (LexemeKind × Nat) :=
  ((Pattern.number t).map fun n => (.token .number, n))
  <|> ((Pattern.string t).map fun n => (.token .string, n))
  <|> ((Pattern.name t).map fun n => (.token (Terminal.ofWord (t.take n)), n))
  <|> ((Pattern.blockComment t).map fun n => (.blockComment, n))
  <|> ((Pattern.lineComment t).map fun n => (.lineComment, n))
  <|> ((Pattern.blank t).map fun n => (.blank, n))
  <|> ((Pattern.spelling t).map fun r => (.token r.1, r.2))

/-- A chunk of a template after the one code point that opens it: the terminal for a chunk that
ends the template or opens a substitution, and the modes to go on with. -/
def templateStep (closed opened : Terminal) (below : List Mode) (rest : Text) :
    Option (LexemeKind × Nat × List Mode) :=
  (Pattern.templateChunk rest).map fun r =>
    match r.1 with
    | .closed => (.token closed, r.2 + 1, below)
    | .opened => (.token opened, r.2 + 1, .code .substitution 0 :: below)

/-- The change of the brace count that a token makes. -/
def braceStep : LexemeKind → Int
  | .token .lbrace => 1
  | .token .rbrace => -1
  | _ => 0

/-- One lexeme of code that is neither a regular expression, an element, a template nor the end
of the mode. -/
def plainStep (frame : CodeFrame) (depth : Int) (below : List Mode) (t : Text) :
    Option (LexemeKind × Nat × List Mode) :=
  (scanCode t).map fun r => (r.1, r.2, .code frame (depth + braceStep r.1) :: below)

/-- One lexeme in a code mode. -/
def codeStep (s : Lexer) (frame : CodeFrame) (depth : Int) (below : List Mode) (t : Text) :
    Option (LexemeKind × Nat × List Mode) :=
  let here := Mode.code frame depth :: below
  match t with
  | .char '/' :: rest =>
    let comments := match rest with
      | .char '/' :: _ => true
      | .char '*' :: _ => true
      | _ => false
    if s.expectsExpression && !comments then
      (Pattern.regex t).map fun n => (.token .regex, n, here)
    else plainStep frame depth below t
  | .char '<' :: rest =>
    if s.expectsExpression && Pattern.opensElement rest then
      some (.token .jsxOpen, 1, .tag .opening 0 :: here)
    else plainStep frame depth below t
  | .char '\x60' :: rest => templateStep .template .tplHead here rest
  | .char '\x7d' :: rest =>
    match frame with
    | .root => plainStep frame depth below t
    | .container =>
      if depth = 0 then some (.token .jsxRbrace, 1, below) else plainStep frame depth below t
    | .substitution =>
      if depth = 0 then templateStep .tplTail .tplMiddle below rest
      else plainStep frame depth below t
  | _ => plainStep frame depth below t

/-- One lexeme in a tag. -/
def tagStep (role : TagRole) (seen : Nat) (below : List Mode) (t : Text) :
    Option (LexemeKind × Nat × List Mode) :=
  let here := Mode.tag role seen :: below
  let grown := Mode.tag role (seen + 1) :: below
  match Pattern.jsxBlank t with
  | some n => some (.blank, n, here)
  | none =>
  match Pattern.lineComment t with
  | some n => some (.lineComment, n, here)
  | none =>
  match Pattern.blockComment t with
  | some n => some (.blockComment, n, here)
  | none =>
  match t with
  | .char '/' :: _ =>
    let role := if seen = 0 then TagRole.closing else TagRole.selfClosing
    some (.token .jsxSlash, 1, .tag role (seen + 1) :: below)
  | .char '>' :: _ =>
    let after := match role with
      | .opening => .children :: below
      | .closing => below.tail
      | .selfClosing => below
    some (.token .jsxGt, 1, after)
  | .char '\x7b' :: _ => some (.token .jsxLbrace, 1, .code .container 0 :: grown)
  | .char '<' :: _ => some (.token .jsxOpen, 1, .tag .opening 0 :: grown)
  | .char '=' :: _ => some (.token .eq, 1, grown)
  | .char '.' :: _ => some (.token .dot, 1, grown)
  | .char ':' :: _ => some (.token .colon, 1, grown)
  | _ =>
    ((Pattern.jsxString t).map fun n => (.token .jsxString, n, grown))
    <|> ((Pattern.jsxName t).map fun n => (.token .jsxName, n, grown))

/-- One lexeme among the children of an element. -/
def childrenStep (below : List Mode) (t : Text) : Option (LexemeKind × Nat × List Mode) :=
  let here := Mode.children :: below
  match t with
  | .char '\x7b' :: _ => some (.token .jsxLbrace, 1, .code .container 0 :: here)
  | .char '<' :: _ => some (.token .jsxOpen, 1, .tag .opening 0 :: here)
  | _ => (Pattern.jsxText t).map fun n => (.token .jsxText, n, here)

/-- The last terminal after one more lexeme. Line feeds, blanks and comments leave it alone. -/
def remember (last : Option Terminal) : LexemeKind → Option Terminal
  | .token .newline => last
  | .token t => some t
  | _ => last

/-- One lexeme of a text that is not empty: its kind, its length and the lexer after it. -/
def step (s : Lexer) (t : Text) : Option (LexemeKind × Nat × Lexer) :=
  let found := match s.modes with
    | [] => none
    | .code frame depth :: below => s.codeStep frame depth below t
    | .tag role seen :: below => tagStep role seen below t
    | .children :: below => childrenStep below t
  found.map fun r => (r.1, r.2.1, ⟨r.2.2, remember s.last r.1⟩)

end Lexer

/-- The outcome of lexing a text. -/
structure Lexing where
  /-- The lexemes, side by side from the start of the text. -/
  lexemes : List Lexeme
  /-- The lexer where it stopped. -/
  final : Lexer
  /-- The place where no lexeme begins, if the end of the text was not reached. -/
  failure : Option Place
deriving DecidableEq, Repr, Inhabited

namespace Lexing

/-- The tokens among the lexemes, line feeds included. -/
def tokens (l : Lexing) : List Token := l.lexemes.filterMap Lexeme.token?

/-- The comments among the lexemes. -/
def comments (l : Lexing) : List Lexeme := l.lexemes.filter Lexeme.isComment

end Lexing

/-- Lex a text from a state and a place on. Each lexeme takes at least one code point, so as many
steps as there are code points are enough. -/
def lexFrom : (steps : Nat) → Lexer → Place → Text → Lexing
  | 0, s, p, t => ⟨[], s, if t.isEmpty then none else some p⟩
  | steps + 1, s, p, t =>
    if t.isEmpty then ⟨[], s, none⟩
    else
      match s.step t with
      | none => ⟨[], s, some p⟩
      | some (kind, n, s') =>
        let text := t.take n
        let q := p.after text
        let rest := lexFrom steps s' q (t.drop n)
        { rest with lexemes := ⟨kind, text, p, q⟩ :: rest.lexemes }

/-- Lex a whole source. -/
def lex (source : Text) : Lexing := lexFrom source.length Lexer.start Place.start source

end ClientBoundary
