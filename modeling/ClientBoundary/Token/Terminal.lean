import ClientBoundary.Text.CodePoint

/-!
# Terminals

The terminals are the kinds of token that the grammar is written over. Their `label`s appear in
the messages of syntax errors. Words come in three families that the grammar treats apart: plain
names, the contextual words that are also identifiers (`from`, `as`, `get`, `set`, `static`), and
the reserved words.

`newline` and `terminator` are the two terminals around the insertion of statement ends: the
scanner yields `newline`, and some of them are turned into `terminator`s, which the grammar knows.
-/

namespace ClientBoundary

/-- A kind of token. -/
inductive Terminal where
  | string | number | name
  | kwImport | kwExport | kwDefault | kwFunction | kwClass | kwExtends | kwReturn | kwThrow
  | kwIf | kwElse | kwWhile | kwNew | kwThis | kwSuper | kwTrue | kwFalse | kwNull | kwAwait
  | kwFrom | kwAs | kwGet | kwSet | kwStatic | kwAsync
  | kwVar | kwLet | kwConst | kwIn | kwInstanceof | kwTypeof | kwVoid | kwDelete
  | compoundAssign | eqOp | shiftOp | relOp | andOp | orOp | nullish
  | pipe | caret | amp | addOp | mulOp | star | unaryOp
  | ellipsis | arrow | eq | question | colon | semi | comma | dot
  | lpar | rpar | lsqb | rsqb | lbrace | rbrace
  | newline | terminator
  | template | tplHead | tplMiddle | tplTail | regex
  | jsxOpen | jsxSlash | jsxGt | jsxLbrace | jsxRbrace | jsxName | jsxString | jsxText
deriving DecidableEq, Repr, Inhabited

namespace Terminal

/-- All terminals. -/
def all : List Terminal :=
  [.string, .number, .name,
   .kwImport, .kwExport, .kwDefault, .kwFunction, .kwClass, .kwExtends, .kwReturn, .kwThrow,
   .kwIf, .kwElse, .kwWhile, .kwNew, .kwThis, .kwSuper, .kwTrue, .kwFalse, .kwNull, .kwAwait,
   .kwFrom, .kwAs, .kwGet, .kwSet, .kwStatic, .kwAsync,
   .kwVar, .kwLet, .kwConst, .kwIn, .kwInstanceof, .kwTypeof, .kwVoid, .kwDelete,
   .compoundAssign, .eqOp, .shiftOp, .relOp, .andOp, .orOp, .nullish,
   .pipe, .caret, .amp, .addOp, .mulOp, .star, .unaryOp,
   .ellipsis, .arrow, .eq, .question, .colon, .semi, .comma, .dot,
   .lpar, .rpar, .lsqb, .rsqb, .lbrace, .rbrace,
   .newline, .terminator,
   .template, .tplHead, .tplMiddle, .tplTail, .regex,
   .jsxOpen, .jsxSlash, .jsxGt, .jsxLbrace, .jsxRbrace, .jsxName, .jsxString, .jsxText]

/-- The list of all terminals leaves none out. -/
theorem mem_all (t : Terminal) : t ∈ all := by
  cases t <;> decide

/-- The name of a terminal in messages. -/
def label : Terminal → String
  | .string => "STRING"
  | .number => "NUMBER"
  | .name => "NAME"
  | .kwImport => "_IMPORT"
  | .kwExport => "_EXPORT"
  | .kwDefault => "_DEFAULT"
  | .kwFunction => "_FUNCTION"
  | .kwClass => "_CLASS"
  | .kwExtends => "_EXTENDS"
  | .kwReturn => "_RETURN"
  | .kwThrow => "_THROW"
  | .kwIf => "_IF"
  | .kwElse => "_ELSE"
  | .kwWhile => "_WHILE"
  | .kwNew => "_NEW"
  | .kwThis => "_THIS"
  | .kwSuper => "_SUPER"
  | .kwTrue => "_TRUE"
  | .kwFalse => "_FALSE"
  | .kwNull => "_NULL"
  | .kwAwait => "_AWAIT"
  | .kwFrom => "FROM"
  | .kwAs => "AS"
  | .kwGet => "GET"
  | .kwSet => "SET"
  | .kwStatic => "STATIC"
  | .kwAsync => "ASYNC"
  | .kwVar => "VAR"
  | .kwLet => "LET"
  | .kwConst => "CONST"
  | .kwIn => "IN"
  | .kwInstanceof => "INSTANCEOF"
  | .kwTypeof => "TYPEOF"
  | .kwVoid => "VOID"
  | .kwDelete => "DELETE"
  | .compoundAssign => "COMPOUND_ASSIGN"
  | .eqOp => "EQ_OP"
  | .shiftOp => "SHIFT_OP"
  | .relOp => "REL_OP"
  | .andOp => "AND_OP"
  | .orOp => "OR_OP"
  | .nullish => "NULLISH"
  | .pipe => "PIPE"
  | .caret => "CARET"
  | .amp => "AMP"
  | .addOp => "ADD_OP"
  | .mulOp => "MUL_OP"
  | .star => "STAR"
  | .unaryOp => "UNARY_OP"
  | .ellipsis => "_ELLIPSIS"
  | .arrow => "_ARROW"
  | .eq => "_EQ"
  | .question => "_QMARK"
  | .colon => "_COLON"
  | .semi => "_SEMI"
  | .comma => "_COMMA"
  | .dot => "_DOT"
  | .lpar => "_LPAR"
  | .rpar => "_RPAR"
  | .lsqb => "_LSQB"
  | .rsqb => "_RSQB"
  | .lbrace => "_LBRACE"
  | .rbrace => "_RBRACE"
  | .newline => "NEWLINE"
  | .terminator => "_TERMINATOR"
  | .template => "TEMPLATE"
  | .tplHead => "TPL_HEAD"
  | .tplMiddle => "TPL_MIDDLE"
  | .tplTail => "TPL_TAIL"
  | .regex => "REGEX"
  | .jsxOpen => "_JSX_OPEN"
  | .jsxSlash => "_JSX_SLASH"
  | .jsxGt => "_JSX_GT"
  | .jsxLbrace => "_JSX_LBRACE"
  | .jsxRbrace => "_JSX_RBRACE"
  | .jsxName => "JSX_NAME"
  | .jsxString => "JSX_STRING"
  | .jsxText => "JSX_TEXT"

/-- The terminal with a given name. -/
def ofLabel? (s : String) : Option Terminal := all.find? (·.label == s)

/-- The words that are not plain names, each with its terminal. -/
def words : List (String × Terminal) :=
  [("import", .kwImport), ("export", .kwExport), ("default", .kwDefault),
   ("function", .kwFunction), ("class", .kwClass), ("extends", .kwExtends),
   ("return", .kwReturn), ("throw", .kwThrow), ("if", .kwIf), ("else", .kwElse),
   ("while", .kwWhile), ("new", .kwNew), ("this", .kwThis), ("super", .kwSuper),
   ("true", .kwTrue), ("false", .kwFalse), ("null", .kwNull), ("await", .kwAwait),
   ("from", .kwFrom), ("as", .kwAs), ("get", .kwGet), ("set", .kwSet), ("static", .kwStatic),
   ("async", .kwAsync), ("var", .kwVar), ("let", .kwLet), ("const", .kwConst), ("in", .kwIn),
   ("instanceof", .kwInstanceof), ("typeof", .kwTypeof), ("void", .kwVoid),
   ("delete", .kwDelete)]

/-- The terminal of a word: its own if it has one, and else that of plain names. -/
def ofWord (w : Text) : Terminal :=
  match words.find? fun p => Text.ofString p.1 = w with
  | some p => p.2
  | none => .name

/-- Operators and punctuation in the order in which they are tried; a spelling stands before
every spelling that begins it. -/
def spellings : List (String × Terminal) :=
  [(">>>=", .compoundAssign), ("<<=", .compoundAssign), (">>=", .compoundAssign),
   ("&&=", .compoundAssign), ("||=", .compoundAssign), ("??=", .compoundAssign),
   ("+=", .compoundAssign), ("-=", .compoundAssign), ("*=", .compoundAssign),
   ("/=", .compoundAssign), ("%=", .compoundAssign), ("&=", .compoundAssign),
   ("|=", .compoundAssign), ("^=", .compoundAssign),
   ("===", .eqOp), ("!==", .eqOp), ("==", .eqOp), ("!=", .eqOp),
   (">>>", .shiftOp), ("<<", .shiftOp), (">>", .shiftOp),
   ("...", .ellipsis),
   ("<=", .relOp), (">=", .relOp), ("<", .relOp), (">", .relOp),
   ("\n", .newline),
   ("&&", .andOp), ("??", .nullish), ("||", .orOp), ("=>", .arrow),
   ("+", .addOp), ("-", .addOp), ("!", .unaryOp), ("~", .unaryOp), ("/", .mulOp), ("%", .mulOp),
   ("&", .amp), ("^", .caret), ("|", .pipe), ("*", .star),
   (":", .colon), (",", .comma), (".", .dot), ("=", .eq), ("\x7b", .lbrace), ("(", .lpar),
   ("[", .lsqb), ("?", .question), ("\x7d", .rbrace), (")", .rpar), ("]", .rsqb), (";", .semi)]

end Terminal

end ClientBoundary
