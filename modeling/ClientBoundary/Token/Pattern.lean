import ClientBoundary.Text.Blank
import ClientBoundary.Text.Digit
import ClientBoundary.Text.Word
import ClientBoundary.Token.Terminal

/-!
# The shapes of tokens

A `Pattern` looks at the start of a text and says how many code points of it make a token of one
shape, or that none does. No pattern needs to go back: each is a single walk to the right.

Code has the shapes number, string, name, comment, blank, regular expression, template chunk and
the fixed spellings of `Terminal.spellings`; JSX has shapes of its own for names, strings and the
text between tags.
-/

namespace ClientBoundary

/-- The length of a match at the start of a text. -/
abbrev Pattern := Text → Option Nat

namespace Pattern

/-- How many code points at the start satisfy `p`. -/
def run (p : CodePoint → Bool) : Text → Nat
  | [] => 0
  | c :: t => if p c then run p t + 1 else 0

/-- A match one code point longer. -/
def longer (k : Nat) (m : Option Nat) : Option Nat := m.map (· + k)

/-- A match only if it is not empty. -/
def nonempty (n : Nat) : Option Nat := if n = 0 then none else some n

-- ---------------------------------------------------------------------------------------------
-- Numbers
-- ---------------------------------------------------------------------------------------------

/-- `0x` or `0X` and hexadecimal digits. -/
def hexNumber : Pattern
  | .char '0' :: .char x :: t =>
    if x = 'x' ∨ x = 'X' then longer 2 (nonempty (run CodePoint.isHexDigit t)) else none
  | _ => none

/-- An exponent: a letter `e`, a sign if there is one, and digits. -/
def exponent : Pattern
  | .char e :: t =>
    if e = 'e' ∨ e = 'E' then
      match t with
      | .char '+' :: t' => longer 2 (nonempty (run CodePoint.isDigit t'))
      | .char '-' :: t' => longer 2 (nonempty (run CodePoint.isDigit t'))
      | _ => longer 1 (nonempty (run CodePoint.isDigit t))
    else none
  | _ => none

/-- The part of a decimal number before its exponent: digits with a point after, between or
before them. -/
def mantissa (t : Text) : Option Nat :=
  match run CodePoint.isDigit t with
  | 0 =>
    match t with
    | .char '.' :: t' => longer 1 (nonempty (run CodePoint.isDigit t'))
    | _ => none
  | n =>
    match t.drop n with
    | .char '.' :: t' => some (n + 1 + run CodePoint.isDigit t')
    | _ => some n

/-- A decimal number. A letter `e` that no exponent follows is not part of it. -/
def decimalNumber (t : Text) : Option Nat :=
  (mantissa t).map fun n => n + (exponent (t.drop n)).getD 0

/-- A number. -/
def number (t : Text) : Option Nat := (hexNumber t).or (decimalNumber t)

-- ---------------------------------------------------------------------------------------------
-- Strings, names, comments and blanks
-- ---------------------------------------------------------------------------------------------

/-- The rest of a string up to and with its closing `quote`. A backslash takes the next code
point with it, also a line feed; a bare line feed ends the attempt. -/
def stringRest (quote : Char) : Pattern
  | [] => none
  | .char '\\' :: [] => none
  | .char '\\' :: _ :: t => longer 2 (stringRest quote t)
  | c :: t =>
    if c = .char quote then some 1
    else if c = .char '\n' then none
    else longer 1 (stringRest quote t)

/-- A string in double or single quotes. -/
def string : Pattern
  | .char '"' :: t => longer 1 (stringRest '"' t)
  | .char '\'' :: t => longer 1 (stringRest '\'' t)
  | _ => none

/-- An ASCII letter. -/
def isLetter (c : Char) : Bool := ('a' ≤ c && c ≤ 'z') || ('A' ≤ c && c ≤ 'Z')

/-- The characters a name begins with. -/
def isNameStart : CodePoint → Bool := CodePoint.isChar fun c => isLetter c || c = '_' || c = '$'

/-- The characters a name goes on with. -/
def isNamePart : CodePoint → Bool :=
  CodePoint.isChar fun c => isLetter c || c = '_' || c = '$' || ('0' ≤ c && c ≤ '9')

/-- A name or a word of the language. -/
def name : Pattern
  | c :: t => if isNameStart c then some (run isNamePart t + 1) else none
  | [] => none

/-- The rest of a block comment up to and with its end. -/
def blockRest : Pattern
  | [] => none
  | .char '*' :: .char '/' :: _ => some 2
  | _ :: t => longer 1 (blockRest t)

/-- A block comment, which ends at the first end mark. -/
def blockComment : Pattern
  | .char '/' :: .char '*' :: t => longer 2 (blockRest t)
  | _ => none

/-- A line comment, up to the line feed. -/
def lineComment : Pattern
  | .char '/' :: .char '/' :: t => some (run (· ≠ .char '\n') t + 2)
  | _ => none

/-- Blanks between tokens of code: space, tabulator, form feed and carriage return. -/
def blank (t : Text) : Option Nat :=
  nonempty (run (CodePoint.isChar fun c => c = ' ' || c = '\t' || c = '\x0c' || c = '\r') t)

/-- The first of the fixed spellings that the text begins with. -/
def spelling (t : Text) : Option (Terminal × Nat) :=
  (Terminal.spellings.find? fun s => t.startsWith (Text.ofString s.1)).map fun s =>
    (s.2, s.1.length)

-- ---------------------------------------------------------------------------------------------
-- Regular expressions and templates
-- ---------------------------------------------------------------------------------------------

/-- The rest of a character class up to and with its closing bracket. -/
def classRest : Pattern
  | [] => none
  | .char ']' :: _ => some 1
  | .char '\n' :: _ => none
  | .char '\\' :: [] => none
  | .char '\\' :: c :: t => if c = .char '\n' then none else longer 2 (classRest t)
  | _ :: t => longer 1 (classRest t)

/-- The body of a regular expression up to its closing slash. A slash in a character class or
after a backslash is part of the body. The number given bounds the steps: each takes at least
one code point. -/
def regexBody : Nat → Pattern
  | 0, _ => none
  | _ + 1, [] => none
  | fuel + 1, c :: t =>
    if c = .char '/' then some 0
    else if c = .char '\n' then none
    else if c = .char '\\' then
      match t with
      | [] => none
      | d :: t' => if d = .char '\n' then none else longer 2 (regexBody fuel t')
    else if c = .char '[' then
      match classRest t with
      | none => none
      | some n => longer (n + 1) (regexBody fuel (t.drop n))
    else longer 1 (regexBody fuel t)

/-- A regular expression with its flags. The body is not empty. -/
def regex : Pattern
  | .char '/' :: t =>
    match regexBody (t.length + 1) t with
    | none => none
    | some 0 => none
    | some n => some (n + 2 + run (CodePoint.isChar isLetter) (t.drop (n + 1)))
  | _ => none

/-- How a chunk of a template ends: the template is over, or a substitution opens. -/
inductive ChunkEnd where
  | closed
  | opened
deriving DecidableEq, Repr

/-- A chunk of template text up to and with the backtick or the `$` and brace that end it. -/
def templateChunk : Text → Option (ChunkEnd × Nat)
  | [] => none
  | .char '\x60' :: _ => some (.closed, 1)
  | .char '$' :: .char '\x7b' :: _ => some (.opened, 2)
  | .char '\\' :: [] => none
  | .char '\\' :: _ :: t => (templateChunk t).map fun r => (r.1, r.2 + 2)
  | _ :: t => (templateChunk t).map fun r => (r.1, r.2 + 1)

-- ---------------------------------------------------------------------------------------------
-- JSX
-- ---------------------------------------------------------------------------------------------

/-- Whether a `<` in front of this text opens an element or a fragment. -/
def opensElement : Text → Bool
  | c :: _ => isNameStart c || c = .char '>'
  | [] => false

/-- A name in a tag. -/
def jsxName : Pattern
  | c :: t =>
    if isNameStart c then
      some (run (fun d => d.isWord || d = .char '$' || d = .char '-') t + 1)
    else none
  | [] => none

/-- The rest of an attribute string; it has no escapes and may span lines. -/
def jsxStringRest (quote : Char) : Pattern
  | [] => none
  | c :: t => if c = .char quote then some 1 else longer 1 (jsxStringRest quote t)

/-- An attribute string. -/
def jsxString : Pattern
  | .char '"' :: t => longer 1 (jsxStringRest '"' t)
  | .char '\'' :: t => longer 1 (jsxStringRest '\'' t)
  | _ => none

/-- Text between tags, up to the next brace or tag. -/
def jsxText (t : Text) : Option Nat :=
  nonempty (run (fun c => c ≠ .char '\x7b' && c ≠ .char '<') t)

/-- Blanks in a tag. -/
def jsxBlank (t : Text) : Option Nat := nonempty (run CodePoint.isBlank t)

end Pattern

end ClientBoundary
