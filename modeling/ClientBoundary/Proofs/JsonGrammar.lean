import ClientBoundary.Json.Reader
import ClientBoundary.Proofs.StringSpelling

/-!
# The grammar of JSON

What JSON is, said apart from how it is read. A relation such as `ValueAt t j r` says that the text `t`
begins with a value, that the value is `j`, and that `r` is left of the text after it. Nothing is said
about how much a reader should take: a text may begin with a number in several ways, and only what
follows tells which one is meant.

Beyond the format three words are numbers, `NaN`, `Infinity` and `-Infinity`. Numbers are of any length.

* `Spaces`, `StringAt`, `IsNumber` — the parts of a text that have no parts of their own.
* `ValueAt`, `ElementsAt`, `MembersAt` — values.
* `IsText` — a text that is one value.
* `LongIn`, `MeetsLongInteger` — a text in which all is well up to an integer with too many digits.
-/

namespace ClientBoundary

namespace Json

open Json.Reader (isAsciiDigit isHigh isLow maxDigits words)

-- ---------------------------------------------------------------------------------------------
-- Spaces and strings
-- ---------------------------------------------------------------------------------------------

/-- The code points that may stand between the parts of a value. -/
def spaces : Text := " \t\n\r"

/-- There are spaces before the rest of a text, or none. -/
def Spaces (t r : Text) : Prop := ∃ s : Text, (∀ p ∈ s, p ∈ spaces) ∧ t = s ++ r

/-- A character between spaces. -/
def MarkAt (c : Char) (t r : Text) : Prop := ∃ u, Spaces t (.char c :: u) ∧ Spaces u r

/-- The letters that stand for a character after a backslash. -/
def letters : List (Char × Char) :=
  [('"', '"'), ('\\', '\\'), ('/', '/'), ('b', '\x08'), ('f', '\x0c'), ('n', '\n'), ('r', '\r'),
    ('t', '\t')]

/-- The escape of a code point by its number. -/
def IsEscapeOf (p : CodePoint) (e : Text) : Prop :=
  ∃ a b c d, IsNumberOf [a, b, c, d] p ∧ e = [.char '\\', .char 'u', a, b, c, d]

theorem IsEscapeOf.length_eq {p : CodePoint} {e : Text} (h : IsEscapeOf p e) : e.length = 6 := by
  obtain ⟨_, _, _, _, -, rfl⟩ := h
  rfl

/-- A text begins with the escape of a low surrogate. -/
def BeginsLow (t : Text) : Prop := ∃ e p r, IsEscapeOf p e ∧ isLow p.toNat = true ∧ t = e ++ r

/-- What stands between the quotes of a string, and the string. -/
inductive Body : Text → Text → Prop where
  | nil : Body [] []
  | plain {p : CodePoint} {w v : Text} (hQuote : p ≠ .char '"') (hBackslash : p ≠ .char '\\')
      (hControl : 0x20 ≤ p.toNat) (hRest : Body w v) : Body (p :: w) (p :: v)
  | letter {e c : Char} {w v : Text} (h : (e, c) ∈ letters) (hRest : Body w v) :
      Body (.char '\\' :: .char e :: w) (.char c :: v)
  | number {e : Text} {p : CodePoint} {w v : Text} (h : IsEscapeOf p e)
      (hAlone : isHigh p.toNat = true → ¬ BeginsLow w) (hRest : Body w v) : Body (e ++ w) (p :: v)
  /-- Two surrogates that make a pair. -/
  | pair {e e' : Text} {high low p : CodePoint} {w v : Text} (h : IsEscapeOf high e)
      (h' : IsEscapeOf low e') (hHigh : isHigh high.toNat = true) (hLow : isLow low.toNat = true)
      (hPair : p.toNat = 0x10000 + (high.toNat - 0xd800) * 0x400 + (low.toNat - 0xdc00))
      (hRest : Body w v) : Body (e ++ (e' ++ w)) (p :: v)

/-- A text begins with a string. -/
def StringAt (t v r : Text) : Prop := ∃ w, Body w v ∧ t = .char '"' :: (w ++ .char '"' :: r)

-- ---------------------------------------------------------------------------------------------
-- Numbers
-- ---------------------------------------------------------------------------------------------

/-- Digits, of which there is one at least. -/
structure IsDigits (w : Text) : Prop where
  ne_nil : w ≠ []
  digits : ∀ p ∈ w, isAsciiDigit p = true

/-- The sign of a number. -/
def IsSign (w : Text) : Prop := w = [] ∨ w = [.char '-']

/-- The whole part of a number: a zero, or digits that do not begin with one. -/
inductive IsWhole : Text → Prop where
  | zero : IsWhole [.char '0']
  | digits {w : Text} (h : IsDigits w) (hHead : w.head? ≠ some (.char '0')) : IsWhole w

/-- The fraction of a number. -/
inductive IsFraction : Text → Prop where
  | digits {w : Text} (h : IsDigits w) : IsFraction (.char '.' :: w)

/-- The exponent of a number. -/
inductive IsExponent : Text → Prop where
  | digits {e : CodePoint} {sign w : Text} (he : e = .char 'e' ∨ e = .char 'E')
      (hSign : sign = [] ∨ sign = [.char '+'] ∨ sign = [.char '-']) (h : IsDigits w) :
      IsExponent (e :: (sign ++ w))

/-- A number: its sign and whole part, and perhaps a fraction and an exponent. -/
def IsNumber (w : Text) : Prop := ∃ sign whole fraction exponent,
  IsSign sign ∧ IsWhole whole ∧ (fraction = [] ∨ IsFraction fraction) ∧
    (exponent = [] ∨ IsExponent exponent) ∧ w = sign ++ (whole ++ (fraction ++ exponent))

/-- Something follows that belongs to a number: a digit, a fraction or an exponent. -/
inductive Continues : Text → Prop where
  | digit {p : CodePoint} {t : Text} (h : isAsciiDigit p = true) : Continues (p :: t)
  | fraction {w t : Text} (h : IsFraction w) : Continues (w ++ t)
  | exponent {w t : Text} (h : IsExponent w) : Continues (w ++ t)

/-- A text begins with an integer that has too many digits. -/
def LongIntegerAt (t : Text) : Prop := ∃ sign whole rest, IsSign sign ∧ IsWhole whole ∧
  maxDigits < whole.length ∧ ¬ Continues rest ∧ t = sign ++ (whole ++ rest)

-- ---------------------------------------------------------------------------------------------
-- Values
-- ---------------------------------------------------------------------------------------------

/-- A text begins with the key of a member. -/
def KeyAt (t k r : Text) : Prop := ∃ u, StringAt t k u ∧ MarkAt ':' u r

mutual

/-- A text begins with a value. -/
inductive ValueAt : Text → Json → Text → Prop where
  | string {t v r : Text} (h : StringAt t v r) : ValueAt t (.string v) r
  | word {w r : Text} {j : Json} (h : (w, j) ∈ words) : ValueAt (w ++ r) j r
  | number {w r : Text} (h : IsNumber w) : ValueAt (w ++ r) (.number w) r
  | emptyArray {t r : Text} (h : Spaces t (.char ']' :: r)) : ValueAt (.char '[' :: t) (.array []) r
  | array {t u r : Text} {js : List Json} (hSpaces : Spaces t u) (h : ElementsAt u js r) :
      ValueAt (.char '[' :: t) (.array js) r
  | emptyObject {t r : Text} (h : Spaces t (.char '\x7d' :: r)) :
      ValueAt (.char '\x7b' :: t) (.object []) r
  | object {t u r : Text} {ms : List (Text × Json)} (hSpaces : Spaces t u) (h : MembersAt u ms r) :
      ValueAt (.char '\x7b' :: t) (.object ms) r

/-- A text begins with the elements of an array and its end. -/
inductive ElementsAt : Text → List Json → Text → Prop where
  | last {t u r : Text} {j : Json} (h : ValueAt t j u) (hEnd : Spaces u (.char ']' :: r)) :
      ElementsAt t [j] r
  | more {t u v r : Text} {j : Json} {js : List Json} (h : ValueAt t j u) (hComma : MarkAt ',' u v)
      (hRest : ElementsAt v js r) : ElementsAt t (j :: js) r

/-- A text begins with the members of an object and its end. -/
inductive MembersAt : Text → List (Text × Json) → Text → Prop where
  | last {t u v r k : Text} {j : Json} (hKey : KeyAt t k u) (h : ValueAt u j v)
      (hEnd : Spaces v (.char '\x7d' :: r)) : MembersAt t [(k, j)] r
  | more {t u v w r k : Text} {j : Json} {ms : List (Text × Json)} (hKey : KeyAt t k u)
      (h : ValueAt u j v) (hComma : MarkAt ',' v w) (hRest : MembersAt w ms r) :
      MembersAt t ((k, j) :: ms) r

end

/-- A text is one value, with spaces around it perhaps. -/
def IsText (t : Text) (j : Json) : Prop := ∃ u v, Spaces t u ∧ ValueAt u j v ∧ Spaces v []

mutual

/-- A text begins as a value does, up to an integer that has too many digits. -/
inductive LongIn : Text → Prop where
  | here {t : Text} (h : LongIntegerAt t) : LongIn t
  | array {t u : Text} (hSpaces : Spaces t u) (h : LongInElements u) : LongIn (.char '[' :: t)
  | object {t u : Text} (hSpaces : Spaces t u) (h : LongInMembers u) : LongIn (.char '\x7b' :: t)

/-- A text begins as elements do, up to an integer that has too many digits. -/
inductive LongInElements : Text → Prop where
  | first {t : Text} (h : LongIn t) : LongInElements t
  | later {t u v : Text} {j : Json} (hFirst : ValueAt t j u) (hComma : MarkAt ',' u v)
      (h : LongInElements v) : LongInElements t

/-- A text begins as members do, up to an integer that has too many digits. -/
inductive LongInMembers : Text → Prop where
  | first {t u k : Text} (hKey : KeyAt t k u) (h : LongIn u) : LongInMembers t
  | later {t u v w k : Text} {j : Json} (hKey : KeyAt t k u) (hFirst : ValueAt u j v)
      (hComma : MarkAt ',' v w) (h : LongInMembers w) : LongInMembers t

end

/-- A text is one value up to an integer that has too many digits. -/
def MeetsLongInteger (t : Text) : Prop := ∃ u, Spaces t u ∧ LongIn u

end Json

end ClientBoundary
