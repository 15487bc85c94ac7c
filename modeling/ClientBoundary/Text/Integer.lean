import ClientBoundary.Text.Blank
import ClientBoundary.Text.Digit

/-!
# Reading integers

An integer is written as a sign, if any, and digits of any script, between two of which an
underscore may stand. Blanks around it do not count, the four separators `0x1c` to `0x1f`
excepted. No integer has more than 4300 digits.
-/

namespace ClientBoundary

namespace Text

/-- Whether a code point around an integer is left out of account. -/
def isMargin (p : CodePoint) : Bool := p.isBlank && !(0x1c ≤ p.toNat && p.toNat ≤ 0x1f)

/-- A text without the blanks around an integer. -/
def withoutMargin (t : Text) : Text :=
  ((t.dropWhile isMargin).reverse.dropWhile isMargin).reverse

/-- The values of digits with single underscores between them. -/
def digitValues? : Text → Option (List Nat)
  | [] => none
  | [p] => p.digit?.map ([·])
  | p :: .char '_' :: t => do
    let d ← p.digit?
    let ds ← digitValues? t
    return d :: ds
  | p :: t => do
    let d ← p.digit?
    let ds ← digitValues? t
    return d :: ds

/-- The most digits that an integer may have. -/
def maxIntegerDigits : Nat := 4300

/-- The natural number that digits write. -/
def natural? (t : Text) : Option Nat := do
  let ds ← digitValues? t
  if ds.length ≤ maxIntegerDigits then some (ds.foldl (fun n d => 10 * n + d) 0) else none

/-- The integer that a text writes. -/
def toInt? (t : Text) : Option Int :=
  match withoutMargin t with
  | .char '+' :: ds => (natural? ds).map Int.ofNat
  | .char '-' :: ds => (natural? ds).map fun n => -(n : Int)
  | ds => (natural? ds).map Int.ofNat

end Text

end ClientBoundary
