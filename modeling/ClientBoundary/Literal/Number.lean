import ClientBoundary.Decimal.Binary64
import ClientBoundary.Literal.Error
import ClientBoundary.Text.Digit

/-!
# Values of number literals

A number literal is hexadecimal after `0x` or `0X` and decimal otherwise. A decimal one may use
the digits of any script. Both are read as the nearest double; a decimal out of range is
infinite, a hexadecimal one out of range is refused.
-/

namespace ClientBoundary

namespace NumberLiteral

/-- The exponent that stands after the letter `e`. -/
def exponentValue : Text → Int
  | .char '+' :: digits => Text.decimalValue digits
  | .char '-' :: digits => -(Text.decimalValue digits : Int)
  | digits => Text.decimalValue digits

/-- The mantissa of a decimal literal and the power of ten it is multiplied with. -/
def decimalParts (raw : Text) : Nat × Int :=
  let whole := raw.takeWhile CodePoint.isDigit
  let rest := raw.drop whole.length
  let (fraction, rest) := match rest with
    | .char '.' :: t => (t.takeWhile CodePoint.isDigit, t.dropWhile CodePoint.isDigit)
    | t => ([], t)
  let exponent := match rest with
    | _ :: t => exponentValue t
    | [] => 0
  (Text.decimalValue (whole ++ fraction), exponent - fraction.length)

/-- The value of a number literal. -/
def value (raw : Text) : Except LiteralError Binary64 :=
  let hex := match raw with
    | .char '0' :: .char x :: digits => if x = 'x' ∨ x = 'X' then some digits else none
    | _ => none
  match hex with
  | some digits =>
    let x := Binary64.ofRatio (Text.hexValue digits) 1
    if x = Binary64.infinity then .error .numberTooLarge else .ok x
  | none =>
    let (m, e) := decimalParts raw
    .ok (Binary64.ofDecimal m e)

end NumberLiteral

end ClientBoundary
