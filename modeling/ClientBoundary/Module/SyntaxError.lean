import ClientBoundary.Text.Shown
import ClientBoundary.Token.Basic

/-!
# Syntax errors

A source fails to be a module in one of three ways: a token stands where none of its kind can,
the input ends too early, or no token begins at some character. The message of the first two
lists what could stand there, in the order of code points and each name once. The message of the
third shows the line around the character with a mark under it.
-/

namespace ClientBoundary

/-- Why a text is not a module. -/
inductive SyntaxError where
  | unexpectedToken (token : Token) (expected : List Text)
  | unexpectedEnd (expected : List Text)
  | unexpectedCharacter (place : Place) (source : Text)
deriving DecidableEq, Repr, Inhabited

namespace SyntaxError

/-- Names in the order of code points, each once. -/
def sortedNames (names : List Text) : List Text :=
  (names.mergeSort fun a b => (Text.compare a b).isLE).eraseDups

/-- The part of a message that lists what was expected. -/
def expectedText (names : List Text) : Text :=
  "Expected one of: \n\t* " ++ Text.join "\n\t* " (sortedNames names) ++ "\n"

/-- The width of a text whose tabulators advance to multiples of eight. -/
def widthWithTabs (t : Text) : Nat :=
  t.foldl (fun column p => if p = .char '\t' then column + (8 - column % 8) else column + 1) 0

/-- How many code points the shown line may have on either side of the mark. -/
def contextWidth : Nat := 40

/-- The line around an offset, and a mark under the offset. -/
def context (source : Text) (offset : Nat) : Text :=
  let notEnd : CodePoint → Bool := (· ≠ .char '\n')
  let before := ((source.take offset).drop (offset - contextWidth)).reverse.takeWhile notEnd
  let after := ((source.drop offset).take contextWidth).takeWhile notEnd
  let before := before.reverse
  let indent : Text := List.replicate (widthWithTabs before) (.char ' ')
  before ++ after ++ "\n" ++ indent ++ "^\n"

/-- The message of a syntax error. -/
def message : SyntaxError → Text
  | .unexpectedToken token expected =>
    "Unexpected token Token(" ++ Text.shown token.kind.label ++ ", " ++ token.text.shown
      ++ ") at line " ++ Text.ofNat token.start.line ++ ", column "
      ++ Text.ofNat token.start.column ++ ".\n" ++ expectedText expected
  | .unexpectedEnd expected => "Unexpected end-of-input. " ++ expectedText expected
  | .unexpectedCharacter place source =>
    "No terminal matches '" ++ (source.drop place.offset).take 1
      ++ "' in the current parser context, at line " ++ Text.ofNat place.line ++ " col "
      ++ Text.ofNat place.column ++ "\n\n" ++ context source place.offset

/-- The line of an error, which is `-1` at the end of the input. -/
def line : SyntaxError → Int
  | .unexpectedToken token _ => token.start.line
  | .unexpectedEnd _ => -1
  | .unexpectedCharacter place _ => place.line

/-- The column of an error, which is `-1` at the end of the input. -/
def column : SyntaxError → Int
  | .unexpectedToken token _ => token.start.column
  | .unexpectedEnd _ => -1
  | .unexpectedCharacter place _ => place.column

/-- The offset of an error, which is `-1` at the end of the input. -/
def offset : SyntaxError → Int
  | .unexpectedToken token _ => token.start.offset
  | .unexpectedEnd _ => -1
  | .unexpectedCharacter place _ => place.offset

end SyntaxError

end ClientBoundary
