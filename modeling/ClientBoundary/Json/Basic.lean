import ClientBoundary.Text.CodePoint

/-!
# JSON values

A value of the JSON format. A number is kept in the form it is written in, an object as the list
of its members in the order in which they are written, so that a key may stand in it twice.
-/

namespace ClientBoundary

/-- A JSON value. -/
inductive Json where
  | null
  | bool (value : Bool)
  | number (written : Text)
  | string (value : Text)
  | array (elements : List Json)
  | object (members : List (Text × Json))
deriving Inhabited

namespace Json

/-- The number of an integer. -/
def ofInt (n : Int) : Json := .number (Text.ofInt n)

/-- A text, or null for none. -/
def ofText? : Option Text → Json
  | none => .null
  | some t => .string t

/-- An integer, or null for none. -/
def ofInt? : Option Int → Json
  | none => .null
  | some n => .ofInt n

end Json

end ClientBoundary
