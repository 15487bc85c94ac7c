/-!
# Code points and text

Source text, string values and printed code are sequences of Unicode *code points*. Almost all
of them are characters, but an escape such as `\ud800` in a string literal denotes a surrogate,
which is a code point and no character. `Text` keeps both, so a string value has one form from
the moment it is decoded until it is printed, and two escaped halves of a pair stay two.

* `CodePoint` — a character or a surrogate; `CodePoint.toNat` and `CodePoint.ofNat?` convert.
* `Text` — a list of code points; a `String` literal is read as the text of its characters.
-/

namespace ClientBoundary

/-- A Unicode code point: a character, or one of the 2048 surrogates. -/
inductive CodePoint where
  | char (c : Char)
  | surrogate (index : Fin 0x800)
deriving DecidableEq, Repr, Inhabited

namespace CodePoint

/-- The number of a code point. -/
def toNat : CodePoint → Nat
  | .char c => c.toNat
  | .surrogate i => 0xD800 + i.val

/-- The code point with a given number, if there is one: numbers stop at `0x10FFFF`. -/
def ofNat? (n : Nat) : Option CodePoint :=
  if h : n.isValidChar then
    some (.char (Char.ofNatAux n h))
  else if h : 0xD800 ≤ n ∧ n < 0xE000 then
    some (.surrogate ⟨n - 0xD800, by omega⟩)
  else
    none

/-- Whether the code point is a character that satisfies `p`. -/
@[inline] def isChar (p : Char → Bool) : CodePoint → Bool
  | .char c => p c
  | .surrogate _ => false

/-- Code points are ordered by their numbers. -/
instance : Ord CodePoint := ⟨fun a b => compare a.toNat b.toNat⟩

end CodePoint

/-- Text is a list of code points. -/
abbrev Text := List CodePoint

namespace Text

/-- The text whose code points are the characters of `s`. -/
def ofString (s : String) : Text := s.toList.map .char

instance : Coe String Text := ⟨ofString⟩

/-- The decimal form of a number. -/
def ofNat (n : Nat) : Text := ofString (toString n)

/-- The decimal form of an integer, with a minus sign before a negative one. -/
def ofInt : Int → Text
  | .ofNat n => ofNat n
  | .negSucc n => .char '-' :: ofNat (n + 1)

/-- The characters of a text as a `String`, if it holds no surrogate. -/
def toString? (t : Text) : Option String :=
  (t.mapM fun p => match p with | CodePoint.char c => some c | CodePoint.surrogate _ => none).map String.ofList

/-- What is left of `t` after a prefix `p`, if it has that prefix. -/
def dropPrefix? : (p t : Text) → Option Text
  | [], t => some t
  | _ :: _, [] => none
  | a :: p, b :: t => if a = b then dropPrefix? p t else none

/-- Whether `t` begins with `p`. -/
def startsWith (t p : Text) : Bool := (dropPrefix? p t).isSome

/-- Texts joined with a separator between neighbours. -/
def join (sep : Text) : List Text → Text
  | [] => []
  | [t] => t
  | t :: ts => t ++ sep ++ join sep ts

/-- The pieces between occurrences of the code point `c`; there is always at least one. -/
def splitOn (c : CodePoint) : Text → List Text
  | [] => [[]]
  | a :: t =>
    if a = c then [] :: splitOn c t
    else match splitOn c t with
      | [] => [[a]]
      | p :: ps => (a :: p) :: ps

/-- Texts are ordered code point by code point, a prefix before what extends it. -/
def compare : Text → Text → Ordering
  | [], [] => .eq
  | [], _ :: _ => .lt
  | _ :: _, [] => .gt
  | a :: s, b :: t => (Ord.compare a b).then (compare s t)

end Text

end ClientBoundary
