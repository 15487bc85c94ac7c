import ClientBoundary.Proofs.StringSpelling
import Mathlib.Data.List.Induction
import Mathlib.Data.Nat.Digits.Defs

/-!
# Literals are decoded piece by piece

The body of a string literal is cut into pieces: code points that stand for themselves, escapes of one
to many code points, and line ends that are joined. Pieces follow each other without separators, so a
digit may follow an escape that ends in a digit, and a backslash one that denotes a backslash. Each
piece is decoded by itself all the same.

* `HexDigit`, `numberOf` — hexadecimal digits and the number they spell, by positional value.
* `Piece` — the kinds of pieces, with what they are written as and what they denote.
* `Piece.denotes` — the pieces are among those that decoding is known to take one by one.
* `pieces_decoded_in_place` — a literal denotes what its pieces denote, in order.
-/

namespace ClientBoundary

-- ---------------------------------------------------------------------------------------------
-- Numbers
-- ---------------------------------------------------------------------------------------------

/-- A hexadecimal digit: its value, and in which of the two cases a letter is written. -/
structure HexDigit where
  value : Fin 16
  isCapital : Bool
deriving DecidableEq, Repr

/-- The code point that a hexadecimal digit is written as. -/
def HexDigit.point (d : HexDigit) : CodePoint :=
  .char ((if d.isCapital then "0123456789ABCDEF" else "0123456789abcdef").toList.getD d.value '0')

/-- The number that hexadecimal digits spell, the first being the most significant. -/
def numberOf (digits : List HexDigit) : Nat :=
  Nat.ofDigits 16 (digits.map fun d => d.value.val).reverse

theorem HexDigit.hexDigit?_point (d : HexDigit) : d.point.hexDigit? = some d.value.val := by
  have hAll : ∀ (v : Fin 16) (b : Bool), (HexDigit.point ⟨v, b⟩).hexDigit? = some v.val := by
    decide +kernel
  exact hAll d.value d.isCapital

theorem HexDigit.isHexDigit_point (d : HexDigit) : d.point.isHexDigit = true := by
  rw [CodePoint.isHexDigit, d.hexDigit?_point]
  rfl

theorem numberOf_append_singleton (digits : List HexDigit) (d : HexDigit) :
    numberOf (digits ++ [d]) = numberOf digits * 16 + d.value := by
  simp only [numberOf, List.map_append, List.map_cons, List.map_nil, List.reverse_append,
    List.reverse_singleton, List.singleton_append, Nat.ofDigits_cons]
  omega

theorem hexValue_points (digits : List HexDigit) :
    Text.hexValue (digits.map HexDigit.point) = numberOf digits := by
  induction digits using List.reverseRecOn with
  | nil => rfl
  | append_singleton digits d ih =>
    rw [numberOf_append_singleton, ← ih, List.map_append, Text.hexValue, List.foldl_append]
    simp [Text.hexValue, d.hexDigit?_point]

theorem numberOf_lt (digits : List HexDigit) : numberOf digits < 16 ^ digits.length := by
  induction digits using List.reverseRecOn with
  | nil => decide
  | append_singleton digits d ih =>
    have hDigit := d.value.isLt
    rw [numberOf_append_singleton, List.length_append, List.length_singleton, pow_succ]
    omega

theorem numberOf_two (a b : HexDigit) : numberOf [a, b] ≤ 0x10FFFF :=
  (numberOf_lt [a, b]).le.trans (by decide : 16 ^ 2 ≤ 0x10FFFF)

theorem numberOf_four (a b c d : HexDigit) : numberOf [a, b, c, d] ≤ 0x10FFFF :=
  (numberOf_lt [a, b, c, d]).le.trans (by decide : 16 ^ 4 ≤ 0x10FFFF)

theorem CodePoint.isSome_ofNat? {n : Nat} (h : n ≤ 0x10FFFF) : (CodePoint.ofNat? n).isSome := by
  obtain ⟨p, rfl⟩ := CodePoint.exists_toNat_eq (Nat.lt_succ_of_le h)
  rw [CodePoint.ofNat?_toNat]
  rfl

/-- The code point with a given number of the code space. -/
def CodePoint.ofBounded (n : Nat) (h : n ≤ 0x10FFFF) : CodePoint :=
  (CodePoint.ofNat? n).get (isSome_ofNat? h)

theorem CodePoint.toNat_ofBounded {n : Nat} (h : n ≤ 0x10FFFF) :
    (CodePoint.ofBounded n h).toNat = n := by
  obtain ⟨p, rfl⟩ := CodePoint.exists_toNat_eq (Nat.lt_succ_of_le h)
  simp only [CodePoint.ofBounded, CodePoint.ofNat?_toNat, Option.get_some]

-- ---------------------------------------------------------------------------------------------
-- Pieces
-- ---------------------------------------------------------------------------------------------

namespace StringLiteral

/-- The letters that denote another character after a backslash. -/
def escapeLetters : List (Char × Char) :=
  [('n', '\n'), ('t', '\t'), ('r', '\r'), ('b', '\x08'), ('f', '\x0c'), ('v', '\x0b'), ('0', '\x00')]

/-- The line ends that are joined by a backslash. A carriage return alone is none of them. -/
def joinedLineEnds : List Text := ["\n", "\r\n", "\u2028", "\u2029"]

/-- The characters that have a meaning after a backslash: the letters, the two that begin a number, and
those of line ends. -/
def meaningful : List Char :=
  escapeLetters.map Prod.fst ++ ['u', 'x', '\r', '\n', '\u2028', '\u2029']

/-- A piece of the body of a string literal. -/
inductive Piece where
  /-- A code point as it is. -/
  | raw (p : CodePoint) (h : p ≠ .char '\\')
  /-- A letter for another character. -/
  | letter (e c : Char) (h : (e, c) ∈ escapeLetters)
  /-- A backslash before a code point that means nothing there. -/
  | escaped (p : CodePoint) (h : ∀ c ∈ meaningful, p ≠ .char c)
  /-- A number of two digits. -/
  | two (a b : HexDigit)
  /-- A number of four digits. -/
  | four (a b c d : HexDigit)
  /-- A number in braces. -/
  | braced (digits : List HexDigit) (hSome : digits ≠ []) (hBound : numberOf digits ≤ 0x10FFFF)
  /-- A line end that is joined. -/
  | joined (lineEnd : Text) (h : lineEnd ∈ joinedLineEnds)

namespace Piece

/-- What a piece is written as. -/
def text : Piece → Text
  | raw p _ => [p]
  | letter e _ _ => [.char '\\', .char e]
  | escaped p _ => [.char '\\', p]
  | two a b => .char '\\' :: .char 'x' :: [a, b].map HexDigit.point
  | four a b c d => .char '\\' :: .char 'u' :: [a, b, c, d].map HexDigit.point
  | braced digits _ _ =>
    .char '\\' :: .char 'u' :: .char '\x7b' :: (digits.map HexDigit.point ++ [.char '\x7d'])
  | joined lineEnd _ => .char '\\' :: lineEnd

/-- What a piece denotes: one code point, or nothing. -/
def value : Piece → Text
  | raw p _ => [p]
  | letter _ c _ => [.char c]
  | escaped p _ => [p]
  | two a b => [.ofBounded (numberOf [a, b]) (numberOf_two a b)]
  | four a b c d => [.ofBounded (numberOf [a, b, c, d]) (numberOf_four a b c d)]
  | braced digits _ hBound => [.ofBounded (numberOf digits) hBound]
  | joined _ _ => []

theorem denotes_letter {e c : Char} (h : (e, c) ∈ escapeLetters) :
    Denotes [.char '\\', .char e] [.char c] := by
  have hAll : escapeLetters.all (fun l => simpleEscape (.char l.1) = [.char l.2] ∧
      CodePoint.char l.1 ∉ [.char 'u', .char 'x', .char '\r']) = true := by decide
  obtain ⟨hSimple, hNot⟩ := of_decide_eq_true (List.all_eq_true.mp hAll (e, c) h)
  rw [← hSimple]
  exact .escaped (.char e) hNot

theorem denotes_escaped {p : CodePoint} (h : ∀ c ∈ meaningful, p ≠ .char c) :
    Denotes [.char '\\', p] [p] := by
  have hNot : p ∉ [.char 'u', .char 'x', .char '\r'] := by
    simp only [List.mem_cons, List.not_mem_nil, or_false, not_or]
    exact ⟨h 'u' (by decide), h 'x' (by decide), h '\r' (by decide)⟩
  have hSimple : simpleEscape p = [p] := by
    unfold simpleEscape
    split
    iterate 10 exact absurd rfl (h _ (by decide))
    rfl
  have hDenotes := Denotes.escaped p hNot
  rwa [hSimple] at hDenotes

theorem denotes_joined {lineEnd : Text} (h : lineEnd ∈ joinedLineEnds) :
    Denotes (.char '\\' :: lineEnd) [] := by
  simp only [joinedLineEnds, List.mem_cons, List.not_mem_nil, or_false] at h
  obtain rfl | rfl | rfl | rfl := h
  · exact .escaped (.char '\n') (by decide)
  · exact .joined
  · exact .escaped (.char '\u2028') (by decide)
  · exact .escaped (.char '\u2029') (by decide)

theorem isNumberOf_points {digits : List HexDigit} (h : numberOf digits ≤ 0x10FFFF) :
    IsNumberOf (digits.map HexDigit.point) (.ofBounded (numberOf digits) h) where
  hex p hMem := by
    obtain ⟨d, -, rfl⟩ := List.mem_map.mp hMem
    exact d.isHexDigit_point
  value := by rw [hexValue_points, CodePoint.toNat_ofBounded]

theorem denotes (piece : Piece) : Denotes piece.text piece.value := by
  cases piece with
  | raw p h => exact .plain p h
  | letter e c h => exact denotes_letter h
  | escaped p h => exact denotes_escaped h
  | two a b => exact .two _ _ (isNumberOf_points _) rfl
  | four a b c d => exact .four _ _ (isNumberOf_points _) rfl
  | braced digits hSome hBound =>
    exact .braced _ _ (isNumberOf_points hBound) (mt List.map_eq_nil_iff.mp hSome)
  | joined lineEnd h => exact denotes_joined h

theorem decodeFrom_pieces (pieces : List Piece) (t : Text) :
    decodeFrom 0 (pieces.flatMap text ++ t) =
      (decodeFrom 0 t).map (pieces.flatMap value ++ ·) := by
  induction pieces with
  | nil =>
    show decodeFrom 0 t = (decodeFrom 0 t).map id
    cases decodeFrom 0 t <;> rfl
  | cons piece pieces ih =>
    rw [List.flatMap_cons, List.append_assoc, decode_piece piece.denotes, ih]
    cases decodeFrom 0 t with
    | error e => rfl
    | ok rest => simp [Except.map]

end Piece

theorem value_quoted (opening closing : CodePoint) (body : Text) :
    value (opening :: (body ++ [closing])) = decodeFrom 0 body := by
  rw [value, List.drop_one, List.tail_cons, List.dropLast_concat]

/-- A literal denotes what its pieces denote, one after the other. What they denote is never decoded
again: it is the same whatever follows, and it has no effect on what follows. -/
theorem pieces_decoded_in_place (opening closing : CodePoint) (pieces : List Piece) :
    value (opening :: (pieces.flatMap Piece.text ++ [closing])) = .ok (pieces.flatMap Piece.value) ∧
      ∀ rest : Text, value (opening :: (pieces.flatMap Piece.text ++ rest ++ [closing])) =
        (value (opening :: (rest ++ [closing]))).map (pieces.flatMap Piece.value ++ ·) := by
  refine ⟨?_, fun rest => ?_⟩
  · have hAll := Piece.decodeFrom_pieces pieces []
    rw [List.append_nil] at hAll
    rw [value_quoted, hAll]
    exact congrArg Except.ok (List.append_nil _)
  · rw [value_quoted, value_quoted, Piece.decodeFrom_pieces]

end StringLiteral

end ClientBoundary
