import ClientBoundary.Ast.Printer
import ClientBoundary.Literal.String
import ClientBoundary.Proofs.Spelling
import Mathlib.Data.List.Forall2

/-!
# Spellings of strings

A string can be written in many ways: in either quotes, and each code point as it is or by an escape.
The body of a literal is a sequence of pieces, and pieces follow each other without separators.

* `Denotes` — a piece of a body and what it denotes.
* `decode_piece` — a piece is decoded to what it denotes, whatever follows it.
* `SpellingOf.string`, `SpellingOf.decoded` — a spelling of a string is one token, whatever follows it,
  and has the string as its value.
* `synthetic_string_is_one_token` — the case of strings that are not taken from a source.
-/

namespace ClientBoundary

-- ---------------------------------------------------------------------------------------------
-- Pieces of a literal
-- ---------------------------------------------------------------------------------------------

/-- Hexadecimal digits that spell the number of a code point. -/
structure IsNumberOf (digits : Text) (p : CodePoint) : Prop where
  hex : ∀ d ∈ digits, d.isHexDigit = true
  value : Text.hexValue digits = p.toNat

/-- A piece of the body of a literal and what it denotes: a code point as it is, a backslash before a
single code point, a backslash before a line end of two code points, or a number. -/
inductive Denotes : Text → Text → Prop where
  | plain (p : CodePoint) (h : p ≠ .char '\\') : Denotes [p] [p]
  | escaped (e : CodePoint) (h : e ∉ [.char 'u', .char 'x', .char '\r']) :
      Denotes [.char '\\', e] (StringLiteral.simpleEscape e)
  | joined : Denotes "\\\r\n" []
  | two (digits : Text) (p : CodePoint) (h : IsNumberOf digits p) (hLength : digits.length = 2) :
      Denotes (.char '\\' :: .char 'x' :: digits) [p]
  | four (digits : Text) (p : CodePoint) (h : IsNumberOf digits p) (hLength : digits.length = 4) :
      Denotes (.char '\\' :: .char 'u' :: digits) [p]
  | braced (digits : Text) (p : CodePoint) (h : IsNumberOf digits p) (hSome : digits ≠ []) :
      Denotes (.char '\\' :: .char 'u' :: .char '\x7b' :: (digits ++ [.char '\x7d'])) [p]

theorem CodePoint.ofNat?_toNat (p : CodePoint) : CodePoint.ofNat? p.toNat = some p := by
  cases p with
  | char c =>
    have hValid : c.toNat.isValidChar := c.valid
    rw [CodePoint.toNat, CodePoint.ofNat?, dif_pos hValid]
    rfl
  | surrogate i =>
    have hBound := i.isLt
    have hInvalid : ¬ (0xD800 + i.val).isValidChar := by
      unfold Nat.isValidChar
      omega
    rw [CodePoint.toNat, CodePoint.ofNat?, dif_neg hInvalid, dif_pos (by omega)]
    simp

theorem CodePoint.toNat_lt (p : CodePoint) : p.toNat < 0x110000 := by
  cases p with
  | char c =>
    have hValid : c.toNat.isValidChar := c.valid
    show c.toNat < 0x110000
    unfold Nat.isValidChar at hValid
    omega
  | surrogate i =>
    have hBound := i.isLt
    show 0xD800 + i.val < 0x110000
    omega

/-- Every number of the code space is that of a code point. -/
theorem CodePoint.exists_toNat_eq {n : Nat} (h : n < 0x110000) : ∃ p : CodePoint, p.toNat = n := by
  by_cases hSurrogate : 0xD800 ≤ n ∧ n < 0xE000
  · refine ⟨.surrogate ⟨n - 0xD800, by omega⟩, ?_⟩
    show 0xD800 + (n - 0xD800) = n
    omega
  · have hValid : n.isValidChar := by
      unfold Nat.isValidChar
      omega
    exact ⟨.char (Char.ofNatAux n hValid), rfl⟩

-- ---------------------------------------------------------------------------------------------
-- Decoding
-- ---------------------------------------------------------------------------------------------

open StringLiteral (decodeFrom)

theorem decodeFrom_append (ds t : Text) : decodeFrom ds.length (ds ++ t) = decodeFrom 0 t := by
  induction ds with
  | nil => rfl
  | cons d ds ih => exact ih

theorem decodeFrom_plain {p : CodePoint} (h : p ≠ .char '\\') (t : Text) :
    decodeFrom 0 (p :: t) = (decodeFrom 0 t).map (p :: ·) := by
  rw [decodeFrom]
  · cases decodeFrom 0 t <;> rfl
  · exact h

/-- An escape that takes the code points `e` after the backslash. -/
theorem decodeFrom_escape {e v t : Text}
    (hEscape : StringLiteral.escape (e ++ t) = (.ok v, e.length)) :
    decodeFrom 0 (.char '\\' :: (e ++ t)) = (decodeFrom 0 t).map (v ++ ·) := by
  rw [decodeFrom, hEscape]
  simp only [bind, Except.bind, decodeFrom_append]
  cases decodeFrom 0 t <;> rfl

theorem IsNumberOf.named {digits : Text} {p : CodePoint} (h : IsNumberOf digits p) :
    StringLiteral.named (Text.hexValue digits) = .ok [p] := by
  have hBound := p.toNat_lt
  rw [h.value, StringLiteral.named, if_neg (by omega), CodePoint.ofNat?_toNat]

theorem fixedDigits?_append {digits : Text} (h : ∀ d ∈ digits, d.isHexDigit = true) (t : Text) :
    StringLiteral.fixedDigits? digits.length (digits ++ t) = some digits := by
  have hAll : digits.all (·.isHexDigit) = true := List.all_eq_true.mpr h
  simp [StringLiteral.fixedDigits?, hAll]

theorem bracedDigits?_digits {digits : Text} (h : ∀ d ∈ digits, d.isHexDigit = true)
    (hSome : digits ≠ []) (t : Text) : StringLiteral.bracedDigits? (digits ++ t) = none := by
  obtain ⟨d, ds, rfl⟩ := List.exists_cons_of_ne_nil hSome
  have hBrace : d ≠ .char '\x7b' := by
    rintro rfl
    exact absurd (h _ List.mem_cons_self) (by decide)
  rw [List.cons_append]
  unfold StringLiteral.bracedDigits?
  split
  · rename_i heq
    exact absurd (List.cons.inj heq).1 hBrace
  · rfl

theorem bracedDigits?_braced {digits : Text} (h : ∀ d ∈ digits, d.isHexDigit = true)
    (hSome : digits ≠ []) (t : Text) :
    StringLiteral.bracedDigits? (.char '\x7b' :: (digits ++ .char '\x7d' :: t)) = some digits := by
  have hTake : (digits ++ .char '\x7d' :: t).takeWhile (·.isHexDigit) = digits := by
    rw [List.takeWhile_append_of_pos h]
    simp [show (CodePoint.char '\x7d').isHexDigit = false by decide]
  obtain ⟨d, ds, rfl⟩ := List.exists_cons_of_ne_nil hSome
  simp only [StringLiteral.bracedDigits?, hTake, List.drop_left]

/-- A piece is decoded to what it denotes, whatever follows it. -/
theorem decode_piece {w v : Text} (h : Denotes w v) (t : Text) :
    decodeFrom 0 (w ++ t) = (decodeFrom 0 t).map (v ++ ·) := by
  cases h with
  | plain p hp => exact decodeFrom_plain hp t
  | escaped e he =>
    refine decodeFrom_escape (e := [e]) ?_
    simp only [List.mem_cons, List.not_mem_nil, or_false, not_or] at he
    rw [List.singleton_append, StringLiteral.escape]
    · rfl
    · exact fun hu => he.1 hu
    · exact fun hx => he.2.1 hx
    · exact fun _ hr _ => he.2.2 hr
  | joined => exact decodeFrom_escape (e := "\r\n") rfl
  | two digits p hNumber hLength =>
    refine decodeFrom_escape (e := .char 'x' :: digits) ?_
    have hFixed := fixedDigits?_append hNumber.hex t
    rw [hLength] at hFixed
    rw [List.cons_append, StringLiteral.escape, hFixed, List.length_cons, hLength]
    exact congrArg (·, 3) hNumber.named
  | four digits p hNumber hLength =>
    refine decodeFrom_escape (e := .char 'u' :: digits) ?_
    have hSome : digits ≠ [] := List.length_pos_iff.mp (by omega)
    have hFixed := fixedDigits?_append hNumber.hex t
    rw [hLength] at hFixed
    rw [List.cons_append, StringLiteral.escape, bracedDigits?_digits hNumber.hex hSome, hFixed,
      List.length_cons, hLength]
    exact congrArg (·, 5) hNumber.named
  | braced digits p hNumber hSome =>
    refine decodeFrom_escape (e := .char 'u' :: .char '\x7b' :: (digits ++ [.char '\x7d'])) ?_
    have hBraced := bracedDigits?_braced hNumber.hex hSome t
    rw [List.cons_append, List.cons_append, List.append_assoc, List.singleton_append,
      StringLiteral.escape, hBraced]
    simp only [List.length_cons, List.length_append, List.length_nil]
    exact congrArg (·, digits.length + 3) hNumber.named

-- ---------------------------------------------------------------------------------------------
-- Scanning
-- ---------------------------------------------------------------------------------------------

open Pattern (longer stringRest)

theorem longer_longer (a b : Nat) (m : Option Nat) : longer a (longer b m) = longer (a + b) m := by
  cases m with
  | none => rfl
  | some n =>
    show some (n + b + a) = some (n + (a + b))
    congr 1
    omega

theorem stringRest_cons (quote : Char) {p : CodePoint} (hBackslash : p ≠ .char '\\') (t : Text) :
    stringRest quote (p :: t) =
      if p = .char quote then some 1 else if p = .char '\n' then none
      else longer 1 (stringRest quote t) := by
  cases p with
  | surrogate i => rfl
  | char c =>
    have hc : c ≠ '\\' := fun h => hBackslash (congrArg CodePoint.char h)
    simp [stringRest, hc]

/-- The quotes of a literal. -/
def quotes : List Char := ['"', '\'']

theorem eq_of_mem_quotes {quote : Char} (h : quote ∈ quotes) : quote = '"' ∨ quote = '\'' := by
  simpa [quotes] using h

/-- Code points that stand for themselves between the given quotes. -/
def IsPlain (quote : Char) (p : CodePoint) : Prop :=
  p ≠ .char '\\' ∧ p ≠ .char quote ∧ p ≠ .char '\n'

theorem stringRest_plain {quote : Char} {ds : Text} (h : ∀ d ∈ ds, IsPlain quote d) (t : Text) :
    stringRest quote (ds ++ t) = longer ds.length (stringRest quote t) := by
  induction ds with
  | nil =>
    show stringRest quote t = longer 0 (stringRest quote t)
    cases stringRest quote t <;> rfl
  | cons d ds ih =>
    obtain ⟨hBackslash, hQuote, hLine⟩ := h d List.mem_cons_self
    rw [List.cons_append, stringRest_cons quote hBackslash, if_neg hQuote, if_neg hLine,
      ih fun e he => h e (List.mem_cons_of_mem d he), longer_longer, List.length_cons, Nat.add_comm]

/-- After a backslash one code point is passed over, and the rest of an escape stands for itself. -/
theorem stringRest_escape {quote : Char} (e : CodePoint) {ds : Text}
    (h : ∀ d ∈ ds, IsPlain quote d) (t : Text) :
    stringRest quote (.char '\\' :: e :: (ds ++ t)) =
      longer (ds.length + 2) (stringRest quote t) := by
  rw [stringRest, stringRest_plain h, longer_longer, Nat.add_comm]

theorem isPlain_hexDigit {quote : Char} (hQuote : quote ∈ quotes) {d : CodePoint}
    (h : d.isHexDigit = true) : IsPlain quote d := by
  have hNe (c : Char) (hc : (CodePoint.char c).isHexDigit = false) : d ≠ .char c := by
    rintro rfl
    rw [h] at hc
    cases hc
  have hNot : (CodePoint.char quote).isHexDigit = false := by
    obtain rfl | rfl := eq_of_mem_quotes hQuote <;> decide
  exact ⟨hNe _ (by decide), hNe _ hNot, hNe _ (by decide)⟩

/-- A code point of a string is written as `w` between the given quotes. -/
structure WrittenAs (quote : Char) (p : CodePoint) (w : Text) : Prop where
  denotes : Denotes w [p]
  quote : w ≠ [.char quote]
  line : w ≠ [.char '\n']

/-- What a code point is written as is passed over as a whole. -/
theorem WrittenAs.stringRest {quote : Char} (hQuote : quote ∈ quotes) {p : CodePoint} {w : Text}
    (h : WrittenAs quote p w) (t : Text) :
    Pattern.stringRest quote (w ++ t) = longer w.length (Pattern.stringRest quote t) := by
  obtain ⟨hDenotes, hNotQuote, hNotLine⟩ := h
  have hPlain {digits : Text} (hNumber : IsNumberOf digits p) : ∀ d ∈ digits, IsPlain quote d :=
    fun d hd => isPlain_hexDigit hQuote (hNumber.hex d hd)
  generalize hp : [p] = v at hDenotes
  cases hDenotes with
  | plain p' hp' =>
    refine stringRest_plain (List.forall_mem_singleton.mpr ⟨hp', ?_, ?_⟩) t
    · exact fun h => hNotQuote (congrArg (fun c => [c]) h)
    · exact fun h => hNotLine (congrArg (fun c => [c]) h)
  | escaped e he => exact stringRest_escape e (List.forall_mem_nil _) t
  | joined => cases hp
  | two digits p' hNumber hLength =>
    cases hp
    exact stringRest_escape _ (hPlain hNumber) t
  | four digits p' hNumber hLength =>
    cases hp
    exact stringRest_escape _ (hPlain hNumber) t
  | braced digits p' hNumber hSome =>
    cases hp
    have hBraces : IsPlain quote (.char '\x7b') ∧ IsPlain quote (.char '\x7d') := by
      unfold IsPlain
      obtain rfl | rfl := eq_of_mem_quotes hQuote <;> decide
    have hDigits : ∀ d ∈ .char '\x7b' :: (digits ++ [.char '\x7d']), IsPlain quote d := by
      refine List.forall_mem_cons.mpr ⟨hBraces.1, fun d hd => ?_⟩
      rcases List.mem_append.mp hd with hd | hd
      · exact hPlain hNumber d hd
      · obtain rfl := List.mem_singleton.mp hd
        exact hBraces.2
    exact stringRest_escape _ hDigits t

-- ---------------------------------------------------------------------------------------------
-- Whole literals
-- ---------------------------------------------------------------------------------------------

/-- A literal in some quotes between which the code points of a string are written one by one. -/
def SpellingOf (value raw : Text) : Prop :=
  ∃ quote ∈ quotes, ∃ pieces, List.Forall₂ (WrittenAs quote) value pieces ∧
    raw = .char quote :: (pieces.flatten ++ [.char quote])

/-- A spelling of a string is one token, whatever follows it. -/
theorem SpellingOf.string {value raw : Text} (h : SpellingOf value raw) (rest : Text) :
    Pattern.string (raw ++ rest) = some raw.length := by
  obtain ⟨quote, hQuote, pieces, hPieces, rfl⟩ := h
  have hBody : stringRest quote (pieces.flatten ++ .char quote :: rest) =
      some (pieces.flatten.length + 1) := by
    induction hPieces with
    | nil =>
      have hEnd : CodePoint.char quote ≠ .char '\\' := by
        obtain rfl | rfl := eq_of_mem_quotes hQuote <;> decide
      exact (stringRest_cons quote hEnd rest).trans (if_pos rfl)
    | cons hPiece _ ih =>
      rw [List.flatten_cons, List.append_assoc, hPiece.stringRest hQuote, ih, List.length_append]
      show some (_ + 1 + _) = some _
      congr 1
      omega
  have hOpen : Pattern.string (.char quote :: (pieces.flatten ++ .char quote :: rest)) =
      longer 1 (stringRest quote (pieces.flatten ++ .char quote :: rest)) := by
    obtain rfl | rfl := eq_of_mem_quotes hQuote <;> rfl
  rw [List.cons_append, List.append_assoc, List.singleton_append, hOpen, hBody]
  simp [longer]

/-- The value of a spelling of a string is the string. -/
theorem SpellingOf.decoded {value raw : Text} (h : SpellingOf value raw) :
    StringLiteral.value raw = .ok value := by
  obtain ⟨quote, -, pieces, hPieces, rfl⟩ := h
  have hBody : decodeFrom 0 pieces.flatten = .ok value := by
    induction hPieces with
    | nil => rfl
    | cons hPiece _ ih =>
      rw [List.flatten_cons, decode_piece hPiece.denotes, ih]
      rfl
  rw [StringLiteral.value, List.drop_one, List.tail_cons, List.dropLast_concat, hBody]

-- ---------------------------------------------------------------------------------------------
-- Quoted texts
-- ---------------------------------------------------------------------------------------------

/-- The digits of a control character. -/
theorem hexDigits_control : ∀ n < 0x20,
    (∀ d ∈ Text.hexDigits 4 n, d.isHexDigit = true) ∧ (Text.hexDigits 4 n).length = 4 ∧
      Text.hexValue (Text.hexDigits 4 n) = n := by
  decide

theorem writtenAs_quotePoint (p : CodePoint) : WrittenAs '"' p (Text.quotePoint p) := by
  unfold Text.quotePoint
  split
  · exact ⟨.escaped (.char '"') (by decide), by decide, by decide⟩
  · exact ⟨.escaped (.char '\\') (by decide), by decide, by decide⟩
  · exact ⟨.escaped (.char 'n') (by decide), by decide, by decide⟩
  · exact ⟨.escaped (.char 'r') (by decide), by decide, by decide⟩
  · exact ⟨.escaped (.char 't') (by decide), by decide, by decide⟩
  · exact ⟨.escaped (.char 'f') (by decide), by decide, by decide⟩
  · exact ⟨.escaped (.char 'b') (by decide), by decide, by decide⟩
  · rename_i hQuote hBackslash hLine _ _ _ _
    split
    · rename_i hControl
      obtain ⟨hHex, hLength, hValue⟩ := hexDigits_control _ hControl
      exact ⟨.four _ p ⟨hHex, hValue⟩ hLength, by simp [Text.ofString], by simp [Text.ofString]⟩
    · exact ⟨.plain p hBackslash, fun h => hQuote (List.singleton_inj.mp h),
        fun h => hLine (List.singleton_inj.mp h)⟩

theorem spellingOf_quoted (t : Text) : SpellingOf t (Text.quoted t) := by
  refine ⟨'"', by decide, t.map Text.quotePoint, ?_, ?_⟩
  · rw [List.forall₂_map_right_iff, List.forall₂_same]
    exact fun p _ => writtenAs_quotePoint p
  · rw [Text.quoted, List.flatMap_def]
    rfl

theorem Pattern.head_of_string {t : Text} {n : Nat} (h : Pattern.string t = some n) :
    ∃ t', t = .char '"' :: t' ∨ t = .char '\'' :: t' := by
  unfold Pattern.string at h
  split at h
  · exact ⟨_, .inl rfl⟩
  · exact ⟨_, .inr rfl⟩
  · cases h

/-- In code a text that begins with a literal has it as a token, and it stays in code. -/
theorem Lexer.step_string {frame : CodeFrame} {depth : Int} {below : List Mode}
    {last : Option Terminal} {raw rest : Text}
    (h : Pattern.string (raw ++ rest) = some raw.length) :
    step ⟨.code frame depth :: below, last⟩ (raw ++ rest) =
      some (.token .string, raw.length, ⟨.code frame depth :: below, some .string⟩) := by
  generalize hn : raw.length = n at h
  generalize raw ++ rest = t at h
  have hQuote := Pattern.head_of_string h
  have hScan : scanCode t = some (.token .string, n) := by
    have hNumber : Pattern.number t = none := by
      obtain ⟨t', rfl | rfl⟩ := hQuote <;> rfl
    rw [scanCode, hNumber, h]
    rfl
  have hStep : step ⟨.code frame depth :: below, last⟩ t =
      (plainStep frame depth below t).map fun r => (r.1, r.2.1, ⟨r.2.2, remember last r.1⟩) := by
    obtain ⟨t', rfl | rfl⟩ := hQuote <;> rfl
  rw [hStep, plainStep, hScan]
  simp [remember, braceStep]

/-- A string that was not taken from a source is printed as one token, wherever code may stand, and
the value of the token is the string. -/
theorem synthetic_string_is_one_token (value : Text) (span : Span) (frame : CodeFrame) (depth : Int)
    (below : List Mode) (last : Option Terminal) (p : Place) :
    let text := Printer.str ⟨value, none, span⟩
    lexFrom text.length ⟨.code frame depth :: below, last⟩ p text =
        ⟨[⟨.token .string, text, p, p.after text⟩], ⟨.code frame depth :: below, some .string⟩, none⟩ ∧
      StringLiteral.value text = .ok value := by
  intro text
  have hSpelling : SpellingOf value text := spellingOf_quoted value
  have hText : spell [(.token .string, text)] = text := List.append_nil text
  have hSpelled : Spelled ⟨.code frame depth :: below, last⟩ [(.token .string, text)]
      ⟨.code frame depth :: below, some .string⟩ :=
    .cons (Lexer.step_string (hSpelling.string _)) (.nil _)
  have hLexed := lexFrom_spelled hSpelled text.length (Nat.le_of_eq (congrArg _ hText)) p
  rw [hText] at hLexed
  exact ⟨hLexed, hSpelling.decoded⟩

end ClientBoundary
