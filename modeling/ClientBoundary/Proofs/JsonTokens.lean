import ClientBoundary.Proofs.JsonGrammar
import Mathlib.Data.List.TakeWhile

/-!
# Reading the parts of JSON

Spaces, strings and numbers are read as the grammar has them.

A reading ends in one of three ways: something was read, the text is malformed, or an integer had too
many digits. Two predicates on readings go with this.

* `Accounts` — what was read, and that digits were too many, has its reason in the text. It is what holds
  of every reading.
* `Gives` — a reading has a given result, unless an integer had too many digits. It is what the grammar
  asks of a reading.
* `accounts_quotedString`, `gives_quotedString` — strings.
* `accounts_number`, `gives_number`, `number_long` — numbers.
-/

namespace ClientBoundary

namespace Json

namespace Reader

-- ---------------------------------------------------------------------------------------------
-- Outcomes
-- ---------------------------------------------------------------------------------------------

/-- What was read and what is left are as `P` says, and digits were too many only if `L`. -/
def Accounts {α : Type} (P : α → Text → Prop) (L : Prop) : Reading (α × Cursor) → Prop
  | .ok (a, c) => P a c.rest
  | .error .tooManyDigits => L
  | .error (.malformed _ _) => True

/-- `a` is read and `r` is left, unless an integer has too many digits. -/
def Gives {α : Type} (a : α) (r : Text) (x : Reading (α × Cursor)) : Prop :=
  x = .error .tooManyDigits ∨ ∃ o, x = .ok (a, ⟨o, r⟩)

section

variable {α β : Type} {P : α → Text → Prop} {Q : β → Text → Prop} {L M : Prop}
  {x : Reading (α × Cursor)} {f : α × Cursor → Reading (β × Cursor)}

theorem Accounts.bind (h : Accounts P L x) (hLong : L → M)
    (hRest : ∀ a c, P a c.rest → Accounts Q M (f (a, c))) : Accounts Q M (x >>= f) := by
  cases x with
  | ok result => exact hRest result.1 result.2 h
  | error e =>
    cases e with
    | tooManyDigits => exact hLong h
    | malformed fault offset => exact h

theorem Accounts.imp {P' : α → Text → Prop} (h : Accounts P L x) (hLong : L → M)
    (hOk : ∀ a r, P a r → P' a r) : Accounts P' M x := by
  cases x with
  | ok result => exact hOk result.1 result.2.rest h
  | error e =>
    cases e with
    | tooManyDigits => exact hLong h
    | malformed fault offset => exact h

theorem Gives.bind {a : α} {b : β} {r r' : Text} (h : Gives a r x)
    (hRest : ∀ o, Gives b r' (f (a, ⟨o, r⟩))) : Gives b r' (x >>= f) := by
  obtain rfl | ⟨o, rfl⟩ := h
  · exact .inl rfl
  · exact hRest o

theorem Gives.bind_long {a : α} {r : Text} (h : Gives a r x)
    (hRest : ∀ o, f (a, ⟨o, r⟩) = .error .tooManyDigits) : x >>= f = .error .tooManyDigits := by
  obtain rfl | ⟨o, rfl⟩ := h
  · rfl
  · exact hRest o

end

-- ---------------------------------------------------------------------------------------------
-- Runs of code points
-- ---------------------------------------------------------------------------------------------

theorem rest_eq_append {c : Cursor} {w r : Text} {n : Nat} (h : c.rest = w ++ r)
    (hLength : w.length = n) : c.rest = w ++ (c.advance n).rest := by
  rw [Cursor.advance, h, ← hLength, List.drop_left]

theorem takeWhile_append_drop (f : CodePoint → Bool) (t : Text) :
    t = t.takeWhile f ++ t.drop (t.takeWhile f).length :=
  (List.prefix_iff_eq_append.mp (List.takeWhile_prefix f)).symm

theorem takeWhile_append_stop {f : CodePoint → Bool} {w r : Text} (h : ∀ p ∈ w, f p = true)
    (hStop : ∀ p ∈ r.head?, f p = false) : (w ++ r).takeWhile f = w := by
  have hRest : r.takeWhile f = [] := by
    cases r with
    | nil => rfl
    | cons p r => exact List.takeWhile_cons_of_neg (Bool.eq_false_iff.mp (hStop p rfl))
  rw [List.takeWhile_append_of_pos h, hRest, List.append_nil]

/-- What follows a run is no part of it. -/
theorem head_drop_takeWhile (f : CodePoint → Bool) (t : Text) :
    ∀ p ∈ (t.drop (t.takeWhile f).length).head?, f p = false := by
  induction t with
  | nil => simp
  | cons q t ih =>
    by_cases hq : f q = true
    · simpa [List.takeWhile_cons_of_pos hq] using ih
    · simpa [List.takeWhile_cons_of_neg hq] using hq

-- ---------------------------------------------------------------------------------------------
-- Spaces
-- ---------------------------------------------------------------------------------------------

theorem isSpace_iff {p : CodePoint} : isSpace p = true ↔ p ∈ spaces := by
  simp [isSpace, spaces, Text.ofString, or_assoc]

theorem spaces_skipSpaces (c : Cursor) : Spaces c.rest (skipSpaces c).rest :=
  ⟨c.rest.takeWhile isSpace, fun _ hp => isSpace_iff.mp (List.mem_takeWhile_imp hp),
    takeWhile_append_drop isSpace c.rest⟩

/-- No space stands at the start of a text. -/
def NoSpace (t : Text) : Prop := ∀ p ∈ t.head?, p ∉ spaces

theorem skipSpaces_eq {t r : Text} (h : Spaces t r) (hRest : NoSpace r) (o : Nat) :
    ∃ o', skipSpaces ⟨o, t⟩ = ⟨o', r⟩ := by
  obtain ⟨s, hs, rfl⟩ := h
  have hTake : (s ++ r).takeWhile isSpace = s :=
    takeWhile_append_stop (fun p hp => isSpace_iff.mpr (hs p hp)) fun p hp =>
      Bool.eq_false_iff.mpr (mt isSpace_iff.mp (hRest p hp))
  refine ⟨o + s.length, ?_⟩
  rw [skipSpaces, hTake, Cursor.advance, List.drop_left]

-- ---------------------------------------------------------------------------------------------
-- Strings
-- ---------------------------------------------------------------------------------------------

theorem hexDigit?_lt {p : CodePoint} {n : Nat} (h : p.hexDigit? = some n) : n < 16 := by
  cases p with
  | surrogate i => cases h
  | char c =>
    simp only [CodePoint.hexDigit?, Char.le_def, UInt32.le_iff_toNat_le] at h
    simp only [← Char.toNat_val] at h
    grind

theorem fourDigits?_append {p a b c d : CodePoint} (h : IsNumberOf [a, b, c, d] p) (q : CodePoint)
    (r : Text) : fourDigits? (a :: b :: c :: d :: q :: r) = some p.toNat := by
  obtain ⟨hHex, hValue⟩ := h
  simp only [List.forall_mem_cons, CodePoint.isHexDigit, Option.isSome_iff_exists] at hHex
  obtain ⟨⟨w, hw⟩, ⟨x, hx⟩, ⟨y, hy⟩, ⟨z, hz⟩, -⟩ := hHex
  rw [← hValue]
  simp [fourDigits?, Text.hexValue, hw, hx, hy, hz]

theorem fourDigits?_eq_some {t : Text} {n : Nat} (h : fourDigits? t = some n) :
    ∃ p a b c d q r, IsNumberOf [a, b, c, d] p ∧ p.toNat = n ∧ t = a :: b :: c :: d :: q :: r := by
  unfold fourDigits? at h
  split at h
  · rename_i a b c d q r
    split at h
    · rename_i w x y z hw hx hy hz
      cases h
      have hBound : ((w * 16 + x) * 16 + y) * 16 + z < 0x110000 := by
        have := hexDigit?_lt hw
        have := hexDigit?_lt hx
        have := hexDigit?_lt hy
        have := hexDigit?_lt hz
        omega
      obtain ⟨p, hp⟩ := CodePoint.exists_toNat_eq hBound
      refine ⟨p, a, b, c, d, q, r, ⟨?_, ?_⟩, hp, rfl⟩
      · simp [CodePoint.isHexDigit, hw, hx, hy, hz]
      · simp [Text.hexValue, hw, hx, hy, hz, hp]
    · cases h
  · cases h

theorem point_toNat (p : CodePoint) : point p.toNat = p := by
  rw [point, CodePoint.ofNat?_toNat]
  rfl

/-- The code point of two surrogates. -/
theorem exists_pair {high low : Nat} (hHigh : isHigh high = true) (hLow : isLow low = true) :
    ∃ p : CodePoint, p.toNat = 0x10000 + (high - 0xd800) * 0x400 + (low - 0xdc00) := by
  simp only [isHigh, isLow, Bool.and_eq_true, decide_eq_true_eq] at hHigh hLow
  exact CodePoint.exists_toNat_eq (by omega)

/-- Reading a string from a place in it: what is read follows what was read before. -/
def StringFrom (value : Text) (c : Cursor) (v r : Text) : Prop :=
  ∃ w u, Body w u ∧ c.rest = w ++ .char '"' :: r ∧ v = value.reverse ++ u

/-- Reading goes on after `e`, which stands for `p`. -/
theorem Accounts.stringFrom {value e : Text} {p : CodePoint} {c c' : Cursor}
    {x : Reading (Text × Cursor)} (h : Accounts (StringFrom (p :: value) c') False x)
    (hText : c.rest = e ++ c'.rest)
    (hBody : ∀ w u r, c'.rest = w ++ .char '"' :: r → Body w u → Body (e ++ w) (p :: u)) :
    Accounts (StringFrom value c) False x := by
  refine h.imp id ?_
  rintro v r ⟨w, u, hw, hRest, rfl⟩
  refine ⟨e ++ w, p :: u, hBody w u r hRest hw, ?_, ?_⟩
  · rw [hText, hRest, List.append_assoc]
  · simp

theorem letterEscape?_eq_some {q p : CodePoint} (h : letterEscape? q = some p) :
    ∃ l ∈ letters, q = .char l.1 ∧ p = .char l.2 := by
  unfold letterEscape? at h
  split at h
  iterate 8
    cases h
    exact ⟨(_, _), by decide, rfl, rfl⟩
  cases h

theorem secondEscape?_append {p : CodePoint} {e : Text} (h : IsEscapeOf p e) (q : CodePoint)
    (r : Text) : secondEscape? (e ++ q :: r) = some (some p.toNat) := by
  obtain ⟨a, b, c, d, hNumber, rfl⟩ := h
  exact congrArg some (fourDigits?_append hNumber q [])

theorem secondEscape?_quote {p : CodePoint} {e : Text} (h : IsEscapeOf p e) (w r : Text) :
    secondEscape? (e ++ w ++ .char '"' :: r) = some (some p.toNat) := by
  rw [List.append_assoc]
  cases w with
  | nil => exact secondEscape?_append h _ _
  | cons q w => exact secondEscape?_append h _ _

/-- What a text has to begin with so that the escape of a second surrogate is read. -/
theorem secondEscape?_eq_some {t : Text} {low : Nat} (h : secondEscape? t = some (some low)) :
    ∃ p e q r, IsEscapeOf p e ∧ p.toNat = low ∧ t = e ++ q :: r := by
  unfold secondEscape? at h
  split at h
  · rename_i a b c d q r
    obtain ⟨p, a', b', c', d', q', r', hNumber, hp, hText⟩ :=
      fourDigits?_eq_some (Option.some.inj h)
    cases hText
    exact ⟨p, _, q, r, ⟨a, b, c, d, hNumber, rfl⟩, hp, rfl⟩
  · cases h

/-- The escape of a low surrogate does not follow unless it is read as that of a second one. -/
theorem not_beginsLow {t w r : Text}
    (h : ∀ low, secondEscape? t = some (some low) → isLow low ≠ true)
    (hText : t = w ++ .char '"' :: r) : ¬ BeginsLow w := by
  rintro ⟨e, p, w', hEscape, hLow, rfl⟩
  refine h p.toNat ?_ hLow
  rw [hText, secondEscape?_quote hEscape]

section

variable {value e : Text} {p : CodePoint} {c c' : Cursor} {x : Reading (Text × Cursor)}

/-- Reading goes on after an escape that is not the first of a pair. -/
theorem Accounts.stringFrom_number (h : Accounts (StringFrom (p :: value) c') False x)
    (hText : c.rest = e ++ c'.rest) (hEscape : IsEscapeOf p e)
    (hAlone : isHigh p.toNat = true → ∀ low, secondEscape? c'.rest = some (some low) →
      isLow low ≠ true) : Accounts (StringFrom value c) False x :=
  h.stringFrom hText fun _ _ _ hRest =>
    .number hEscape fun hHigh => not_beginsLow (hAlone hHigh) hRest

/-- Reading goes on after the two escapes of a pair. -/
theorem Accounts.stringFrom_pair {low : Nat}
    (h : Accounts (StringFrom (point (0x10000 + (p.toNat - 0xd800) * 0x400 + (low - 0xdc00)) :: value)
      (c'.advance 6)) False x)
    (hText : c.rest = e ++ c'.rest) (hEscape : IsEscapeOf p e) (hHigh : isHigh p.toNat = true)
    (hSecond : secondEscape? c'.rest = some (some low)) (hLow : isLow low = true) :
    Accounts (StringFrom value c) False x := by
  obtain ⟨q, e', s, r, hEscape', rfl, hRest⟩ := secondEscape?_eq_some hSecond
  obtain ⟨pair, hPair⟩ := exists_pair hHigh hLow
  have hBoth : c.rest = (e ++ e') ++ (c'.advance 6).rest := by
    rw [List.append_assoc, ← rest_eq_append hRest hEscape'.length_eq, hText]
  rw [← hPair, point_toNat] at h
  refine h.stringFrom hBoth fun w u _ _ hw => ?_
  rw [List.append_assoc]
  exact .pair hEscape hEscape' hHigh hLow hPair hw

end

theorem accounts_string (start fuel : Nat) : ∀ (value : Text) (c : Cursor),
    Accounts (StringFrom value c) False (string start fuel value c) := by
  induction fuel with
  | zero => exact fun _ _ => trivial
  | succ fuel ih =>
    intro value c
    rw [string]
    split
    · trivial
    · next hText => exact ⟨[], [], .nil, by simp [hText, Cursor.advance], by simp⟩
    · trivial
    · next digits hText =>
      split
      · trivial
      · next n hDigits =>
        obtain ⟨p, a, b, x, d, q, r, hNumber, rfl, rfl⟩ := fourDigits?_eq_some hDigits
        obtain ⟨e, he⟩ : ∃ e, e = [.char '\\', .char 'u', a, b, x, d] := ⟨_, rfl⟩
        have hEscape : IsEscapeOf p e := ⟨a, b, x, d, hNumber, he⟩
        have hNext : c.rest = e ++ (c.advance 6).rest :=
          rest_eq_append (r := q :: r) (by simp [hText, he]) hEscape.length_eq
        simp only [point_toNat]
        split
        · next hHigh =>
          split
          · next hSecond =>
            refine (ih _ _).stringFrom_number hNext hEscape fun _ low h => ?_
            cases hSecond.symm.trans h
          · trivial
          · next low hSecond =>
            split
            · next hLow => exact (ih _ _).stringFrom_pair hNext hEscape hHigh hSecond hLow
            · next hLow =>
              refine (ih _ _).stringFrom_number hNext hEscape fun _ low' h => ?_
              cases hSecond.symm.trans h
              exact hLow
        · next hHigh =>
          exact (ih _ _).stringFrom_number hNext hEscape fun h => absurd h hHigh
    · next letter t hText _ =>
      split
      · next p hLetter =>
        obtain ⟨⟨e, x⟩, hMem, rfl, rfl⟩ := letterEscape?_eq_some hLetter
        exact (ih _ _).stringFrom (e := [.char '\\', .char e]) (by simp_all [Cursor.advance])
          fun w u r _ => .letter hMem
      · trivial
    · next p t hQuote hAlone _ hLetter hText =>
      have hBackslash : p ≠ .char '\\' := by
        intro hp
        cases t with
        | nil => exact hAlone hp rfl
        | cons q t => exact hLetter q t hp rfl
      split
      · trivial
      · next hControl =>
        exact (ih _ _).stringFrom (e := [p]) (by simp [hText, Cursor.advance])
          fun w u r _ => .plain hQuote hBackslash (Nat.le_of_not_lt hControl)

theorem accounts_quotedString {c : Cursor} {t : Text} (h : c.rest = .char '"' :: t) :
    Accounts (StringAt c.rest) False (quotedString c) := by
  refine (accounts_string c.offset _ [] (c.advance 1)).imp id ?_
  rintro v r ⟨w, u, hw, hRest, rfl⟩
  refine ⟨w, hw, ?_⟩
  rw [← hRest]
  exact rest_eq_append (w := [.char '"']) h rfl

theorem string_plain (start fuel : Nat) (value : Text) (o : Nat) {p : CodePoint} (t : Text)
    (hQuote : p ≠ .char '"') (hBackslash : p ≠ .char '\\') (hControl : 0x20 ≤ p.toNat) :
    string start (fuel + 1) value ⟨o, p :: t⟩ = string start fuel (p :: value) ⟨o + 1, t⟩ := by
  rw [string]
  split
  · next h => cases h
  · next h => exact absurd (List.cons.inj h).1 hQuote
  · next h => exact absurd (List.cons.inj h).1 hBackslash
  · next h => exact absurd (List.cons.inj h).1 hBackslash
  · next h => exact absurd (List.cons.inj h).1 hBackslash
  · next h =>
    cases h
    rw [if_neg (Nat.not_lt.mpr hControl)]
    rfl

theorem string_letter (start fuel : Nat) (value : Text) (o : Nat) {e c : Char}
    (h : (e, c) ∈ letters) (t : Text) :
    string start (fuel + 1) value ⟨o, .char '\\' :: .char e :: t⟩ =
      string start fuel (.char c :: value) ⟨o + 2, t⟩ := by
  simp only [letters, List.mem_cons, List.not_mem_nil, or_false, Prod.mk.injEq] at h
  obtain h | h | h | h | h | h | h | h := h
  all_goals
    obtain ⟨rfl, rfl⟩ := h
    rfl

/-- An escape that is not the first of a pair. -/
theorem string_number (start fuel : Nat) (value : Text) (o : Nat) {e : Text} {p : CodePoint}
    (hEscape : IsEscapeOf p e) (q : CodePoint) (t : Text)
    (hAlone : isHigh p.toNat = true → secondEscape? (q :: t) = none ∨
      ∃ low, secondEscape? (q :: t) = some (some low) ∧ isLow low ≠ true) :
    string start (fuel + 1) value ⟨o, e ++ q :: t⟩ =
      string start fuel (p :: value) ⟨o + 6, q :: t⟩ := by
  obtain ⟨a, b, c, d, hNumber, rfl⟩ := hEscape
  have hDigits := fourDigits?_append hNumber q t
  simp only [string, List.cons_append, List.nil_append, hDigits, point_toNat, Cursor.advance,
    List.drop_succ_cons, List.drop_zero]
  split
  · next hHigh =>
    obtain hSecond | ⟨low, hSecond, hLow⟩ := hAlone hHigh
    · rw [hSecond]
    · simp only [hSecond, hLow]
      rfl
  · rfl

/-- Two escapes that make a pair. -/
theorem string_pair (start fuel : Nat) (value : Text) (o : Nat) {e e' : Text}
    {high low p : CodePoint} (hEscape : IsEscapeOf high e) (hEscape' : IsEscapeOf low e')
    (hHigh : isHigh high.toNat = true) (hLow : isLow low.toNat = true)
    (hPair : p.toNat = 0x10000 + (high.toNat - 0xd800) * 0x400 + (low.toNat - 0xdc00))
    (q : CodePoint) (t : Text) :
    string start (fuel + 1) value ⟨o, e ++ (e' ++ q :: t)⟩ =
      string start fuel (p :: value) ⟨o + 6 + 6, q :: t⟩ := by
  have hSecond := secondEscape?_append hEscape' q t
  obtain ⟨a, b, c, d, hNumber, rfl⟩ := hEscape
  obtain ⟨a', b', c', d', -, rfl⟩ := hEscape'
  have hDigits := fourDigits?_append hNumber (.char '\\') (.char 'u' :: a' :: b' :: c' :: d' :: q :: t)
  simp only [List.cons_append, List.nil_append] at hSecond ⊢
  simp only [string, hDigits, Cursor.advance, List.drop_succ_cons, List.drop_zero, hSecond, hHigh,
    hLow, if_true, ← hPair, point_toNat]

/-- What follows an escape in a string: another escape, or nothing that could be taken for one. -/
theorem secondEscape?_body {w u : Text} (h : Body w u) (r : Text) :
    secondEscape? (w ++ .char '"' :: r) = none ∨ ∃ p e w', IsEscapeOf p e ∧ w = e ++ w' ∧
      secondEscape? (w ++ .char '"' :: r) = some (some p.toNat) := by
  cases h with
  | nil => exact .inl rfl
  | plain _ hBackslash _ _ =>
    left
    unfold secondEscape?
    split
    · next hText => exact absurd (List.cons.inj hText).1 hBackslash
    · rfl
  | letter hLetter _ =>
    left
    simp only [letters, List.mem_cons, List.not_mem_nil, or_false, Prod.mk.injEq] at hLetter
    obtain h | h | h | h | h | h | h | h := hLetter
    all_goals
      obtain ⟨rfl, rfl⟩ := h
      rfl
  | number hEscape _ _ => exact .inr ⟨_, _, _, hEscape, rfl, secondEscape?_quote hEscape _ r⟩
  | pair hEscape _ _ _ _ _ => exact .inr ⟨_, _, _, hEscape, rfl, secondEscape?_quote hEscape _ r⟩

theorem string_body {w u : Text} (h : Body w u) (start : Nat) : ∀ (fuel : Nat) (value : Text)
    (o : Nat) (r : Text), w.length < fuel →
    ∃ o', string start fuel value ⟨o, w ++ .char '"' :: r⟩ = .ok (value.reverse ++ u, ⟨o', r⟩) := by
  -- In every case there is fuel for one step, and the rest of the body is shorter.
  induction h with
  | nil =>
    intro fuel value o r hFuel
    obtain ⟨fuel, rfl⟩ : ∃ n, fuel = n + 1 := ⟨fuel - 1, by omega⟩
    exact ⟨o + 1, by simp [string, Cursor.advance]⟩
  | @plain p w u hQuote hBackslash hControl _ ih =>
    intro fuel value o r hFuel
    obtain ⟨fuel, rfl⟩ : ∃ n, fuel = n + 1 := ⟨fuel - 1, by omega⟩
    rw [List.length_cons] at hFuel
    obtain ⟨o', hRead⟩ := ih fuel (p :: value) (o + 1) r (by omega)
    refine ⟨o', ?_⟩
    rw [List.cons_append, string_plain start fuel value o _ hQuote hBackslash hControl, hRead]
    simp
  | @letter e c w u hLetter _ ih =>
    intro fuel value o r hFuel
    obtain ⟨fuel, rfl⟩ : ∃ n, fuel = n + 1 := ⟨fuel - 1, by omega⟩
    rw [List.length_cons, List.length_cons] at hFuel
    obtain ⟨o', hRead⟩ := ih fuel (.char c :: value) (o + 2) r (by omega)
    refine ⟨o', ?_⟩
    rw [List.cons_append, List.cons_append, string_letter start fuel value o hLetter, hRead]
    simp
  | @number e p w u hEscape hAlone hRest ih =>
    intro fuel value o r hFuel
    obtain ⟨fuel, rfl⟩ : ∃ n, fuel = n + 1 := ⟨fuel - 1, by omega⟩
    rw [List.length_append, hEscape.length_eq] at hFuel
    obtain ⟨o', hRead⟩ := ih fuel (p :: value) (o + 6) r (by omega)
    obtain ⟨q, t, hText⟩ : ∃ q t, w ++ .char '"' :: r = q :: t := List.exists_cons_of_ne_nil (by simp)
    have hSecond : isHigh p.toNat = true → secondEscape? (q :: t) = none ∨
        ∃ low, secondEscape? (q :: t) = some (some low) ∧ isLow low ≠ true := by
      intro hHigh
      rw [← hText]
      obtain hNone | ⟨p', e', w', hEscape', rfl, hSome⟩ := secondEscape?_body hRest r
      · exact .inl hNone
      · exact .inr ⟨_, hSome, fun hLow => hAlone hHigh ⟨e', p', w', hEscape', hLow, rfl⟩⟩
    refine ⟨o', ?_⟩
    rw [List.append_assoc, hText, string_number start fuel value o hEscape q t hSecond, ← hText, hRead]
    simp
  | @pair e e' high low p w u hEscape hEscape' hHigh hLow hPair _ ih =>
    intro fuel value o r hFuel
    obtain ⟨fuel, rfl⟩ : ∃ n, fuel = n + 1 := ⟨fuel - 1, by omega⟩
    rw [List.length_append, List.length_append, hEscape.length_eq] at hFuel
    obtain ⟨o', hRead⟩ := ih fuel (p :: value) (o + 6 + 6) r (by omega)
    obtain ⟨q, t, hText⟩ : ∃ q t, w ++ .char '"' :: r = q :: t := List.exists_cons_of_ne_nil (by simp)
    refine ⟨o', ?_⟩
    rw [List.append_assoc, List.append_assoc, hText,
      string_pair start fuel value o hEscape hEscape' hHigh hLow hPair q t, ← hText, hRead]
    simp

theorem gives_quotedString {t v r : Text} (h : StringAt t v r) (o : Nat) :
    Gives v r (quotedString ⟨o, t⟩) := by
  obtain ⟨w, hw, rfl⟩ := h
  have hFuel : w.length < (CodePoint.char '"' :: (w ++ .char '"' :: r)).length + 1 := by
    simp
    omega
  obtain ⟨o', hRead⟩ := string_body hw o _ [] (o + 1) r hFuel
  exact .inr ⟨o', hRead⟩

-- ---------------------------------------------------------------------------------------------
-- Numbers
-- ---------------------------------------------------------------------------------------------

/-- No digit stands at the start of a text. -/
def NoDigit (t : Text) : Prop := ∀ p ∈ t.head?, isAsciiDigit p = false

theorem digitCount_append {w r : Text} (h : ∀ p ∈ w, isAsciiDigit p = true) (hr : NoDigit r) :
    digitCount (w ++ r) = w.length := by
  rw [digitCount, takeWhile_append_stop h hr]

theorem exists_digits (t : Text) :
    ∃ w r, t = w ++ r ∧ (∀ p ∈ w, isAsciiDigit p = true) ∧ NoDigit r ∧ digitCount t = w.length :=
  ⟨_, _, takeWhile_append_drop isAsciiDigit t, fun _ hp => List.mem_takeWhile_imp hp,
    head_drop_takeWhile isAsciiDigit t, rfl⟩

theorem noDigit_cons {p : CodePoint} {t : Text} (h : isAsciiDigit p = false) : NoDigit (p :: t) := by
  intro q hq
  rwa [← Option.some.inj hq]

theorem signLength_append {signs sign t : Text} (h : sign = [] ∨ ∃ p ∈ signs, sign = [p])
    (ht : ∀ p ∈ t.head?, p ∉ signs) : signLength signs (sign ++ t) = sign.length := by
  obtain rfl | ⟨p, hp, rfl⟩ := h
  · cases t with
    | nil => rfl
    | cons q t => simpa [signLength] using ht q rfl
  · simp [signLength, hp]

theorem exists_sign (signs t : Text) : ∃ sign r, t = sign ++ r ∧
    (sign = [] ∨ ∃ p ∈ signs, sign = [p]) ∧ signLength signs t = sign.length := by
  cases t with
  | nil => exact ⟨[], [], rfl, .inl rfl, rfl⟩
  | cons p t =>
    by_cases hp : p ∈ signs
    · exact ⟨[p], t, rfl, .inr ⟨p, hp, rfl⟩, by simp [signLength, hp]⟩
    · exact ⟨[], p :: t, rfl, .inl rfl, by simp [signLength, hp]⟩

theorem wholeLength?_cons {p : CodePoint} (h : p ≠ .char '0') (t : Text) :
    wholeLength? (p :: t) = if isAsciiDigit p then some (1 + digitCount t) else none := by
  rw [wholeLength?]
  exact fun hp => h hp

theorem wholeLength?_append {w r : Text} (h : IsWhole w) (hr : NoDigit r) :
    wholeLength? (w ++ r) = some w.length := by
  cases h with
  | zero => rfl
  | digits h hHead =>
    obtain ⟨p, w, rfl⟩ := List.exists_cons_of_ne_nil h.ne_nil
    obtain ⟨hp, hw⟩ := List.forall_mem_cons.mp h.digits
    rw [List.cons_append, wholeLength?_cons fun hZero => hHead (congrArg some hZero), if_pos hp,
      digitCount_append hw hr, List.length_cons, Nat.add_comm]

/-- A zero is the whole part whatever follows it. -/
theorem wholeLength?_eq_some {t : Text} {n : Nat} (h : wholeLength? t = some n) :
    ∃ w r, IsWhole w ∧ w.length = n ∧ (1 < n → NoDigit r) ∧ t = w ++ r := by
  cases t with
  | nil => cases h
  | cons p t =>
    by_cases hZero : p = .char '0'
    · subst hZero
      cases h
      exact ⟨[.char '0'], t, .zero, rfl, fun h => absurd h (by decide), rfl⟩
    · rw [wholeLength?_cons hZero] at h
      split at h
      · next hp =>
        obtain ⟨w, r, rfl, hw, hr, hCount⟩ := exists_digits t
        rw [hCount] at h
        cases h
        refine ⟨p :: w, r, .digits ⟨List.cons_ne_nil p w, ?_⟩ ?_, Nat.add_comm _ _, fun _ => hr, rfl⟩
        · exact List.forall_mem_cons.mpr ⟨hp, hw⟩
        · exact fun h => hZero (Option.some.inj h)
      · cases h

theorem fractionLength_append {w r : Text} (h : IsFraction w) (hr : NoDigit r) :
    fractionLength (w ++ r) = w.length := by
  obtain ⟨h⟩ := h
  rename_i w
  have hSome := List.length_pos_iff.mpr h.ne_nil
  rw [List.cons_append, fractionLength, digitCount_append h.digits hr, if_neg (by omega),
    List.length_cons, Nat.add_comm]

theorem fractionLength_of_head {t : Text} (h : t.head? ≠ some (.char '.')) : fractionLength t = 0 := by
  unfold fractionLength
  split
  · exact absurd rfl h
  · rfl

theorem digitCount_ne_zero {w : Text} (h : IsDigits w) (r : Text) : digitCount (w ++ r) ≠ 0 := by
  obtain ⟨p, w, rfl⟩ := List.exists_cons_of_ne_nil h.ne_nil
  rw [digitCount, List.cons_append, List.takeWhile_cons_of_pos (h.digits p List.mem_cons_self)]
  exact Nat.succ_ne_zero _

theorem fractionLength_ne_zero {w : Text} (h : IsFraction w) (r : Text) :
    fractionLength (w ++ r) ≠ 0 := by
  cases h with
  | digits h =>
    rw [List.cons_append, fractionLength, if_neg (digitCount_ne_zero h r)]
    omega

/-- The fraction that a text begins with, if there is one. -/
theorem exists_fraction (t : Text) :
    ∃ w r, t = w ++ r ∧ (w = [] ∨ IsFraction w) ∧ fractionLength t = w.length := by
  by_cases hZero : fractionLength t = 0
  · exact ⟨[], t, rfl, .inl rfl, hZero⟩
  · unfold fractionLength at hZero ⊢
    split at hZero
    · next t =>
      obtain ⟨w, r, rfl, hw, -, hCount⟩ := exists_digits t
      rw [hCount] at hZero ⊢
      have hSome : w ≠ [] := by
        rintro rfl
        exact hZero rfl
      refine ⟨.char '.' :: w, r, rfl, .inr (.digits ⟨hSome, hw⟩), ?_⟩
      rw [if_neg (mt List.length_eq_zero_iff.mp hSome), List.length_cons, Nat.add_comm]
    · exact absurd rfl hZero

theorem notMem_of_isAsciiDigit {signs : Text} (hSigns : ∀ p ∈ signs, isAsciiDigit p = false)
    {w : Text} (h : IsDigits w) (r : Text) : ∀ p ∈ (w ++ r).head?, p ∉ signs := by
  obtain ⟨q, w, rfl⟩ := List.exists_cons_of_ne_nil h.ne_nil
  intro p hp hSign
  obtain rfl : q = p := Option.some.inj hp
  exact absurd (h.digits q List.mem_cons_self) (Bool.eq_false_iff.mp (hSigns q hSign))

theorem exponentLength_eq {e : CodePoint} {sign w : Text} (he : e = .char 'e' ∨ e = .char 'E')
    (hSign : sign = [] ∨ sign = [.char '+'] ∨ sign = [.char '-']) (h : IsDigits w) (r : Text) :
    exponentLength (e :: (sign ++ (w ++ r))) = 1 + sign.length + digitCount (w ++ r) := by
  have hSigns : ∀ p ∈ ("+-" : Text), isAsciiDigit p = false := by simp [Text.ofString]; decide
  have hLength : signLength "+-" (sign ++ (w ++ r)) = sign.length := by
    refine signLength_append ?_ (notMem_of_isAsciiDigit hSigns h r)
    simpa [Text.ofString] using hSign
  simp only [exponentLength, if_pos he, hLength, List.drop_left, if_neg (digitCount_ne_zero h r)]

theorem exponentLength_append {w r : Text} (h : IsExponent w) (hr : NoDigit r) :
    exponentLength (w ++ r) = w.length := by
  cases h with
  | digits he hSign h =>
    rw [List.cons_append, List.append_assoc, exponentLength_eq he hSign h,
      digitCount_append h.digits hr, List.length_cons, List.length_append]
    omega

theorem exponentLength_ne_zero {w : Text} (h : IsExponent w) (r : Text) :
    exponentLength (w ++ r) ≠ 0 := by
  cases h with
  | digits he hSign h =>
    rw [List.cons_append, List.append_assoc, exponentLength_eq he hSign h]
    omega

theorem exponentLength_of_head {t : Text} (h : t.head? ≠ some (.char 'e'))
    (h' : t.head? ≠ some (.char 'E')) : exponentLength t = 0 := by
  cases t with
  | nil => rfl
  | cons p t =>
    rw [exponentLength, if_neg]
    rintro (rfl | rfl)
    · exact h rfl
    · exact h' rfl

/-- The exponent that a text begins with, if there is one. -/
theorem exists_exponent (t : Text) :
    ∃ w r, t = w ++ r ∧ (w = [] ∨ IsExponent w) ∧ exponentLength t = w.length := by
  by_cases hZero : exponentLength t = 0
  · exact ⟨[], t, rfl, .inl rfl, hZero⟩
  · cases t with
    | nil => exact absurd rfl hZero
    | cons p t =>
      obtain ⟨sign, u, rfl, hSign, hLength⟩ := exists_sign "+-" t
      obtain ⟨w, r, rfl, hw, -, hCount⟩ := exists_digits u
      simp only [exponentLength, hLength, List.drop_left, hCount] at hZero ⊢
      split at hZero
      · next he =>
        have hSome : w ≠ [] := by
          rintro rfl
          exact hZero rfl
        refine ⟨p :: (sign ++ w), r, by simp, .inr (.digits he ?_ ⟨hSome, hw⟩), ?_⟩
        · simpa [Text.ofString] using hSign
        · rw [if_pos he, if_neg (mt List.length_eq_zero_iff.mp hSome), List.length_cons,
            List.length_append]
          omega
      · exact absurd rfl hZero

theorem not_continues_iff {t : Text} :
    ¬ Continues t ↔ NoDigit t ∧ fractionLength t = 0 ∧ exponentLength t = 0 := by
  constructor
  · intro h
    refine ⟨?_, ?_, ?_⟩
    · intro p hp
      cases t with
      | nil => cases hp
      | cons q t =>
        cases hp
        exact Bool.eq_false_iff.mpr fun hDigit => h (.digit hDigit)
    · obtain ⟨w, r, rfl, rfl | hw, hLength⟩ := exists_fraction t
      · exact hLength
      · exact absurd (.fraction hw) h
    · obtain ⟨w, r, rfl, rfl | hw, hLength⟩ := exists_exponent t
      · exact hLength
      · exact absurd (.exponent hw) h
  · rintro ⟨hDigit, hFraction, hExponent⟩ h
    cases h with
    | digit h => exact absurd h (Bool.eq_false_iff.mp (hDigit _ rfl))
    | fraction h => exact fractionLength_ne_zero h _ hFraction
    | exponent h => exact exponentLength_ne_zero h _ hExponent

theorem isSign_iff {w : Text} : IsSign w ↔ w = [] ∨ ∃ p ∈ ("-" : Text), w = [p] := by
  simp [IsSign, Text.ofString]

theorem isDigits_of_isWhole {w : Text} (h : IsWhole w) : IsDigits w := by
  cases h with
  | zero => exact ⟨List.cons_ne_nil _ _, List.forall_mem_singleton.mpr rfl⟩
  | digits h _ => exact h

/-- The number at the start of a text, from its parts. -/
theorem number_parts (sign whole fraction exponent r : Text)
    (hSign : signLength "-" (sign ++ (whole ++ (fraction ++ (exponent ++ r)))) = sign.length)
    (hWhole : wholeLength? (whole ++ (fraction ++ (exponent ++ r))) = some whole.length)
    (hFraction : fractionLength (fraction ++ (exponent ++ r)) = fraction.length)
    (hExponent : exponentLength (exponent ++ r) = exponent.length) (o : Nat) :
    number ⟨o, sign ++ (whole ++ (fraction ++ (exponent ++ r)))⟩ =
      if fraction.length + exponent.length = 0 ∧ maxDigits < whole.length then .error .tooManyDigits
      else .ok (.number (sign ++ (whole ++ (fraction ++ exponent))),
        ⟨o + (sign.length + whole.length + fraction.length + exponent.length), r⟩) := by
  have hText : sign ++ (whole ++ (fraction ++ (exponent ++ r))) =
      sign ++ (whole ++ (fraction ++ exponent)) ++ r := by simp
  have hLength : sign.length + whole.length + fraction.length + exponent.length =
      (sign ++ (whole ++ (fraction ++ exponent))).length := by
    simp only [List.length_append]
    omega
  simp only [number, hSign, ← List.drop_drop, List.drop_left, hWhole, hFraction, hExponent]
  rw [hText, hLength, Cursor.advance, List.drop_left, List.take_left]

theorem accounts_number (c : Cursor) :
    Accounts (fun j r => ∃ w, IsNumber w ∧ c.rest = w ++ r ∧ j = .number w) (LongIntegerAt c.rest)
      (number c) := by
  obtain ⟨o, t⟩ := c
  obtain ⟨sign, u, rfl, hSign, hSignLength⟩ := exists_sign "-" t
  rw [← isSign_iff] at hSign
  cases hWhole : wholeLength? u with
  | none =>
    simp only [number, hSignLength, List.drop_left, hWhole]
    trivial
  | some n =>
    obtain ⟨whole, v, hIsWhole, rfl, hDigit, rfl⟩ := wholeLength?_eq_some hWhole
    obtain ⟨fraction, v, rfl, hFraction, hFractionLength⟩ := exists_fraction v
    obtain ⟨exponent, r, rfl, hExponent, hExponentLength⟩ := exists_exponent v
    rw [number_parts sign whole fraction exponent r hSignLength hWhole hFractionLength hExponentLength]
    split
    · next hLong =>
      obtain ⟨hNone, hMany⟩ := hLong
      obtain rfl : fraction = [] := List.length_eq_zero_iff.mp (by omega)
      obtain rfl : exponent = [] := List.length_eq_zero_iff.mp (by omega)
      have hOne : 1 < whole.length := Nat.lt_trans (by decide) hMany
      exact ⟨sign, whole, r, hSign, hIsWhole, hMany,
        not_continues_iff.mpr ⟨hDigit hOne, hFractionLength, hExponentLength⟩, rfl⟩
    · exact ⟨_, ⟨sign, whole, fraction, exponent, hSign, hIsWhole, hFraction, hExponent, rfl⟩,
        by simp, rfl⟩

theorem signLength_whole {sign whole : Text} (hSign : IsSign sign) (hWhole : IsWhole whole) (r : Text) :
    signLength "-" (sign ++ (whole ++ r)) = sign.length := by
  have hMinus : ∀ p ∈ ("-" : Text), isAsciiDigit p = false := by
    simp [Text.ofString]
    decide
  exact signLength_append (isSign_iff.mp hSign)
    (notMem_of_isAsciiDigit hMinus (isDigits_of_isWhole hWhole) r)

theorem number_long {t : Text} (h : LongIntegerAt t) (o : Nat) :
    number ⟨o, t⟩ = .error .tooManyDigits := by
  obtain ⟨sign, whole, rest, hSign, hWhole, hMany, hRest, rfl⟩ := h
  obtain ⟨hDigit, hFraction, hExponent⟩ := not_continues_iff.mp hRest
  have hNumber := number_parts sign whole [] [] rest (signLength_whole hSign hWhole rest)
    (wholeLength?_append hWhole hDigit) hFraction hExponent o
  rwa [if_pos ⟨rfl, hMany⟩] at hNumber

/-- What may follow a value: a space, a comma, the end of what holds it, or nothing. -/
def Ends (t : Text) : Prop := ∀ p ∈ t.head?, p ∈ spaces ++ (",]\x7d" : Text)

theorem Ends.noDigit {t : Text} (h : Ends t) : NoDigit t := by
  have hAll : (spaces ++ (",]\x7d" : Text)).all (fun p => !isAsciiDigit p) = true := by decide
  intro p hp
  simpa using List.all_eq_true.mp hAll p (h p hp)

theorem Ends.head_ne {t : Text} (h : Ends t) {p : CodePoint}
    (hp : p ∉ spaces ++ (",]\x7d" : Text)) : t.head? ≠ some p :=
  fun hHead => hp (h p hHead)

/-- Before what may follow a number an exponent is taken whole, and before an exponent a fraction. -/
theorem gives_number {w r : Text} (h : IsNumber w) (hEnds : Ends r) (o : Nat) :
    Gives (.number w) r (number ⟨o, w ++ r⟩) := by
  obtain ⟨sign, whole, fraction, exponent, hSign, hWhole, hFraction, hExponent, rfl⟩ := h
  have hExponentLength : exponentLength (exponent ++ r) = exponent.length := by
    obtain rfl | hExponent := hExponent
    · exact exponentLength_of_head (hEnds.head_ne (by decide)) (hEnds.head_ne (by decide))
    · exact exponentLength_append hExponent hEnds.noDigit
  have hExponentHead : NoDigit (exponent ++ r) ∧ (exponent ++ r).head? ≠ some (.char '.') := by
    obtain rfl | ⟨rfl | rfl, -, -⟩ := hExponent
    · exact ⟨hEnds.noDigit, hEnds.head_ne (by decide)⟩
    · exact ⟨noDigit_cons (by decide), by simp⟩
    · exact ⟨noDigit_cons (by decide), by simp⟩
  have hFractionLength : fractionLength (fraction ++ (exponent ++ r)) = fraction.length := by
    obtain rfl | hFraction := hFraction
    · exact fractionLength_of_head hExponentHead.2
    · exact fractionLength_append hFraction hExponentHead.1
  have hDigit : NoDigit (fraction ++ (exponent ++ r)) := by
    obtain rfl | hFraction := hFraction
    · exact hExponentHead.1
    · cases hFraction
      exact noDigit_cons (by decide)
  have hNumber := number_parts sign whole fraction exponent r
    (signLength_whole hSign hWhole _) (wholeLength?_append hWhole hDigit) hFractionLength
    hExponentLength o
  simp only [List.append_assoc]
  rw [hNumber]
  split
  · exact .inl rfl
  · exact .inr ⟨_, rfl⟩

end Reader

end Json

end ClientBoundary
