import ClientBoundary.Proofs.StringSpelling

/-!
# How far a pattern looks

A pattern is matched at the start of a text, and what it finds there depends on a part of the text
only. Three things can happen to a match that lies in a text `u`, with something after it:

* Numbers and names end at a semicolon, at a line feed and at a blank alike, so only `u` matters
  (`number_stopped`, `name_stopped`); blanks end at the first two (`blank_break`).
* Strings, comments, templates and regular expressions end at a mark of their own, and the match is
  decided by what it takes (`Decided`).
* Line comments and the text between tags run over a semicolon; a match that does not reach the
  semicolon after `u` ends inside `u` (`run_inside`).

So a semicolon after `u` can be left out at the end of a line, and what was matched in `u` is still
matched.
-/

namespace ClientBoundary

/-- Empty, or beginning with a semicolon or a line feed. -/
def Breaks (r : Text) : Prop := ∀ c ∈ r.head?, c = .char ';' ∨ c = .char '\n'

/-- Empty, or beginning with a line feed. -/
def LineEnd (r : Text) : Prop := ∀ c ∈ r.head?, c = .char '\n'

theorem LineEnd.breaks {r : Text} (h : LineEnd r) : Breaks r := fun c hc => .inr (h c hc)

theorem breaks_semi (r : Text) : Breaks (.char ';' :: r) := fun c hc => .inl (by cases hc; rfl)

theorem Breaks.cases {r : Text} (h : Breaks r) :
    r = [] ∨ ∃ r', r = .char ';' :: r' ∨ r = .char '\n' :: r' := by
  cases r with
  | nil => exact .inl rfl
  | cons c r => exact .inr ⟨r, (h c rfl).imp (congrArg (· :: r)) (congrArg (· :: r))⟩

/-- The code points that end numbers and names alike: a semicolon, a line feed and plain blanks. -/
def stops : Text := Text.ofString ";\n \t"

/-- Empty, or beginning with a code point that ends numbers and names. -/
def Stopped (r : Text) : Prop := ∀ c ∈ r.head?, c ∈ stops

theorem Breaks.stopped {r : Text} (h : Breaks r) : Stopped r := by
  intro c hc
  rcases h c hc with rfl | rfl <;> decide

theorem Stopped.cases {r : Text} (h : Stopped r) :
    r = [] ∨ ∃ r', r = .char ';' :: r' ∨ r = .char '\n' :: r' ∨ r = .char ' ' :: r' ∨
      r = .char '\t' :: r' := by
  cases r with
  | nil => exact .inl rfl
  | cons c r =>
    have hStops : c ∈ stops := h c rfl
    exact .inr ⟨r, by simpa [stops, Text.ofString] using hStops⟩

namespace Pattern

-- ---------------------------------------------------------------------------------------------
-- Shapes that end at a semicolon, at a line feed and at a blank
-- ---------------------------------------------------------------------------------------------

theorem run_append {p : CodePoint → Bool} {r : Text} (h : ∀ c ∈ r.head?, p c = false) (u : Text) :
    run p (u ++ r) = run p u := by
  induction u with
  | nil =>
    cases r with
    | nil => rfl
    | cons c r => simp [run, h c rfl]
  | cons c u ih => rw [List.cons_append, run, run, ih]

theorem run_break {p : CodePoint → Bool} {r : Text} (hr : Breaks r) (hSemi : p (.char ';') = false)
    (hLine : p (.char '\n') = false) (u : Text) : run p (u ++ r) = run p u :=
  run_append (fun c hc => by rcases hr c hc with rfl | rfl <;> assumption) u

theorem run_le (p : CodePoint → Bool) (u : Text) : run p u ≤ u.length := by
  induction u with
  | nil => exact Nat.le_refl _
  | cons c u ih =>
    rw [run, List.length_cons]
    split <;> omega

theorem run_stopped {p : CodePoint → Bool} {r : Text} (hr : Stopped r)
    (hStops : ∀ c ∈ stops, p c = false) (u : Text) : run p (u ++ r) = run p u :=
  run_append (fun c hc => hStops c (hr c hc)) u

theorem run_digit {r : Text} (hr : Stopped r) (u : Text) :
    run CodePoint.isDigit (u ++ r) = run CodePoint.isDigit u :=
  run_stopped hr (by decide) u

theorem run_hexDigit {r : Text} (hr : Stopped r) (u : Text) :
    run CodePoint.isHexDigit (u ++ r) = run CodePoint.isHexDigit u :=
  run_stopped hr (by decide) u

theorem hexNumber_cons_cons (c d : CodePoint) (t : Text) :
    hexNumber (c :: d :: t) =
      if c = .char '0' ∧ (d = .char 'x' ∨ d = .char 'X') then
        longer 2 (nonempty (run CodePoint.isHexDigit t)) else none := by
  unfold hexNumber
  split
  · rename_i heq
    cases heq
    simp
  · rename_i hNot
    rw [if_neg]
    rintro ⟨rfl, rfl | rfl⟩ <;> exact hNot _ _ rfl

theorem hexNumber_stopped {r : Text} (hr : Stopped r) (u : Text) :
    hexNumber (u ++ r) = hexNumber u := by
  match u with
  | [] => rcases hr.cases with rfl | ⟨r', rfl | rfl | rfl | rfl⟩ <;> rfl
  | [c] =>
    have hStop (b : CodePoint) (hb : b ≠ .char 'x' ∧ b ≠ .char 'X') (t : Text) :
        hexNumber (c :: b :: t) = none := by
      rw [hexNumber_cons_cons, if_neg]
      simp [hb]
    have hSingle : hexNumber [c] = none := by
      unfold hexNumber
      split
      · rename_i heq
        cases heq
      · rfl
    rw [hSingle]
    rcases hr.cases with rfl | ⟨r', rfl | rfl | rfl | rfl⟩
    · exact hSingle
    all_goals exact hStop _ (by decide) _
  | c :: d :: t =>
    rw [List.cons_append, List.cons_append, hexNumber_cons_cons, hexNumber_cons_cons,
      run_hexDigit hr]

/-- An exponent without a sign. -/
theorem exponent_unsigned {d : CodePoint} (hPlus : d ≠ .char '+') (hMinus : d ≠ .char '-')
    (e : Char) (t : Text) : exponent (.char e :: d :: t) =
      if e = 'e' ∨ e = 'E' then longer 1 (nonempty (run CodePoint.isDigit (d :: t)))
      else none := by
  unfold exponent
  split
  · rename_i heq
    cases heq
    split
    · split
      · rename_i heq
        exact absurd (List.cons.inj heq).1 hPlus
      · rename_i heq
        exact absurd (List.cons.inj heq).1 hMinus
      · rfl
    · rfl
  · rename_i hNot
    exact (hNot _ _ rfl).elim

theorem exponent_stopped {r : Text} (hr : Stopped r) (u : Text) :
    exponent (u ++ r) = exponent u := by
  match u with
  | [] => rcases hr.cases with rfl | ⟨r', rfl | rfl | rfl | rfl⟩ <;> rfl
  | .surrogate _ :: _ => rfl
  | [.char e] =>
    rcases hr.cases with rfl | ⟨r', rfl | rfl | rfl | rfl⟩ <;> rfl
  | .char e :: d :: t =>
    have hRun := run_digit hr (d :: t)
    by_cases hPlus : d = .char '+'
    · subst hPlus
      simp only [List.cons_append, exponent, run_digit hr t]
    by_cases hMinus : d = .char '-'
    · subst hMinus
      simp only [List.cons_append, exponent, run_digit hr t]
    rw [List.cons_append, List.cons_append, exponent_unsigned hPlus hMinus,
      exponent_unsigned hPlus hMinus, ← hRun]
    rfl

/-- What comes after a point matters only if there is one. -/
theorem point_cons {α : Type} {f : Text → α} {b : α} {c : CodePoint} {t t' : Text}
    (hf : c = .char '.' → f t = f t') :
    (match c :: t with
      | .char '.' :: t => f t
      | _ => b) =
    (match c :: t' with
      | .char '.' :: t => f t
      | _ => b) := by
  by_cases hPoint : c = .char '.'
  · subst hPoint
    exact hf rfl
  · split
    · rename_i heq
      exact absurd (List.cons.inj heq).1 hPoint
    · split
      · rename_i heq
        exact absurd (List.cons.inj heq).1 hPoint
      · rfl

/-- The digits after a point, if there is one. -/
theorem point_stopped {α : Type} {r : Text} (hr : Stopped r) (f : Text → α) (b : α)
    (hf : ∀ t, f (t ++ r) = f t) (u : Text) :
    (match u ++ r with
      | .char '.' :: t => f t
      | _ => b) =
    (match u with
      | .char '.' :: t => f t
      | _ => b) := by
  cases u with
  | nil => rcases hr.cases with rfl | ⟨r', rfl | rfl | rfl | rfl⟩ <;> rfl
  | cons c t => exact point_cons fun _ => hf t

theorem mantissa_stopped {r : Text} (hr : Stopped r) (u : Text) :
    mantissa (u ++ r) = mantissa u := by
  unfold mantissa
  rw [run_digit hr]
  have hDrop : (u ++ r).drop (run CodePoint.isDigit u) = u.drop (run CodePoint.isDigit u) ++ r :=
    List.drop_append_of_le_length (run_le _ _)
  generalize run CodePoint.isDigit u = n at hDrop
  split
  · exact point_stopped hr _ _ (fun t => by rw [run_digit hr]) u
  · rw [hDrop]
    exact point_stopped hr (fun t => some (n + 1 + run CodePoint.isDigit t)) _
      (fun t => by rw [run_digit hr]) _

theorem eq_of_nonempty {k n : Nat} (h : nonempty k = some n) : n = k := by
  unfold nonempty at h
  split at h
  · cases h
  · exact (Option.some.inj h).symm

theorem le_of_mantissa {u : Text} {n : Nat} (h : mantissa u = some n) : n ≤ u.length := by
  unfold mantissa at h
  have hRun := run_le CodePoint.isDigit u
  split at h
  · split at h
    · rename_i t _
      obtain ⟨l, hl, rfl⟩ := Option.map_eq_some_iff.mp h
      have := run_le CodePoint.isDigit t
      rw [eq_of_nonempty hl, List.length_cons]
      omega
    · cases h
  · split at h
    · rename_i t hDrop
      cases h
      have := run_le CodePoint.isDigit t
      have hLength := congrArg List.length hDrop
      rw [List.length_drop, List.length_cons] at hLength
      omega
    · cases h
      exact hRun

theorem number_stopped {r : Text} (hr : Stopped r) (u : Text) : number (u ++ r) = number u := by
  rw [number, number, hexNumber_stopped hr, decimalNumber, decimalNumber, mantissa_stopped hr]
  cases hMantissa : mantissa u with
  | none => rfl
  | some n =>
    rw [Option.map_some, Option.map_some, List.drop_append_of_le_length (le_of_mantissa hMantissa),
      exponent_stopped hr]

theorem name_stopped {r : Text} (hr : Stopped r) (u : Text) : name (u ++ r) = name u := by
  cases u with
  | nil => rcases hr.cases with rfl | ⟨r', rfl | rfl | rfl | rfl⟩ <;> rfl
  | cons c t => rw [List.cons_append, name, name, run_stopped hr (by decide)]

theorem blank_break {r : Text} (hr : Breaks r) (u : Text) : blank (u ++ r) = blank u := by
  rw [blank, blank, run_break hr rfl rfl]

theorem jsxName_stopped {r : Text} (hr : Stopped r) (u : Text) :
    jsxName (u ++ r) = jsxName u := by
  cases u with
  | nil => rcases hr.cases with rfl | ⟨r', rfl | rfl | rfl | rfl⟩ <;> rfl
  | cons c t => rw [List.cons_append, jsxName, jsxName, run_stopped hr (by decide +kernel)]

-- ---------------------------------------------------------------------------------------------
-- Shapes that end at a mark of their own
-- ---------------------------------------------------------------------------------------------

/-- What is matched depends on no more of the text than the match takes. -/
def Decided {α : Type} (length : α → Nat) (p : Text → Option α) : Prop :=
  ∀ t a, p t = some a → ∀ x, p (t.take (length a) ++ x) = some a

theorem Decided.append {α : Type} {length : α → Nat} {p : Text → Option α}
    (hp : Decided length p) {u r : Text} {a : α} (h : p (u ++ r) = some a)
    (hLength : length a ≤ u.length) (r' : Text) : p (u ++ r') = some a := by
  have hSame := hp _ _ h (u.drop (length a) ++ r')
  rw [List.take_append_of_le_length hLength, ← List.append_assoc, List.take_append_drop] at hSame
  exact hSame

theorem decided_stringRest (quote : Char) : Decided id (stringRest quote) := by
  intro t
  fun_induction stringRest quote t with
  | case1 => nofun
  | case2 => nofun
  | case3 c t ih =>
    intro n h x
    obtain ⟨m, hm, rfl⟩ := Option.map_eq_some_iff.mp h
    have hRest : stringRest quote (t.take m ++ x) = some m := ih m hm x
    show stringRest quote (.char '\\' :: c :: (t.take m ++ x)) = _
    rw [stringRest, hRest]
    rfl
  | case4 t hNot hNot' =>
    intro n h x
    cases h
    have hBackslash : CodePoint.char quote ≠ .char '\\' := by
      intro hEq
      cases t with
      | nil => exact hNot hEq rfl
      | cons d t => exact hNot' d t hEq rfl
    show stringRest quote (.char quote :: x) = _
    rw [stringRest_cons quote hBackslash, if_pos rfl]
  | case5 => nofun
  | case6 c t hNot hNot' hQuote hLine ih =>
    intro n h x
    obtain ⟨m, hm, rfl⟩ := Option.map_eq_some_iff.mp h
    have hBackslash : c ≠ .char '\\' := by
      intro hEq
      cases t with
      | nil => exact hNot hEq rfl
      | cons d t => exact hNot' d t hEq rfl
    have hRest : stringRest quote (t.take m ++ x) = some m := ih m hm x
    show stringRest quote (c :: (t.take m ++ x)) = _
    rw [stringRest_cons quote hBackslash, if_neg hQuote, if_neg hLine, hRest]
    rfl

theorem decided_jsxStringRest (quote : Char) : Decided id (jsxStringRest quote) := by
  intro t
  induction t with
  | nil => nofun
  | cons c t ih =>
    intro n h x
    rw [jsxStringRest] at h
    split at h
    · rename_i hQuote
      cases h
      exact if_pos hQuote
    · rename_i hQuote
      obtain ⟨m, hm, rfl⟩ := Option.map_eq_some_iff.mp h
      have hRest : jsxStringRest quote (t.take m ++ x) = some m := ih m hm x
      show jsxStringRest quote (c :: (t.take m ++ x)) = _
      rw [jsxStringRest, if_neg hQuote, hRest]
      rfl

/-- A pattern of texts in double or single quotes, given by what comes after the first quote. -/
structure InQuotes (p : Pattern) (rest : Char → Pattern) : Prop where
  double : ∀ t, p (.char '"' :: t) = longer 1 (rest '"' t)
  single : ∀ t, p (.char '\'' :: t) = longer 1 (rest '\'' t)
  other : ∀ {c}, c ≠ .char '"' → c ≠ .char '\'' → ∀ t, p (c :: t) = none
  nil : p [] = none

theorem inQuotes_string : InQuotes string stringRest where
  double _ := rfl
  single _ := rfl
  nil := rfl
  other hDouble hSingle t := by
    unfold string
    split
    · rename_i heq
      exact absurd (List.cons.inj heq).1 hDouble
    · rename_i heq
      exact absurd (List.cons.inj heq).1 hSingle
    · rfl

theorem inQuotes_jsxString : InQuotes jsxString jsxStringRest where
  double _ := rfl
  single _ := rfl
  nil := rfl
  other hDouble hSingle t := by
    unfold jsxString
    split
    · rename_i heq
      exact absurd (List.cons.inj heq).1 hDouble
    · rename_i heq
      exact absurd (List.cons.inj heq).1 hSingle
    · rfl

theorem InQuotes.decided {p : Pattern} {rest : Char → Pattern} (hp : InQuotes p rest)
    (hRest : ∀ quote, Decided id (rest quote)) : Decided id p := by
  intro t n h x
  cases t with
  | nil =>
    rw [hp.nil] at h
    cases h
  | cons c t =>
    by_cases hDouble : c = .char '"'
    · subst hDouble
      rw [hp.double] at h
      obtain ⟨m, hm, rfl⟩ := Option.map_eq_some_iff.mp h
      have hSame : rest '"' (t.take m ++ x) = some m := hRest _ t m hm x
      exact (hp.double _).trans (congrArg (longer 1) hSame)
    by_cases hSingle : c = .char '\''
    · subst hSingle
      rw [hp.single] at h
      obtain ⟨m, hm, rfl⟩ := Option.map_eq_some_iff.mp h
      have hSame : rest '\'' (t.take m ++ x) = some m := hRest _ t m hm x
      exact (hp.single _).trans (congrArg (longer 1) hSame)
    rw [hp.other hDouble hSingle] at h
    cases h

theorem head?_take_append {t : Text} {n : Nat} (ht : t ≠ []) (hn : 0 < n) (x : Text) :
    (t.take n ++ x).head? = t.head? := by
  obtain ⟨c, t, rfl⟩ := List.exists_cons_of_ne_nil ht
  obtain ⟨n, rfl⟩ := Nat.exists_eq_succ_of_ne_zero (Nat.ne_of_gt hn)
  rfl

theorem decided_blockRest : Decided id blockRest := by
  intro t
  induction t with
  | nil => nofun
  | cons c t ih =>
    intro n h x
    by_cases hEnd : c = .char '*' ∧ t.head? = some (.char '/')
    · obtain ⟨rfl, hSlash⟩ := hEnd
      obtain ⟨t', rfl⟩ := List.head?_eq_some_iff.mp hSlash
      cases h
      rfl
    · rw [blockRest_cons hEnd] at h
      obtain ⟨m, hm, rfl⟩ := Option.map_eq_some_iff.mp h
      have hRest : blockRest (t.take m ++ x) = some m := ih m hm x
      have hHead : (t.take m ++ x).head? = t.head? := by
        refine head?_take_append ?_ (pos_of_blockRest hm) x
        rintro rfl
        cases hm
      show blockRest (c :: (t.take m ++ x)) = _
      rw [blockRest_cons (by rw [hHead]; exact hEnd), hRest]
      rfl

theorem decided_blockComment : Decided id blockComment := by
  intro t n h x
  unfold blockComment at h
  split at h
  · rename_i t
    obtain ⟨m, hm, rfl⟩ := Option.map_eq_some_iff.mp h
    have hRest : blockRest (t.take m ++ x) = some m := decided_blockRest t m hm x
    exact congrArg (longer 2) hRest
  · cases h

theorem templateChunk_cons {c : CodePoint} {t : Text} (hTick : c ≠ .char '\x60')
    (hDollar : ¬ (c = .char '$' ∧ t.head? = some (.char '\x7b'))) (hBackslash : c ≠ .char '\\') :
    templateChunk (c :: t) = (templateChunk t).map fun r => (r.1, r.2 + 1) := by
  rw [templateChunk]
  · exact hTick
  · rintro t' rfl rfl
    exact hDollar ⟨rfl, rfl⟩
  · exact fun h => absurd h hBackslash
  · exact fun _ _ h => absurd h hBackslash

theorem pos_of_templateChunk {t : Text} {r : ChunkEnd × Nat} (h : templateChunk t = some r) :
    0 < r.2 := by
  unfold templateChunk at h
  split at h
  · cases h
  · cases h
    exact Nat.one_pos
  · cases h
    exact Nat.two_pos
  · cases h
  · obtain ⟨r', _, rfl⟩ := Option.map_eq_some_iff.mp h
    exact Nat.succ_pos _
  · obtain ⟨r', _, rfl⟩ := Option.map_eq_some_iff.mp h
    exact Nat.succ_pos _

theorem decided_templateChunk : Decided Prod.snd templateChunk := by
  intro t
  fun_induction templateChunk t with
  | case1 => nofun
  | case2 t =>
    intro r h x
    cases h
    rfl
  | case3 t =>
    intro r h x
    cases h
    rfl
  | case4 => nofun
  | case5 c t ih =>
    intro r h x
    obtain ⟨r', hr, rfl⟩ := Option.map_eq_some_iff.mp h
    show templateChunk (.char '\\' :: c :: (t.take r'.2 ++ x)) = _
    rw [templateChunk, ih r' hr x]
    rfl
  | case6 c t hTick hDollar hNot hNot' ih =>
    intro r h x
    obtain ⟨r', hr, rfl⟩ := Option.map_eq_some_iff.mp h
    have hHead : (t.take r'.2 ++ x).head? = t.head? := by
      refine head?_take_append ?_ (pos_of_templateChunk hr) x
      rintro rfl
      cases hr
    show templateChunk (c :: (t.take r'.2 ++ x)) = _
    rw [templateChunk_cons hTick, ih r' hr x]
    · rfl
    · rw [hHead]
      rintro ⟨rfl, hBrace⟩
      obtain ⟨t', rfl⟩ := List.head?_eq_some_iff.mp hBrace
      exact hDollar t' rfl rfl
    · intro hBackslash
      cases t with
      | nil => exact hNot hBackslash rfl
      | cons d t => exact hNot' d t hBackslash rfl

theorem classRest_cons {c : CodePoint} (hClose : c ≠ .char ']') (hLine : c ≠ .char '\n')
    (hBackslash : c ≠ .char '\\') (t : Text) : classRest (c :: t) = longer 1 (classRest t) := by
  rw [classRest]
  · exact hClose
  · exact hLine
  · exact fun h => absurd h hBackslash
  · exact fun _ _ h => absurd h hBackslash

theorem decided_classRest : Decided id classRest := by
  intro t
  fun_induction classRest t with
  | case1 => nofun
  | case2 t =>
    intro n h x
    cases h
    rfl
  | case3 => nofun
  | case4 => nofun
  | case5 => nofun
  | case6 c t hLine ih =>
    intro n h x
    obtain ⟨m, hm, rfl⟩ := Option.map_eq_some_iff.mp h
    have hRest : classRest (t.take m ++ x) = some m := ih m hm x
    show classRest (.char '\\' :: c :: (t.take m ++ x)) = _
    rw [classRest, if_neg hLine, hRest]
    rfl
  | case7 c t hClose hLine hNot hNot' ih =>
    intro n h x
    obtain ⟨m, hm, rfl⟩ := Option.map_eq_some_iff.mp h
    have hRest : classRest (t.take m ++ x) = some m := ih m hm x
    have hBackslash : c ≠ .char '\\' := by
      intro hEq
      cases t with
      | nil => exact hNot hEq rfl
      | cons d t => exact hNot' d t hEq rfl
    show classRest (c :: (t.take m ++ x)) = _
    rw [classRest_cons hClose hLine hBackslash, hRest]
    rfl

theorem le_of_classRest {t : Text} {n : Nat} (h : classRest t = some n) : n ≤ t.length := by
  fun_induction classRest t generalizing n with
  | case1 => cases h
  | case2 t =>
    cases h
    exact Nat.succ_le_succ (Nat.zero_le _)
  | case3 => cases h
  | case4 => cases h
  | case5 => cases h
  | case6 c t hLine ih =>
    obtain ⟨m, hm, rfl⟩ := Option.map_eq_some_iff.mp h
    have := ih hm
    simp only [List.length_cons]
    omega
  | case7 c t _ _ _ _ ih =>
    obtain ⟨m, hm, rfl⟩ := Option.map_eq_some_iff.mp h
    have := ih hm
    simp only [List.length_cons]
    omega

/-- How the body of a regular expression goes on: it ends at a slash, or takes an escaped code
point, a class or any other code point first. -/
theorem regexBody_cons {steps n : Nat} {c : CodePoint} {t : Text} :
    regexBody (steps + 1) (c :: t) = some n ↔
      (c = .char '/' ∧ n = 0) ∨
      (c = .char '\\' ∧ ∃ d t' m, t = d :: t' ∧ d ≠ .char '\n' ∧ regexBody steps t' = some m ∧
        n = m + 2) ∨
      (c = .char '[' ∧ ∃ a m, classRest t = some a ∧ regexBody steps (t.drop a) = some m ∧
        n = m + (a + 1)) ∨
      (c ∉ Text.ofString "/\n\\[" ∧ ∃ m, regexBody steps t = some m ∧ n = m + 1) := by
  rw [regexBody.eq_def]
  dsimp only
  have hLonger {k m : Nat} {o : Option Nat} : longer k o = some m ↔ ∃ l, o = some l ∧ m = l + k := by
    rw [longer, Option.map_eq_some_iff]
    simp only [eq_comm]
  by_cases hSlash : c = .char '/'
  · subst hSlash
    simp [Text.ofString, eq_comm]
  by_cases hLine : c = .char '\n'
  · subst hLine
    simp [Text.ofString]
  by_cases hBackslash : c = .char '\\'
  · subst hBackslash
    cases t with
    | nil => simp [Text.ofString]
    | cons d t =>
      by_cases hd : d = .char '\n' <;> simp [Text.ofString, hd, hLonger]
  by_cases hClass : c = .char '['
  · subst hClass
    cases hRest : classRest t <;> simp [Text.ofString, hLonger]
  simp [Text.ofString, hSlash, hLine, hBackslash, hClass, hLonger]

/-- The body of a regular expression is decided by itself and the slash that ends it, and more steps
than it is long are enough. -/
theorem regexBody_take {steps : Nat} {t : Text} {n : Nat} (h : regexBody steps t = some n)
    {steps' : Nat} (hSteps : n < steps') (x : Text) :
    regexBody steps' (t.take (n + 1) ++ x) = some n := by
  induction steps generalizing t n steps' with
  | zero => cases h
  | succ steps ih =>
    obtain ⟨steps', rfl⟩ : ∃ k, steps' = k + 1 := ⟨steps' - 1, by omega⟩
    cases t with
    | nil => cases h
    | cons c t =>
      rw [List.take_succ_cons, List.cons_append, regexBody_cons]
      rcases regexBody_cons.mp h with ⟨hc, rfl⟩ | ⟨hc, d, t', m, rfl, hd, hm, rfl⟩ |
        ⟨hc, a, m, hRest, hm, rfl⟩ | ⟨hc, m, hm, rfl⟩
      · exact .inl ⟨hc, rfl⟩
      · refine .inr (.inl ⟨hc, d, t'.take (m + 1) ++ x, m, ?_, hd, ih hm (by omega), rfl⟩)
        rw [List.take_succ_cons, List.cons_append]
      · -- the class is taken off first, and the rest of the body after it
        have hSplit : t.take (m + (a + 1)) ++ x = t.take a ++ ((t.drop a).take (m + 1) ++ x) := by
          rw [← List.append_assoc, ← List.take_add]
          congr 2
          omega
        have hDrop : (t.take a ++ ((t.drop a).take (m + 1) ++ x)).drop a =
            (t.drop a).take (m + 1) ++ x :=
          List.drop_left' (by rw [List.length_take, Nat.min_eq_left (le_of_classRest hRest)])
        refine .inr (.inr (.inl ⟨hc, a, m, ?_, ?_, rfl⟩))
        · rw [hSplit]
          exact decided_classRest t a hRest _
        · rw [hSplit, hDrop]
          exact ih hm (by omega)
      · exact .inr (.inr (.inr ⟨hc, m, ih hm (by omega), rfl⟩))

/-- A regular expression is decided by its body, and by how far the letters after it go. -/
theorem regex_append {u r r' : Text} {n : Nat}
    (hFlags : ∀ m ≤ n, run (CodePoint.isChar isLetter) (u.drop m ++ r) ≤ n - m →
      run (CodePoint.isChar isLetter) (u.drop m ++ r') =
        run (CodePoint.isChar isLetter) (u.drop m ++ r))
    (h : regex (u ++ r) = some n) (hn : n ≤ u.length) : regex (u ++ r') = some n := by
  cases u with
  | nil =>
    have hPos := pos_of_regex h
    rw [List.length_nil] at hn
    omega
  | cons c v =>
    rw [List.cons_append] at h
    unfold regex at h
    split at h
    · rename_i t heq
      cases heq
      split at h
      · cases h
      · cases h
      · rename_i m hZero hBody
        cases h
        rw [List.length_cons] at hn
        have hTake : (v ++ r).take (m + 1) = v.take (m + 1) :=
          List.take_append_of_le_length (by omega)
        have hSteps : m < (v ++ r').length + 1 := by
          rw [List.length_append]
          omega
        have hBody' := regexBody_take hBody hSteps (v.drop (m + 1) ++ r')
        rw [hTake, ← List.append_assoc, List.take_append_drop] at hBody'
        have hSame : run (CodePoint.isChar isLetter) ((v ++ r').drop (m + 1)) =
            run (CodePoint.isChar isLetter) ((v ++ r).drop (m + 1)) := by
          have hDrop : (v ++ r).drop (m + 1) = v.drop (m + 1) ++ r :=
            List.drop_append_of_le_length (by omega)
          rw [List.drop_append_of_le_length (by omega), hDrop]
          refine hFlags (m + 2) (by omega) ?_
          show run (CodePoint.isChar isLetter) (v.drop (m + 1) ++ r) ≤ _
          rw [hDrop]
          omega
        rw [← hSame, List.cons_append, regex, hBody']
        obtain ⟨m, rfl⟩ : ∃ k, m = k + 1 := ⟨m - 1, by have : m ≠ 0 := hZero; omega⟩
        rfl
    · cases h

-- ---------------------------------------------------------------------------------------------
-- Shapes that run over a semicolon
-- ---------------------------------------------------------------------------------------------

/-- A run that ends inside `u` does not depend on what follows. -/
theorem run_short {p : CodePoint → Bool} {u t : Text} (h : run p (u ++ t) < u.length) (t' : Text) :
    run p (u ++ t') = run p (u ++ t) := by
  induction u with
  | nil => cases h
  | cons d u ih =>
    rw [List.cons_append, run, List.length_cons] at h
    rw [List.cons_append, List.cons_append, run, run]
    split at h
    · rw [ih (by omega)]
    · rename_i hd
      rw [if_neg hd, if_neg hd]

/-- A run that would take the code point after `u` but does not reach it ends inside `u`. -/
theorem run_inside {p : CodePoint → Bool} {c : CodePoint} {u t : Text} (hc : p c = true)
    (h : run p (u ++ c :: t) ≤ u.length) : run p (u ++ c :: t) < u.length := by
  induction u with
  | nil =>
    rw [List.nil_append, run, if_pos hc] at h
    cases h
  | cons d u ih =>
    rw [List.cons_append, run, List.length_cons] at h ⊢
    by_cases hd : p d = true
    · rw [if_pos hd] at h ⊢
      have := ih (by omega)
      omega
    · rw [if_neg hd]
      omega

theorem lineComment_cons_cons (c d : CodePoint) (t : Text) :
    lineComment (c :: d :: t) =
      if c = .char '/' ∧ d = .char '/' then some (run (· ≠ .char '\n') t + 2) else none := by
  unfold lineComment
  split
  · rename_i heq
    cases heq
    rfl
  · rename_i hNot
    rw [if_neg]
    rintro ⟨rfl, rfl⟩
    exact hNot _ rfl

theorem lineComment_single (c : CodePoint) : lineComment [c] = none := by
  unfold lineComment
  split
  · rename_i heq
    cases heq
  · rfl

/-- A text of at most one code point with a break after it begins no comment. -/
theorem lineComment_break {r : Text} (hr : Breaks r) {u : Text} (hu : u.length ≤ 1) :
    lineComment (u ++ r) = none := by
  match u with
  | [] => rcases hr.cases with rfl | ⟨r', rfl | rfl⟩ <;> rfl
  | [c] =>
    rcases hr.cases with rfl | ⟨r', rfl | rfl⟩
    · exact lineComment_single c
    · exact (lineComment_cons_cons ..).trans (if_neg (by simp))
    · exact (lineComment_cons_cons ..).trans (if_neg (by simp))
  | c :: d :: u => simp at hu

theorem lineComment_append {u post : Text} (hPost : LineEnd post) :
    (∀ n, lineComment (u ++ .char ';' :: post) = some n → n ≤ u.length →
      lineComment (u ++ post) = some n) ∧
    (lineComment (u ++ .char ';' :: post) = none → lineComment (u ++ post) = none) := by
  match u with
  | [] =>
    refine ⟨fun n h => ?_, fun _ => lineComment_break hPost.breaks (Nat.zero_le _)⟩
    rw [lineComment_break (breaks_semi post) (Nat.zero_le _)] at h
    cases h
  | [c] =>
    refine ⟨fun n h => ?_, fun _ => lineComment_break hPost.breaks (Nat.le_refl _)⟩
    rw [lineComment_break (breaks_semi post) (Nat.le_refl _)] at h
    cases h
  | c :: d :: u =>
    simp only [List.cons_append, lineComment_cons_cons]
    split
    · refine ⟨fun n h hn => ?_, nofun⟩
      cases h
      have hStop : run (· ≠ .char '\n') (u ++ .char ';' :: post) ≤ u.length := by
        simp only [List.length_cons] at hn
        omega
      rw [run_short (run_inside rfl hStop)]
    · exact ⟨nofun, fun _ => rfl⟩

theorem blockRest_isSome {u post : Text} (hPost : LineEnd post)
    (h : (blockRest (u ++ post)).isSome) : (blockRest (u ++ .char ';' :: post)).isSome := by
  induction u with
  | nil =>
    have hStep : blockRest (.char ';' :: post) = longer 1 (blockRest post) :=
      blockRest_cons (by simp)
    rw [List.nil_append, hStep, longer, Option.isSome_map]
    exact h
  | cons c u ih =>
    rw [List.cons_append] at h ⊢
    by_cases hEnd : c = .char '*' ∧ (u ++ .char ';' :: post).head? = some (.char '/')
    · obtain ⟨rfl, hSlash⟩ := hEnd
      obtain ⟨t, ht⟩ := List.head?_eq_some_iff.mp hSlash
      rw [ht]
      rfl
    · rw [blockRest_cons hEnd, longer, Option.isSome_map]
      refine ih ?_
      have hEnd' : ¬ (c = .char '*' ∧ (u ++ post).head? = some (.char '/')) := by
        rintro ⟨rfl, hSlash⟩
        cases u with
        | nil => cases hPost _ hSlash
        | cons d u => exact hEnd ⟨rfl, hSlash⟩
      rw [blockRest_cons hEnd', longer, Option.isSome_map] at h
      exact h

/-- No end mark of a comment comes into being when a semicolon is left out at the end of a line. -/
theorem blockComment_none {u post : Text} (hPost : LineEnd post)
    (h : blockComment (u ++ .char ';' :: post) = none) : blockComment (u ++ post) = none := by
  unfold blockComment
  split
  · rename_i t heq
    cases hRest : blockRest t with
    | none => rfl
    | some n =>
      exfalso
      match u with
      | [] => 
        cases hPost (.char '/') (by rw [show post = _ from heq]; rfl)
      | [c] =>
        cases hPost (.char '*') (by rw [show post = _ from (List.cons.inj heq).2]; rfl)
      | c :: d :: u =>
        simp only [List.cons_append, List.cons.injEq] at heq
        obtain ⟨rfl, rfl, rfl⟩ := heq
        have hSome := blockRest_isSome hPost (by rw [hRest]; rfl)
        obtain ⟨m, hm⟩ := Option.isSome_iff_exists.mp hSome
        rw [List.cons_append, List.cons_append, blockComment, hm] at h
        cases h
  · rfl

/-- The text between tags, where it does not reach a code point that would go on with it. -/
theorem jsxText_append {u t : Text} {c : CodePoint} {n : Nat}
    (hc : (c ≠ .char '\x7b' && c ≠ .char '<') = true) (h : jsxText (u ++ c :: t) = some n)
    (hn : n ≤ u.length) (t' : Text) : jsxText (u ++ t') = some n := by
  unfold jsxText at h ⊢
  have hStop : run (fun c => c ≠ .char '\x7b' && c ≠ .char '<') (u ++ c :: t) ≤ u.length := by
    rw [← eq_of_nonempty h]
    exact hn
  rw [run_short (run_inside hc hStop)]
  exact h

theorem startsWith_iff {t p : Text} : t.startsWith p = true ↔ p <+: t := by
  unfold Text.startsWith
  induction p generalizing t with
  | nil => simp [Text.dropPrefix?]
  | cons a p ih =>
    cases t with
    | nil => simp [Text.dropPrefix?]
    | cons b t =>
      rw [Text.dropPrefix?, List.cons_prefix_cons]
      by_cases hHead : a = b
      · rw [if_pos hHead, ih]
        simp [hHead]
      · simp [hHead]

/-- A spelling ends before a line feed and before a blank. -/
theorem prefix_of_spelling {s : String × Terminal} (hs : s ∈ Terminal.spellings) {u r : Text}
    (hu : u ≠ []) (hr : Stopped r) (h : Text.ofString s.1 <+: u ++ r) :
    Text.ofString s.1 <+: u := by
  have hAll : ∀ s ∈ Terminal.spellings, ∀ c ∈ stops, c ∉ (Text.ofString s.1).tail := by decide
  rcases List.prefix_or_prefix_of_prefix h (List.prefix_append u r) with hShort | ⟨w, hw⟩
  · exact hShort
  · rw [← hw, List.prefix_append_right_inj] at h
    cases w with
    | nil =>
      rw [List.append_nil] at hw
      exact hw ▸ List.prefix_rfl
    | cons c w =>
      obtain ⟨v, rfl⟩ := h
      refine absurd ?_ (hAll s hs c (hr c rfl))
      rw [← hw, List.tail_append_of_ne_nil hu]
      simp

/-- What is spelled out stands there before a line feed or a blank as it does before anything. -/
theorem spelling_append {u t r : Text} {k : Terminal} {n : Nat} (hu : u ≠ [])
    (hr : Stopped r) (h : spelling (u ++ t) = some (k, n))
    (hn : n ≤ u.length) : spelling (u ++ r) = some (k, n) := by
  obtain ⟨s, hFind, hEq⟩ := Option.map_eq_some_iff.mp h
  cases hEq
  obtain ⟨hStarts, earlier, later, hSplit, hEarlier⟩ := List.find?_eq_some_iff_append.mp hFind
  have hFind' : (Terminal.spellings.find? fun s => (u ++ r).startsWith (Text.ofString s.1)) =
      some s := by
    refine List.find?_eq_some_iff_append.mpr ⟨?_, earlier, later, hSplit, ?_⟩
    · have hLength : (Text.ofString s.1).length ≤ u.length := by
        rw [Text.ofString, List.length_map, String.length_toList]
        exact hn
      have hShort := List.prefix_of_prefix_length_le (startsWith_iff.mp hStarts)
        (List.prefix_append _ _) hLength
      exact startsWith_iff.mpr (hShort.trans (List.prefix_append _ _))
    · intro a ha
      have hNot := hEarlier a ha
      rw [Bool.not_eq_true', Bool.eq_false_iff, Ne, startsWith_iff] at hNot ⊢
      intro hPrefix
      have hMem : a ∈ Terminal.spellings := by
        rw [hSplit]
        exact List.mem_append_left _ ha
      exact hNot ((prefix_of_spelling hMem hu hr hPrefix).trans (List.prefix_append _ _))
  rw [spelling, hFind']
  rfl

/-- A run that is matched up to something else. -/
theorem nonempty_run_append {p : CodePoint → Bool} {u r : Text} {n : Nat}
    (h : nonempty (run p (u ++ r)) = some n) (hn : n < u.length) (r' : Text) :
    nonempty (run p (u ++ r')) = some n := by
  rw [run_short (by rw [← eq_of_nonempty h]; exact hn)]
  exact h

theorem nonempty_run_none {p : CodePoint → Bool} {u r : Text} (hu : u ≠ [])
    (h : nonempty (run p (u ++ r)) = none) (r' : Text) : nonempty (run p (u ++ r')) = none := by
  unfold nonempty at h ⊢
  have hZero : run p (u ++ r) = 0 := by
    by_contra hRun
    rw [if_neg hRun] at h
    cases h
  rw [run_short (by rw [hZero]; exact List.length_pos_iff.mpr hu), if_pos hZero]

theorem opensElement_break {r : Text} (hr : Breaks r) (u : Text) :
    opensElement (u ++ r) = opensElement u := by
  cases u with
  | nil => rcases hr.cases with rfl | ⟨r', rfl | rfl⟩ <;> rfl
  | cons c t => rfl

end Pattern

end ClientBoundary
