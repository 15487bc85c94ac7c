import ClientBoundary.Proofs.LexerLocality
import Mathlib.Data.List.Find

/-!
# One word for another

Where a text `u` ends with a dot, a blank, a line feed or the end of a comment, and a word follows,
the lexemes in `u` do not depend on which word it is. Numbers and names stop inside of `u` at the
latest where it ends (`number_fenced`, `name_fenced`), blanks stop at the word (`blank_word`), the
fixed spellings hold no letters (`spelling_word`), and a word neither begins nor ends a comment
(`blockComment_word`). What closes with a mark of its own is decided before the word anyway.

* `Lexer.step_exchange` — one lexeme is taken off the text in the same way when the word after `u`
  is exchanged for another.
-/

namespace ClientBoundary

namespace Pattern

-- ---------------------------------------------------------------------------------------------
-- Words and what stands before them
-- ---------------------------------------------------------------------------------------------

/-- A name or a word of the language. -/
structure IsWord (p : Text) : Prop where
  start : ∃ c t, p = c :: t ∧ isNameStart c = true
  parts : ∀ c ∈ p, isNamePart c = true

theorem isWord_iff {p : Text} :
    IsWord p ↔ p.head?.any isNameStart = true ∧ ∀ c ∈ p, isNamePart c = true := by
  refine ⟨fun h => ⟨?_, h.parts⟩, fun h => ⟨?_, h.2⟩⟩
  · obtain ⟨c, t, rfl, hc⟩ := h.start
    exact hc
  · cases p with
    | nil => cases h.1
    | cons c t => exact ⟨c, t, rfl, h.1⟩

instance (p : Text) : Decidable (IsWord p) := decidable_of_iff' _ isWord_iff

/-- The text begins with a word. -/
def BeginsWord (x : Text) : Prop := ∃ c t, x = c :: t ∧ isNameStart c = true

theorem IsWord.begins {p : Text} (h : IsWord p) (post : Text) : BeginsWord (p ++ post) := by
  obtain ⟨c, t, rfl, hc⟩ := h.start
  exact ⟨c, t ++ post, rfl, hc⟩

/-- The marks that end a text before the name of a property: a dot, a blank, a line feed or the end
of a comment. -/
def fences : Text := Text.ofString ". \t\x0c\r\n/"

/-- The text ends with such a mark. -/
def Fenced (u : Text) : Prop := ∃ g ∈ fences, u.getLast? = some g

theorem Fenced.ne_nil {u : Text} (h : Fenced u) : u ≠ [] := by
  rintro rfl
  obtain ⟨g, _, hLast⟩ := h
  cases hLast

theorem Fenced.of_append {t u : Text} (h : Fenced (t ++ u)) (hu : u ≠ []) : Fenced u := by
  obtain ⟨g, hg, hLast⟩ := h
  rw [List.getLast?_append_of_ne_nil _ hu] at hLast
  exact ⟨g, hg, hLast⟩

theorem Fenced.tail {c : CodePoint} {u : Text} (h : Fenced (c :: u)) (hc : c ∉ fences) :
    Fenced u := by
  refine Fenced.of_append (t := [c]) h ?_
  rintro rfl
  obtain ⟨g, hg, hLast⟩ := h
  cases hLast
  exact hc hg

theorem Fenced.drop {u : Text} (h : Fenced u) {n : Nat} (hn : n < u.length) :
    Fenced (u.drop n) := by
  refine Fenced.of_append (t := u.take n) ?_ ?_
  · rwa [List.take_append_drop]
  · rw [Ne, List.drop_eq_nil_iff]
    omega

/-- The code points that begin a name, by their numbers. -/
theorem toNat_of_isNameStart {c : CodePoint} (h : isNameStart c = true) :
    c.toNat = 36 ∨ (65 ≤ c.toNat ∧ c.toNat ≤ 90) ∨ c.toNat = 95 ∨
      (97 ≤ c.toNat ∧ c.toNat ≤ 122) := by
  cases c with
  | surrogate i => cases h
  | char c =>
    have hNat {a b : Char} : a ≤ b ↔ a.toNat ≤ b.toNat := Iff.rfl
    simp only [isNameStart, CodePoint.isChar, isLetter, Bool.or_eq_true, Bool.and_eq_true,
      decide_eq_true_eq, hNat] at h
    rcases h with ((h | h) | rfl) | rfl
    · exact .inr (.inr (.inr h))
    · exact .inr (.inl h)
    · exact .inr (.inr (.inl rfl))
    · exact .inl rfl

theorem isDigit_of_isNameStart {c : CodePoint} (h : isNameStart c = true) :
    c.isDigit = false := by
  have hNat := toNat_of_isNameStart h
  have hSmall : c.toNat < 0x80 := by omega
  have hNot : ¬ (0x30 ≤ c.toNat ∧ c.toNat ≤ 0x39) := by omega
  simp [CodePoint.isDigit, CodePoint.digit?, hSmall, hNot]

theorem isBlank_of_isNameStart {c : CodePoint} (h : isNameStart c = true) :
    c.isBlank = false := by
  have hNat := toNat_of_isNameStart h
  simp only [CodePoint.isBlank, Text.inRanges, Text.blankRanges, List.any_cons, List.any_nil,
    Bool.or_false, Bool.or_eq_false_iff, Bool.and_eq_false_iff, decide_eq_false_iff_not]
  omega

/-- A code point that begins no name is not the first of a word. -/
theorem ne_of_isNameStart {c d : CodePoint} (hc : isNameStart c = true)
    (hd : isNameStart d = false) : c ≠ d := by
  rintro rfl
  rw [hc] at hd
  cases hd

-- ---------------------------------------------------------------------------------------------
-- Shapes that stop before the word
-- ---------------------------------------------------------------------------------------------

variable {u x : Text}

theorem run_fenced {q : CodePoint → Bool} (hq : ∀ g ∈ fences, q g = false) (hu : Fenced u)
    (x : Text) : run q (u ++ x) = run q u := by
  obtain ⟨g, hg, hLast⟩ := hu
  obtain ⟨v, rfl⟩ := List.getLast?_eq_some_iff.mp hLast
  have hStop (t : Text) : run q (v ++ g :: t) = run q v :=
    run_append (fun c hc => by cases hc; exact hq g hg) v
  rw [List.append_assoc, List.singleton_append, hStop, hStop]

theorem run_word {q : CodePoint → Bool} (hq : ∀ c, isNameStart c = true → q c = false)
    (hx : BeginsWord x) (u : Text) : run q (u ++ x) = run q u := by
  obtain ⟨c, t, rfl, hc⟩ := hx
  exact run_append (fun d hd => by cases hd; exact hq c hc) u

theorem run_digit_fenced (hu : Fenced u) (x : Text) :
    run CodePoint.isDigit (u ++ x) = run CodePoint.isDigit u :=
  run_fenced (by decide) hu x

theorem hexNumber_fenced (hu : Fenced u) (x : Text) : hexNumber (u ++ x) = hexNumber u := by
  match u with
  | [] => exact absurd rfl hu.ne_nil
  | [c] =>
    have hc : c ≠ .char '0' := by
      rintro rfl
      obtain ⟨g, hg, hLast⟩ := hu
      cases hLast
      exact absurd hg (by decide)
    have hNone (t : Text) : hexNumber (c :: t) = none := by
      unfold hexNumber
      split
      · rename_i heq
        exact absurd (List.cons.inj heq).1 hc
      · rfl
    exact (hNone _).trans (hNone _).symm
  | c :: d :: t =>
    rw [List.cons_append, List.cons_append, hexNumber_cons_cons, hexNumber_cons_cons]
    by_cases hd : d = .char 'x' ∨ d = .char 'X'
    · have hFence : d ∉ fences := by rcases hd with rfl | rfl <;> decide
      have ht : Fenced t := ((hu.of_append (t := [c]) (List.cons_ne_nil _ _))).tail hFence
      rw [run_fenced (by decide) ht]
    · rw [if_neg (fun h => hd h.2), if_neg (fun h => hd h.2)]

theorem exponent_fenced (hu : Fenced u) (x : Text) : exponent (u ++ x) = exponent u := by
  match u with
  | [] => exact absurd rfl hu.ne_nil
  | .surrogate _ :: _ => rfl
  | .char e :: t =>
    by_cases he : e = 'e' ∨ e = 'E'
    · have ht : Fenced t := hu.tail (by rcases he with rfl | rfl <;> decide)
      obtain ⟨d, t', rfl⟩ := List.exists_cons_of_ne_nil ht.ne_nil
      by_cases hPlus : d = .char '+'
      · subst hPlus
        simp only [List.cons_append, exponent, run_digit_fenced (ht.tail (by decide))]
      by_cases hMinus : d = .char '-'
      · subst hMinus
        simp only [List.cons_append, exponent, run_digit_fenced (ht.tail (by decide))]
      have hRun := run_digit_fenced ht x
      rw [List.cons_append] at hRun
      rw [List.cons_append, List.cons_append, exponent_unsigned hPlus hMinus,
        exponent_unsigned hPlus hMinus, hRun]
    · have hNone (t : Text) : exponent (.char e :: t) = none := if_neg he
      exact (hNone _).trans (hNone _).symm

/-- The digits after a point, which may be the end of the text. -/
theorem run_digit_point {t : Text} (hu : Fenced (.char '.' :: t)) (hx : BeginsWord x) :
    run CodePoint.isDigit (t ++ x) = run CodePoint.isDigit t := by
  cases t with
  | nil => exact run_word (fun _ => isDigit_of_isNameStart) hx []
  | cons c t => exact run_digit_fenced (hu.of_append (t := [.char '.']) (by simp)) x

theorem run_lt_of_fenced {q : CodePoint → Bool} (hq : ∀ g ∈ fences, q g = false)
    (hu : Fenced u) : run q u < u.length := by
  obtain ⟨g, hg, hLast⟩ := hu
  obtain ⟨v, rfl⟩ := List.getLast?_eq_some_iff.mp hLast
  have hStop : run q (v ++ [g]) = run q v :=
    run_append (fun c hc => by cases hc; exact hq g hg) v
  have hLe := run_le q v
  rw [hStop, List.length_append, List.length_singleton]
  omega

theorem mantissa_fenced (hu : Fenced u) (hx : BeginsWord x) : mantissa (u ++ x) = mantissa u := by
  have hLt : run CodePoint.isDigit u < u.length := run_lt_of_fenced (by decide) hu
  have hDrop : (u ++ x).drop (run CodePoint.isDigit u) = u.drop (run CodePoint.isDigit u) ++ x :=
    List.drop_append_of_le_length (Nat.le_of_lt hLt)
  have hRest := hu.drop hLt
  unfold mantissa
  rw [run_digit_fenced hu]
  generalize run CodePoint.isDigit u = n at hDrop hRest
  split
  · obtain ⟨c, t, rfl⟩ := List.exists_cons_of_ne_nil hu.ne_nil
    rw [List.cons_append]
    refine point_cons fun hc => ?_
    rw [run_digit_point (hc ▸ hu) hx]
  · rw [hDrop]
    obtain ⟨c, t, hSplit⟩ := List.exists_cons_of_ne_nil hRest.ne_nil
    rw [hSplit] at hRest ⊢
    rw [List.cons_append]
    refine point_cons (f := fun t => some (n + 1 + run CodePoint.isDigit t)) fun hc => ?_
    rw [run_digit_point (hc ▸ hRest) hx]

/-- A number that ends before the last code point of the text does not depend on the word after it,
and where there is no number the word makes none. -/
theorem number_fenced (hu : Fenced u) (hx : BeginsWord x) {x' : Text} (hx' : BeginsWord x') :
    (∀ n, number (u ++ x) = some n → n < u.length → number (u ++ x') = some n) ∧
    (number (u ++ x) = none → number (u ++ x') = none) := by
  rw [number, number, hexNumber_fenced hu, hexNumber_fenced hu]
  cases hexNumber u with
  | some m => exact ⟨fun n h _ => h, fun h => (by cases h)⟩
  | none =>
    rw [Option.none_or, Option.none_or, decimalNumber, decimalNumber, mantissa_fenced hu hx,
      mantissa_fenced hu hx']
    cases hMantissa : mantissa u with
    | none => exact ⟨fun _ h => (by cases h), fun _ => rfl⟩
    | some m =>
      refine ⟨fun n h hn => ?_, fun h => (by cases h)⟩
      have hm : m < u.length := by
        have hSum : m + (exponent ((u ++ x).drop m)).getD 0 = n := Option.some.inj h
        omega
      have hExponent (y : Text) : exponent ((u ++ y).drop m) = exponent (u.drop m) := by
        rw [List.drop_append_of_le_length (Nat.le_of_lt hm), exponent_fenced (hu.drop hm)]
      rw [Option.map_some, hExponent] at h
      rw [Option.map_some, hExponent, h]

theorem name_fenced (hu : Fenced u) (x : Text) : name (u ++ x) = name u := by
  obtain ⟨c, t, rfl⟩ := List.exists_cons_of_ne_nil hu.ne_nil
  rw [List.cons_append, name, name]
  by_cases hc : isNameStart c = true
  · have ht : Fenced t := hu.tail fun hMem => by
      have hAll : ∀ g ∈ fences, isNameStart g = false := by decide
      rw [hAll c hMem] at hc
      cases hc
    rw [run_fenced (by decide) ht]
  · rw [if_neg hc, if_neg hc]

theorem jsxName_fenced (hu : Fenced u) (x : Text) : jsxName (u ++ x) = jsxName u := by
  obtain ⟨c, t, rfl⟩ := List.exists_cons_of_ne_nil hu.ne_nil
  rw [List.cons_append, jsxName, jsxName]
  by_cases hc : isNameStart c = true
  · have ht : Fenced t := hu.tail fun hMem => by
      have hAll : ∀ g ∈ fences, isNameStart g = false := by decide
      rw [hAll c hMem] at hc
      cases hc
    rw [run_fenced (by decide +kernel) ht]
  · rw [if_neg hc, if_neg hc]

theorem blank_word (hx : BeginsWord x) (u : Text) : blank (u ++ x) = blank u := by
  rw [blank, blank, run_word (fun c hc => ?_) hx]
  cases c with
  | surrogate i => rfl
  | char c =>
    have hNe (d : Char) (hd : isNameStart (.char d) = false) : c ≠ d :=
      fun h => ne_of_isNameStart hc hd (congrArg _ h)
    simp [CodePoint.isChar, hNe ' ' rfl, hNe '\t' rfl, hNe '\x0c' rfl, hNe '\r' rfl]

theorem jsxBlank_word (hx : BeginsWord x) (u : Text) : jsxBlank (u ++ x) = jsxBlank u := by
  rw [jsxBlank, jsxBlank, run_word (fun _ => isBlank_of_isNameStart) hx]

/-- The fixed spellings hold no letters, so none reaches into the word. -/
theorem prefix_spelling_word {s : String × Terminal} (hs : s ∈ Terminal.spellings)
    (hx : BeginsWord x) : Text.ofString s.1 <+: u ++ x ↔ Text.ofString s.1 <+: u := by
  refine ⟨fun h => ?_, fun h => h.trans (List.prefix_append _ _)⟩
  have hAll : ∀ s ∈ Terminal.spellings, ∀ c ∈ Text.ofString s.1, isNameStart c = false := by decide
  rcases List.prefix_or_prefix_of_prefix h (List.prefix_append u x) with hShort | ⟨w, hw⟩
  · exact hShort
  · rw [← hw, List.prefix_append_right_inj] at h
    cases w with
    | nil =>
      rw [List.append_nil] at hw
      exact hw ▸ List.prefix_rfl
    | cons c w =>
      obtain ⟨d, t, rfl, hd⟩ := hx
      obtain rfl : c = d := (List.cons_prefix_cons.mp h).1
      have hNot := hAll s hs c (by rw [← hw]; simp)
      rw [hd] at hNot
      cases hNot

theorem spelling_word (hx : BeginsWord x) (u : Text) : spelling (u ++ x) = spelling u := by
  rw [spelling, spelling]
  congr 1
  refine List.find?_congr fun s hs => ?_
  rw [Bool.eq_iff_iff, startsWith_iff, startsWith_iff]
  exact prefix_spelling_word hs hx

-- ---------------------------------------------------------------------------------------------
-- Comments
-- ---------------------------------------------------------------------------------------------

/-- A line comment that ends before the word ends at a line feed, and the word begins none. -/
theorem lineComment_word (hu : u ≠ []) (hx : BeginsWord x) {x' : Text} (hx' : BeginsWord x') :
    (∀ n, lineComment (u ++ x) = some n → n ≤ u.length → lineComment (u ++ x') = some n) ∧
    (lineComment (u ++ x) = none → lineComment (u ++ x') = none) := by
  match u with
  | [] => exact absurd rfl hu
  | [c] =>
    have hNone {y : Text} (hy : BeginsWord y) : lineComment ([c] ++ y) = none := by
      obtain ⟨d, t, rfl, hd⟩ := hy
      rw [List.singleton_append, lineComment_cons_cons, if_neg]
      exact fun h => ne_of_isNameStart hd rfl h.2
    rw [hNone hx, hNone hx']
    exact ⟨nofun, fun _ => rfl⟩
  | c :: d :: v =>
    simp only [List.cons_append, lineComment_cons_cons]
    split
    · refine ⟨fun n h hn => ?_, nofun⟩
      cases h
      obtain ⟨e, t, rfl, he⟩ := hx
      have hStop : run (· ≠ .char '\n') (v ++ e :: t) ≤ v.length := by
        simp only [List.length_cons] at hn
        omega
      rw [run_short (run_inside (decide_eq_true (ne_of_isNameStart he rfl)) hStop)]
    · exact ⟨nofun, fun _ => rfl⟩

variable {p w : Text}

theorem IsWord.ne_of_mem (hp : IsWord p) {c d : CodePoint} (hc : c ∈ p)
    (hd : isNamePart d = false) : c ≠ d := by
  rintro rfl
  rw [hp.parts c hc] at hd
  cases hd

/-- A word holds no end of a comment. -/
theorem blockRest_isSome_word (hp : ∀ c ∈ p, c ≠ .char '*') (post : Text) :
    (blockRest (p ++ post)).isSome = (blockRest post).isSome := by
  induction p with
  | nil => rfl
  | cons c p ih =>
    rw [List.cons_append, blockRest_cons fun h => hp c List.mem_cons_self h.1, longer,
      Option.isSome_map]
    exact ih fun d hd => hp d (List.mem_cons_of_mem _ hd)

theorem blockRest_isSome_exchange (hp : IsWord p) (hw : IsWord w) (v post : Text) :
    (blockRest (v ++ (p ++ post))).isSome = (blockRest (v ++ (w ++ post))).isSome := by
  induction v with
  | nil =>
    rw [List.nil_append, List.nil_append,
      blockRest_isSome_word fun c hc => hp.ne_of_mem hc rfl,
      blockRest_isSome_word fun c hc => hw.ne_of_mem hc rfl]
  | cons c v ih =>
    -- the code point after `c` is a slash for both words or for none
    have hSlash : (v ++ (p ++ post)).head? = some (.char '/') ↔
        (v ++ (w ++ post)).head? = some (.char '/') := by
      cases v with
      | cons d v => exact Iff.rfl
      | nil =>
        have hNot {q : Text} (hq : IsWord q) : ([] ++ (q ++ post)).head? ≠ some (.char '/') := by
          obtain ⟨d, t, rfl, hd⟩ := hq.start
          exact fun h => ne_of_isNameStart hd rfl (Option.some.inj h)
        exact ⟨fun h => absurd h (hNot hp), fun h => absurd h (hNot hw)⟩
    rw [List.cons_append, List.cons_append]
    by_cases hEnd : c = .char '*' ∧ (v ++ (p ++ post)).head? = some (.char '/')
    · obtain ⟨rfl, hHead⟩ := hEnd
      obtain ⟨t, ht⟩ := List.head?_eq_some_iff.mp hHead
      obtain ⟨t', ht'⟩ := List.head?_eq_some_iff.mp (hSlash.mp hHead)
      rw [ht, ht']
      rfl
    · rw [blockRest_cons hEnd, blockRest_cons (by rwa [← hSlash]), longer, longer,
        Option.isSome_map, Option.isSome_map, ih]

/-- A comment that never ends does not end when a word in it is exchanged. -/
theorem blockComment_word (hu : u ≠ []) (hp : IsWord p) (hw : IsWord w) {post : Text}
    (h : blockComment (u ++ (p ++ post)) = none) : blockComment (u ++ (w ++ post)) = none := by
  unfold blockComment
  split
  · rename_i t heq
    match u with
    | [] => exact absurd rfl hu
    | [c] =>
      obtain ⟨d, v, rfl, hd⟩ := hw.start
      simp only [List.cons_append, List.nil_append, List.cons.injEq] at heq
      exact absurd heq.2.1 (ne_of_isNameStart hd rfl)
    | c :: d :: v =>
      simp only [List.cons_append, List.cons.injEq] at heq
      obtain ⟨rfl, rfl, rfl⟩ := heq
      have hNone : blockRest (v ++ (p ++ post)) = none := Option.map_eq_none_iff.mp h
      have hSame := blockRest_isSome_exchange hp hw v post
      rw [hNone, Option.isSome_none, eq_comm, Option.isSome_eq_false_iff,
        Option.isNone_iff_eq_none] at hSame
      rw [hSame]
      rfl
  · rfl

end Pattern

-- ---------------------------------------------------------------------------------------------
-- One lexeme
-- ---------------------------------------------------------------------------------------------

namespace Lexer

open Pattern (IsWord BeginsWord Fenced)

variable {u p w post : Text}

theorem scanCode_exchange (hu : Fenced u) (hp : IsWord p) (hw : IsWord w) (r : LexemeKind × Nat)
    (h : scanCode (u ++ (p ++ post)) = some r) (hn : r.2 ≤ u.length)
    (hKind : r.2 = u.length → r.1 ≠ .token .number) :
    scanCode (u ++ (w ++ post)) = some r := by
  have hx := hp.begins post
  have hx' := hw.begins post
  obtain ⟨hNumber, hNoNumber⟩ := Pattern.number_fenced hu hx hx'
  cases hFirst : Pattern.number (u ++ (p ++ post)) with
  | some n =>
    have hr : scanCode (u ++ (p ++ post)) = some (.token .number, n) := by
      rw [scanCode, hFirst]
      rfl
    obtain rfl : (.token .number, n) = r := Option.some.inj (hr.symm.trans h)
    have hShort : n ≠ u.length := fun hEnd => hKind hEnd rfl
    rw [scanCode, hNumber n hFirst (by dsimp only at hn; omega)]
    rfl
  | none =>
    have hSecond := hNoNumber hFirst
    obtain ⟨c, v, rfl⟩ := List.exists_cons_of_ne_nil hu.ne_nil
    by_cases hQuote : c = .char '"' ∨ c = .char '\''
    · rw [List.cons_append, scanCode_quote hQuote] at h ⊢
      obtain ⟨n, hString, rfl⟩ := Option.map_eq_some_iff.mp h
      have hSame : Pattern.string (c :: v ++ (w ++ post)) = some n :=
        (Pattern.inQuotes_string.decided Pattern.decided_stringRest).append (u := c :: v) hString hn _
      rw [List.cons_append] at hSame
      rw [hSame]
      rfl
    rw [not_or] at hQuote
    have hString (x : Text) : Pattern.string (c :: v ++ x) = none :=
      Pattern.inQuotes_string.other hQuote.1 hQuote.2 _
    clear hKind
    revert r
    unfold scanCode
    refine Keeps.found_orElse (.of_eq ?_) ?_
    · rw [hFirst, hSecond]
    refine Keeps.found_orElse (.of_eq ?_) ?_
    · rw [hString, hString]
    refine Keeps.found_orElse (.map (fun n hName hn => ⟨?_, ?_⟩) fun hName => ?_) ?_
    · rw [Pattern.name_fenced hu, ← hName, Pattern.name_fenced hu]
    · rw [List.take_append_of_le_length hn, List.take_append_of_le_length hn]
    · rw [Pattern.name_fenced hu, ← hName, Pattern.name_fenced hu]
    refine Keeps.found_orElse (.map (fun n hComment hn => ⟨?_, rfl⟩) ?_) ?_
    · exact Pattern.decided_blockComment.append hComment hn _
    · exact Pattern.blockComment_word hu.ne_nil hp hw
    refine Keeps.found_orElse (.map (fun n hComment hn => ⟨?_, rfl⟩) ?_) ?_
    · exact (Pattern.lineComment_word hu.ne_nil hx hx').1 n hComment hn
    · exact (Pattern.lineComment_word hu.ne_nil hx hx').2
    refine Keeps.found_orElse (.of_eq ?_) ?_
    · rw [Pattern.blank_word hx, Pattern.blank_word hx']
    intro r hr _
    rw [Pattern.spelling_word hx] at hr
    rw [Pattern.spelling_word hx', hr]

theorem opensComment_word {x : Text} (hx : BeginsWord x) :
    opensComment (u ++ x) = opensComment u := by
  cases u with
  | cons c t => exact opensComment_cons c _ _
  | nil =>
    obtain ⟨c, t, rfl, hc⟩ := hx
    rw [List.nil_append]
    unfold opensComment
    split
    · rename_i heq
      exact absurd (List.cons.inj heq).1 (Pattern.ne_of_isNameStart hc rfl)
    · rename_i heq
      exact absurd (List.cons.inj heq).1 (Pattern.ne_of_isNameStart hc rfl)
    · rfl

theorem codeStep_exchange (hu : Fenced u) (hp : IsWord p) (hw : IsWord w) {s : Lexer}
    {frame : CodeFrame} {depth : Int} {below : List Mode} {r : LexemeKind × Nat × List Mode}
    (h : s.codeStep frame depth below (u ++ (p ++ post)) = some r) (hn : r.2.1 ≤ u.length)
    (hKind : r.2.1 = u.length → r.1 ≠ .token .number ∧ r.1 ≠ .token .regex) :
    s.codeStep frame depth below (u ++ (w ++ post)) = some r := by
  have hx := hp.begins post
  have hx' := hw.begins post
  refine codeStep_keeps hu.ne_nil (fun hr => ?_) (fun v _ => ?_)
    (fun hRegex hr => Pattern.regex_append (fun m hm _ => ?_) hr hn) (fun v hv => ?_) h hn
  · obtain ⟨r', hScan, rfl⟩ := Option.map_eq_some_iff.mp hr
    rw [plainStep, scanCode_exchange hu hp hw r' hScan hn fun hEnd => (hKind hEnd).1]
    rfl
  · rw [opensComment_word hx, opensComment_word hx']
  · have hShort : r.2.1 ≠ u.length := fun hEnd => (hKind hEnd).2 hRegex
    have hFlags := hu.drop (n := m) (by omega)
    rw [Pattern.run_fenced (by decide) hFlags, Pattern.run_fenced (by decide) hFlags]
  · subst hv
    obtain ⟨c, t, rfl⟩ := List.exists_cons_of_ne_nil (hu.tail (by decide)).ne_nil
    rfl

theorem tagStep_exchange (hu : Fenced u) (hp : IsWord p) (hw : IsWord w) {role : TagRole}
    {seen : Nat} {below : List Mode} {r : LexemeKind × Nat × List Mode}
    (h : tagStep role seen below (u ++ (p ++ post)) = some r) (hn : r.2.1 ≤ u.length) :
    tagStep role seen below (u ++ (w ++ post)) = some r := by
  have hx := hp.begins post
  have hx' := hw.begins post
  have hBlank : Pattern.jsxBlank (u ++ (w ++ post)) = Pattern.jsxBlank (u ++ (p ++ post)) := by
    rw [Pattern.jsxBlank_word hx, Pattern.jsxBlank_word hx']
  obtain ⟨hLine, hNoLine⟩ := Pattern.lineComment_word hu.ne_nil hx hx'
  refine tagStep_keeps hu.ne_nil (fun _ hr => hBlank.trans hr) (fun hr => hBlank.trans hr)
    (fun _ n hn hLe _ => hLine n hn hLe) hNoLine (Pattern.blockComment_word hu.ne_nil hp hw)
    (fun n hn _ => ?_) h hn
  rw [Pattern.jsxName_fenced hu, ← Pattern.jsxName_fenced hu]
  exact hn

/-- One lexeme in a text before a word is taken off in the same way when the word is exchanged for
another; right before the word it must be neither a number nor a regular expression, which go on
with the letters of some words. -/
theorem step_exchange (hu : Fenced u) (hp : IsWord p) (hw : IsWord w) {s s' : Lexer}
    {kind : LexemeKind} {n : Nat} (h : s.step (u ++ (p ++ post)) = some (kind, n, s'))
    (hn : n ≤ u.length)
    (hKind : n = u.length → kind ≠ .token .number ∧ kind ≠ .token .regex) :
    s.step (u ++ (w ++ post)) = some (kind, n, s') := by
  refine step_keeps h (fun _ _ _ _ hr => codeStep_exchange hu hp hw hr hn hKind)
    (fun _ _ _ _ hr => tagStep_exchange hu hp hw hr hn) (fun _ hr => ?_)
  obtain ⟨c, t, hx, hc⟩ := hp.begins post
  rw [hx] at hr
  have hText : (c ≠ .char '\x7b' && c ≠ .char '<') = true := by
    simp [Pattern.ne_of_isNameStart hc (d := .char '\x7b') rfl,
      Pattern.ne_of_isNameStart hc (d := .char '<') rfl]
  exact childrenStep_append hu.ne_nil hText hr hn _

end Lexer

end ClientBoundary
