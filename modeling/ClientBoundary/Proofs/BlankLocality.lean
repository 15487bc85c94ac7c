import ClientBoundary.Proofs.LexerLocality

/-!
# A blank after a token

What a pattern finds at the start of a text does not change when the text is broken off behind the
match and goes on with a space or a tabulator instead:

* Numbers, names and the names in tags end where they ended before (`CutsAt`), since no blank goes
  on with them.
* Strings, templates and regular expressions are decided by what they take.
* Comments and blanks that end before the break are not touched by it.

There is one exception. A `/` and a `*` that open no comment, because no end mark follows, would
open one if a comment came in later. `Lexer.step_spaced` therefore asks that where the text begins
with these two, a comment is what was found.
-/

namespace ClientBoundary

namespace Pattern

-- ---------------------------------------------------------------------------------------------
-- Breaking off behind a match
-- ---------------------------------------------------------------------------------------------

/-- How far a run goes in a text that is broken off. -/
theorem run_eq_min (p : CodePoint → Bool) (u t : Text) :
    run p u = min u.length (run p (u ++ t)) := by
  induction u with
  | nil => simp [run]
  | cons c u ih =>
    rw [List.cons_append, run, run, List.length_cons]
    split <;> omega

/-- A pattern finds in `u` what it finds in `u` and the text after it, if this fits into `u`. -/
structure CutsAt (p : Pattern) (u t : Text) : Prop where
  found : ∀ n, p (u ++ t) = some n → n ≤ u.length → p u = some n
  missed : p (u ++ t) = none → p u = none

theorem CutsAt.of_longer {p : Pattern} {u t : Text}
    (hLonger : ∀ n, p (u ++ t) = some n → u.length < n) (hNone : p u = none) : CutsAt p u t :=
  ⟨fun n h hn => absurd (hLonger n h) (by omega), fun _ => hNone⟩

theorem CutsAt.of_none {p : Pattern} {u t : Text} (hNone : p u = none)
    (hNone' : p (u ++ t) = none) : CutsAt p u t := by
  refine .of_longer (fun n h => ?_) hNone
  rw [hNone'] at h
  cases h

/-- A pattern that is a run from some point on. -/
theorem CutsAt.of_run {p : Pattern} {q : CodePoint → Bool} {k : Nat} {u v t : Text}
    (hu : p u = longer k (nonempty (run q v)))
    (ht : p (u ++ t) = longer k (nonempty (run q (v ++ t)))) (hLength : u.length = v.length + k) :
    CutsAt p u t := by
  have hMin := run_eq_min q v t
  refine ⟨fun n h hn => ?_, fun h => ?_⟩
  · rw [ht] at h
    rw [hu]
    unfold longer nonempty at h ⊢
    split at h
    · simp at h
    · simp only [Option.map_some, Option.some.injEq] at h
      rw [if_neg (by omega), Option.map_some, Option.some.injEq]
      omega
  · rw [ht] at h
    rw [hu]
    unfold longer nonempty at h ⊢
    split at h
    · rw [if_pos (by omega), Option.map_none]
    · simp at h

-- ---------------------------------------------------------------------------------------------
-- Numbers and names
-- ---------------------------------------------------------------------------------------------

theorem two_le_of_longer {k n : Nat} {m : Option Nat} (hk : 2 ≤ k) (h : longer k m = some n) :
    2 ≤ n := by
  obtain ⟨l, _, rfl⟩ := Option.map_eq_some_iff.mp h
  omega

theorem two_le_of_hexNumber {t : Text} {n : Nat} (h : hexNumber t = some n) : 2 ≤ n := by
  unfold hexNumber at h
  split at h
  · split at h
    · exact two_le_of_longer (Nat.le_refl _) h
    · cases h
  · cases h

theorem cutsAt_hexNumber (u t : Text) : CutsAt hexNumber u t := by
  match u with
  | [] => exact .of_longer (fun n h => Nat.lt_of_lt_of_le Nat.two_pos (two_le_of_hexNumber h)) rfl
  | [c] =>
    refine .of_longer (fun n h => two_le_of_hexNumber h) ?_
    simp [hexNumber]
  | c :: d :: u =>
    have hOld : hexNumber (c :: d :: u ++ t) = _ := hexNumber_cons_cons c d (u ++ t)
    have hNew := hexNumber_cons_cons c d u
    by_cases hHead : c = .char '0' ∧ (d = .char 'x' ∨ d = .char 'X')
    · rw [if_pos hHead] at hOld hNew
      exact .of_run hNew hOld rfl
    · rw [if_neg hHead] at hOld hNew
      exact .of_none hNew hOld

theorem two_le_of_exponent {t : Text} {n : Nat} (h : exponent t = some n) : 2 ≤ n := by
  unfold exponent at h
  split at h
  · split at h
    · split at h
      · exact two_le_of_longer (Nat.le_refl _) h
      · exact two_le_of_longer (Nat.le_refl _) h
      · obtain ⟨l, hl, rfl⟩ := Option.map_eq_some_iff.mp h
        have hPos := pos_of_nonempty hl
        omega
    · cases h
  · cases h

theorem cutsAt_exponent (u t : Text) : CutsAt exponent u t := by
  match u with
  | [] => exact .of_longer (fun n h => Nat.lt_of_lt_of_le Nat.two_pos (two_le_of_exponent h)) rfl
  | [.char e] =>
    refine .of_longer (fun n h => two_le_of_exponent h) ?_
    simp [exponent, run, nonempty, longer]
  | .surrogate _ :: u => exact .of_none rfl rfl
  | .char e :: d :: u =>
    by_cases hLetter : e = 'e' ∨ e = 'E'
    · by_cases hSign : d = .char '+' ∨ d = .char '-'
      · -- the digits come after the sign
        have hSigned (x : Text) : exponent (.char e :: d :: x) =
            longer 2 (nonempty (run CodePoint.isDigit x)) := by
          rcases hSign with rfl | rfl <;> simp [exponent, hLetter]
        exact .of_run (hSigned u) (hSigned (u ++ t)) rfl
      · rw [not_or] at hSign
        have hUnsigned (x : Text) := exponent_unsigned hSign.1 hSign.2 e x
        simp only [if_pos hLetter] at hUnsigned
        exact .of_run (v := d :: u) (hUnsigned u) (hUnsigned (u ++ t)) rfl
    · have hNone (x : Text) : exponent (.char e :: x) = none := by simp [exponent, hLetter]
      exact .of_none (hNone _) (hNone _)

/-- How much of a text a point and the digits after it make. -/
def fraction : Text → Nat
  | .char '.' :: t => run CodePoint.isDigit t + 1
  | _ => 0

theorem mantissa_digits {t : Text} (h : run CodePoint.isDigit t ≠ 0) :
    mantissa t = some (run CodePoint.isDigit t + fraction (t.drop (run CodePoint.isDigit t))) := by
  unfold mantissa
  split
  · rename_i hZero
    exact absurd hZero h
  · split
    · rename_i hDrop
      rw [hDrop, fraction, Option.some.injEq]
      omega
    · rename_i hDrop
      rw [Option.some.injEq]
      unfold fraction
      split
      · rename_i heq
        exact absurd heq (hDrop _)
      · rfl

theorem fraction_cut {u t : Text} (h : fraction (u ++ t) ≤ u.length) :
    fraction u = fraction (u ++ t) := by
  cases u with
  | nil =>
    have hZero : fraction t = 0 := Nat.le_zero.mp h
    exact hZero.symm
  | cons c u =>
    by_cases hPoint : c = .char '.'
    · subst hPoint
      have hMin := run_eq_min CodePoint.isDigit u t
      simp only [List.cons_append, fraction, List.length_cons] at h ⊢
      omega
    · have hNone (x : Text) : fraction (c :: x) = 0 := by
        unfold fraction
        split
        · rename_i heq
          exact absurd (List.cons.inj heq).1 hPoint
        · rfl
      rw [List.cons_append, hNone, hNone]

theorem cutsAt_mantissa (u t : Text) : CutsAt mantissa u t := by
  cases u with
  | nil => exact .of_longer (fun n h => pos_of_mantissa h) rfl
  | cons c u =>
    by_cases hPoint : c = .char '.'
    · subst hPoint
      have hMantissa (x : Text) : mantissa (.char '.' :: x) =
          longer 1 (nonempty (run CodePoint.isDigit x)) := rfl
      exact .of_run (hMantissa u) (hMantissa (u ++ t)) rfl
    · by_cases hDigit : c.isDigit = true
      · have hRun (x : Text) : run CodePoint.isDigit (c :: x) ≠ 0 := by
          rw [run, if_pos hDigit]
          omega
        have hMin := run_eq_min CodePoint.isDigit (c :: u) t
        have hOld := mantissa_digits (t := c :: u ++ t) (hRun (u ++ t))
        refine ⟨fun n h hn => ?_, fun h => ?_⟩
        · rw [hOld, Option.some.injEq] at h
          have hSame : run CodePoint.isDigit (c :: u) = run CodePoint.isDigit (c :: u ++ t) := by
            omega
          rw [← hSame, List.drop_append_of_le_length (run_le _ _)] at h
          rw [mantissa_digits (hRun _), fraction_cut (t := t), h]
          rw [List.length_drop]
          omega
        · rw [hOld] at h
          cases h
      · have hNone (x : Text) : mantissa (c :: x) = none := by
          unfold mantissa
          rw [run, if_neg hDigit]
          simp only
          split
          · rename_i heq
            exact absurd (List.cons.inj heq).1 hPoint
          · rfl
        exact .of_none (hNone _) (hNone _)

theorem cutsAt_decimalNumber (u t : Text) : CutsAt decimalNumber u t := by
  have hCut := cutsAt_mantissa u t
  refine ⟨fun n h hn => ?_, fun h => ?_⟩
  · obtain ⟨m, hMantissa, rfl⟩ := Option.map_eq_some_iff.mp h
    rw [List.drop_append_of_le_length (by omega)] at hn ⊢
    rw [decimalNumber, hCut.found m hMantissa (by omega), Option.map_some, Option.some.injEq,
      Nat.add_left_cancel_iff]
    have hExponent := cutsAt_exponent (u.drop m) t
    cases hFound : exponent (u.drop m ++ t) with
    | none => rw [hExponent.missed hFound]
    | some k =>
      rw [hFound, Option.getD_some] at hn
      rw [hExponent.found k hFound (by rw [List.length_drop]; omega)]
  · rw [decimalNumber, Option.map_eq_none_iff] at h ⊢
    exact hCut.missed h

theorem cutsAt_number (u t : Text) : CutsAt number u t := by
  have hHex := cutsAt_hexNumber u t
  have hDecimal := cutsAt_decimalNumber u t
  refine ⟨fun n h hn => ?_, fun h => ?_⟩
  · rcases Option.or_eq_some_iff.mp h with hFound | ⟨hNone, hFound⟩
    · rw [number, hHex.found n hFound hn, Option.some_or]
    · rw [number, hHex.missed hNone, Option.none_or, hDecimal.found n hFound hn]
  · obtain ⟨hNone, hNone'⟩ := Option.or_eq_none_iff.mp h
    rw [number, hHex.missed hNone, hDecimal.missed hNone', Option.none_or]

/-- A name is a code point to begin with and a run of others. -/
theorem cutsAt_headed {p : Pattern} {first next : CodePoint → Bool} {c : CodePoint} {u : Text}
    (hp : ∀ x, p (c :: x) = if first c then some (run next x + 1) else none) (t : Text) :
    CutsAt p (c :: u) t := by
  have hMin := run_eq_min next u t
  have hOld : p (c :: u ++ t) = _ := hp (u ++ t)
  by_cases hFirst : first c = true
  · rw [if_pos hFirst] at hOld
    refine ⟨fun n h hn => ?_, fun h => ?_⟩
    · rw [hOld, Option.some.injEq] at h
      rw [List.length_cons] at hn
      rw [hp, if_pos hFirst, Option.some.injEq]
      omega
    · rw [hOld] at h
      cases h
  · rw [if_neg hFirst] at hOld
    exact .of_none (by rw [hp, if_neg hFirst]) hOld

-- ---------------------------------------------------------------------------------------------
-- A blank behind the match
-- ---------------------------------------------------------------------------------------------

/-- A space or a tabulator. -/
def isSpace (c : CodePoint) : Bool := c = .char ' ' || c = .char '\t'

variable {b : CodePoint}

theorem eq_of_isSpace (hb : isSpace b = true) : b = .char ' ' ∨ b = .char '\t' := by
  simpa [isSpace] using hb

theorem stopped_of_isSpace (hb : isSpace b = true) (t : Text) : Stopped (b :: t) := by
  intro c hc
  obtain rfl : b = c := Option.some.inj hc
  rcases eq_of_isSpace hb with rfl | rfl <;> decide

theorem CutsAt.spaced {p : Pattern} {u t : Text} (h : CutsAt p u t) {r : Text}
    (hr : p (u ++ r) = p u) :
    (∀ n, p (u ++ t) = some n → n ≤ u.length → p (u ++ r) = some n) ∧
      (p (u ++ t) = none → p (u ++ r) = none) :=
  ⟨fun n hn hLe => hr.trans (h.found n hn hLe), fun hn => hr.trans (h.missed hn)⟩

theorem number_spaced (hb : isSpace b = true) (u t t' : Text) :
    (∀ n, number (u ++ t) = some n → n ≤ u.length → number (u ++ b :: t') = some n) ∧
      (number (u ++ t) = none → number (u ++ b :: t') = none) :=
  (cutsAt_number u t).spaced (number_stopped (stopped_of_isSpace hb t') u)

theorem name_spaced (hb : isSpace b = true) {u : Text} (hu : u ≠ []) (t t' : Text) :
    (∀ n, name (u ++ t) = some n → n ≤ u.length → name (u ++ b :: t') = some n) ∧
      (name (u ++ t) = none → name (u ++ b :: t') = none) := by
  obtain ⟨c, u, rfl⟩ := List.exists_cons_of_ne_nil hu
  exact (cutsAt_headed (fun _ => rfl) t).spaced (name_stopped (stopped_of_isSpace hb t') _)

theorem jsxName_spaced (hb : isSpace b = true) {u : Text} (hu : u ≠ []) (t t' : Text) :
    (∀ n, jsxName (u ++ t) = some n → n ≤ u.length → jsxName (u ++ b :: t') = some n) ∧
      (jsxName (u ++ t) = none → jsxName (u ++ b :: t') = none) := by
  obtain ⟨c, u, rfl⟩ := List.exists_cons_of_ne_nil hu
  exact (cutsAt_headed (fun _ => rfl) t).spaced (jsxName_stopped (stopped_of_isSpace hb t') _)

theorem lineComment_short {u t : Text} {n : Nat} (h : lineComment (u ++ t) = some n)
    (hn : n < u.length) (t' : Text) : lineComment (u ++ t') = some n := by
  match u with
  | [] => simp at hn
  | [c] =>
    have hPos := pos_of_lineComment h
    simp only [List.length_singleton] at hn
    omega
  | c :: d :: u =>
    simp only [List.cons_append, lineComment_cons_cons] at h ⊢
    split at h
    · rename_i hSlashes
      simp only [Option.some.injEq, List.length_cons] at h hn
      rw [if_pos hSlashes, run_short (t := t) (by omega), h]
    · cases h

/-- Behind a blank no second slash comes. -/
theorem lineComment_spaced (hb : isSpace b = true) {u t : Text} (hu : u ≠ [])
    (h : lineComment (u ++ t) = none) (t' : Text) : lineComment (u ++ b :: t') = none := by
  match u with
  | [] => exact absurd rfl hu
  | [c] =>
    rw [List.singleton_append, lineComment_cons_cons, if_neg]
    rcases eq_of_isSpace hb with rfl | rfl <;> simp
  | c :: d :: u =>
    simp only [List.cons_append, lineComment_cons_cons] at h ⊢
    split at h
    · cases h
    · rename_i hSlashes
      rw [if_neg hSlashes]

theorem blockComment_cons_cons (c d : CodePoint) (t : Text) :
    blockComment (c :: d :: t) =
      if c = .char '/' ∧ d = .char '*' then longer 2 (blockRest t) else none := by
  unfold blockComment
  split
  · rename_i heq
    cases heq
    simp
  · rename_i hNot
    rw [if_neg]
    rintro ⟨rfl, rfl⟩
    exact hNot _ rfl

/-- If the text begins with the opening of a block comment, the comment has an end. -/
def EndsComment (t : Text) : Prop :=
  ∀ v, t = .char '/' :: .char '*' :: v → blockComment t ≠ none

theorem blockComment_spaced (hb : isSpace b = true) {u t : Text} (hu : u ≠ [])
    (hEnds : EndsComment (u ++ t)) (h : blockComment (u ++ t) = none) (t' : Text) :
    blockComment (u ++ b :: t') = none := by
  match u with
  | [] => exact absurd rfl hu
  | [c] =>
    rw [List.singleton_append, blockComment_cons_cons, if_neg]
    rcases eq_of_isSpace hb with rfl | rfl <;> simp
  | c :: d :: u =>
    rw [List.cons_append, List.cons_append, blockComment_cons_cons, if_neg]
    rintro ⟨rfl, rfl⟩
    exact hEnds _ rfl h

theorem regex_spaced (hb : isSpace b = true) {u t : Text} {n : Nat} (h : regex (u ++ t) = some n)
    (hn : n ≤ u.length) (t' : Text) : regex (u ++ b :: t') = some n := by
  refine regex_append (fun m hm hRun => ?_) h hn
  have hMin := run_eq_min (CodePoint.isChar isLetter) (u.drop m) t
  rw [run_stopped (stopped_of_isSpace hb t') (by decide), hMin, List.length_drop]
  omega

end Pattern

namespace Lexer

open Pattern (isSpace EndsComment)

variable {u t : Text} {b : CodePoint}

/-- What ends where the text is broken off is a token. -/
def TokenAt (m : Nat) (kind : LexemeKind) (n : Nat) : Prop :=
  n ≤ m ∧ (n = m → ∃ k, kind = .token k)

theorem TokenAt.lt {m n : Nat} {kind : LexemeKind} (h : TokenAt m kind n)
    (hKind : ∀ k, kind ≠ .token k) : n < m := by
  obtain ⟨hLe, hToken⟩ := h
  refine Nat.lt_of_le_of_ne hLe fun hEq => ?_
  obtain ⟨k, hk⟩ := hToken hEq
  exact hKind k hk

theorem scanCode_spaced (hb : isSpace b = true) (hu : u ≠ []) (hEnds : EndsComment (u ++ t))
    (t' : Text) (r : LexemeKind × Nat) (h : scanCode (u ++ t) = some r)
    (hr : TokenAt u.length r.1 r.2) : scanCode (u ++ b :: t') = some r := by
  obtain ⟨c, v, rfl⟩ := List.exists_cons_of_ne_nil hu
  by_cases hQuote : c = .char '"' ∨ c = .char '\''
  · rw [List.cons_append, scanCode_quote hQuote] at h ⊢
    obtain ⟨n, hString, rfl⟩ := Option.map_eq_some_iff.mp h
    have hSame : Pattern.string (c :: v ++ b :: t') = some n :=
      (Pattern.inQuotes_string.decided Pattern.decided_stringRest).append (u := c :: v) hString
        hr.1 _
    rw [List.cons_append] at hSame
    rw [hSame]
    rfl
  rw [not_or] at hQuote
  have hString (x : Text) : Pattern.string (c :: v ++ x) = none :=
    Pattern.inQuotes_string.other hQuote.1 hQuote.2 _
  obtain ⟨hNumber, hNoNumber⟩ := Pattern.number_spaced hb (c :: v) t t'
  obtain ⟨hName, hNoName⟩ := Pattern.name_spaced hb hu t t'
  revert r
  unfold scanCode
  refine Keeps.found_orElse (.map (fun n hn hr => ⟨hNumber n hn hr.1, rfl⟩) hNoNumber) ?_
  refine Keeps.found_orElse (.of_eq ?_) ?_
  · rw [hString, hString]
  refine Keeps.found_orElse (.map (fun n hn hr => ⟨hName n hn hr.1, ?_⟩) hNoName) ?_
  · rw [List.take_append_of_le_length hr.1, List.take_append_of_le_length hr.1]
  refine Keeps.found_orElse (.map (fun n hn hr => ⟨?_, rfl⟩) fun hn => ?_) ?_
  · exact Pattern.decided_blockComment.append hn hr.1 _
  · exact Pattern.blockComment_spaced hb hu hEnds hn t'
  refine Keeps.found_orElse (.map (fun n hn hr => ⟨?_, rfl⟩) fun hn => ?_) ?_
  · exact Pattern.lineComment_short hn (hr.lt nofun) _
  · exact Pattern.lineComment_spaced hb hu hn t'
  refine Keeps.found_orElse (.map (fun n hn hr => ⟨?_, rfl⟩) fun hn => ?_) ?_
  · exact Pattern.nonempty_run_append hn (hr.lt nofun) _
  · exact Pattern.nonempty_run_none hu hn _
  intro r h hr
  obtain ⟨⟨k, n⟩, hSpelling, rfl⟩ := Option.map_eq_some_iff.mp h
  rw [Pattern.spelling_append hu (Pattern.stopped_of_isSpace hb t') hSpelling hr.1]
  rfl

theorem plainStep_spaced (hb : isSpace b = true) (hu : u ≠ []) (hEnds : EndsComment (u ++ t))
    (t' : Text) {frame : CodeFrame} {depth : Int} {below : List Mode}
    {r : LexemeKind × Nat × List Mode} (h : plainStep frame depth below (u ++ t) = some r)
    (hr : TokenAt u.length r.1 r.2.1) : plainStep frame depth below (u ++ b :: t') = some r := by
  obtain ⟨r', hScan, rfl⟩ := Option.map_eq_some_iff.mp h
  rw [plainStep, scanCode_spaced hb hu hEnds t' r' hScan hr]
  rfl

/-- A slash that opens a comment is not alone. -/
theorem length_of_opensComment (hEnds : EndsComment (.char '/' :: t))
    (hOpens : opensComment t = true) {s : Lexer} {frame : CodeFrame} {depth : Int}
    {below : List Mode} {r : LexemeKind × Nat × List Mode}
    (h : s.codeStep frame depth below (.char '/' :: t) = some r) : 2 ≤ r.2.1 := by
  rw [codeStep_slash, hOpens, Bool.not_true, Bool.and_false, if_neg Bool.false_ne_true] at h
  obtain ⟨r', hScan, rfl⟩ := Option.map_eq_some_iff.mp h
  unfold opensComment at hOpens
  split at hOpens
  · rename_i v
    have hLine : scanCode (.char '/' :: .char '/' :: v) =
        some (.lineComment, Pattern.run (· ≠ .char '\n') v + 2) := rfl
    obtain rfl := Option.some.inj (hLine.symm.trans hScan)
    show 2 ≤ Pattern.run (· ≠ .char '\n') v + 2
    omega
  · rename_i v
    obtain ⟨n, hn⟩ := Option.ne_none_iff_exists'.mp (hEnds v rfl)
    have hBlock : scanCode (.char '/' :: .char '*' :: v) = some (.blockComment, n) := by
      rw [scanCode, hn]
      rfl
    obtain rfl := Option.some.inj (hBlock.symm.trans hScan)
    exact Pattern.two_le_of_longer (Nat.le_refl _) hn
  · cases hOpens

/-- In code, with a token before the blank that leaves the lexer in code. -/
theorem codeStep_spaced (hb : isSpace b = true) (hu : u ≠ []) (hEnds : EndsComment (u ++ t))
    (t' : Text) {s : Lexer} {frame : CodeFrame} {depth : Int} {below : List Mode}
    {r : LexemeKind × Nat × List Mode} (h : s.codeStep frame depth below (u ++ t) = some r)
    (hr : TokenAt u.length r.1 r.2.1)
    (hCode : r.2.1 = u.length → ∃ frame depth below, r.2.2 = .code frame depth :: below) :
    s.codeStep frame depth below (u ++ b :: t') = some r := by
  by_cases hLess : u = [.char '<']
  · -- an element is not what was opened, and with a blank after it the `<` opens none
    subst hLess
    have hNone : Pattern.opensElement (b :: t') = false := by
      rcases Pattern.eq_of_isSpace hb with rfl | rfl <;> rfl
    rw [List.singleton_append, codeStep_less] at h
    rw [List.singleton_append, codeStep_less, hNone, Bool.and_false, if_neg Bool.false_ne_true]
    refine plainStep_spaced (u := [.char '<']) hb hu hEnds t' ?_ hr
    split at h
    · cases h
      obtain ⟨_, _, _, hModes⟩ := hCode rfl
      cases hModes
    · exact h
  · refine codeStep_keeps hu (fun hPlain => plainStep_spaced hb hu hEnds t' hPlain hr)
      (fun v hv => ?_) (fun _ hRegex => Pattern.regex_spaced hb hRegex hr.1 t') (fun v hv => ?_) h
      hr.1
    · subst hv
      cases v with
      | cons c v => exact opensComment_cons c _ _
      | nil =>
        have hNew : opensComment (b :: t') = false := by
          rcases Pattern.eq_of_isSpace hb with rfl | rfl <;> rfl
        have hOld : opensComment t = false := by
          by_contra hOpens
          have hLong := length_of_opensComment hEnds (by simpa using hOpens) h
          have hShort := hr.1
          simp only [List.length_singleton] at hShort
          omega
        rw [List.nil_append, List.nil_append, hNew, hOld]
    · subst hv
      cases v with
      | nil => exact absurd rfl hLess
      | cons c v => rfl

theorem tagStep_spaced (hb : isSpace b = true) (hu : u ≠ []) (hEnds : EndsComment (u ++ t))
    (t' : Text) {role : TagRole} {seen : Nat} {below : List Mode}
    {r : LexemeKind × Nat × List Mode} (h : tagStep role seen below (u ++ t) = some r)
    (hr : TokenAt u.length r.1 r.2.1) : tagStep role seen below (u ++ b :: t') = some r := by
  refine tagStep_keeps hu (fun hKind hBlank => ?_)
    (fun hNone => Pattern.nonempty_run_none hu hNone _) (fun hKind n hLine _ hn => ?_)
    (fun hNone => Pattern.lineComment_spaced hb hu hNone t')
    (fun hNone => Pattern.blockComment_spaced hb hu hEnds hNone t')
    (Pattern.jsxName_spaced hb hu t t').1 h hr.1
  · have hOther : ∀ k, r.1 ≠ .token k := by
      rw [hKind]
      nofun
    exact Pattern.nonempty_run_append hBlank (hr.lt hOther) _
  · have hOther : ∀ k, r.1 ≠ .token k := by
      rw [hKind]
      nofun
    exact Pattern.lineComment_short hLine (hn ▸ hr.lt hOther) _

/-- A lexeme in a text is the same when the text goes on with a blank, right behind a token that
leads into code or later. Among the children of an element there are no comments. -/
theorem step_spaced (hb : isSpace b = true) (hu : u ≠ []) {s s' : Lexer}
    (hEnds : (∀ below, s.modes ≠ .children :: below) → EndsComment (u ++ t))
    {kind : LexemeKind} {n : Nat} (h : s.step (u ++ t) = some (kind, n, s'))
    (hr : TokenAt u.length kind n)
    (hCode : n = u.length → ∃ frame depth below, s'.modes = .code frame depth :: below)
    (t' : Text) : s.step (u ++ b :: t') = some (kind, n, s') := by
  have hElsewhere {mode : Mode} {below : List Mode} (hModes : s.modes = mode :: below)
      (hMode : mode ≠ .children) : EndsComment (u ++ t) := by
    refine hEnds fun below' hChildren => hMode ?_
    exact (List.cons.inj (hModes.symm.trans hChildren)).1
  refine step_keeps h
    (fun _ _ _ hModes hStep =>
      codeStep_spaced hb hu (hElsewhere hModes (by simp)) t' hStep hr hCode)
    (fun _ _ _ hModes hStep => tagStep_spaced hb hu (hElsewhere hModes (by simp)) t' hStep hr)
    (fun below hStep => childrenStep_keeps hu (fun hKind hText => ?_) hStep)
  -- the text between tags leads to no code
  have hShort : n ≠ u.length := by
    intro hEnd
    obtain ⟨_, _, _, hModes⟩ := hCode hEnd
    simp [hModes] at hKind
  exact Pattern.nonempty_run_append hText (Nat.lt_of_le_of_ne hr.1 hShort) _

end Lexer

end ClientBoundary
