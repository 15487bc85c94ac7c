import ClientBoundary.Proofs.PatternLocality

/-!
# How far the lexer looks

* `Lexer.step_append` — a lexeme that ends before a semicolon is taken off the text in the same way
  when the semicolon is left out at the end of a line.
* `Lexer.step_keeps` — what a lexeme depends on when the text after it changes, mode by mode.
* `Lexer.codeStep_of_neutral` — the terminal before matters only where a regular expression or an
  element would begin.
-/

namespace ClientBoundary

-- ---------------------------------------------------------------------------------------------
-- One lexeme
-- ---------------------------------------------------------------------------------------------

namespace Lexer

theorem scanCode_quote {c : CodePoint} (hc : c = .char '"' ∨ c = .char '\'') (t : Text) :
    scanCode (c :: t) = (Pattern.string (c :: t)).map fun n => (.token .string, n) := by
  have hRest (a : Option (LexemeKind × Nat)) : a = (a <|> none) := by cases a <;> rfl
  rw [hRest (Option.map _ _)]
  rcases hc with rfl | rfl <;> rfl

/-- Where the first finds a match of the kind wanted the second finds it too, and where the first
finds none the second finds none. -/
structure Keeps (wanted : LexemeKind × Nat → Prop) (a b : Option (LexemeKind × Nat)) : Prop where
  found : ∀ r, a = some r → wanted r → b = some r
  missed : a = none → b = none

variable {wanted : LexemeKind × Nat → Prop}

theorem Keeps.of_eq {a b : Option (LexemeKind × Nat)} (h : b = a) : Keeps wanted a b :=
  ⟨fun _ ha _ => h.trans ha, fun ha => h.trans ha⟩

theorem Keeps.found_orElse {a a' b b' : Option (LexemeKind × Nat)} (h : Keeps wanted a b)
    (hRest : ∀ r, a' = some r → wanted r → b' = some r) (r : LexemeKind × Nat)
    (hr : (a <|> a') = some r) (hn : wanted r) : (b <|> b') = some r := by
  cases a with
  | none =>
    rw [h.missed rfl]
    exact hRest r hr hn
  | some x =>
    cases hr
    rw [h.found _ rfl hn]
    rfl

theorem Keeps.map {p p' : Option Nat} {f f' : Nat → LexemeKind × Nat}
    (hFound : ∀ n, p = some n → wanted (f n) → p' = some n ∧ f' n = f n)
    (hMissed : p = none → p' = none) : Keeps wanted (p.map f) (p'.map f') := by
  cases p with
  | none =>
    rw [hMissed rfl]
    exact .of_eq rfl
  | some n =>
    refine ⟨fun r hr hn => ?_, nofun⟩
    cases hr
    obtain ⟨hSame, hf⟩ := hFound n rfl hn
    rw [hSame, Option.map_some, hf]

variable {u post : Text}

theorem scanCode_append (hu : u ≠ []) (hPost : LineEnd post) (r : LexemeKind × Nat)
    (h : scanCode (u ++ .char ';' :: post) = some r) (hn : r.2 ≤ u.length) :
    scanCode (u ++ post) = some r := by
  have hBreaks := hPost.breaks
  have hSemi := breaks_semi post
  obtain ⟨c, v, rfl⟩ := List.exists_cons_of_ne_nil hu
  by_cases hQuote : c = .char '"' ∨ c = .char '\''
  · rw [List.cons_append, scanCode_quote hQuote] at h ⊢
    obtain ⟨n, hString, rfl⟩ := Option.map_eq_some_iff.mp h
    have hSame : Pattern.string (c :: v ++ post) = some n :=
      (Pattern.inQuotes_string.decided Pattern.decided_stringRest).append (u := c :: v) hString hn post
    rw [List.cons_append] at hSame
    rw [hSame]
    rfl
  rw [not_or] at hQuote
  have hString (x : Text) : Pattern.string (c :: v ++ x) = none :=
    Pattern.inQuotes_string.other hQuote.1 hQuote.2 _
  revert r
  unfold scanCode
  refine Keeps.found_orElse (.of_eq ?_) ?_
  · rw [Pattern.number_stopped hBreaks.stopped, Pattern.number_stopped hSemi.stopped]
  refine Keeps.found_orElse (.of_eq ?_) ?_
  · rw [hString, hString]
  refine Keeps.found_orElse (.map (fun n hName hn => ⟨?_, ?_⟩) fun hName => ?_) ?_
  · rw [Pattern.name_stopped hBreaks.stopped, ← Pattern.name_stopped hSemi.stopped, hName]
  · rw [List.take_append_of_le_length hn, List.take_append_of_le_length hn]
  · rw [Pattern.name_stopped hBreaks.stopped, ← Pattern.name_stopped hSemi.stopped, hName]
  refine Keeps.found_orElse (.map (fun n hComment hn => ⟨?_, rfl⟩) ?_) ?_
  · exact Pattern.decided_blockComment.append hComment hn post
  · exact Pattern.blockComment_none hPost
  refine Keeps.found_orElse (.map (fun n hComment hn => ⟨?_, rfl⟩) ?_) ?_
  · exact (Pattern.lineComment_append hPost).1 n hComment hn
  · exact (Pattern.lineComment_append hPost).2
  refine Keeps.found_orElse (.of_eq ?_) ?_
  · rw [Pattern.blank_break hBreaks, Pattern.blank_break hSemi]
  intro r hr hn
  obtain ⟨⟨k, n⟩, hSpelling, rfl⟩ := Option.map_eq_some_iff.mp hr
  rw [Pattern.spelling_append hu hBreaks.stopped hSpelling hn]
  rfl

theorem plainStep_append (hu : u ≠ []) (hPost : LineEnd post) {frame : CodeFrame} {depth : Int}
    {below : List Mode} {r : LexemeKind × Nat × List Mode}
    (h : plainStep frame depth below (u ++ .char ';' :: post) = some r) (hn : r.2.1 ≤ u.length) :
    plainStep frame depth below (u ++ post) = some r := by
  obtain ⟨r', hScan, rfl⟩ := Option.map_eq_some_iff.mp h
  rw [plainStep, scanCode_append hu hPost r' hScan hn]
  rfl

theorem templateStep_append {closed opened : Terminal} {below : List Mode}
    {r : LexemeKind × Nat × List Mode} {t : Text}
    (h : templateStep closed opened below (u ++ t) = some r) (hn : r.2.1 ≤ u.length + 1)
    (t' : Text) : templateStep closed opened below (u ++ t') = some r := by
  obtain ⟨⟨stop, n⟩, hChunk, rfl⟩ := Option.map_eq_some_iff.mp h
  have hLe : n ≤ u.length := by
    cases stop <;> exact Nat.le_of_succ_le_succ hn
  rw [templateStep, Pattern.decided_templateChunk.append hChunk hLe t']
  rfl

/-- Whether a slash before this text opens a comment. -/
def opensComment : Text → Bool
  | .char '/' :: _ => true
  | .char '*' :: _ => true
  | _ => false

/-- Only the next code point tells. -/
theorem opensComment_cons (c : CodePoint) (t t' : Text) :
    opensComment (c :: t) = opensComment (c :: t') := by
  have hHead (x : Text) : opensComment (c :: x) = decide (c = .char '/' ∨ c = .char '*') := by
    unfold opensComment
    split
    · rename_i heq
      simp [(List.cons.inj heq).1]
    · rename_i heq
      simp [(List.cons.inj heq).1]
    · rename_i hSlash hStar
      refine (decide_eq_false ?_).symm
      rintro (rfl | rfl)
      · exact hSlash _ rfl
      · exact hStar _ rfl
  rw [hHead, hHead]

theorem opensComment_break {r : Text} (hr : Breaks r) : opensComment (u ++ r) = opensComment u := by
  cases u with
  | nil => rcases hr.cases with rfl | ⟨r', rfl | rfl⟩ <;> rfl
  | cons c t => exact opensComment_cons c _ _

theorem codeStep_slash (s : Lexer) (frame : CodeFrame) (depth : Int) (below : List Mode)
    (t : Text) :
    s.codeStep frame depth below (.char '/' :: t) =
      if s.expectsExpression && !opensComment t then
        (Pattern.regex (.char '/' :: t)).map fun n =>
          (.token .regex, n, Mode.code frame depth :: below)
      else plainStep frame depth below (.char '/' :: t) := rfl

theorem codeStep_less (s : Lexer) (frame : CodeFrame) (depth : Int) (below : List Mode)
    (t : Text) :
    s.codeStep frame depth below (.char '<' :: t) =
      if s.expectsExpression && Pattern.opensElement t then
        some (.token .jsxOpen, 1, .tag .opening 0 :: .code frame depth :: below)
      else plainStep frame depth below (.char '<' :: t) := rfl

theorem codeStep_other (s : Lexer) (frame : CodeFrame) (depth : Int) (below : List Mode)
    {c : CodePoint} (hSlash : c ≠ .char '/') (hLess : c ≠ .char '<') (hTick : c ≠ .char '\x60')
    (hBrace : c ≠ .char '\x7d') (t : Text) :
    s.codeStep frame depth below (c :: t) = plainStep frame depth below (c :: t) := by
  unfold codeStep
  split
  · rename_i heq
    exact absurd (List.cons.inj heq).1 hSlash
  · rename_i heq
    exact absurd (List.cons.inj heq).1 hLess
  · rename_i heq
    exact absurd (List.cons.inj heq).1 hTick
  · rename_i heq
    exact absurd (List.cons.inj heq).1 hBrace
  · rfl

theorem ite_eq_some {α : Type} {b : Prop} [Decidable b] {x x' y y' : Option α} {r : α}
    (hx : x = some r → x' = some r) (hy : y = some r → y' = some r)
    (h : (if b then x else y) = some r) : (if b then x' else y') = some r := by
  split at h
  · rename_i hb
    rw [if_pos hb, hx h]
  · rename_i hb
    rw [if_neg hb, hy h]

/-- What a lexeme of code that begins in `u` depends on when the text after `u` changes. -/
theorem codeStep_keeps {t t' : Text} (hu : u ≠ []) {s : Lexer} {frame : CodeFrame} {depth : Int}
    {below : List Mode} {r : LexemeKind × Nat × List Mode}
    (hPlain : plainStep frame depth below (u ++ t) = some r →
      plainStep frame depth below (u ++ t') = some r)
    (hComment : ∀ v, u = .char '/' :: v → opensComment (v ++ t') = opensComment (v ++ t))
    (hRegex : r.1 = .token .regex → Pattern.regex (u ++ t) = some r.2.1 →
      Pattern.regex (u ++ t') = some r.2.1)
    (hElement : ∀ v, u = .char '<' :: v →
      Pattern.opensElement (v ++ t') = Pattern.opensElement (v ++ t))
    (h : s.codeStep frame depth below (u ++ t) = some r) (hn : r.2.1 ≤ u.length) :
    s.codeStep frame depth below (u ++ t') = some r := by
  obtain ⟨c, v, rfl⟩ := List.exists_cons_of_ne_nil hu
  rw [List.cons_append] at h hPlain hRegex ⊢
  rw [List.cons_append] at hPlain hRegex
  by_cases hSlash : c = .char '/'
  · subst hSlash
    rw [codeStep_slash] at h
    rw [codeStep_slash, hComment v rfl]
    refine ite_eq_some (fun hr => ?_) hPlain h
    obtain ⟨n, hn', rfl⟩ := Option.map_eq_some_iff.mp hr
    rw [hRegex rfl hn']
    rfl
  by_cases hLess : c = .char '<'
  · subst hLess
    rw [codeStep_less] at h
    rw [codeStep_less, hElement v rfl]
    exact ite_eq_some id hPlain h
  by_cases hTick : c = .char '\x60'
  · subst hTick
    exact templateStep_append h hn t'
  by_cases hBrace : c = .char '\x7d'
  · subst hBrace
    cases frame with
    | root => exact hPlain h
    | container => exact ite_eq_some id hPlain h
    | substitution =>
      exact ite_eq_some (fun hr => templateStep_append hr hn t') hPlain h
  rw [codeStep_other s frame depth below hSlash hLess hTick hBrace] at h ⊢
  exact hPlain h

theorem codeStep_append (hu : u ≠ []) (hPost : LineEnd post) {s : Lexer} {frame : CodeFrame}
    {depth : Int} {below : List Mode} {r : LexemeKind × Nat × List Mode}
    (h : s.codeStep frame depth below (u ++ .char ';' :: post) = some r) (hn : r.2.1 ≤ u.length) :
    s.codeStep frame depth below (u ++ post) = some r := by
  have hBreaks := hPost.breaks
  have hSemi := breaks_semi post
  refine codeStep_keeps hu (fun hr => plainStep_append hu hPost hr hn) (fun v _ => ?_)
    (fun _ hr => Pattern.regex_append (fun m _ _ => ?_) hr hn) (fun v _ => ?_) h hn
  · rw [opensComment_break hBreaks, opensComment_break hSemi]
  · rw [Pattern.run_break hBreaks rfl rfl, Pattern.run_break hSemi rfl rfl]
  · rw [Pattern.opensElement_break hBreaks, Pattern.opensElement_break hSemi]

/-- What a lexeme among the children of an element that begins in `u` depends on when the text after
`u` changes. -/
theorem childrenStep_keeps {t t' : Text} {below : List Mode} {r : LexemeKind × Nat × List Mode}
    (hu : u ≠ [])
    (hText : r = (.token .jsxText, r.2.1, .children :: below) →
      Pattern.jsxText (u ++ t) = some r.2.1 → Pattern.jsxText (u ++ t') = some r.2.1)
    (h : childrenStep below (u ++ t) = some r) : childrenStep below (u ++ t') = some r := by
  obtain ⟨d, v, rfl⟩ := List.exists_cons_of_ne_nil hu
  rw [List.cons_append] at h ⊢
  by_cases hBrace : d = .char '\x7b'
  · subst hBrace
    exact h
  by_cases hLess : d = .char '<'
  · subst hLess
    exact h
  have hStep (x : Text) : childrenStep below (d :: x) =
      (Pattern.jsxText (d :: x)).map fun n => (.token .jsxText, n, .children :: below) := by
    unfold childrenStep
    split
    · rename_i heq
      exact absurd (List.cons.inj heq).1 hBrace
    · rename_i heq
      exact absurd (List.cons.inj heq).1 hLess
    · rfl
  rw [hStep] at h ⊢
  obtain ⟨n, hn, rfl⟩ := Option.map_eq_some_iff.mp h
  have hSame : Pattern.jsxText (d :: v ++ t') = some n := hText rfl hn
  rw [← List.cons_append, hSame]
  rfl

/-- Among the children of an element, a lexeme that begins in `u` does not depend on the text after
`u`, where text between tags would go on there. -/
theorem childrenStep_append {t : Text} {c : CodePoint} {below : List Mode}
    {r : LexemeKind × Nat × List Mode} (hu : u ≠ [])
    (hc : (c ≠ .char '\x7b' && c ≠ .char '<') = true)
    (h : childrenStep below (u ++ c :: t) = some r) (hn : r.2.1 ≤ u.length) (t' : Text) :
    childrenStep below (u ++ t') = some r :=
  childrenStep_keeps hu (fun _ hText => Pattern.jsxText_append hc hText hn t') h

/-- One token in a tag, where neither a blank nor a comment begins. -/
def tagToken (role : TagRole) (seen : Nat) (below : List Mode) (t : Text) :
    Option (LexemeKind × Nat × List Mode) :=
  let grown := Mode.tag role (seen + 1) :: below
  match t with
  | .char '/' :: _ =>
    let role := if seen = 0 then TagRole.closing else TagRole.selfClosing
    some (.token .jsxSlash, 1, .tag role (seen + 1) :: below)
  | .char '>' :: _ =>
    let after := match role with
      | .opening => .children :: below
      | .closing => below.tail
      | .selfClosing => below
    some (.token .jsxGt, 1, after)
  | .char '\x7b' :: _ => some (.token .jsxLbrace, 1, .code .container 0 :: grown)
  | .char '<' :: _ => some (.token .jsxOpen, 1, .tag .opening 0 :: grown)
  | .char '=' :: _ => some (.token .eq, 1, grown)
  | .char '.' :: _ => some (.token .dot, 1, grown)
  | .char ':' :: _ => some (.token .colon, 1, grown)
  | _ =>
    ((Pattern.jsxString t).map fun n => (.token .jsxString, n, grown))
    <|> ((Pattern.jsxName t).map fun n => (.token .jsxName, n, grown))

theorem tagStep_eq (role : TagRole) (seen : Nat) (below : List Mode) (t : Text) :
    tagStep role seen below t =
      match Pattern.jsxBlank t with
      | some n => some (.blank, n, .tag role seen :: below)
      | none =>
        match Pattern.lineComment t with
        | some n => some (.lineComment, n, .tag role seen :: below)
        | none =>
          match Pattern.blockComment t with
          | some n => some (.blockComment, n, .tag role seen :: below)
          | none => tagToken role seen below t := rfl

/-- The code points that are tokens of their own in a tag. -/
def tagMarks : Text := Text.ofString "/>\x7b<=.:"

theorem tagToken_mark {role : TagRole} {seen : Nat} {below : List Mode} {c : CodePoint}
    (hc : c ∈ tagMarks) (t t' : Text) :
    tagToken role seen below (c :: t) = tagToken role seen below (c :: t') := by
  have hCases : c = .char '/' ∨ c = .char '>' ∨ c = .char '\x7b' ∨ c = .char '<' ∨ c = .char '=' ∨
      c = .char '.' ∨ c = .char ':' := by simpa [tagMarks, Text.ofString] using hc
  rcases hCases with rfl | rfl | rfl | rfl | rfl | rfl | rfl <;> rfl

theorem tagToken_other {role : TagRole} {seen : Nat} {below : List Mode} {c : CodePoint}
    (hc : c ∉ tagMarks) (t : Text) :
    tagToken role seen below (c :: t) =
      (((Pattern.jsxString (c :: t)).map fun n =>
          (.token .jsxString, n, Mode.tag role (seen + 1) :: below))
        <|> ((Pattern.jsxName (c :: t)).map fun n =>
          (.token .jsxName, n, Mode.tag role (seen + 1) :: below))) := by
  unfold tagToken
  split
  case h_8 => rfl
  all_goals
    rename_i heq
    cases heq
    exact absurd (by decide) hc

theorem tagToken_append {t t' : Text} {role : TagRole} {seen : Nat} {below : List Mode}
    {r : LexemeKind × Nat × List Mode} (hu : u ≠ [])
    (hName : ∀ n, Pattern.jsxName (u ++ t) = some n → n ≤ u.length →
      Pattern.jsxName (u ++ t') = some n)
    (h : tagToken role seen below (u ++ t) = some r) (hn : r.2.1 ≤ u.length) :
    tagToken role seen below (u ++ t') = some r := by
  obtain ⟨c, v, rfl⟩ := List.exists_cons_of_ne_nil hu
  rw [List.cons_append] at h ⊢
  by_cases hMark : c ∈ tagMarks
  · rw [tagToken_mark hMark (v ++ t') (v ++ t)]
    exact h
  rw [tagToken_other hMark] at h ⊢
  by_cases hQuote : c = .char '"' ∨ c = .char '\''
  · -- a name does not begin with a quote
    have hNone (x : Text) : Pattern.jsxName (c :: x) = none := by
      rcases hQuote with rfl | rfl <;> rfl
    rw [hNone] at h ⊢
    cases hString : Pattern.jsxString (c :: (v ++ t)) with
    | none =>
      rw [hString] at h
      cases h
    | some n =>
      rw [hString] at h
      cases h
      have hSame : Pattern.jsxString (c :: v ++ t') = some n :=
        (Pattern.inQuotes_jsxString.decided Pattern.decided_jsxStringRest).append (u := c :: v)
          hString hn t'
      rw [← List.cons_append, hSame]
      rfl
  · rw [not_or] at hQuote
    rw [Pattern.inQuotes_jsxString.other hQuote.1 hQuote.2] at h ⊢
    obtain ⟨n, hn', rfl⟩ := Option.map_eq_some_iff.mp h
    have hSame : Pattern.jsxName (c :: (v ++ t')) = some n := hName n hn' hn
    rw [hSame]
    rfl

/-- What a lexeme in a tag that begins in `u` depends on when the text after `u` changes. -/
theorem tagStep_keeps {t t' : Text} {role : TagRole} {seen : Nat} {below : List Mode}
    {r : LexemeKind × Nat × List Mode} (hu : u ≠ [])
    (hBlank : r = (.blank, r.2.1, .tag role seen :: below) →
      Pattern.jsxBlank (u ++ t) = some r.2.1 → Pattern.jsxBlank (u ++ t') = some r.2.1)
    (hNoBlank : Pattern.jsxBlank (u ++ t) = none → Pattern.jsxBlank (u ++ t') = none)
    (hLine : r.1 = .lineComment → ∀ n, Pattern.lineComment (u ++ t) = some n → n ≤ u.length →
      n = r.2.1 → Pattern.lineComment (u ++ t') = some n)
    (hNoLine : Pattern.lineComment (u ++ t) = none → Pattern.lineComment (u ++ t') = none)
    (hNoBlock : Pattern.blockComment (u ++ t) = none → Pattern.blockComment (u ++ t') = none)
    (hName : ∀ n, Pattern.jsxName (u ++ t) = some n → n ≤ u.length →
      Pattern.jsxName (u ++ t') = some n)
    (h : tagStep role seen below (u ++ t) = some r) (hn : r.2.1 ≤ u.length) :
    tagStep role seen below (u ++ t') = some r := by
  rw [tagStep_eq] at h ⊢
  cases hFirst : Pattern.jsxBlank (u ++ t) with
  | some n =>
    rw [hFirst] at h
    cases h
    rw [hBlank rfl hFirst]
  | none =>
    rw [hFirst] at h
    rw [hNoBlank hFirst]
    cases hSecond : Pattern.lineComment (u ++ t) with
    | some n =>
      rw [hSecond] at h
      cases h
      rw [hLine rfl n hSecond hn rfl]
    | none =>
      rw [hSecond] at h
      rw [hNoLine hSecond]
      cases hThird : Pattern.blockComment (u ++ t) with
      | some n =>
        rw [hThird] at h
        cases h
        rw [Pattern.decided_blockComment.append hThird hn t']
      | none =>
        rw [hThird] at h
        rw [hNoBlock hThird]
        exact tagToken_append hu hName h hn

theorem tagStep_append {role : TagRole} {seen : Nat} {below : List Mode}
    {r : LexemeKind × Nat × List Mode} (hu : u ≠ []) (hPost : LineEnd post)
    (h : tagStep role seen below (u ++ .char ';' :: post) = some r) (hn : r.2.1 ≤ u.length)
    (hCode : r.2.1 = u.length → ∃ frame depth rest, r.2.2 = .code frame depth :: rest) :
    tagStep role seen below (u ++ post) = some r := by
  obtain ⟨hLine, hNoLine⟩ := Pattern.lineComment_append (u := u) hPost
  refine tagStep_keeps hu (fun hr hBlank => ?_) (fun hNone => Pattern.nonempty_run_none hu hNone post)
    (fun _ n hn hLe _ => hLine n hn hLe) hNoLine (Pattern.blockComment_none hPost)
    (fun n hn _ => ?_) h hn
  · -- a blank that ended at the semicolon would leave the lexer in the tag
    have hShort : r.2.1 ≠ u.length := by
      intro hEq
      obtain ⟨_, _, _, hModes⟩ := hCode hEq
      rw [hr] at hModes
      cases hModes
    exact Pattern.nonempty_run_append hBlank (by omega) post
  · rw [Pattern.jsxName_stopped hPost.breaks.stopped,
      ← Pattern.jsxName_stopped (breaks_semi post).stopped]
    exact hn

/-- A lexeme is the same in two texts when it is so in the mode that the lexer is in. -/
theorem step_keeps {s s' : Lexer} {kind : LexemeKind} {n : Nat} {t t' : Text}
    (h : s.step t = some (kind, n, s'))
    (hCode : ∀ frame depth below, s.modes = .code frame depth :: below →
      s.codeStep frame depth below t = some (kind, n, s'.modes) →
      s.codeStep frame depth below t' = some (kind, n, s'.modes))
    (hTag : ∀ role seen below, s.modes = .tag role seen :: below →
      tagStep role seen below t = some (kind, n, s'.modes) →
      tagStep role seen below t' = some (kind, n, s'.modes))
    (hChildren : ∀ below, childrenStep below t = some (kind, n, s'.modes) →
      childrenStep below t' = some (kind, n, s'.modes)) :
    s.step t' = some (kind, n, s') := by
  obtain ⟨⟨kind', n', modes'⟩, hr, hEq⟩ := Option.map_eq_some_iff.mp h
  cases hEq
  obtain ⟨modes, last⟩ := s
  cases modes with
  | nil => cases hr
  | cons mode below =>
    cases mode with
    | code frame depth => simp only [step, hCode frame depth below rfl hr, Option.map_some]
    | tag role seen => simp only [step, hTag role seen below rfl hr, Option.map_some]
    | children => simp only [step, hChildren below hr, Option.map_some]

/-- One lexeme that ends before a semicolon is taken off the text in the same way when the semicolon
is left out at the end of a line. A lexeme right before the semicolon must lead into code, where a
line feed is no blank. -/
theorem step_append {s s' : Lexer} {kind : LexemeKind} {n : Nat} (hu : u ≠ [])
    (hPost : LineEnd post) (h : s.step (u ++ .char ';' :: post) = some (kind, n, s'))
    (hn : n ≤ u.length)
    (hCode : n = u.length → ∃ frame depth below, s'.modes = .code frame depth :: below) :
    s.step (u ++ post) = some (kind, n, s') :=
  step_keeps h (fun _ _ _ _ hr => codeStep_append hu hPost hr hn)
    (fun _ _ _ _ hr => tagStep_append hu hPost hr hn hCode)
    (fun _ hr => childrenStep_append hu rfl hr hn post)

-- ---------------------------------------------------------------------------------------------
-- The terminal before
-- ---------------------------------------------------------------------------------------------

/-- The terminal before has no say in how the first lexeme of the text is read: there is no slash
but that of a comment, and no `<` that could open an element. -/
structure Neutral (t : Text) : Prop where
  slash : ∀ t', t = .char '/' :: t' → opensComment t' = true
  less : ∀ t', t = .char '<' :: t' → Pattern.opensElement t' = false

theorem codeStep_of_neutral {t : Text} (ht : Neutral t) (s s' : Lexer) (frame : CodeFrame)
    (depth : Int) (below : List Mode) :
    s'.codeStep frame depth below t = s.codeStep frame depth below t := by
  cases t with
  | nil => rfl
  | cons c t =>
    by_cases hSlash : c = .char '/'
    · subst hSlash
      rw [codeStep_slash, codeStep_slash, ht.slash t rfl, Bool.not_true, Bool.and_false,
        Bool.and_false]
    by_cases hLess : c = .char '<'
    · subst hLess
      rw [codeStep_less, codeStep_less, ht.less t rfl, Bool.and_false, Bool.and_false]
    by_cases hTick : c = .char '\x60'
    · subst hTick
      rfl
    by_cases hBrace : c = .char '\x7d'
    · subst hBrace
      rfl
    rw [codeStep_other _ frame depth below hSlash hLess hTick hBrace,
      codeStep_other _ frame depth below hSlash hLess hTick hBrace]

/-- Where an expression may begin, only regular expressions and elements are not neutral. -/
theorem neutral_of_codeStep {s : Lexer} {frame : CodeFrame} {depth : Int} {below : List Mode}
    {t : Text} {r : LexemeKind × Nat × List Mode} (hExpects : s.expectsExpression = true)
    (h : s.codeStep frame depth below t = some r) (hRegex : r.1 ≠ .token .regex)
    (hOpen : r.1 ≠ .token .jsxOpen) : Neutral t := by
  refine ⟨?_, ?_⟩
  · rintro t rfl
    rw [codeStep_slash, hExpects, Bool.true_and] at h
    cases hComment : opensComment t with
    | true => rfl
    | false =>
      rw [hComment] at h
      obtain ⟨n, _, rfl⟩ := Option.map_eq_some_iff.mp h
      exact absurd rfl hRegex
  · rintro t rfl
    rw [codeStep_less, hExpects, Bool.true_and] at h
    cases hElement : Pattern.opensElement t with
    | false => rfl
    | true =>
      rw [hElement] at h
      cases h
      exact absurd rfl hOpen

theorem codeStep_congr {s s' : Lexer} (h : s'.expectsExpression = s.expectsExpression)
    (frame : CodeFrame) (depth : Int) (below : List Mode) (t : Text) :
    s'.codeStep frame depth below t = s.codeStep frame depth below t := by
  unfold codeStep
  rw [h]

/-- Where the terminal before matters in code alone, it matters nowhere. -/
theorem step_last {modes : List Mode} {last last' : Option Terminal} {t : Text} {kind : LexemeKind}
    {n : Nat} {s' : Lexer} (h : step ⟨modes, last⟩ t = some (kind, n, s'))
    (hCode : ∀ frame depth below,
      codeStep ⟨modes, last⟩ frame depth below t = some (kind, n, s'.modes) →
      codeStep ⟨modes, last'⟩ frame depth below t = some (kind, n, s'.modes)) :
    step ⟨modes, last'⟩ t = some (kind, n, ⟨s'.modes, remember last' kind⟩) := by
  obtain ⟨⟨kind', n', modes'⟩, hr, hEq⟩ := Option.map_eq_some_iff.mp h
  cases hEq
  cases modes with
  | nil => cases hr
  | cons mode below =>
    cases mode with
    | code frame depth => simp only [step, hCode frame depth below hr, Option.map_some]
    | tag role seen =>
      have hSame : tagStep role seen below t = some (kind', n', modes') := hr
      simp only [step, hSame, Option.map_some]
    | children =>
      have hSame : childrenStep below t = some (kind', n', modes') := hr
      simp only [step, hSame, Option.map_some]

end Lexer

end ClientBoundary
