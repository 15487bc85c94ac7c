import ClientBoundary.Proofs.NodePlaces

/-!
# Tokens and what lies between them

The lexer cuts a text into lexemes that lie side by side, and those that are no tokens are white
space and comments. So the tokens of any text, whether it can be read or not, stand in it one after
the other with nothing but white space and comments before, between and after them, up to the end of
the text or to the place where no lexeme begins.

* `Gap` — white space and whole comments, in front of what follows them.
* `gap_of_step` — what a step of the lexer takes off that is no token is one.
* `ends_lexFrom` — lexing ends at the end of the text, or where the lexer cannot take a step; it
  never runs out of steps.
* `lexing_tiles_source` — all of this about the tokens of a text.
-/

namespace ClientBoundary

-- ---------------------------------------------------------------------------------------------
-- White space and comments
-- ---------------------------------------------------------------------------------------------

/-- What may stand between two tokens in front of `rest`: white space, or one comment. A line
comment goes up to a line feed or to the end of the text, a block comment to its first end mark. -/
inductive Skipped (rest : Text) : Text → Prop where
  | blank {c : CodePoint} (hBlank : c.isBlank = true) : Skipped rest [c]
  | line {inner : Text} (hInner : .char '\n' ∉ inner) (hEnd : ∀ c ∈ rest.head?, c = .char '\n') :
      Skipped rest (Text.ofString "//" ++ inner)
  | block {inner : Text} (hFirst : FirstEnd (inner ++ Text.ofString "*/")) :
      Skipped rest (Text.ofString "/*" ++ inner ++ Text.ofString "*/")

/-- White space and comments in front of `rest`. -/
inductive Gap (rest : Text) : Text → Prop where
  | nil : Gap rest []
  | cons {piece more : Text} (hPiece : Skipped (more ++ rest) piece) (hMore : Gap rest more) :
      Gap rest (piece ++ more)

theorem Gap.single {rest piece : Text} (h : Skipped rest piece) : Gap rest piece := by
  have hOne : Gap rest (piece ++ []) := .cons h .nil
  rwa [List.append_nil] at hOne

theorem Gap.append {rest t u : Text} (ht : Gap (u ++ rest) t) (hu : Gap rest u) :
    Gap rest (t ++ u) := by
  induction ht with
  | nil => exact hu
  | cons hPiece _ ih =>
    rw [List.append_assoc]
    exact .cons (by rwa [List.append_assoc]) ih

theorem gap_of_blank {t : Text} (h : ∀ c ∈ t, c.isBlank = true) (rest : Text) : Gap rest t := by
  induction t with
  | nil => exact .nil
  | cons c t ih =>
    obtain ⟨hHere, hRest⟩ := List.forall_mem_cons.mp h
    have hPiece : Skipped (t ++ rest) [c] := .blank hHere
    exact Gap.cons hPiece (ih hRest)

/-- What a step takes off that is no token is white space or a comment. -/
theorem gap_of_step {s s' : Lexer} {t : Text} {kind : LexemeKind} {n : Nat}
    (h : s.step t = some (kind, n, s')) (hKind : ∀ k, kind ≠ .token k) :
    Gap (t.drop n) (t.take n) := by
  have hMatched := Lexer.matched_of_step h
  cases kind with
  | token k => exact absurd rfl (hKind k)
  | blank => exact gap_of_blank (hMatched.blank rfl) _
  | lineComment =>
    have hLine := hMatched.line rfl
    obtain ⟨inner, hInner, hNot⟩ := take_lineComment hLine
    rw [hInner]
    exact .single (.line hNot (Pattern.head_drop_lineComment hLine))
  | blockComment =>
    obtain ⟨inner, hInner, hFirst⟩ := take_blockComment (hMatched.block rfl)
    rw [hInner]
    exact .single (.block hFirst)

-- ---------------------------------------------------------------------------------------------
-- The end of lexing
-- ---------------------------------------------------------------------------------------------

/-- The place where some lexemes end that lie side by side from a place on. -/
def stopOf (p : Place) (ls : List Lexeme) : Place := (ls.getLast?.map Lexeme.stop).getD p

theorem stopOf_cons (p : Place) (l : Lexeme) (ls : List Lexeme) :
    stopOf p (l :: ls) = stopOf l.stop ls := by
  rw [stopOf, stopOf, List.getLast?_cons]
  cases ls.getLast? <;> rfl

/-- All the lexemes lie before the place where they end. -/
theorem Tiling.le_stopOf {p : Place} {ls : List Lexeme} (h : Tiling p ls) :
    p.offset ≤ (stopOf p ls).offset ∧ ∀ l ∈ ls, l.stop.offset ≤ (stopOf p ls).offset := by
  induction h with
  | nil p => exact ⟨Nat.le_refl _, List.forall_mem_nil _⟩
  | @cons l ls _ hStop _ ih =>
    rw [stopOf_cons]
    have hOffset : l.stop.offset = l.start.offset + l.text.length := by
      rw [hStop, Place.offset_after]
    exact ⟨by omega, List.forall_mem_cons.mpr ih⟩

/-- Lexing ends at a place: at the end of the text, or where no lexeme begins. -/
def EndsAt (source : Text) (l : Lexing) (q : Place) : Prop :=
  (l.failure = none ∧ q.offset = source.length) ∨
    (l.failure = some q ∧ q.offset < source.length ∧ l.final.step (source.drop q.offset) = none)

/-- Each step of the lexer takes off at least one code point, so a text is used up after as many
steps as it has code points. -/
theorem length_drop_lt {s s' : Lexer} {t : Text} {kind : LexemeKind} {n : Nat} (ht : t ≠ [])
    (h : s.step t = some (kind, n, s')) : (t.drop n).length < t.length := by
  have hPos := Lexer.pos_of_step h
  have hLength := List.length_pos_iff.mpr ht
  rw [List.length_drop]
  omega

theorem ends_lexFrom {source : Text} (steps : Nat) (s : Lexer) {p : Place} {t : Text}
    (ht : t = source.drop p.offset) (hp : p.offset ≤ source.length) (hSteps : t.length ≤ steps) :
    EndsAt source (lexFrom steps s p t) (stopOf p (lexFrom steps s p t).lexemes) := by
  have hAtEnd (hEmpty : t = []) : p.offset = source.length := by
    rw [ht, List.drop_eq_nil_iff] at hEmpty
    omega
  induction steps generalizing s p t with
  | zero =>
    have hEmpty : t = [] := List.eq_nil_of_length_eq_zero (by omega)
    refine .inl ⟨?_, hAtEnd hEmpty⟩
    rw [hEmpty]
    rfl
  | succ steps ih =>
    rw [lexFrom]
    by_cases hEmpty : t = []
    · rw [hEmpty]
      exact .inl ⟨rfl, hAtEnd hEmpty⟩
    · rw [if_neg (by simpa using hEmpty)]
      have hRoom : p.offset < source.length := by
        rw [ht, List.drop_eq_nil_iff] at hEmpty
        omega
      cases hStep : s.step t with
      | none => exact .inr ⟨rfl, hRoom, ht ▸ hStep⟩
      | some r =>
        obtain ⟨kind, n, s'⟩ := r
        have hRest : t.drop n = source.drop (p.after (t.take n)).offset := by
          rw [Place.offset_after, ← List.drop_drop, ← ht, List.length_take, ← List.drop_eq_drop_min]
        have hInside : (p.after (t.take n)).offset ≤ source.length := by
          have hTake := List.length_take_le' n t
          have hLength := congrArg List.length ht
          rw [List.length_drop] at hLength
          rw [Place.offset_after]
          omega
        have hFewer : (t.drop n).length ≤ steps := by
          have := length_drop_lt hEmpty hStep
          omega
        have hEnds := ih s' hRest hInside hFewer fun hNil => by
          rw [hRest, List.drop_eq_nil_iff] at hNil
          omega
        dsimp only
        rw [stopOf_cons]
        exact hEnds

-- ---------------------------------------------------------------------------------------------
-- Places along a text
-- ---------------------------------------------------------------------------------------------

/-- The place of an offset of a source. -/
def placeAt (source : Text) (offset : Nat) : Place :=
  ⟨offset, lineAt source offset, columnAt source offset⟩

theorem after_take {source : Text} {offset : Nat} (h : offset ≤ source.length) :
    Place.start.after (source.take offset) = placeAt source offset := by
  rw [Place.after_start, List.length_take, Nat.min_eq_left h]
  rfl

/-- A lexeme has its text at its place, and both its ends are where their offsets say. -/
structure Lexeme.PlacedIn (source : Text) (l : Lexeme) : Prop where
  filled : l.start.offset < l.stop.offset
  bounded : l.stop.offset ≤ source.length
  text : l.text = source.between l.start.offset l.stop.offset
  start : l.start = placeAt source l.start.offset
  stop : l.stop = placeAt source l.stop.offset

theorem Tiling.stop_eq {p : Place} {ls : List Lexeme} (h : Tiling p ls) :
    ∀ l ∈ ls, l.stop = l.start.after l.text := by
  induction h with
  | nil => exact List.forall_mem_nil _
  | cons _ hStop _ ih => exact List.forall_mem_cons.mpr ⟨hStop, ih⟩

theorem placedIn_of_mem (source : Text) :
    ∀ l ∈ (lex source).lexemes, l.PlacedIn source := by
  intro l hMem
  have hTiling := tiling_lex source
  have hCuts : ∀ l ∈ (lex source).lexemes, l.CutFrom source := cutFrom_of_mem _ rfl
  have hCut := hCuts l hMem
  have hFilled := (hTiling.ordered.1 l hMem).2
  have hBounded := hCut.bounded hFilled
  have hStart := hTiling.start_eq hCuts rfl l hMem
  refine ⟨hFilled, hBounded, hCut.between.symm, ?_, ?_⟩
  · rw [← after_take (by omega)]
    exact hStart
  · calc l.stop = l.start.after l.text := hTiling.stop_eq l hMem
      _ = (Place.start.after (source.take l.start.offset)).after l.text := by rw [← hStart]
      _ = Place.start.after (source.take l.start.offset ++ l.text) :=
          (Place.after_append _ _ _).symm
      _ = Place.start.after (source.take l.stop.offset) := by
          rw [hCut.stop, List.take_add, hCut.text]
      _ = placeAt source l.stop.offset := after_take hBounded

-- ---------------------------------------------------------------------------------------------
-- Gaps
-- ---------------------------------------------------------------------------------------------

/-- The stretches before, between and after some tokens, from the offset `lo` to the offset `hi`. -/
def stretches (lo : Nat) : List Token → Nat → List (Nat × Nat)
  | [], hi => [(lo, hi)]
  | t :: ts, hi => (lo, t.start.offset) :: stretches t.stop.offset ts hi

/-- A stretch of a source holds nothing but white space and comments. -/
def IsGap (source : Text) (stretch : Nat × Nat) : Prop :=
  stretch.1 ≤ stretch.2 ∧ Gap (source.drop stretch.2) (source.between stretch.1 stretch.2)

theorem Text.between_self (source : Text) (offset : Nat) : source.between offset offset = [] :=
  List.drop_eq_nil_of_le (by rw [List.length_take]; omega)

theorem isGap_empty (source : Text) (offset : Nat) : IsGap source (offset, offset) := by
  refine ⟨Nat.le_refl _, ?_⟩
  rw [Text.between_self]
  exact .nil

/-- A lexeme that is no token belongs to the gap before it. -/
theorem IsGap.extend {source : Text} {lo : Nat} {l : Lexeme} (h : IsGap source (lo, l.start.offset))
    (hCut : l.CutFrom source) (hBounded : l.stop.offset ≤ source.length)
    (hToken : l.token? = none) : IsGap source (lo, l.stop.offset) := by
  obtain ⟨hOrder, hGap⟩ := h
  have hStop := hCut.stop
  obtain ⟨s, s', n, hStep, hText⟩ := hCut.taken
  have hKind (k : Terminal) : l.kind ≠ .token k := by
    intro hToken'
    rw [Lexeme.token?, hToken'] at hToken
    cases hToken
  have hRest : (source.drop l.start.offset).drop n = source.drop l.stop.offset := by
    rw [hStop, ← List.drop_drop, hText, List.length_take, ← List.drop_eq_drop_min]
  have hHere : Gap (source.drop l.stop.offset) l.text := by
    rw [← hRest, hText]
    exact gap_of_step hStep hKind
  have hWhole : source.drop l.start.offset = l.text ++ source.drop l.stop.offset := by
    rw [← hRest, hText, List.take_append_drop]
  have hJoined : source.between lo l.stop.offset = source.between lo l.start.offset ++ l.text := by
    have hTake : source.take l.stop.offset = source.take l.start.offset ++ l.text := by
      rw [hStop, List.take_add, hCut.text]
    have hLength : lo ≤ (source.take l.start.offset).length := by
      rw [List.length_take]
      exact Nat.le_min.mpr ⟨hOrder, by omega⟩
    rw [Text.between, hTake, List.drop_append_of_le_length hLength, Text.between]
  refine ⟨Nat.le_trans hOrder (by omega), ?_⟩
  rw [hJoined]
  exact .append (hWhole ▸ hGap) hHere

/-- Between the tokens among lexemes side by side there are gaps. -/
theorem isGap_stretches {source : Text} {p : Place} {ls : List Lexeme} (h : Tiling p ls)
    (hCut : ∀ l ∈ ls, l.CutFrom source) (hBounded : ∀ l ∈ ls, l.stop.offset ≤ source.length)
    {lo : Nat} (hGap : IsGap source (lo, p.offset)) :
    ∀ g ∈ stretches lo (ls.filterMap Lexeme.token?) (stopOf p ls).offset, IsGap source g := by
  induction h generalizing lo with
  | nil => simpa [stretches, stopOf] using hGap
  | @cons l ls _ _ _ ih =>
    obtain ⟨hHere, hRest⟩ := List.forall_mem_cons.mp hCut
    obtain ⟨hInside, hBounded⟩ := List.forall_mem_cons.mp hBounded
    rw [stopOf_cons]
    cases hToken : l.token? with
    | none =>
      rw [List.filterMap_cons_none hToken]
      exact ih hRest hBounded (hGap.extend hHere hInside hToken)
    | some t =>
      obtain ⟨-, hStart, hStop⟩ := Lexeme.token?_eq_some hToken
      rw [List.filterMap_cons_some hToken, stretches, hStart, hStop]
      exact List.forall_mem_cons.mpr ⟨hGap, ih hRest hBounded (isGap_empty source _)⟩

-- ---------------------------------------------------------------------------------------------
-- Every text
-- ---------------------------------------------------------------------------------------------

/-- The tokens of a text up to an offset: each is the text at its place, they stand one after the
other, and there is nothing but white space and comments around them. -/
structure TiledUpTo (source : Text) (tokens : List Token) (stop : Nat) : Prop where
  filled : ∀ t ∈ tokens, t.start.offset < t.stop.offset ∧ t.stop.offset ≤ stop
  text : ∀ t ∈ tokens, t.text = source.between t.start.offset t.stop.offset
  places : ∀ t ∈ tokens, t.start = placeAt source t.start.offset ∧
    t.stop = placeAt source t.stop.offset
  ordered : tokens.Pairwise fun a b => a.stop.offset ≤ b.start.offset
  gaps : ∀ g ∈ stretches 0 tokens stop, IsGap source g

theorem placeAt_stopOf (source : Text) :
    stopOf Place.start (lex source).lexemes =
      placeAt source (stopOf Place.start (lex source).lexemes).offset := by
  cases hLast : (lex source).lexemes.getLast? with
  | none =>
    rw [stopOf, hLast]
    rfl
  | some l =>
    rw [stopOf, hLast]
    exact (placedIn_of_mem source l (List.mem_of_getLast? hLast)).stop

theorem tiledUpTo_lex (source : Text) :
    TiledUpTo source (lex source).tokens (stopOf Place.start (lex source).lexemes).offset := by
  have hTiling := tiling_lex source
  have hLexeme : ∀ t ∈ (lex source).tokens, ∃ l ∈ (lex source).lexemes,
      t.text = l.text ∧ t.start = l.start ∧ t.stop = l.stop := by
    intro t ht
    obtain ⟨l, hMem, hToken⟩ := List.mem_filterMap.mp ht
    exact ⟨l, hMem, Lexeme.token?_eq_some hToken⟩
  refine ⟨?_, ?_, ?_, (sequential_tokens source).ordered, ?_⟩
  · intro t ht
    obtain ⟨l, hMem, -, hStart, hStop⟩ := hLexeme t ht
    rw [hStart, hStop]
    exact ⟨(placedIn_of_mem source l hMem).filled, hTiling.le_stopOf.2 l hMem⟩
  · intro t ht
    obtain ⟨l, hMem, hText, hStart, hStop⟩ := hLexeme t ht
    rw [hText, hStart, hStop]
    exact (placedIn_of_mem source l hMem).text
  · intro t ht
    obtain ⟨l, hMem, -, hStart, hStop⟩ := hLexeme t ht
    rw [hStart, hStop]
    exact ⟨(placedIn_of_mem source l hMem).start, (placedIn_of_mem source l hMem).stop⟩
  · exact isGap_stretches hTiling (cutFrom_of_mem _ rfl)
      (fun l hMem => (placedIn_of_mem source l hMem).bounded) (isGap_empty source 0)

/-- The tokens of any text tile it, up to white space and comments, as far as lexing goes: to the
end of the text, or to a place where the lexer cannot take a step. Each step that it takes makes the
rest of the text shorter. -/
theorem lexing_tiles_source (source : Text) :
    (∃ stop : Place, TiledUpTo source (lex source).tokens stop.offset ∧
      stop = placeAt source stop.offset ∧ EndsAt source (lex source) stop) ∧
    ∀ (s s' : Lexer) (t : Text) (kind : LexemeKind) (n : Nat), t ≠ [] →
      s.step t = some (kind, n, s') → (t.drop n).length < t.length := by
  refine ⟨⟨stopOf Place.start (lex source).lexemes, ?_, placeAt_stopOf source, ?_⟩,
    fun s s' t kind n => length_drop_lt⟩
  · exact tiledUpTo_lex source
  · exact ends_lexFrom source.length Lexer.start rfl (Nat.zero_le _) (Nat.le_refl _)

end ClientBoundary
