import ClientBoundary.Proofs.Lexemes

/-!
# Texts made of lexemes

* `lex_spelled` — a text that is put together from pieces, each of which the lexer takes in front of
  those after it, is lexed into these pieces.
* `statements_spelled` — where no terminator can be inserted, the tokens are those of the pieces.
-/

namespace ClientBoundary

-- ---------------------------------------------------------------------------------------------
-- Pieces
-- ---------------------------------------------------------------------------------------------

/-- A piece of a text with the kind of lexeme it is to be. -/
abbrev Piece := LexemeKind × Text

/-- The text of some pieces. -/
def spell (pieces : List Piece) : Text := pieces.flatMap (·.2)

/-- The lexemes that some pieces make from a place on. -/
def placed : Place → List Piece → List Lexeme
  | _, [] => []
  | p, (kind, text) :: pieces => ⟨kind, text, p, p.after text⟩ :: placed (p.after text) pieces

/-- The lexer takes one piece after the other. -/
inductive Spelled : Lexer → List Piece → Lexer → Prop where
  | nil (s : Lexer) : Spelled s [] s
  | take {s s' final : Lexer} {kind : LexemeKind} {n : Nat} {text : Text} {pieces : List Piece}
      (hStep : s.step (text ++ spell pieces) = some (kind, n, s'))
      (hText : (text ++ spell pieces).take n = text) (hNonempty : text ≠ [])
      (hRest : Spelled s' pieces final) : Spelled s ((kind, text) :: pieces) final

theorem Spelled.cons {s s' final : Lexer} {kind : LexemeKind} {text : Text} {pieces : List Piece}
    (hStep : s.step (text ++ spell pieces) = some (kind, text.length, s'))
    (hRest : Spelled s' pieces final) : Spelled s ((kind, text) :: pieces) final :=
  .take hStep List.take_left (List.length_pos_iff.mp (Lexer.pos_of_step hStep)) hRest

theorem drop_of_take {α : Type} {t u : List α} {n : Nat} (h : (t ++ u).take n = t) :
    (t ++ u).drop n = u := by
  have hSplit := List.take_append_drop n (t ++ u)
  rw [h] at hSplit
  exact List.append_cancel_left hSplit

theorem lexFrom_spelled {s final : Lexer} {pieces : List Piece} (h : Spelled s pieces final)
    (steps : Nat) (hSteps : (spell pieces).length ≤ steps) (p : Place) :
    lexFrom steps s p (spell pieces) = ⟨placed p pieces, final, none⟩ := by
  induction h generalizing steps p with
  | nil s =>
    cases steps with
    | zero => rfl
    | succ steps => rfl
  | @take s s' final kind n text pieces hStep hText hNonempty _ ih =>
    have hSpell : spell ((kind, text) :: pieces) = text ++ spell pieces := rfl
    have hPos := List.length_pos_iff.mpr hNonempty
    rw [hSpell, List.length_append] at hSteps
    obtain ⟨steps, rfl⟩ : ∃ k, steps = k + 1 := ⟨steps - 1, by omega⟩
    have hNotEmpty : (text ++ spell pieces).isEmpty = false := by
      simp [hNonempty]
    rw [hSpell, lexFrom, hNotEmpty, if_neg Bool.false_ne_true, hStep]
    simp only [hText, drop_of_take hText]
    rw [ih steps (by omega)]
    rfl

/-- Where lexing reaches the end of a text, the text is made of the pieces it was cut into. -/
theorem exists_spelled {steps : Nat} {s : Lexer} {p : Place} {t : Text}
    (h : (lexFrom steps s p t).failure = none) :
    ∃ pieces final, Spelled s pieces final ∧ spell pieces = t ∧
      (lexFrom steps s p t).lexemes = placed p pieces := by
  induction steps generalizing s p t with
  | zero =>
    cases t with
    | nil => exact ⟨[], s, .nil s, rfl, rfl⟩
    | cons c t => cases h
  | succ steps ih =>
    rw [lexFrom] at h ⊢
    split at h
    · rename_i hEmpty
      rw [if_pos hEmpty]
      exact ⟨[], s, .nil s, (List.isEmpty_iff.mp hEmpty).symm, rfl⟩
    · rename_i hEmpty
      rw [if_neg hEmpty]
      cases hStep : s.step t with
      | none =>
        rw [hStep] at h
        cases h
      | some r =>
        obtain ⟨kind, n, s'⟩ := r
        rw [hStep] at h
        obtain ⟨pieces, final, hSpelled, hSpell, hLexemes⟩ := ih h
        have hText : t.take n ++ spell pieces = t := by rw [hSpell, List.take_append_drop]
        have hNonempty : t.take n ≠ [] := by
          rw [Ne, List.take_eq_nil_iff, not_or]
          exact ⟨Nat.ne_of_gt (Lexer.pos_of_step hStep), fun hNil => hEmpty (by rw [hNil]; rfl)⟩
        have hTaken : s.step (t.take n ++ spell pieces) = some (kind, n, s') := by
          rw [hText, hStep]
        refine ⟨(kind, t.take n) :: pieces, final, .take hTaken ?_ hNonempty hSpelled, hText, ?_⟩
        · rw [hText]
        · dsimp only
          rw [hLexemes]
          rfl

/-- A text made of pieces is lexed into them. -/
theorem lex_spelled {pieces : List Piece} {final : Lexer}
    (h : Spelled Lexer.start pieces final) :
    lex (spell pieces) = ⟨placed Place.start pieces, final, none⟩ :=
  lexFrom_spelled h _ (Nat.le_refl _) _

-- ---------------------------------------------------------------------------------------------
-- Tokens without terminators
-- ---------------------------------------------------------------------------------------------

/-- Whether a terminator could be put after the terminal `last`. -/
def canEnd (brackets : List Bracket) (last : Option Terminal) : Bool :=
  Insertion.canTerminate { last } && Insertion.inBlock { brackets }

/-- Whether nothing is inserted between tokens of the given kinds: every line feed, every closing
brace of a block and the end stand where no statement can end. -/
def quiet (brackets : List Bracket) (last : Option Terminal) : List Terminal → Bool
  | [] => !canEnd brackets last
  | k :: ks =>
    if k = .newline then !canEnd brackets last && quiet brackets last ks
    else
      !(brackets.head? = some .block && k = .rbrace && Insertion.canTerminate { last })
        && quiet (Insertion.bracketsAfter brackets last k) (some k) ks

theorem close_eq_none {brackets : List Bracket} {last : Option Terminal} {t : Token}
    (h : (brackets.head? = some .block && t.kind = .rbrace && Insertion.canTerminate { last }) =
      false) : Insertion.close brackets last t = none := by
  unfold Insertion.close
  split
  · rename_i l
    rw [if_neg]
    intro hBoth
    rw [Bool.and_eq_true] at hBoth
    have hCan : Insertion.canTerminate { last := some l } = true := hBoth.2
    simp [hCan, of_decide_eq_true hBoth.1] at h
  · rfl

theorem step_newline {s : Insertion} {t : Token} (hKind : t.kind = .newline)
    (hEnd : canEnd s.brackets s.last = false) : s.step t = ([], s) := by
  have hNot : ¬ (s.pending.isNone && s.canTerminate && s.inBlock) = true := by
    have hSame : (s.canTerminate && s.inBlock) = canEnd s.brackets s.last := rfl
    rw [Bool.and_assoc, hSame, hEnd]
    simp
  rw [Insertion.step, if_pos hKind, if_neg hNot]

theorem step_passed {s : Insertion} {t : Token} (hKind : t.kind ≠ .newline)
    (hPending : s.pending = none) (hClose : Insertion.close s.brackets s.last t = none) :
    s.step t = ([t],
      { brackets := Insertion.bracketsAfter s.brackets s.last t.kind, last := some t.kind,
        lastToken := some t }) := by
  have hSettle : s.settle t.kind = none := by rw [Insertion.settle, hPending]
  rw [Insertion.step, if_neg hKind]
  simp only [hSettle, Option.isSome_none, Bool.false_eq_true, if_false, hClose, Option.toList_none,
    List.nil_append]

/-- Where nothing is inserted, the tokens that are put out are those that are no line feeds. -/
theorem run_quiet {s : Insertion} {tokens : List Token} (hPending : s.pending = none)
    (h : quiet s.brackets s.last (tokens.map Token.kind) = true) :
    (s.run tokens).1 = tokens.filter (·.kind ≠ .newline) ∧ (s.run tokens).2.finish = none := by
  induction tokens generalizing s with
  | nil =>
    have hEnd : canEnd s.brackets s.last = false := by simpa [quiet] using h
    refine ⟨rfl, ?_⟩
    show s.finish = none
    unfold Insertion.finish
    split
    · exact if_neg (by rw [show (s.canTerminate && s.inBlock) = _ from hEnd]; simp)
    · rfl
  | cons t tokens ih =>
    rw [List.map_cons, quiet] at h
    by_cases hKind : t.kind = .newline
    · rw [if_pos hKind, Bool.and_eq_true, Bool.not_eq_true'] at h
      obtain ⟨hOut, hFinish⟩ := ih hPending h.2
      simp only [Insertion.run, step_newline hKind h.1]
      exact ⟨by simp [hOut, hKind], hFinish⟩
    · rw [if_neg hKind, Bool.and_eq_true, Bool.not_eq_true'] at h
      have hStep := step_passed hKind hPending (close_eq_none h.1)
      obtain ⟨hOut, hFinish⟩ := ih (s :=
        { brackets := Insertion.bracketsAfter s.brackets s.last t.kind, last := some t.kind,
          lastToken := some t }) rfl h.2
      simp only [Insertion.run, hStep]
      exact ⟨by simp [hOut, hKind], hFinish⟩

theorem insertTerminators_quiet {tokens : List Token}
    (h : quiet [] none (tokens.map Token.kind) = true) :
    insertTerminators tokens = tokens.filter (·.kind ≠ .newline) := by
  obtain ⟨hOut, hFinish⟩ := run_quiet (s := {}) rfl h
  show (Insertion.run {} tokens).1 ++ (Insertion.run {} tokens).2.finish.toList = _
  rw [hOut, hFinish]
  simp

-- ---------------------------------------------------------------------------------------------
-- Words
-- ---------------------------------------------------------------------------------------------

/-- The kind of a token that a piece is. -/
def kind? : Piece → Option Terminal
  | (.token k, _) => some k
  | _ => none

/-- The kind and text of a token that a piece is, if it is one and no line feed. -/
def word? : Piece → Option (Terminal × Text)
  | (.token .newline, _) => none
  | (.token k, t) => some (k, t)
  | _ => none

/-- The tokens of pieces but for line feeds. -/
def codeTokens (pieces : List Piece) : List Token :=
  ((placed Place.start pieces).filterMap Lexeme.token?).filter (·.kind ≠ .newline)

/-- Tokens with the given kinds and texts at the given places. -/
def tokensAt (start stop : Nat → Place) (words : List (Terminal × Text)) : List Token :=
  words.zipIdx.map fun w => ⟨w.1.1, w.1.2, start w.2, stop w.2⟩

theorem eq_tokensAt (tokens : List Token) :
    tokens = tokensAt (fun i => (tokens.getD i default).start) (fun i => (tokens.getD i default).stop)
      (tokens.map fun t => (t.kind, t.text)) := by
  apply List.ext_getElem
  · simp [tokensAt]
  · intro i h h'
    simp [tokensAt, h]

theorem map_kind_placed (p : Place) (pieces : List Piece) :
    ((placed p pieces).filterMap Lexeme.token?).map Token.kind = pieces.filterMap kind? := by
  induction pieces generalizing p with
  | nil => rfl
  | cons piece pieces ih =>
    obtain ⟨kind, text⟩ := piece
    cases kind with
    | token k => exact congrArg (k :: ·) (ih _)
    | blank => exact ih _
    | lineComment => exact ih _
    | blockComment => exact ih _

theorem map_word_placed (p : Place) (pieces : List Piece) :
    (((placed p pieces).filterMap Lexeme.token?).filter (·.kind ≠ .newline)).map
        (fun t => (t.kind, t.text)) = pieces.filterMap word? := by
  induction pieces generalizing p with
  | nil => rfl
  | cons piece pieces ih =>
    obtain ⟨kind, text⟩ := piece
    cases kind with
    | token k =>
      have hRest := ih (p.after text)
      by_cases hNewline : k = .newline
      · subst hNewline
        exact hRest
      · have hWord : word? (.token k, text) = some (k, text) := by
          cases k <;> first | rfl | exact absurd rfl hNewline
        rw [List.filterMap_cons_some hWord, ← hRest]
        simp [placed, Lexeme.token?, hNewline]
    | blank => exact ih _
    | lineComment => exact ih _
    | blockComment => exact ih _

theorem codeTokens_eq (pieces : List Piece) :
    codeTokens pieces =
      tokensAt (fun i => ((codeTokens pieces).getD i default).start)
        (fun i => ((codeTokens pieces).getD i default).stop) (pieces.filterMap word?) := by
  have hWords := map_word_placed Place.start pieces
  rw [← hWords]
  exact eq_tokensAt (codeTokens pieces)

/-- The tokens of a text made of pieces between which nothing is inserted. -/
theorem statements_spelled {pieces : List Piece} {final : Lexer}
    (h : Spelled Lexer.start pieces final)
    (hQuiet : quiet [] none (pieces.filterMap kind?) = true) :
    (lex (spell pieces)).statements = codeTokens pieces := by
  rw [← map_kind_placed Place.start pieces] at hQuiet
  rw [lex_spelled h]
  exact insertTerminators_quiet hQuiet

end ClientBoundary
