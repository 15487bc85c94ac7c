import ClientBoundary.Proofs.Interchange
import ClientBoundary.Proofs.Leftmost
import ClientBoundary.Proofs.LexerLocality
import ClientBoundary.Proofs.StatementEnds

/-!
# Optional semicolons

A semicolon that ends a statement at the end of a line may be left out. The pieces that the source
is cut into stay the same but for the semicolon (`Spelled.omit`), a terminator is inserted in its
place (`statements_omitted`), and the tree of the new tokens is the old one with one leaf exchanged;
so the module that is read is the same up to spans.
-/

namespace ClientBoundary

-- ---------------------------------------------------------------------------------------------
-- Pieces and their tokens
-- ---------------------------------------------------------------------------------------------

theorem spell_append (pieces pieces' : List Piece) :
    spell (pieces ++ pieces') = spell pieces ++ spell pieces' := List.flatMap_append

theorem spell_cons (kind : LexemeKind) (text : Text) (pieces : List Piece) :
    spell ((kind, text) :: pieces) = text ++ spell pieces := rfl

/-- The tokens that some pieces make from a place on. -/
def tokensFrom (p : Place) (pieces : List Piece) : List Token :=
  (placed p pieces).filterMap Lexeme.token?

theorem tokensFrom_token (p : Place) (k : Terminal) (text : Text) (pieces : List Piece) :
    tokensFrom p ((.token k, text) :: pieces) =
      ⟨k, text, p, p.after text⟩ :: tokensFrom (p.after text) pieces := rfl

theorem tokensFrom_other (p : Place) {kind : LexemeKind} (hKind : ∀ k, kind ≠ .token k)
    (text : Text) (pieces : List Piece) :
    tokensFrom p ((kind, text) :: pieces) = tokensFrom (p.after text) pieces := by
  cases kind with
  | token k => exact absurd rfl (hKind k)
  | blank => rfl
  | lineComment => rfl
  | blockComment => rfl

theorem LexemeKind.token_or (kind : LexemeKind) :
    (∃ k, kind = .token k) ∨ ∀ k, kind ≠ .token k := by
  cases kind with
  | token k => exact .inl ⟨k, rfl⟩
  | blank => exact .inr nofun
  | lineComment => exact .inr nofun
  | blockComment => exact .inr nofun

theorem after_spell_cons (p : Place) (kind : LexemeKind) (text : Text) (pieces : List Piece) :
    p.after (spell ((kind, text) :: pieces)) = (p.after text).after (spell pieces) :=
  List.foldl_append

theorem tokensFrom_append (p : Place) (pieces pieces' : List Piece) :
    tokensFrom p (pieces ++ pieces') =
      tokensFrom p pieces ++ tokensFrom (p.after (spell pieces)) pieces' := by
  induction pieces generalizing p with
  | nil => rfl
  | cons piece pieces ih =>
    obtain ⟨kind, text⟩ := piece
    rw [List.cons_append, after_spell_cons]
    rcases kind.token_or with ⟨k, rfl⟩ | hKind
    · rw [tokensFrom_token, tokensFrom_token, ih, List.cons_append]
    · rw [tokensFrom_other p hKind, tokensFrom_other p hKind, ih]

/-- The tokens of some pieces are the same everywhere but for their places. -/
theorem bare_tokensFrom (p q : Place) (pieces : List Piece) :
    (tokensFrom p pieces).map Token.bare = (tokensFrom q pieces).map Token.bare := by
  induction pieces generalizing p q with
  | nil => rfl
  | cons piece pieces ih =>
    obtain ⟨kind, text⟩ := piece
    rcases kind.token_or with ⟨k, rfl⟩ | hKind
    · rw [tokensFrom_token, tokensFrom_token, List.map_cons, List.map_cons, ih _ (q.after text)]
      rfl
    · rw [tokensFrom_other p hKind, tokensFrom_other q hKind, ih]

/-- Each token of some pieces is one of them. -/
theorem exists_piece {p : Place} {pieces : List Piece} {front back : List Token} {t : Token}
    (h : tokensFrom p pieces = front ++ t :: back) :
    ∃ before after, pieces = before ++ (.token t.kind, t.text) :: after ∧
      tokensFrom p before = front ∧ t.start = p.after (spell before) ∧
      tokensFrom t.stop after = back := by
  induction pieces generalizing p front with
  | nil =>
    have hNil : [] = front ++ t :: back := h
    simp at hNil
  | cons piece pieces ih =>
    obtain ⟨kind, text⟩ := piece
    rcases kind.token_or with ⟨k, rfl⟩ | hKind
    · rw [tokensFrom_token] at h
      cases front with
      | nil =>
        obtain ⟨rfl, rfl⟩ := List.cons.inj h
        exact ⟨[], pieces, rfl, rfl, rfl, rfl⟩
      | cons u front =>
        obtain ⟨rfl, hRest⟩ := List.cons.inj h
        obtain ⟨before, after, rfl, rfl, hStart, hBack⟩ := ih hRest
        exact ⟨(.token k, text) :: before, after, rfl, rfl, by rw [after_spell_cons, hStart], hBack⟩
    · rw [tokensFrom_other p hKind] at h
      obtain ⟨before, after, rfl, hFront, hStart, hBack⟩ := ih h
      exact ⟨(kind, text) :: before, after, rfl, by rw [tokensFrom_other p hKind, hFront],
        by rw [after_spell_cons, hStart], hBack⟩

-- ---------------------------------------------------------------------------------------------
-- The last terminal
-- ---------------------------------------------------------------------------------------------

/-- The terminal that the lexer remembers after some pieces. -/
def lastAfter (last : Option Terminal) (pieces : List Piece) : Option Terminal :=
  pieces.foldl (fun l piece => Lexer.remember l piece.1) last

theorem Lexer.last_step {s s' : Lexer} {t : Text} {kind : LexemeKind} {n : Nat}
    (h : s.step t = some (kind, n, s')) : s'.last = remember s.last kind := by
  obtain ⟨r, _, hEq⟩ := Option.map_eq_some_iff.mp h
  cases hEq
  rfl

theorem Lexer.remember_word {k : Terminal} (hLine : k ≠ .newline) (last : Option Terminal) :
    remember last (.token k) = some k := by
  cases k <;> first | rfl | exact absurd rfl hLine

theorem Lexer.remember_other {kind : LexemeKind} (hKind : ∀ k, kind = .token k → k = .newline)
    (last : Option Terminal) : remember last kind = last := by
  rcases kind.token_or with ⟨k, rfl⟩ | hOther
  · rw [hKind k rfl]
    rfl
  · unfold remember
    split
    · rfl
    · exact absurd rfl (hOther _)
    · rfl

theorem Insertion.last_step (s : Insertion) (t : Token) :
    (s.step t).2.last = Lexer.remember s.last (.token t.kind) := by
  by_cases hKind : t.kind = .newline
  · rw [step, if_pos hKind, hKind]
    split <;> rfl
  · obtain ⟨inserted, _, hStep⟩ := s.step_word hKind
    rw [hStep, Lexer.remember_word hKind]

/-- The insertion remembers the same terminal as the lexer. -/
theorem Insertion.last_run_tokensFrom (s : Insertion) (p : Place) (pieces : List Piece) :
    (s.run (tokensFrom p pieces)).2.last = lastAfter s.last pieces := by
  induction pieces generalizing s p with
  | nil => rfl
  | cons piece pieces ih =>
    obtain ⟨kind, text⟩ := piece
    show _ = lastAfter (Lexer.remember s.last kind) pieces
    rcases kind.token_or with ⟨k, rfl⟩ | hKind
    · rw [tokensFrom_token, run_cons, ih, last_step]
    · rw [tokensFrom_other p hKind, ih, Lexer.remember_other fun k hk => absurd hk (hKind k)]

-- ---------------------------------------------------------------------------------------------
-- Leaving out a semicolon
-- ---------------------------------------------------------------------------------------------

/-- A semicolon is a token of code alone. -/
theorem Lexer.step_semi {s s' : Lexer} {t : Text} {n : Nat}
    (h : s.step (.char ';' :: t) = some (.token .semi, n, s')) :
    n = 1 ∧ (∃ frame depth below, s.modes = .code frame depth :: below) ∧
      s' = ⟨s.modes, some .semi⟩ := by
  obtain ⟨r, hr, hEq⟩ := Option.map_eq_some_iff.mp h
  obtain ⟨modes, last⟩ := s
  cases modes with
  | nil => cases h
  | cons mode below =>
    cases mode with
    | code frame depth =>
      have hStep : step ⟨.code frame depth :: below, last⟩ (.char ';' :: t) =
          some (.token .semi, 1, ⟨.code frame (depth + 0) :: below, some .semi⟩) := rfl
      rw [hStep, Int.add_zero] at h
      cases h
      exact ⟨rfl, ⟨frame, depth, below, rfl⟩, rfl⟩
    | tag role seen =>
      have hStep : step ⟨.tag role seen :: below, last⟩ (.char ';' :: t) = none := rfl
      rw [hStep] at h
      cases h
    | children =>
      have hText : (Pattern.jsxText (.char ';' :: t)).map
          (fun m => (LexemeKind.token .jsxText, m, Mode.children :: below)) = some r := hr
      obtain ⟨m, _, rfl⟩ := Option.map_eq_some_iff.mp hText
      cases hEq

/-- A line feed is a token in code. -/
theorem Lexer.step_line {s s' : Lexer} {frame : CodeFrame} {depth : Int} {below : List Mode}
    (hCode : s.modes = .code frame depth :: below) {t : Text} {kind : LexemeKind} {n : Nat}
    (h : s.step (.char '\n' :: t) = some (kind, n, s')) : kind = .token .newline := by
  obtain ⟨modes, last⟩ := s
  cases hCode
  have hStep : step ⟨.code frame depth :: below, last⟩ (.char '\n' :: t) =
      some (.token .newline, 1, ⟨.code frame (depth + 0) :: below, last⟩) := rfl
  rw [hStep] at h
  cases h
  rfl

/-- The first token among the pieces that is no line feed has the kind `k`, and `rest` is the text
from it on. -/
inductive FirstWord : List Piece → Terminal → Text → Prop where
  | here {k : Terminal} (hLine : k ≠ .newline) (text : Text) (pieces : List Piece) :
      FirstWord ((.token k, text) :: pieces) k (text ++ spell pieces)
  | later {kind : LexemeKind} (hKind : ∀ k, kind = .token k → k = .newline) (text : Text)
      {pieces : List Piece} {k : Terminal} {rest : Text} (h : FirstWord pieces k rest) :
      FirstWord ((kind, text) :: pieces) k rest

theorem find?_tokensFrom_word {k : Terminal} (hLine : k ≠ .newline) (p : Place) (text : Text)
    (pieces : List Piece) :
    (tokensFrom p ((.token k, text) :: pieces)).find? (·.kind ≠ .newline) =
      some ⟨k, text, p, p.after text⟩ := by
  rw [tokensFrom_token, List.find?_cons_of_pos (by simp [hLine])]

theorem find?_tokensFrom_other {kind : LexemeKind} (hKind : ∀ k, kind = .token k → k = .newline)
    (p : Place) (text : Text) (pieces : List Piece) :
    (tokensFrom p ((kind, text) :: pieces)).find? (·.kind ≠ .newline) =
      (tokensFrom (p.after text) pieces).find? (·.kind ≠ .newline) := by
  rcases kind.token_or with ⟨k, rfl⟩ | hOther
  · rw [hKind k rfl, tokensFrom_token, List.find?_cons_of_neg (by simp)]
  · rw [tokensFrom_other p hOther]

/-- The first word of pieces among their tokens. -/
theorem FirstWord.exists_token {pieces : List Piece} {k : Terminal} {rest : Text}
    (h : FirstWord pieces k rest) (p : Place) :
    ∃ token skipped, (tokensFrom p pieces).find? (·.kind ≠ .newline) = some token ∧ token.kind = k ∧
      spell pieces = skipped ++ rest ∧ token.start = p.after skipped := by
  induction h generalizing p with
  | here hLine text pieces =>
    exact ⟨_, [], find?_tokensFrom_word hLine p text pieces, rfl, rfl, rfl⟩
  | @later kind hKind text pieces k rest _ ih =>
    obtain ⟨token, skipped, hFind, hToken, hSpell, hStart⟩ := ih (p.after text)
    refine ⟨token, text ++ skipped, ?_, hToken, ?_, ?_⟩
    · rw [find?_tokensFrom_other hKind, hFind]
    · rw [spell_cons, hSpell, List.append_assoc]
    · rw [hStart, Place.after_append]

theorem exists_firstWord {p : Place} {pieces : List Piece} {t : Token}
    (h : (tokensFrom p pieces).find? (·.kind ≠ .newline) = some t) :
    ∃ rest, FirstWord pieces t.kind rest := by
  induction pieces generalizing p with
  | nil => cases h
  | cons piece pieces ih =>
    obtain ⟨kind, text⟩ := piece
    by_cases hWord : ∃ k, kind = .token k ∧ k ≠ .newline
    · obtain ⟨k, rfl, hLine⟩ := hWord
      rw [find?_tokensFrom_word hLine] at h
      cases h
      exact ⟨_, .here hLine text pieces⟩
    · have hOther : ∀ k, kind = .token k → k = .newline := fun k hk =>
        Decidable.byContradiction fun hLine => hWord ⟨k, hk, hLine⟩
      rw [find?_tokensFrom_other hOther] at h
      obtain ⟨rest, hFirst⟩ := ih h
      exact ⟨rest, .later hOther text hFirst⟩

/-- What is spelled after one terminal is spelled after another too when the first token is read in
the same way after both, and so is all that comes before it. -/
theorem Spelled.relast {modes : List Mode} {last last' : Option Terminal}
    {P : Terminal → Text → Prop}
    (hSame : ∀ modes t kind n s', Lexer.step ⟨modes, last⟩ t = some (kind, n, s') →
      (∀ k, kind = .token k → k ≠ .newline → P k t) →
      Lexer.step ⟨modes, last'⟩ t = some (kind, n, ⟨s'.modes, Lexer.remember last' kind⟩))
    {pieces : List Piece} {final : Lexer} (h : Spelled ⟨modes, last⟩ pieces final)
    (hNext : ∀ k t, FirstWord pieces k t → P k t) :
    ∃ final', Spelled ⟨modes, last'⟩ pieces final' := by
  induction pieces generalizing modes with
  | nil => exact ⟨_, .nil _⟩
  | cons piece pieces ih =>
    cases h with
    | @take _ s' _ kind n text _ hStep hText hNonempty hRest =>
      obtain ⟨modes', last₁⟩ := s'
      have hLast := Lexer.last_step hStep
      have hStep' := hSame _ _ _ _ _ hStep fun k hk hLine => by
        subst hk
        exact hNext k _ (.here hLine text pieces)
      by_cases hWord : ∃ k, kind = .token k ∧ k ≠ .newline
      · -- from the first token on the lexer is in the same state
        obtain ⟨k, rfl, hLine⟩ := hWord
        rw [Lexer.remember_word hLine] at hLast hStep'
        cases hLast
        exact ⟨final, .take hStep' hText hNonempty hRest⟩
      · have hOther : ∀ k, kind = .token k → k = .newline := fun k hk =>
          Decidable.byContradiction fun hLine => hWord ⟨k, hk, hLine⟩
        rw [Lexer.remember_other hOther] at hLast hStep'
        cases hLast
        obtain ⟨final', hSpelled⟩ := ih hRest fun k t ht => hNext k t (.later hOther text ht)
        exact ⟨final', .take hStep' hText hNonempty hSpelled⟩

/-- After a terminal where an expression may begin, only regular expressions and elements are read
differently than after others. -/
theorem Lexer.step_relast {modes : List Mode} {last last' : Option Terminal} {t : Text}
    {kind : LexemeKind} {n : Nat} {s' : Lexer} (hExpects : expectsExpression ⟨modes, last⟩ = true)
    (h : step ⟨modes, last⟩ t = some (kind, n, s'))
    (hKind : ∀ k, kind = .token k → k ≠ .newline →
      expectsExpression ⟨modes, last'⟩ = true ∨ (k ≠ .regex ∧ k ≠ .jsxOpen)) :
    step ⟨modes, last'⟩ t = some (kind, n, ⟨s'.modes, remember last' kind⟩) := by
  refine step_last h fun frame depth below hr => ?_
  by_cases hSame : expectsExpression ⟨modes, last'⟩ = true
  · rw [codeStep_congr (hSame.trans hExpects.symm)]
    exact hr
  · rw [codeStep_of_neutral (neutral_of_codeStep hExpects hr ?_ ?_) ⟨modes, last⟩]
    · exact hr
    · rintro rfl
      exact ((hKind _ rfl nofun).resolve_left hSame).1 rfl
    · rintro rfl
      exact ((hKind _ rfl nofun).resolve_left hSame).2 rfl

theorem Spelled.eq_nil_of_spell {s final : Lexer} {pieces pieces' : List Piece}
    (h : Spelled s (pieces ++ pieces') final) (hSpell : spell pieces = []) : pieces = [] := by
  cases pieces with
  | nil => rfl
  | cons piece pieces =>
    cases h with
    | take _ _ hNonempty _ => exact absurd (List.append_eq_nil_iff.mp hSpell).1 hNonempty

/-- A semicolon may be left out before a line feed or the end of the text: the lexer takes all other
pieces as before. -/
theorem Spelled.omit {s final : Lexer} {front back : List Piece}
    (h : Spelled s (front ++ (.token .semi, [.char ';']) :: back) final)
    (hLine : LineEnd (spell back)) (p : Place)
    (hNext : ∀ t ∈ (tokensFrom p back).find? (·.kind ≠ .newline),
      Lexer.expectsExpression ⟨[], lastAfter s.last front⟩ = true ∨
        (t.kind ≠ .regex ∧ t.kind ≠ .jsxOpen)) :
    ∃ final', Spelled s (front ++ back) final' := by
  induction front generalizing s with
  | nil =>
    cases h with
    | take hStep _ _ hRest =>
      obtain ⟨_, _, rfl⟩ := Lexer.step_semi hStep
      refine hRest.relast (P := fun k _ => Lexer.expectsExpression ⟨[], s.last⟩ = true ∨
        (k ≠ .regex ∧ k ≠ .jsxOpen)) (fun _ _ _ _ _ => Lexer.step_relast rfl) fun k t hFirst => ?_
      obtain ⟨token, _, hFind, rfl, -⟩ := hFirst.exists_token p
      exact hNext token hFind
  | cons piece front ih =>
    rw [List.cons_append] at h
    cases h with
    | @take _ s' _ kind n text _ hStep hText hNonempty hRest =>
      have hLast := Lexer.last_step hStep
      obtain ⟨final', hSpelled⟩ := ih hRest (by rw [hLast]; exact hNext)
      have hOld : text ++ spell (front ++ (.token .semi, [.char ';']) :: back) =
          (text ++ spell front) ++ .char ';' :: spell back := by
        rw [spell_append, List.append_assoc]
        rfl
      have hNew : text ++ spell (front ++ back) = (text ++ spell front) ++ spell back := by
        rw [spell_append, List.append_assoc]
      -- something comes after the piece, so the lexer took no more than its text
      have hLength : n = text.length := by
        have hTake := congrArg List.length hText
        rw [List.length_take, hOld, List.length_append, List.length_append,
          List.length_cons] at hTake
        omega
      have hCode : n = (text ++ spell front).length →
          ∃ frame depth below, s'.modes = .code frame depth :: below := by
        intro hEnd
        have hNil : front = [] := by
          refine hRest.eq_nil_of_spell (List.length_eq_zero_iff.mp ?_)
          rw [List.length_append] at hEnd
          omega
        subst hNil
        cases hRest with
        | take hSemi _ _ _ => exact (Lexer.step_semi hSemi).2.1
      rw [hOld] at hStep
      have hStep' := Lexer.step_append (by simp [hNonempty]) hLine hStep
        (by rw [List.length_append]; omega) hCode
      rw [← hNew] at hStep'
      exact ⟨final', .take hStep' (by rw [hLength]; exact List.take_left) hNonempty hSpelled⟩

/-- The pieces around a semicolon at a given place. -/
theorem exists_pieces_around {s final : Lexer} {front back : List Piece} {text pre post : Text}
    (h : Spelled s (front ++ (.token .semi, text) :: back) final)
    (hSpell : spell (front ++ (.token .semi, text) :: back) = pre ++ .char ';' :: post)
    (hPlace : (spell front).length = pre.length) :
    spell front = pre ∧ text = [.char ';'] ∧ spell back = post ∧
      ∃ frame depth below, Spelled ⟨.code frame depth :: below, some .semi⟩ back final := by
  rw [spell_append, spell_cons] at hSpell
  obtain ⟨hPre, hRest⟩ := List.append_inj hSpell hPlace
  obtain ⟨s', hSpelled⟩ : ∃ s', Spelled s' ((.token .semi, text) :: back) final := by
    clear hSpell hPlace hPre hRest
    induction front generalizing s with
    | nil => exact ⟨s, h⟩
    | cons piece front ih =>
      cases h with
      | take _ _ _ hRest => exact ih hRest
  cases hSpelled with
  | take hStep hText _ hBack =>
    rw [hRest] at hStep hText
    obtain ⟨rfl, ⟨frame, depth, below, hModes⟩, rfl⟩ := Lexer.step_semi hStep
    have hOne : text = [.char ';'] := hText.symm
    rw [hOne] at hRest
    rw [hModes] at hBack
    exact ⟨hPre, hOne, (List.cons.inj hRest).2, frame, depth, below, hBack⟩

/-- After a semicolon at the end of a line comes a line feed. -/
theorem head_tokensFrom {frame : CodeFrame} {depth : Int} {below : List Mode}
    {last : Option Terminal} {final : Lexer} {pieces : List Piece}
    (h : Spelled ⟨.code frame depth :: below, last⟩ pieces final) (hLine : LineEnd (spell pieces))
    (p : Place) : ∀ t ∈ (tokensFrom p pieces).head?, t.kind = .newline := by
  cases h with
  | nil => nofun
  | @take _ _ _ kind n text pieces hStep _ hNonempty _ =>
    obtain ⟨c, t, rfl⟩ := List.exists_cons_of_ne_nil hNonempty
    have hc : c = .char '\n' := hLine c rfl
    subst hc
    have hKind := Lexer.step_line rfl hStep
    subst hKind
    intro u hu
    cases hu
    rfl

/-- Terminals after which a statement may end but an expression may begin are restricted ones. -/
theorem expectsExpression_of_restricted {k : Terminal} (h : Insertion.restricted k = true) :
    Lexer.expectsExpression ⟨[], some k⟩ = true := by
  cases k <;> first | rfl | cases h

/-- The tokens of a source without a semicolon that may be left out: a terminator stands in its
place, and the other tokens are the same up to their places. -/
theorem statements_omitted {pre post : Text} {before after : List Token} {last semi : Token}
    (hLexed : (lex (pre ++ .char ';' :: post)).failure = none)
    (hTokens : (lex (pre ++ .char ';' :: post)).statements = before ++ semi :: after)
    (hSemi : semi.kind = .semi) (hPlace : semi.start.offset = pre.length) (hLine : LineEnd post)
    (hOmissible : Omissible before last after) :
    (lex (pre ++ post)).failure = none ∧ ∃ x : Token, x.kind = .terminator ∧
      (lex (pre ++ post)).statements.map Token.bare = (before ++ x :: after).map Token.bare := by
  obtain ⟨pieces, final, hSpelled, hSpell, hLexemes⟩ := exists_spelled hLexed
  have hInserted : insertTerminators (tokensFrom Place.start pieces) = before ++ semi :: after := by
    rw [← hTokens, Lexing.statements, hLexed, tokensFrom, ← hLexemes]
    rfl
  obtain ⟨front, back, hSplit, hHead, hLast, hOmitted⟩ :=
    insertTerminators_omitted hInserted hSemi hOmissible
  obtain ⟨left, right, rfl, rfl, hStart, rfl⟩ := exists_piece hSplit
  rw [hSemi] at hSpelled hSpell
  have hLength : (spell left).length = pre.length := by
    rw [← hPlace, hStart, Place.offset_after]
    exact (Nat.zero_add _).symm
  obtain ⟨rfl, hText, rfl, frame, depth, below, hRight⟩ :=
    exists_pieces_around hSpelled hSpell hLength
  rw [hText] at hSpelled
  have hNext : ∀ next ∈ (tokensFrom semi.stop right).find? (·.kind ≠ .newline),
      Lexer.expectsExpression ⟨[], lastAfter none left⟩ = true ∨
        (next.kind ≠ .regex ∧ next.kind ≠ .jsxOpen) := by
    intro next hNext
    have hLastAfter : lastAfter none left = some last.kind := by
      rw [← hLast, Insertion.last_run_tokensFrom]
    rw [← hHead] at hNext
    rw [hLastAfter]
    exact (hOmissible.next next hNext).imp expectsExpression_of_restricted And.right
  obtain ⟨final', hSpelled'⟩ := hSpelled.omit hLine semi.stop hNext
  have hLex := lex_spelled hSpelled'
  rw [spell_append] at hLex
  obtain ⟨x, hKind, hBare⟩ := hOmitted (head_tokensFrom hRight hLine _)
    (tokensFrom (Place.start.after (spell left)) right) (bare_tokensFrom _ _ right)
  refine ⟨by rw [hLex], x, hKind, ?_⟩
  rw [← hBare, ← tokensFrom_append, hLex]
  rfl

theorem exchanged_of_bare {before after tokens : List Token} (old : Token) {new : Token}
    (h : tokens.map Token.bare = (before ++ new :: after).map Token.bare) :
    Grammar.Exchanged old.kind new.kind before.length (before ++ old :: after) tokens := by
  have hAt (q : Nat) : tokens[q]?.map Token.bare = (before ++ new :: after)[q]?.map Token.bare := by
    rw [← List.getElem?_map, h, List.getElem?_map]
  refine ⟨?_, fun q hq => ?_, by simp, ?_⟩
  · have hLength := congrArg List.length h
    simpa using hLength
  · rw [hAt]
    rcases Nat.lt_or_gt_of_ne hq with hLt | hGt
    · rw [List.getElem?_append_left hLt, List.getElem?_append_left hLt]
    · obtain ⟨k, rfl⟩ : ∃ k, q = before.length + (k + 1) := ⟨q - before.length - 1, by omega⟩
      rw [List.getElem?_append_right (Nat.le_add_right ..),
        List.getElem?_append_right (Nat.le_add_right ..), Nat.add_sub_cancel_left,
        List.getElem?_cons_succ, List.getElem?_cons_succ]
  · have hKinds := congrArg (List.map Token.kind) h
    rw [List.map_map, List.map_map] at hKinds
    rw [show tokens.map Token.kind = (before ++ new :: after).map Token.kind from hKinds]
    simp

/-- A semicolon at the end of a line that ends a statement, a module declaration or a field of a
class is optional where it may be left out: without it the source is read as the same module up to
spans. -/
theorem semicolon_at_line_end_is_optional {pre post : Text} {file : Option Text}
    {parsed : ParsedModule} {tree : ItemsTree} {before after : List Token} {last semi : Token}
    (hRead : parseModule (pre ++ .char ';' :: post) file = .ok parsed)
    (hTree : Reader.syntaxTree (pre ++ .char ';' :: post) (lex (pre ++ .char ';' :: post)) =
      .ok (some tree))
    (hTokens : (lex (pre ++ .char ';' :: post)).statements = before ++ semi :: after)
    (hSemi : semi.kind = .semi) (hPlace : semi.start.offset = pre.length)
    (hEnd : (tree.owners .items)[before.length]? = some .stmtEnd) (hLine : LineEnd post)
    (hOmissible : Omissible before last after) :
    ∃ parsed', parseModule (pre ++ post) file = .ok parsed' ∧
      Erasure.spans.body parsed'.module = Erasure.spans.body parsed.module := by
  obtain ⟨tree₀, hFrom⟩ := parseModule_eq_ok hRead
  have hSame : some tree = tree₀ := Except.ok.inj (hTree.symm.trans hFrom.matched)
  have hBuilt : tree.value file = .ok parsed.module.body := by
    have hItems := hFrom.built
    rw [← hSame] at hItems
    exact hItems
  obtain ⟨hLexed, x, hKind, hBare⟩ :=
    statements_omitted hFrom.lexed hTokens hSemi hPlace hLine hOmissible
  have hExchanged := exchanged_of_bare semi hBare
  rw [hSemi, hKind, ← hTokens] at hExchanged
  obtain ⟨tree', hTree', hValue⟩ := syntaxTree_exchanged hTree hLexed hExchanged hEnd
  obtain ⟨items', hItems', hErased⟩ := items_of_bareValue hValue hBuilt
  exact ⟨_, parseModule_of_tree hTree' hItems', hErased⟩

set_option maxRecDepth 100000 in
/-- The semicolon after a field of a class, left out before the next field. -/
theorem semicolon_after_a_field_is_optional :
    ∃ pre post : Text, pre = "class A \x7b x" ∧ post = "\n y \x7d" ∧
      ∃ parsed parsed', parseModule (pre ++ .char ';' :: post) none = .ok parsed ∧
        parseModule (pre ++ post) none = .ok parsed' ∧
        Erasure.spans.body parsed'.module = Erasure.spans.body parsed.module := by
  refine ⟨_, _, rfl, rfl, ?_⟩
  generalize hPre : Text.ofString "class A \x7b x" = pre
  generalize hPost : Text.ofString "\n y \x7d" = post
  have hReads : readsFrom (pre ++ .char ';' :: post) (fun tree _ =>
      (tree.owners .items)[((lex (pre ++ .char ';' :: post)).statements.take 4).length]? =
        some .stmtEnd) = true := by
    rw [← hPre, ← hPost]
    decide +kernel
  have hTokens : (lex (pre ++ .char ';' :: post)).statements =
      (lex (pre ++ .char ';' :: post)).statements.take 4 ++
        ⟨.semi, [.char ';'], ⟨11, 1, 12⟩, ⟨12, 1, 13⟩⟩ ::
        (lex (pre ++ .char ';' :: post)).statements.drop 5 := by
    rw [← hPre, ← hPost]
    decide +kernel
  have hOmissible : Omissible ((lex (pre ++ .char ';' :: post)).statements.take 4)
      ⟨.name, [.char 'x'], ⟨10, 1, 11⟩, ⟨11, 1, 12⟩⟩
      ((lex (pre ++ .char ';' :: post)).statements.drop 5) := by
    rw [← hPre, ← hPost]
    exact ⟨by decide +kernel, rfl, by decide +kernel, by decide +kernel⟩
  have hLine : LineEnd post := by
    rw [← hPost]
    intro c hc
    cases hc
    rfl
  obtain ⟨parsed, tree, hRead, hTree, hEnd⟩ := exists_of_readsFrom hReads
  obtain ⟨parsed', hRead', hSame⟩ := semicolon_at_line_end_is_optional hRead hTree hTokens rfl
    (by rw [← hPre]; rfl) (of_decide_eq_true hEnd) hLine hOmissible
  exact ⟨parsed, parsed', hRead, hRead', hSame⟩

set_option maxRecDepth 100000 in
/-- Without the semicolon between them, a name and a regular expression on the next line become one
statement: two divisions. -/
theorem regex_after_omitted_semicolon_divides :
    ∃ parsed parsed' tree, parseModule "x;\n/b/g;" none = .ok parsed ∧
      Reader.syntaxTree "x;\n/b/g;" (lex "x;\n/b/g;") = .ok (some tree) ∧
      (lex "x;\n/b/g;").statements.map Token.kind = [.name, .semi, .regex, .semi] ∧
      (tree.owners .items)[1]? = some .stmtEnd ∧ Insertion.continues .regex = false ∧
      parseModule "x\n/b/g;" none = .ok parsed' ∧
      Erasure.spans.body parsed'.module ≠ Erasure.spans.body parsed.module := by
  have hReads : readsFrom "x;\n/b/g;" (fun tree items =>
        (tree.owners .items)[1]? = some .stmtEnd && items.length = 2) = true ∧
      readsFrom "x\n/b/g;" (fun _ items => items.length = 1) = true := by decide +kernel
  obtain ⟨parsed, tree, hRead, hTree, hKind⟩ := exists_of_readsFrom hReads.1
  obtain ⟨parsed', _, hRead', _, hOne⟩ := exists_of_readsFrom hReads.2
  simp only [Bool.and_eq_true, decide_eq_true_eq] at hKind hOne
  refine ⟨parsed, parsed', tree, hRead, hTree, by decide +kernel, hKind.1, rfl, hRead', ?_⟩
  intro hSame
  have hLength := congrArg List.length hSame
  rw [Erasure.body, Erasure.body, List.length_map, List.length_map] at hLength
  omega

end ClientBoundary
