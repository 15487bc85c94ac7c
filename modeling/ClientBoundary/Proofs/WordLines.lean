import ClientBoundary.Proofs.Acceptance
import ClientBoundary.Proofs.Declarations
import ClientBoundary.Proofs.ExchangedWord
import ClientBoundary.Proofs.InsignificantBlanks

/-!
# Declarations on one line

A line is written word by word, with a blank before each word that does not go without. Such a line is
lexed into its words, and where it is a declaration no terminator is inserted: braces stand where they
open a group, and the last word is a semicolon.

* `spelled_line` — a line is lexed into its words.
* `IsDeclaration.is_quiet` — nothing is inserted into a declaration.
* `parseModule_line` — a line that is a declaration is read as this declaration.
-/

namespace ClientBoundary

open Grammar

-- ---------------------------------------------------------------------------------------------
-- Lines
-- ---------------------------------------------------------------------------------------------

/-- A word of a line, with or without a blank before it. -/
structure Glyph where
  spaced : Bool
  kind : Terminal
  text : Text

/-- The lexemes of a word of a line. -/
def Glyph.pieces (g : Glyph) : List Piece :=
  let word : Piece := (.token g.kind, g.text)
  if g.spaced then [(.blank, " "), word] else [word]

/-- The lexemes of a line. -/
def linePieces (line : List Glyph) : List Piece := line.flatMap Glyph.pieces

/-- The text of a line. -/
def lineText (line : List Glyph) : Text := spell (linePieces line)

/-- The words of a line. -/
def lineWords (line : List Glyph) : List Word := line.map fun g => (g.kind, g.text)

/-- The marks that need no blank around them. -/
def marks : List (String × Terminal) :=
  [("\x7b", .lbrace), ("\x7d", .rbrace), (",", .comma), (";", .semi), ("*", .star)]

/-- Words and strings go after a blank, marks with or without one. -/
inductive Glyph.Fits : Glyph → Prop where
  | word {x : Text} (h : Pattern.IsWord x) : Fits ⟨true, Terminal.ofWord x, x⟩
  | string {x : Text} (h : Pattern.string x = some x.length) : Fits ⟨true, .string, x⟩
  | mark (spaced : Bool) {m : String × Terminal} (h : m ∈ marks) : Fits ⟨spaced, m.2, m.1⟩

@[simp] theorem lineText_nil : lineText [] = [] := rfl

@[simp] theorem lineText_cons (g : Glyph) (line : List Glyph) :
    lineText (g :: line) =
      (if g.spaced then Text.ofString " " else []) ++ (g.text ++ lineText line) := by
  cases h : g.spaced <;> simp [lineText, linePieces, Glyph.pieces, spell, h]

theorem lineText_append (line line' : List Glyph) :
    lineText (line ++ line') = lineText line ++ lineText line' := by
  simp [lineText, linePieces, spell]

theorem lineWords_cons (g : Glyph) (line : List Glyph) :
    lineWords (g :: line) = (g.kind, g.text) :: lineWords line := rfl

theorem lineWords_append (line line' : List Glyph) :
    lineWords (line ++ line') = lineWords line ++ lineWords line' :=
  List.map_append

-- ---------------------------------------------------------------------------------------------
-- Lexing
-- ---------------------------------------------------------------------------------------------

/-- The code points that are marks. -/
def markPoints : Text := Text.ofString "\x7b\x7d,;*"

/-- What a word of a line may be followed by: a blank or a mark. -/
def boundaries : Text := .char ' ' :: markPoints

theorem text_of_mark : ∀ m ∈ marks, ∃ d ∈ markPoints, Text.ofString m.1 = [d] := by decide

/-- The text is over or goes on with a boundary. -/
def Bounded (t : Text) : Prop := ∀ c ∈ t.head?, c ∈ boundaries

theorem bounded_line {line : List Glyph} (h : ∀ g ∈ line, g.Fits) : Bounded (lineText line) := by
  cases line with
  | nil => exact fun c hc => by cases hc
  | cons g line =>
    rw [lineText_cons]
    intro c hc
    cases h g List.mem_cons_self with
    | word _ =>
      obtain rfl : .char ' ' = c := Option.some.inj hc
      decide
    | string _ =>
      obtain rfl : .char ' ' = c := Option.some.inj hc
      decide
    | @mark spaced m hm =>
      cases spaced with
      | true =>
        obtain rfl : .char ' ' = c := Option.some.inj hc
        decide
      | false =>
        obtain ⟨d, hd, hText⟩ := text_of_mark m hm
        simp only [hText] at hc
        obtain rfl : d = c := Option.some.inj hc
        exact List.mem_cons_of_mem _ hd

/-- The first code point of a word of a line is no blank. -/
theorem Glyph.Fits.blank {g : Glyph} (h : g.Fits) (rest : Text) :
    Pattern.blank (g.text ++ rest) = none := by
  rw [Option.eq_none_iff_forall_ne_some]
  intro m hBlank
  obtain ⟨c, t, hText, hc⟩ := Pattern.head_of_blank hBlank
  cases h with
  | word hWord =>
    obtain ⟨d, x, rfl, hd⟩ := hWord.start
    obtain rfl : d = c := (List.cons.inj hText).1
    have hAll : ∀ c ∈ Text.ofString " \t\x0c\r", Pattern.isNameStart c = false := by decide
    rw [hAll d hc] at hd
    cases hd
  | @string x hString =>
    obtain ⟨t', rfl | rfl⟩ := Pattern.head_of_string hString <;>
      · obtain rfl := (List.cons.inj hText).1
        exact absurd hc (by decide)
  | @mark spaced m hm =>
    obtain ⟨d, hd, hMark⟩ := text_of_mark m hm
    simp only [hMark] at hText
    obtain rfl : d = c := (List.cons.inj hText).1
    have hAll : ∀ c ∈ Text.ofString " \t\x0c\r", c ∉ markPoints := by decide
    exact hAll d hc hd

/-- A word of a line is one token, and the lexer stays in code. -/
theorem Glyph.Fits.step {g : Glyph} (h : g.Fits) {rest : Text} (hRest : Bounded rest) (depth : Int)
    (last : Option Terminal) :
    ∃ depth', Lexer.step ⟨[.code .root depth], last⟩ (g.text ++ rest) =
      some (.token g.kind, g.text.length, ⟨[.code .root depth'], some g.kind⟩) := by
  cases h with
  | word hWord =>
    have hParts : ∀ c ∈ boundaries, Pattern.isNamePart c = false := by decide
    exact ⟨depth, Lexer.step_of_isWord hWord fun c hc => hParts c (hRest c hc)⟩
  | @string x hString =>
    refine ⟨depth, Lexer.step_string ?_⟩
    have hDecided := Pattern.inQuotes_string.decided Pattern.decided_stringRest
    have hSame := hDecided x x.length hString rest
    rwa [id, List.take_length] at hSame
  | mark spaced hm =>
    simp only [marks, List.mem_cons, List.not_mem_nil, or_false] at hm
    rcases hm with rfl | rfl | rfl | rfl | rfl
    · exact ⟨depth + 1, rfl⟩
    · exact ⟨depth + -1, rfl⟩
    · exact ⟨depth + 0, rfl⟩
    · exact ⟨depth + 0, rfl⟩
    · -- a star may begin a longer operator, but not in front of a boundary
      refine ⟨depth + 0, ?_⟩
      cases rest with
      | nil => rfl
      | cons c rest =>
        have hc : c ∈ boundaries := hRest c rfl
        simp only [boundaries, markPoints, show Text.ofString "\x7b\x7d,;*" =
          [.char '\x7b', .char '\x7d', .char ',', .char ';', .char '*'] from rfl, List.mem_cons,
          List.not_mem_nil, or_false] at hc
        rcases hc with rfl | rfl | rfl | rfl | rfl | rfl <;> rfl

/-- A line is lexed into its words. -/
theorem spelled_line {line : List Glyph} (h : ∀ g ∈ line, g.Fits) (depth : Int)
    (last : Option Terminal) :
    ∃ final, Spelled ⟨[.code .root depth], last⟩ (linePieces line) final := by
  induction line generalizing depth last with
  | nil => exact ⟨_, .nil _⟩
  | cons g line ih =>
    have hLine : ∀ g ∈ line, g.Fits := fun g hg => h g (List.mem_cons_of_mem _ hg)
    have hFits := h g List.mem_cons_self
    obtain ⟨depth', hStep⟩ := hFits.step (bounded_line hLine) depth last
    obtain ⟨final, hSpelled⟩ := ih hLine depth' (some g.kind)
    have hWord : Spelled ⟨[.code .root depth], last⟩ ((.token g.kind, g.text) :: linePieces line)
        final := .cons hStep hSpelled
    have hPieces : linePieces (g :: line) = g.pieces ++ linePieces line := List.flatMap_cons
    rw [hPieces, Glyph.pieces]
    cases g.spaced with
    | false => exact ⟨final, hWord⟩
    | true =>
      have hBlank : Pattern.blank (Text.ofString " " ++ (g.text ++ lineText line)) = some 1 := by
        rw [Pattern.blank_append (by decide) (by decide), hFits.blank]
        rfl
      exact ⟨final, .cons (Lexer.step_of_blank rfl hBlank) hWord⟩

-- ---------------------------------------------------------------------------------------------
-- Terminators
-- ---------------------------------------------------------------------------------------------

/-- Terminals that neither are line feeds nor open or close a bracket. -/
def isFlat (t : Terminal) : Bool :=
  t ∉ [.newline, .lpar, .lsqb, .lbrace, .jsxLbrace, .tplHead, .rpar, .rsqb, .rbrace, .jsxRbrace,
    .tplTail]

theorem bracketsAfter_flat {t : Terminal} (h : isFlat t = true) (brackets : List Bracket)
    (last : Option Terminal) : Insertion.bracketsAfter brackets last t = brackets := by
  cases t <;> first | rfl | cases h

theorem quiet_flat {ks : List Terminal} (h : ∀ k ∈ ks, isFlat k = true) (brackets : List Bracket)
    (last : Option Terminal) (rest : List Terminal) :
    quiet brackets last (ks ++ rest) = quiet brackets (ks.getLast?.or last) rest := by
  induction ks generalizing last with
  | nil => rfl
  | cons k ks ih =>
    have hFlat := h k List.mem_cons_self
    have hLine : k ≠ .newline := by
      rintro rfl
      cases hFlat
    have hBrace : k ≠ .rbrace := by
      rintro rfl
      cases hFlat
    rw [List.cons_append, quiet, if_neg hLine, bracketsAfter_flat hFlat,
      ih fun j hj => h j (List.mem_cons_of_mem _ hj)]
    cases hLast : ks.getLast? <;> simp [hBrace, List.getLast?_cons, hLast]

/-- The terminals of names and commas are flat. -/
theorem flat_names {α : Type} {E : List Word → Build α → Prop}
    (hE : ∀ ws x, E ws x → ∀ w ∈ ws, w.1 ∈ nameTerminals) {us : List Word} {v : Build (List α)}
    (h : Elements E us v) : ∀ k ∈ us.map Prod.fst, isFlat k = true := by
  have hNames : ∀ t ∈ nameTerminals, isFlat t = true := by decide
  have hFlat : ∀ w ∈ us, isFlat w.1 = true :=
    h.forall_mem (fun _ => rfl) fun ws x hx w hw => hNames _ (hE ws x hx w hw)
  simpa using hFlat

theorem flat_ident : ∀ t ∈ ModuleGrammar.identTerminals, isFlat t = true := by decide

/-- Braces that open a group. -/
theorem quiet_group {last : Option Terminal} (hLast : Insertion.opensBlock last = false)
    {ks : List Terminal} (h : ∀ k ∈ ks, isFlat k = true) (rest : List Terminal) :
    quiet [] last (.lbrace :: (ks ++ .rbrace :: rest)) = quiet [] (some .rbrace) rest := by
  have hOpen : Insertion.bracketsAfter [] last .lbrace = [.group] := by
    simp [Insertion.bracketsAfter, hLast]
  rw [quiet, if_neg (by decide), hOpen, quiet_flat h, quiet, if_neg (by decide)]
  rfl

theorem quiet_end {e : Word} (he : e.1 ∈ endTerminals) (last : Option Terminal) :
    quiet [] last [e.1] = true := by
  rcases List.mem_pair.mp he with h | h <;>
    · rw [h]
      rfl

/-- What an import binds stands after `import` or a comma, where braces open a group. -/
theorem IsBinding.quiet_append {us : List Word} {v : Build (List ImportSpecifier)} (h : IsBinding us v)
    {last : Option Terminal} (hLast : Insertion.opensBlock last = false) (rest : List Terminal) :
    ∃ last', quiet [] last (us.map Prod.fst ++ rest) = quiet [] last' rest := by
  cases h with
  | star s a w hw =>
    have hFlat : ∀ k ∈ [.star, .kwAs, w.1], isFlat k = true := by
      simpa using ⟨by decide, by decide, flat_ident _ hw⟩
    exact ⟨_, quiet_flat hFlat [] last rest⟩
  | @braces a b us v hElements =>
    have hGroup := quiet_group hLast (flat_names (fun _ _ hSpec => hSpec.names) hElements) rest
    refine ⟨some .rbrace, ?_⟩
    simpa using hGroup

theorem IsClause.quiet_append {us : List Word} {v : Build (List ImportSpecifier)} (h : IsClause us v)
    {last : Option Terminal} (hLast : Insertion.opensBlock last = false) (rest : List Terminal) :
    ∃ last', quiet [] last (us.map Prod.fst ++ rest) = quiet [] last' rest := by
  cases h with
  | default d hd =>
    exact ⟨_, quiet_flat (List.forall_mem_singleton.mpr (flat_ident _ hd)) [] last rest⟩
  | @both d hd c us v hBinding =>
    have hFlat : ∀ k ∈ [d.1, .comma], isFlat k = true := by
      simpa using ⟨flat_ident _ hd, by decide⟩
    have hComma : Insertion.opensBlock (some .comma) = false := rfl
    obtain ⟨last', hQuiet⟩ := hBinding.quiet_append hComma rest
    refine ⟨last', ?_⟩
    rw [← hQuiet]
    exact quiet_flat hFlat [] last _
  | binding hBinding => exact hBinding.quiet_append hLast rest

/-- Nothing is inserted into a declaration. -/
theorem IsDeclaration.is_quiet {c : Category} {ws : List Word} {v : Build ModuleItem}
    (h : IsDeclaration c ws v) : quiet [] none (ws.map Prod.fst) = true := by
  cases h with
  | bare i x e he => exact quiet_end he (some .string)
  | @imports i us v hClause f x e he =>
    have hImport : Insertion.opensBlock (some .kwImport) = false := rfl
    obtain ⟨last', hQuiet⟩ := hClause.quiet_append hImport [.kwFrom, .string, e.1]
    show quiet [] (some .kwImport) ((us ++ [(.kwFrom, f), (.string, x), e]).map Prod.fst) = true
    rw [List.map_append]
    exact hQuiet.trans (quiet_end he (some .string))
  | @exports x a b us v hElements e he =>
    have hGroup := quiet_group (show Insertion.opensBlock (some .kwExport) = false from rfl)
      (flat_names (fun _ _ hSpec => hSpec.names) hElements) [e.1]
    show quiet [] (some .kwExport) (.lbrace :: (us ++ [(.rbrace, b), e]).map Prod.fst) = true
    rw [List.map_append]
    exact hGroup.trans (quiet_end he (some .rbrace))
  | @reexports x a b us v hElements f y e he =>
    have hGroup := quiet_group (show Insertion.opensBlock (some .kwExport) = false from rfl)
      (flat_names (fun _ _ hSpec => hSpec.names) hElements) [.kwFrom, .string, e.1]
    show quiet [] (some .kwExport)
      (.lbrace :: (us ++ [(.rbrace, b), (.kwFrom, f), (.string, y), e]).map Prod.fst) = true
    rw [List.map_append]
    exact hGroup.trans (quiet_end he (some .string))
  | all x s f y e he => exact quiet_end he (some .string)
  | allAs x s a n hn f y e he =>
    have hNames : ∀ t ∈ nameTerminals, isFlat t = true := by decide
    have hFlat : ∀ k ∈ [.kwExport, .star, .kwAs, n.1, .kwFrom, .string], isFlat k = true := by
      simpa using ⟨by decide, by decide, by decide, hNames _ hn, by decide, by decide⟩
    exact (quiet_flat hFlat [] none [e.1]).trans (quiet_end he _)

-- ---------------------------------------------------------------------------------------------
-- Reading
-- ---------------------------------------------------------------------------------------------

theorem Glyph.Fits.ne_newline {g : Glyph} (h : g.Fits) : g.kind ≠ .newline := by
  cases h with
  | @word x _ =>
    have hKind : Terminal.ofWord x ∉ [.newline] := Lexer.ofWord_notMem (by decide) x
    simpa using hKind
  | string _ => exact Terminal.noConfusion
  | @mark _ m hm =>
    have hMarks : ∀ m ∈ marks, m.2 ≠ .newline := by decide
    exact hMarks m hm

theorem word?_token {k : Terminal} (h : k ≠ .newline) (x : Text) :
    word? (.token k, x) = some (k, x) := by
  cases k <;> first | rfl | exact absurd rfl h

/-- The words of a line are found again in its lexemes. -/
theorem words_line {line : List Glyph} (h : ∀ g ∈ line, g.Fits) :
    (linePieces line).filterMap kind? = (lineWords line).map Prod.fst ∧
      (linePieces line).filterMap word? = lineWords line := by
  induction line with
  | nil => exact ⟨rfl, rfl⟩
  | cons g line ih =>
    obtain ⟨hKinds, hWords⟩ := ih fun g hg => h g (List.mem_cons_of_mem _ hg)
    have hWord : [(LexemeKind.token g.kind, g.text)].filterMap word? = [(g.kind, g.text)] :=
      List.filterMap_cons_some (word?_token (h g List.mem_cons_self).ne_newline g.text)
    have hPieces : linePieces (g :: line) = g.pieces ++ linePieces line := List.flatMap_cons
    rw [hPieces, List.filterMap_append, List.filterMap_append, hKinds, hWords, Glyph.pieces]
    cases g.spaced with
    | false => exact ⟨rfl, congrArg (· ++ lineWords line) hWord⟩
    | true => exact ⟨rfl, congrArg (· ++ lineWords line) hWord⟩

/-- A line that is a declaration is read as this declaration. -/
theorem parseModule_line {x : Text} (hx : Pattern.IsWord x) {line : List Glyph}
    (hLine : ∀ g ∈ line, g.Fits) {c : Category} {item : ModuleItem}
    (hItem : IsDeclaration c ((Terminal.ofWord x, x) :: lineWords line) (.ok item))
    (file : Option Text) :
    ∃ parsed, parseModule (x ++ lineText line) file = .ok parsed ∧
      parsed.module.body.map Erasure.spans.item = [item] := by
  let pieces : List Piece := (.token (Terminal.ofWord x), x) :: linePieces line
  obtain ⟨hLineKinds, hLineWords⟩ := words_line hLine
  have hParts : ∀ c ∈ boundaries, Pattern.isNamePart c = false := by decide
  obtain ⟨final, hRest⟩ := spelled_line hLine 0 (some (Terminal.ofWord x))
  have hSpelled : Spelled Lexer.start pieces final :=
    .cons (Lexer.step_of_isWord hx fun c hc => hParts c (bounded_line hLine c hc)) hRest
  have hLexed : (lex (x ++ lineText line)).failure = none := by
    rw [show x ++ lineText line = spell pieces from rfl, lex_spelled hSpelled]
  -- the tokens are the words of the declaration
  have hStatements : (lex (x ++ lineText line)).statements = codeTokens pieces := by
    refine statements_spelled hSpelled ?_
    show quiet [] none (Terminal.ofWord x :: (linePieces line).filterMap kind?) = true
    rw [hLineKinds]
    exact hItem.is_quiet
  have hWords : (codeTokens pieces).map Token.word = (Terminal.ofWord x, x) :: lineWords line := by
    have hNewline : Terminal.ofWord x ∉ [.newline] := Lexer.ofWord_notMem (by decide) x
    refine (map_word_placed Place.start pieces).trans ?_
    rw [List.filterMap_cons_some (word?_token (by simpa using hNewline) x), hLineWords]
  -- so there is a tree, and its value is that of the declaration
  have hDerives : Derives moduleGrammar (.cat .items)
      ((lex (x ++ lineText line)).statements.map Token.kind) := by
    obtain ⟨tree, hYield, -⟩ := hItem.items
    refine ⟨tree, ?_⟩
    rw [hStatements]
    simpa [Function.comp_def, Token.word] using congrArg (List.map Prod.fst) (hYield.trans hWords.symm)
  obtain ⟨tree, hTree⟩ := syntaxTree_of_derives (x ++ lineText line) hLexed hDerives
  have hYield : tree.yield = codeTokens pieces := (syntaxTree_eq_ok hTree).2.trans hStatements
  have hValue := hItem.unique ⟨tree, by rw [hYield, hWords], rfl⟩
  obtain ⟨items, hItems, hErased⟩ := exists_items hValue
  exact ⟨_, parseModule_of_tree hTree hItems, hErased⟩

end ClientBoundary
