import ClientBoundary.Proofs.Erasure
import ClientBoundary.Proofs.Leftmost
import ClientBoundary.Proofs.ServerOutput
import ClientBoundary.Proofs.StringSpelling

/-!
# Reading the text of a reference

The text of a reference holds a file path in one place only, as a string. The path is quoted, so
that its string is one token whatever the path holds, and every other token is the same for all
paths.
-/

namespace ClientBoundary

-- ---------------------------------------------------------------------------------------------
-- The tokens of a reference
-- ---------------------------------------------------------------------------------------------

/-- The lexemes of the reference to a file. -/
def referencePieces (filepath : Text) : List Piece :=
  [(.blockComment, sentinelLine), (.token .newline, "\n"),
   (.token .kwConst, "const"), (.blank, " "), (.token .lbrace, "\x7b"), (.blank, " "),
   (.token .name, "createProxy"), (.blank, " "), (.token .rbrace, "\x7d"), (.blank, " "),
   (.token .eq, "="), (.blank, " "), (.token .name, "require"), (.token .lpar, "("),
   (.token .string, "\"private-next-rsc-mod-ref-proxy\""), (.token .rpar, ")"),
   (.token .semi, ";"), (.token .newline, "\n"),
   (.token .name, "module"), (.token .dot, "."), (.token .name, "exports"), (.blank, " "),
   (.token .eq, "="), (.blank, " "), (.token .name, "createProxy"), (.token .lpar, "("),
   (.token .string, Text.quoted filepath), (.token .rpar, ")"), (.token .semi, ";"),
   (.token .newline, "\n")]

theorem spell_referencePieces (filepath : Text) :
    spell (referencePieces filepath) = referenceText filepath [] [] := by
  simp [spell, referencePieces, referenceText, referenceLines, sentinelLine, Text.ofString]

set_option maxRecDepth 10000 in
theorem spelled_referencePieces (filepath : Text) :
    Spelled Lexer.start (referencePieces filepath) ⟨[.code .root 0], some .semi⟩ :=
  -- all but the quoted path are fixed, and each is cut off by the one after it
  .cons rfl <| .cons rfl <| .cons rfl <| .cons rfl <| .cons rfl <| .cons rfl <| .cons rfl <|
  .cons rfl <| .cons rfl <| .cons rfl <| .cons rfl <| .cons rfl <| .cons rfl <| .cons rfl <|
  .cons rfl <| .cons rfl <| .cons rfl <| .cons rfl <| .cons rfl <| .cons rfl <| .cons rfl <|
  .cons rfl <| .cons rfl <| .cons rfl <| .cons rfl <| .cons rfl <|
  .cons (Lexer.step_string ((spellingOf_quoted filepath).string _)) <| .cons rfl <| .cons rfl <|
  .cons rfl <| .nil _

/-- The kinds and texts of the tokens of the reference to a file. -/
def referenceWords (filepath : Text) : List (Terminal × Text) :=
  [(.kwConst, "const"), (.lbrace, "\x7b"), (.name, "createProxy"), (.rbrace, "\x7d"), (.eq, "="),
   (.name, "require"), (.lpar, "("), (.string, "\"private-next-rsc-mod-ref-proxy\""), (.rpar, ")"),
   (.semi, ";"),
   (.name, "module"), (.dot, "."), (.name, "exports"), (.eq, "="), (.name, "createProxy"),
   (.lpar, "("), (.string, Text.quoted filepath), (.rpar, ")"), (.semi, ";")]

/-- No terminator is inserted: both line feeds stand after semicolons. -/
theorem statements_reference (filepath : Text) :
    (lex (referenceText filepath [] [])).statements = codeTokens (referencePieces filepath) := by
  rw [← spell_referencePieces]
  exact statements_spelled (spelled_referencePieces filepath) rfl

-- ---------------------------------------------------------------------------------------------
-- The tree of a reference
-- ---------------------------------------------------------------------------------------------

/-- The leftmost derivation of a reference. The long runs of first alternatives lead from an
expression down to a name or a string. -/
def referenceDerivation : List Nat :=
  [0, 1, 0, 2, 0, 2, 1, 0, 1, 1, 1, 0, 1] ++ List.replicate 14 0 ++ [1] ++ List.replicate 4 0
    ++ [1, 1] ++ List.replicate 17 0 ++ [1, 0, 0]
    ++ [0, 9, 0, 0, 2, 0, 0, 1] ++ List.replicate 18 0 ++ [1] ++ List.replicate 4 0
    ++ [1, 1] ++ List.replicate 17 0 ++ [1, 0, 0]

set_option maxRecDepth 10000 in
theorem derivation?_reference (filepath : Text) :
    Reader.derivation? ((codeTokens (referencePieces filepath)).map Token.kind) =
      some referenceDerivation := by
  have hKinds : (codeTokens (referencePieces filepath)).map Token.kind =
      [.kwConst, .lbrace, .name, .rbrace, .eq, .name, .lpar, .string, .rpar, .semi,
       .name, .dot, .name, .eq, .name, .lpar, .string, .rpar, .semi] := by
    rw [codeTokens_eq]
    rfl
  rw [hKinds]
  decide +kernel

section Value

open ModuleGrammar

variable (span : Nat → Nat → Span)

/-- The first statement of a reference from its string. `span` gives the span from one token to
another. -/
def importValue (lit : Build StrLit) : Build Stmt := do
  let name : Build Pat := do
    let props ← orEmpty (some (single (do
      return .assign ⟨"createProxy", span 2 2⟩ (← optional none) (span 2 2))))
    return .object props (span 1 3)
  let init := makeCall (span 5 8) (.ok (.ident ⟨"require", span 5 5⟩))
    (orEmpty (some (single (Expr.str <$> lit))))
  return .varDecl .const (← single (makeDeclarator (span 1 8) name (some init))) (span 0 9)

/-- The second statement of a reference from its string. -/
def exportValue (lit : Build StrLit) : Build Stmt := do
  let left := makeMember (span 10 12) (.ok (.ident ⟨"module", span 10 10⟩)) ⟨"exports", span 12 12⟩
  let right := makeCall (span 14 17) (.ok (.ident ⟨"createProxy", span 14 14⟩))
    (orEmpty (some (single (Expr.str <$> lit))))
  return .exprStmt (← makeAssign (span 10 17) left "=" right) (span 10 18)

end Value

set_option maxRecDepth 10000 in
open ModuleGrammar in
theorem value_reference (file : Option Text) (filepath : Text) (start stop : Nat → Place)
    {tree : ItemsTree}
    (hTree : Grammar.ofChoices moduleGrammar referenceDerivation.length (.cat .items)
      referenceDerivation (tokensAt start stop (referenceWords filepath)) = some (tree, [], [])) :
    tree.value file =
      let span := fun a b => Span.ofLocation (Place.locate (start a) (stop b)) file
      append
        (single (ModuleItem.stmt <$> importValue span (makeStr (span 7 7)
          ⟨.string, "\"private-next-rsc-mod-ref-proxy\"", start 7, stop 7⟩)))
        (single (ModuleItem.stmt <$> exportValue span (makeStr (span 16 16)
          ⟨.string, Text.quoted filepath, start 16, stop 16⟩))) := by
  cases hTree
  rfl

-- ---------------------------------------------------------------------------------------------
-- Reading a reference
-- ---------------------------------------------------------------------------------------------

theorem makeStr_ok {x value : Text} (h : StringLiteral.value x = .ok value) (s : Span)
    (k : Terminal) (p q : Place) :
    ModuleGrammar.makeStr s ⟨k, x, p, q⟩ = .ok ⟨value, some x, s⟩ := by
  simp only [ModuleGrammar.makeStr, h, ModuleGrammar.ofLiteral, bind, Except.bind]
  rfl

/-- The table with one comment, which leads the item at a position. -/
def markedTable (pos : Int) (mark : Comment) : CommentTable := { leading := [(pos, mark)] }

@[simp] theorem getLeading_markedTable (pos : Int) (mark : Comment) :
    (markedTable pos mark).getLeading (some pos) = [mark] := by
  simp [markedTable, CommentTable.getLeading, CommentEntries.get]

@[simp] theorem getTrailing_markedTable (pos : Int) (mark : Comment) (hi : Option Int) :
    (markedTable pos mark).getTrailing hi = [] := by
  cases hi <;> rfl

theorem itemComments_markedTable (pos : Int) (mark : Comment) (i : ModuleItem) :
    Printer.itemComments (some (markedTable pos mark)) pos i = [] := by
  cases hLo : i.span.lo with
  | none => simp [Printer.itemComments, hLo]
  | some lo =>
    by_cases hPos : lo = pos
    · simp [Printer.itemComments, hLo, hPos]
    · have hOther : ¬ pos = lo := fun h => hPos h.symm
      simp [Printer.itemComments, hLo, hPos, hOther, markedTable, CommentTable.getLeading,
        CommentEntries.get]

theorem attach_mark (m : Module) (file : Option Text) (l : Lexeme) {i : ModuleItem}
    {rest : List ModuleItem} {lo : Int} (hBody : m.body = i :: rest) (hLo : i.span.lo = some lo)
    (hBefore : (l.stop.offset : Int) ≤ lo) (hStart : m.span.lo = some 0) :
    Reader.attach m file {} l = markedTable 0 (Reader.commentOf file l) := by
  have hAttach : Reader.attachment m.body l.start.offset l.stop.offset = .first := by
    rw [hBody]
    simp [Reader.attachment, Reader.nextItem, hLo, hBefore]
  rw [Reader.attach, hAttach, hStart]
  rfl

/-- What is built from the tree of a reference. -/
theorem built_reference (file : Option Text) {filepath : Text} {start stop : Nat → Place}
    {tree : ItemsTree}
    (hTree : Grammar.ofChoices moduleGrammar referenceDerivation.length (.cat .items)
      referenceDerivation (tokensAt start stop (referenceWords filepath)) = some (tree, [], [])) :
    Reader.buildItems file (some tree) =
      .ok (referenceItems (fun a b => Span.ofLocation (Place.locate (start a) (stop b)) file)
        (some "\"private-next-rsc-mod-ref-proxy\"") (some (Text.quoted filepath)) filepath) := by
  have hModule : StringLiteral.value "\"private-next-rsc-mod-ref-proxy\"" =
      .ok (Text.ofString "private-next-rsc-mod-ref-proxy") :=
    (spellingOf_quoted "private-next-rsc-mod-ref-proxy").decoded
  show tree.value file = _
  rw [value_reference file filepath start stop hTree]
  simp only [makeStr_ok hModule, makeStr_ok (spellingOf_quoted filepath).decoded]
  rfl

/-- The text of a reference is read as its two statements, below the comment that marks it. -/
theorem parseModule_reference (filepath : Text) (file : Option Text) :
    ∃ parsed span mark,
      parseModule (referenceText filepath [] []) file = .ok parsed ∧
      parsed.module.body = referenceItems span
        (some "\"private-next-rsc-mod-ref-proxy\"") (some (Text.quoted filepath)) filepath ∧
      parsed.module.span.lo = some 0 ∧ parsed.comments = markedTable 0 mark ∧
      mark.content = Reference.sentinel.content := by
  let pieces := referencePieces filepath
  have hLex : lex (referenceText filepath [] []) =
      ⟨placed Place.start pieces, ⟨[.code .root 0], some .semi⟩, none⟩ := by
    rw [← spell_referencePieces]
    exact lex_spelled (spelled_referencePieces filepath)
  have hStatements := statements_reference filepath
  obtain ⟨tree, hTree, hBuilt⟩ := syntaxTree_of_derivation (referenceText filepath [] [])
    (show (lex (referenceText filepath [] [])).failure = none by rw [hLex])
    (by rw [hStatements]; exact List.cons_ne_nil _ _)
    (by rw [hStatements]; exact derivation?_reference filepath)
  rw [hStatements, codeTokens_eq] at hBuilt
  let token := fun i => (codeTokens pieces).getD i default
  let mark : Lexeme := ⟨.blockComment, sentinelLine, Place.start, Place.start.after sentinelLine⟩
  have hComments : (lex (referenceText filepath [] [])).comments = [mark] := by
    rw [hLex]
    rfl
  refine ⟨_, fun a b => Span.ofLocation (Place.locate (token a).start (token b).stop) file,
    Reader.commentOf file mark, parseModule_of_tree hTree (built_reference file hBuilt), rfl, rfl, ?_,
    rfl⟩
  simp only [hComments, List.foldl_cons, List.foldl_nil]
  have hBefore : (mark.stop.offset : Int) ≤ 48 := by decide
  exact attach_mark _ file mark rfl rfl hBefore rfl

-- ---------------------------------------------------------------------------------------------
-- A reference compiled again
-- ---------------------------------------------------------------------------------------------

theorem erase_referenceItems (span : Nat → Nat → Span) (raw raw' : Option Text) (filepath : Text) :
    (referenceItems span raw raw' filepath).map (Erasure.item { raws := true }) =
      proxyStatements filepath := rfl

/-- A module that was read from the text of a reference is printed as that text. -/
theorem printModule_marked {m : Module} {span : Nat → Nat → Span} {filepath : Text}
    {mark : Comment}
    (hBody : m.body = referenceItems span (some "\"private-next-rsc-mod-ref-proxy\"")
      (some (Text.quoted filepath)) filepath)
    (hStart : m.span.lo = some 0) (hMark : mark.content = Reference.sentinel.content) :
    printModule m (some (markedTable 0 mark)) = referenceText filepath [] [] := by
  have hLo : m.span.lo.getD 0 = 0 := by rw [hStart]; rfl
  have hRender : mark.render = sentinelLine := by
    show Comment.render ⟨mark.content.1, mark.content.2, {}⟩ = _
    rw [hMark]
    rfl
  refine printModule_reference hBody rfl rfl ?_ ?_ hRender (getTrailing_markedTable 0 mark _)
  · rw [hLo]
    exact fun i _ => itemComments_markedTable 0 mark i
  · rw [hLo, getLeading_markedTable]
    rfl

/-- The text of the reference that takes the place of a module. -/
theorem printModule_referenceTo (m : Module) (filepath : Text) :
    printModule (m.referenceTo filepath) (some (({} : CommentTable).markReference m)) =
      referenceText filepath [] [] :=
  printModule_synthetic (t := markedTable (m.span.lo.getD 0) Reference.sentinel) rfl
    (getLeading_markedTable _ _) (getTrailing_markedTable _ _ _)

/-- A reference carries any file path. Its text is read as the statements of the reference below
its comment, and is compiled to itself. -/
theorem reference_compiles_to_itself (m : Module) (filepath : Text) (file : Option Text) :
    let text := printModule (m.referenceTo filepath) (some (({} : CommentTable).markReference m))
    ∃ parsed, parseModule text file = .ok parsed ∧
      parsed.module.body.map (Erasure.item { raws := true }) = proxyStatements filepath ∧
      (∃ mark, parsed.comments.leading = [(0, mark)] ∧ parsed.comments.trailing = [] ∧
        mark.content = Reference.sentinel.content) ∧
      ∀ config filename sink,
        let out := compileModule config filename parsed.module parsed.comments sink
        out.sink = sink ∧ printModule out.module (some out.comments) = text := by
  intro text
  obtain ⟨parsed, span, mark, hParsed, hBody, hStart, hComments, hMark⟩ :=
    parseModule_reference filepath file
  rw [show text = referenceText filepath [] [] from printModule_referenceTo m filepath]
  have hBoundary : parsed.module.isClientBoundary = false := by
    rw [Module.isClientBoundary, Module.prologue, hBody]
    rfl
  have hImports : parsed.module.body.filterMap ImportRecord.ofItem? = [] := by
    rw [hBody]
    rfl
  refine ⟨parsed, hParsed, ?_, ⟨mark, by rw [hComments]; rfl, by rw [hComments]; rfl, hMark⟩, ?_⟩
  · rw [hBody, erase_referenceItems]
  · intro config filename sink
    obtain ⟨hModule, hTable, hSink⟩ :=
      compileModule_unchanged hBoundary hImports config filename parsed.comments sink
    refine ⟨hSink, ?_⟩
    rw [hModule, hTable, hComments]
    exact printModule_marked hBody hStart hMark

end ClientBoundary
