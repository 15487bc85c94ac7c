import ClientBoundary.Proofs.PhraseWords

/-!
# Imports and re-exports by their words

An import declaration, a list of exported names and an export of everything end where the first
semicolon or terminator stands, and what they say can be read off their words from left to right. So
the words of such a declaration can be read in no other way.

* `IsDeclaration` — the words of a declaration and its value.
* `declarationOf` — what a declaration says, read off its words.
* `IsDeclaration.unique` — a module with the words of a declaration is this declaration alone.
-/

namespace ClientBoundary

open Grammar ModuleGrammar

-- ---------------------------------------------------------------------------------------------
-- Names and ends
-- ---------------------------------------------------------------------------------------------

/-- A string literal from its text. -/
def strOf (x : Text) : Build StrLit := makeStr {} (Word.bare (.string, x))

/-- The terminals that may name an export. -/
def nameTerminals : List Terminal := .string :: propIdentTerminals

/-- The name of an export from its word. -/
def exportNameOf (w : Word) : Build ExportName :=
  if w.1 = .string then ExportName.str <$> strOf w.2 else .ok (.ident ⟨w.2, {}⟩)

/-- The terminals that end a statement. -/
def endTerminals : List Terminal := [.semi, .terminator]

theorem forms_makeIdent {ts : List Terminal} {Q : List Word → Ident → Prop} :
    Forms moduleGrammar (makeIdent <$> Rule.span <*> oneOf ts) Q ↔
      ∃ w : Word, w.1 ∈ ts ∧ Q [w] ⟨w.2, {}⟩ := by
  simp only [forms_seq, forms_map, forms_span, forms_oneOf]
  constructor
  · rintro ⟨t, ht, x, hQ⟩
    exact ⟨(t, x), ht, hQ⟩
  · rintro ⟨w, hw, hQ⟩
    exact ⟨w.1, hw, w.2, hQ⟩

theorem phrase_ident {ws : List Word} {i : Ident} :
    IsPhrase .ident ws i ↔ ∃ w : Word, w.1 ∈ identTerminals ∧ [w] = ws ∧ ⟨w.2, {}⟩ = i :=
  phrase_iff.trans forms_makeIdent

theorem phrase_propIdent {ws : List Word} {i : Ident} :
    IsPhrase .propIdent ws i ↔
      ∃ w : Word, w.1 ∈ propIdentTerminals ∧ [w] = ws ∧ ⟨w.2, {}⟩ = i :=
  phrase_iff.trans forms_makeIdent

theorem phrase_strLit {ws : List Word} {v : Build StrLit} :
    IsPhrase .strLit ws v ↔ ∃ x, [(.string, x)] = ws ∧ strOf x = v := by
  refine phrase_iff.trans ?_
  show Forms moduleGrammar strLit _ ↔ _
  unfold strLit tok
  simp only [forms_seq, forms_map, forms_span, forms_tok]
  rfl

theorem phrase_stmtEnd {ws : List Word} {u : Unit} :
    IsPhrase .stmtEnd ws u ↔ ∃ w : Word, w.1 ∈ endTerminals ∧ [w] = ws := by
  refine phrase_iff.trans ?_
  show Forms moduleGrammar stmtEnd _ ↔ _
  unfold stmtEnd mark tok
  simp only [forms_orElse, forms_map, forms_tok, and_true]
  constructor
  · rintro (⟨x, rfl⟩ | ⟨x, rfl⟩)
    · exact ⟨(.semi, x), List.mem_cons_self, rfl⟩
    · exact ⟨(.terminator, x), List.mem_cons_of_mem _ List.mem_cons_self, rfl⟩
  · rintro ⟨⟨t, x⟩, ht, rfl⟩
    rcases List.mem_pair.mp ht with rfl | rfl
    · exact .inl ⟨x, rfl⟩
    · exact .inr ⟨x, rfl⟩

theorem phrase_exportName {ws : List Word} {v : Build ExportName} :
    IsPhrase .exportName ws v ↔ ∃ w : Word, w.1 ∈ nameTerminals ∧ [w] = ws ∧ exportNameOf w = v := by
  refine phrase_iff.trans ?_
  show Forms moduleGrammar exportName _ ↔ _
  unfold exportName cat
  simp only [forms_orElse, forms_map, forms_cat]
  have hString : Terminal.string ∉ propIdentTerminals := by decide
  constructor
  · rintro (⟨us, i, hName, rfl, rfl⟩ | ⟨us, l, hString, rfl, rfl⟩)
    · obtain ⟨w, hw, rfl, rfl⟩ := phrase_propIdent.mp hName
      have hWord : w.1 ≠ .string := fun h => hString (h ▸ hw)
      exact ⟨w, List.mem_cons_of_mem _ hw, rfl, if_neg hWord⟩
    · obtain ⟨x, rfl, rfl⟩ := phrase_strLit.mp hString
      exact ⟨(.string, x), List.mem_cons_self, rfl, rfl⟩
  · rintro ⟨⟨t, x⟩, hw, rfl, rfl⟩
    rcases List.mem_cons.mp hw with rfl | hw
    · exact .inr ⟨_, _, phrase_strLit.mpr ⟨x, rfl, rfl⟩, rfl, rfl⟩
    · have hWord : t ≠ .string := fun h => hString (h ▸ hw)
      exact .inl ⟨_, _, phrase_propIdent.mpr ⟨(t, x), hw, rfl, rfl⟩, rfl, (if_neg hWord).symm⟩

-- ---------------------------------------------------------------------------------------------
-- Specifiers
-- ---------------------------------------------------------------------------------------------

/-- One named specifier of an import: a local name, or the name of an export and a local name. -/
inductive IsImportSpec : List Word → Build ImportSpecifier → Prop where
  | plain (w : Word) (hw : w.1 ∈ identTerminals) :
      IsImportSpec [w] (.ok (.named ⟨w.2, {}⟩ none {}))
  | renamed (n : Word) (a : Text) (w : Word) (hn : n.1 ∈ nameTerminals) (hw : w.1 ∈ identTerminals) :
      IsImportSpec [n, (.kwAs, a), w] (makeAlias {} (exportNameOf n) ⟨w.2, {}⟩)

/-- One exported name, with another name outside or without. -/
inductive IsExportSpec : List Word → Build ExportSpecifier → Prop where
  | plain (n : Word) (hn : n.1 ∈ nameTerminals) :
      IsExportSpec [n] (makeExportSpec {} (exportNameOf n) none)
  | renamed (n : Word) (a : Text) (m : Word) (hn : n.1 ∈ nameTerminals) (hm : m.1 ∈ nameTerminals) :
      IsExportSpec [n, (.kwAs, a), m] (makeExportSpec {} (exportNameOf n) (some (exportNameOf m)))

theorem phrase_namedSpec {ws : List Word} {v : Build ImportSpecifier} :
    IsPhrase .namedSpec ws v ↔ IsImportSpec ws v := by
  refine phrase_iff.trans ?_
  show Forms moduleGrammar namedSpec _ ↔ _
  unfold namedSpec tok cat
  simp only [forms_orElse, forms_seq, forms_seqLeft, forms_map, forms_span, forms_cat, forms_tok]
  constructor
  · rintro (⟨us, i, hName, rfl, rfl⟩ | ⟨us, n, hExport, a, vs, i, hName, rfl, rfl⟩)
    · obtain ⟨w, hw, rfl, rfl⟩ := phrase_ident.mp hName
      exact .plain w hw
    · obtain ⟨w, hw, rfl, rfl⟩ := phrase_ident.mp hName
      obtain ⟨n, hn, rfl, rfl⟩ := phrase_exportName.mp hExport
      exact .renamed n a w hn hw
  · intro h
    cases h with
    | plain w hw => exact .inl ⟨_, _, phrase_ident.mpr ⟨w, hw, rfl, rfl⟩, rfl, rfl⟩
    | renamed n a w hn hw =>
      exact .inr ⟨_, _, phrase_exportName.mpr ⟨n, hn, rfl, rfl⟩, a, _, _,
        phrase_ident.mpr ⟨w, hw, rfl, rfl⟩, rfl, rfl⟩

theorem phrase_exportSpec {ws : List Word} {v : Build ExportSpecifier} :
    IsPhrase .exportSpec ws v ↔ IsExportSpec ws v := by
  refine phrase_iff.trans ?_
  show Forms moduleGrammar exportSpec _ ↔ _
  unfold exportSpec tok cat
  simp only [forms_seq, forms_seqRight, forms_opt, forms_map, forms_span, forms_cat, forms_tok]
  constructor
  · rintro ⟨us, n, hName, ⟨a, vs, m, hAlias, rfl, rfl⟩ | ⟨rfl, rfl⟩⟩
    · obtain ⟨n, hn, rfl, rfl⟩ := phrase_exportName.mp hName
      obtain ⟨m, hm, rfl, rfl⟩ := phrase_exportName.mp hAlias
      exact .renamed n a m hn hm
    · obtain ⟨n, hn, rfl, rfl⟩ := phrase_exportName.mp hName
      exact .plain n hn
  · intro h
    cases h with
    | plain n hn => exact ⟨_, _, phrase_exportName.mpr ⟨n, hn, rfl, rfl⟩, .inr ⟨rfl, rfl⟩⟩
    | renamed n a m hn hm =>
      exact ⟨_, _, phrase_exportName.mpr ⟨n, hn, rfl, rfl⟩, .inl ⟨a, _, _,
        phrase_exportName.mpr ⟨m, hm, rfl, rfl⟩, rfl, rfl⟩⟩

theorem phrase_namedSpecs {ws : List Word} {v : Build (List ImportSpecifier)} :
    IsPhrase .namedSpecs ws v ↔ Separated IsImportSpec ws v := by
  refine separated_iff (P := IsPhrase .namedSpecs) fun us xs => phrase_iff.trans ?_
  show Forms moduleGrammar namedSpecs _ ↔ _
  unfold namedSpecs cat
  simp only [forms_commaList, forms_cat, phrase_namedSpec]

theorem phrase_exportSpecs {ws : List Word} {v : Build (List ExportSpecifier)} :
    IsPhrase .exportSpecs ws v ↔ Separated IsExportSpec ws v := by
  refine separated_iff (P := IsPhrase .exportSpecs) fun us xs => phrase_iff.trans ?_
  show Forms moduleGrammar exportSpecs _ ↔ _
  unfold exportSpecs cat
  simp only [forms_commaList, forms_cat, phrase_exportSpec]

-- ---------------------------------------------------------------------------------------------
-- Declarations
-- ---------------------------------------------------------------------------------------------

/-- What an import binds besides a default: the name space of a module, or names of it. -/
inductive IsBinding : List Word → Build (List ImportSpecifier) → Prop where
  | star (s a : Text) (w : Word) (hw : w.1 ∈ identTerminals) :
      IsBinding [(.star, s), (.kwAs, a), w] (.ok [.starAs ⟨w.2, {}⟩ {}])
  | braces (a b : Text) {us : List Word} {v : Build (List ImportSpecifier)}
      (h : Elements IsImportSpec us v) : IsBinding ((.lbrace, a) :: (us ++ [(.rbrace, b)])) v

/-- What an import binds. -/
inductive IsClause : List Word → Build (List ImportSpecifier) → Prop where
  | default (d : Word) (hd : d.1 ∈ identTerminals) : IsClause [d] (.ok [.default ⟨d.2, {}⟩ {}])
  | both (d : Word) (hd : d.1 ∈ identTerminals) (c : Text) {us : List Word}
      {v : Build (List ImportSpecifier)} (h : IsBinding us v) :
      IsClause (d :: (.comma, c) :: us) (append (.ok [.default ⟨d.2, {}⟩ {}]) v)
  | binding {us : List Word} {v : Build (List ImportSpecifier)} (h : IsBinding us v) : IsClause us v

/-- The words of a declaration of the given category and what they say. The last word is its end. -/
inductive IsDeclaration : Category → List Word → Build ModuleItem → Prop where
  | bare (i x : Text) (e : Word) (he : e.1 ∈ endTerminals) :
      IsDeclaration .importBare [(.kwImport, i), (.string, x), e] (makeImport {} (.ok []) (strOf x))
  | imports (i : Text) {us : List Word} {v : Build (List ImportSpecifier)} (h : IsClause us v)
      (f x : Text) (e : Word) (he : e.1 ∈ endTerminals) :
      IsDeclaration .importDecl ((.kwImport, i) :: (us ++ [(.kwFrom, f), (.string, x), e]))
        (makeImport {} v (strOf x))
  | exports (x a b : Text) {us : List Word} {v : Build (List ExportSpecifier)}
      (h : Elements IsExportSpec us v) (e : Word) (he : e.1 ∈ endTerminals) :
      IsDeclaration .namedExport ((.kwExport, x) :: (.lbrace, a) :: (us ++ [(.rbrace, b), e]))
        (makeNamedExport {} v none)
  | reexports (x a b : Text) {us : List Word} {v : Build (List ExportSpecifier)}
      (h : Elements IsExportSpec us v) (f y : Text) (e : Word) (he : e.1 ∈ endTerminals) :
      IsDeclaration .namedExport
        ((.kwExport, x) :: (.lbrace, a) :: (us ++ [(.rbrace, b), (.kwFrom, f), (.string, y), e]))
        (makeNamedExport {} v (some (strOf y)))
  | all (x s f y : Text) (e : Word) (he : e.1 ∈ endTerminals) :
      IsDeclaration .exportAll [(.kwExport, x), (.star, s), (.kwFrom, f), (.string, y), e]
        (makeExportAll {} none (strOf y))
  | allAs (x s a : Text) (n : Word) (hn : n.1 ∈ nameTerminals) (f y : Text) (e : Word)
      (he : e.1 ∈ endTerminals) :
      IsDeclaration .exportAll
        [(.kwExport, x), (.star, s), (.kwAs, a), n, (.kwFrom, f), (.string, y), e]
        (makeExportAll {} (some (exportNameOf n)) (strOf y))

theorem phrase_namespaceSpec {ws : List Word} {v : ImportSpecifier} :
    IsPhrase .namespaceSpec ws v ↔ ∃ s a, ∃ w : Word, w.1 ∈ identTerminals ∧
      [(.star, s), (.kwAs, a), w] = ws ∧ .starAs ⟨w.2, {}⟩ {} = v := by
  refine phrase_iff.trans ?_
  show Forms moduleGrammar namespaceSpec _ ↔ _
  unfold namespaceSpec tok cat
  simp only [forms_seq, forms_seqLeft, forms_map, forms_span, forms_cat, forms_tok]
  constructor
  · rintro ⟨s, a, us, i, hName, rfl, rfl⟩
    obtain ⟨w, hw, rfl, rfl⟩ := phrase_ident.mp hName
    exact ⟨s, a, w, hw, rfl, rfl⟩
  · rintro ⟨s, a, w, hw, rfl, rfl⟩
    exact ⟨s, a, _, _, phrase_ident.mpr ⟨w, hw, rfl, rfl⟩, rfl, rfl⟩

theorem forms_binding {Q : List Word → Build (List ImportSpecifier) → Prop} :
    Forms moduleGrammar namespaceImport Q ∨ Forms moduleGrammar namedImports Q ↔
      ∃ us v, IsBinding us v ∧ Q us v := by
  have hList : ∀ Q, Forms moduleGrammar (ModuleGrammar.cat .namedSpecs) Q ↔
      ∃ us v, Separated IsImportSpec us v ∧ Q us v := fun Q =>
    forms_cat.trans (by simp only [phrase_namedSpecs])
  unfold namespaceImport namedImports
  rw [forms_bracketed hList]
  unfold ModuleGrammar.cat
  simp only [forms_map, forms_cat]
  constructor
  · rintro (⟨us, i, hStar, hQ⟩ | ⟨a, us, v, b, hElements, hQ⟩)
    · obtain ⟨s, a, w, hw, rfl, rfl⟩ := phrase_namespaceSpec.mp hStar
      exact ⟨_, _, .star s a w hw, hQ⟩
    · exact ⟨_, _, .braces a b hElements, hQ⟩
  · rintro ⟨us, v, h, hQ⟩
    cases h with
    | star s a w hw =>
      exact .inl ⟨_, _, phrase_namespaceSpec.mpr ⟨s, a, w, hw, rfl, rfl⟩, hQ⟩
    | braces a b hElements => exact .inr ⟨a, _, _, b, hElements, hQ⟩

theorem forms_importClause {Q : List Word → Build (List ImportSpecifier) → Prop} :
    Forms moduleGrammar importClause Q ↔ ∃ us v, IsClause us v ∧ Q us v := by
  have hDefault (Q : List Word → Build (List ImportSpecifier) → Prop) :
      Forms moduleGrammar defaultSpec Q ↔
        ∃ d : Word, d.1 ∈ identTerminals ∧ Q [d] (.ok [.default ⟨d.2, {}⟩ {}]) := by
    unfold defaultSpec cat
    simp only [forms_map, forms_cat]
    constructor
    · rintro ⟨us, i, hName, hQ⟩
      obtain ⟨w, hw, rfl, rfl⟩ := phrase_ident.mp hName
      exact ⟨w, hw, hQ⟩
    · rintro ⟨w, hw, hQ⟩
      exact ⟨_, _, phrase_ident.mpr ⟨w, hw, rfl, rfl⟩, hQ⟩
  unfold importClause tok
  simp only [forms_orElse, forms_seq, forms_seqLeft, forms_map, forms_tok, hDefault]
  constructor
  · rintro (⟨d, hd, hQ⟩ | ⟨d, hd, c, hRest⟩ | ⟨d, hd, c, hRest⟩ | hRest)
    · exact ⟨_, _, .default d hd, hQ⟩
    · obtain ⟨us, v, h, hQ⟩ := forms_binding.mp (.inl hRest)
      exact ⟨_, _, .both d hd c h, hQ⟩
    · obtain ⟨us, v, h, hQ⟩ := forms_binding.mp (.inr hRest)
      exact ⟨_, _, .both d hd c h, hQ⟩
    · obtain ⟨us, v, h, hQ⟩ := forms_binding.mp hRest
      exact ⟨_, _, .binding h, hQ⟩
  · rintro ⟨us, v, h, hQ⟩
    cases h with
    | default d hd => exact .inl ⟨d, hd, hQ⟩
    | both d hd c h =>
      have hBoth := (forms_binding (Q := fun vs xs => Q ([d] ++ [(.comma, c)] ++ vs)
        (append (.ok [.default ⟨d.2, {}⟩ {}]) xs))).mpr ⟨_, _, h, hQ⟩
      rcases hBoth with hRest | hRest
      · exact .inr (.inl ⟨d, hd, c, hRest⟩)
      · exact .inr (.inr (.inl ⟨d, hd, c, hRest⟩))
    | binding h => exact .inr (.inr (.inr (forms_binding.mpr ⟨_, _, h, hQ⟩)))

theorem phrase_importBare {ws : List Word} {v : Build ModuleItem} :
    IsPhrase .importBare ws v ↔ IsDeclaration .importBare ws v := by
  refine phrase_iff.trans ?_
  show Forms moduleGrammar importBare _ ↔ _
  unfold importBare tok cat
  simp only [forms_seq, forms_seqLeft, forms_map, forms_span, forms_cat, forms_tok]
  constructor
  · rintro ⟨i, us, l, hString, vs, u, hEnd, rfl, rfl⟩
    obtain ⟨x, rfl, rfl⟩ := phrase_strLit.mp hString
    obtain ⟨e, he, rfl⟩ := phrase_stmtEnd.mp hEnd
    exact .bare i x e he
  · intro h
    cases h with
    | bare i x e he =>
      exact ⟨i, _, _, phrase_strLit.mpr ⟨x, rfl, rfl⟩, _, (), phrase_stmtEnd.mpr ⟨e, he, rfl⟩, rfl, rfl⟩

theorem phrase_importDecl {ws : List Word} {v : Build ModuleItem} :
    IsPhrase .importDecl ws v ↔ IsDeclaration .importDecl ws v := by
  refine phrase_iff.trans ?_
  show Forms moduleGrammar importDecl _ ↔ _
  unfold importDecl tok cat
  simp only [forms_seq, forms_seqLeft, forms_map, forms_span, forms_cat, forms_tok,
    forms_importClause, List.nil_append, List.append_assoc, List.cons_append]
  constructor
  · rintro ⟨i, us, xs, hClause, f, vs, l, hString, ends, u, hEnd, rfl, rfl⟩
    obtain ⟨x, rfl, rfl⟩ := phrase_strLit.mp hString
    obtain ⟨e, he, rfl⟩ := phrase_stmtEnd.mp hEnd
    exact .imports i hClause f x e he
  · intro h
    cases h with
    | imports i hClause f x e he =>
      exact ⟨i, _, _, hClause, f, _, _, phrase_strLit.mpr ⟨x, rfl, rfl⟩, _, (),
        phrase_stmtEnd.mpr ⟨e, he, rfl⟩, rfl, rfl⟩

theorem phrase_namedExport {ws : List Word} {v : Build ModuleItem} :
    IsPhrase .namedExport ws v ↔ IsDeclaration .namedExport ws v := by
  have hList : ∀ Q, Forms moduleGrammar (ModuleGrammar.cat .exportSpecs) Q ↔
      ∃ us v, Separated IsExportSpec us v ∧ Q us v := fun Q =>
    forms_cat.trans (by simp only [phrase_exportSpecs])
  refine phrase_iff.trans ?_
  show Forms moduleGrammar namedExport _ ↔ _
  unfold namedExport tok
  simp only [forms_seq, forms_seqLeft, forms_seqRight, forms_opt, forms_map, forms_span, forms_tok,
    forms_bracketed hList]
  unfold ModuleGrammar.cat
  simp only [forms_cat, List.nil_append, List.append_nil, List.append_assoc, List.cons_append]
  constructor
  · rintro ⟨x, a, us, xs, b, hElements, ⟨f, vs, l, hString, ends, u, hEnd, rfl, rfl⟩ |
      ⟨ends, u, hEnd, rfl, rfl⟩⟩
    · obtain ⟨y, rfl, rfl⟩ := phrase_strLit.mp hString
      obtain ⟨e, he, rfl⟩ := phrase_stmtEnd.mp hEnd
      exact .reexports x a b hElements f y e he
    · obtain ⟨e, he, rfl⟩ := phrase_stmtEnd.mp hEnd
      exact .exports x a b hElements e he
  · intro h
    cases h with
    | exports x a b hElements e he =>
      exact ⟨x, a, _, _, b, hElements, .inr ⟨_, (), phrase_stmtEnd.mpr ⟨e, he, rfl⟩, rfl, rfl⟩⟩
    | reexports x a b hElements f y e he =>
      exact ⟨x, a, _, _, b, hElements, .inl ⟨f, _, _, phrase_strLit.mpr ⟨y, rfl, rfl⟩, _, (),
        phrase_stmtEnd.mpr ⟨e, he, rfl⟩, rfl, rfl⟩⟩

theorem phrase_exportAll {ws : List Word} {v : Build ModuleItem} :
    IsPhrase .exportAll ws v ↔ IsDeclaration .exportAll ws v := by
  refine phrase_iff.trans ?_
  show Forms moduleGrammar exportAll _ ↔ _
  unfold exportAll tok cat
  simp only [forms_seq, forms_seqLeft, forms_seqRight, forms_opt, forms_map, forms_span, forms_cat,
    forms_tok]
  constructor
  · rintro ⟨x, s, ⟨a, us, n, hName, f, vs, l, hString, ends, u, hEnd, rfl, rfl⟩ |
      ⟨f, vs, l, hString, ends, u, hEnd, rfl, rfl⟩⟩
    · obtain ⟨n, hn, rfl, rfl⟩ := phrase_exportName.mp hName
      obtain ⟨y, rfl, rfl⟩ := phrase_strLit.mp hString
      obtain ⟨e, he, rfl⟩ := phrase_stmtEnd.mp hEnd
      exact .allAs x s a n hn f y e he
    · obtain ⟨y, rfl, rfl⟩ := phrase_strLit.mp hString
      obtain ⟨e, he, rfl⟩ := phrase_stmtEnd.mp hEnd
      exact .all x s f y e he
  · intro h
    cases h with
    | all x s f y e he =>
      exact ⟨x, s, .inr ⟨f, _, _, phrase_strLit.mpr ⟨y, rfl, rfl⟩, _, (),
        phrase_stmtEnd.mpr ⟨e, he, rfl⟩, rfl, rfl⟩⟩
    | allAs x s a n hn f y e he =>
      exact ⟨x, s, .inl ⟨a, _, _, phrase_exportName.mpr ⟨n, hn, rfl, rfl⟩, f, _, _,
        phrase_strLit.mpr ⟨y, rfl, rfl⟩, _, (), phrase_stmtEnd.mpr ⟨e, he, rfl⟩, rfl, rfl⟩⟩

-- ---------------------------------------------------------------------------------------------
-- What declarations say
-- ---------------------------------------------------------------------------------------------

/-- A named specifier of an import, read off its words. -/
def importSpecOf : List Word → Build ImportSpecifier
  | [n, _, w] => makeAlias {} (exportNameOf n) ⟨w.2, {}⟩
  | ws => .ok (.named ⟨(ws.headD default).2, {}⟩ none {})

/-- An exported name, read off its words. -/
def exportSpecOf : List Word → Build ExportSpecifier
  | [n, _, m] => makeExportSpec {} (exportNameOf n) (some (exportNameOf m))
  | ws => makeExportSpec {} (exportNameOf (ws.headD default)) none

/-- What an import binds, read off the words between `import` and `from`. -/
def clauseOf : List Word → Build (List ImportSpecifier)
  | (.lbrace, _) :: ws => elementsOf importSpecOf ws.dropLast
  | [d] => .ok [.default ⟨d.2, {}⟩ {}]
  | [_, _, w] => .ok [.starAs ⟨w.2, {}⟩ {}]
  | d :: _ :: ws => append (.ok [.default ⟨d.2, {}⟩ {}]) (clauseOf ws)
  | [] => .ok []

/-- The word before the last one. -/
def lastButOne (ws : List Word) : Word := ws.dropLast.getLastD default

/-- A declaration, read off its words. -/
def declarationOf : List Word → Build ModuleItem
  | (.kwImport, _) :: (.string, x) :: _ => makeImport {} (.ok []) (strOf x)
  | (.kwImport, _) :: ws =>
    makeImport {} (clauseOf (ws.take (ws.length - 3))) (strOf (lastButOne ws).2)
  | _ :: (.lbrace, _) :: ws =>
    makeNamedExport {} (elementsOf exportSpecOf (ws.takeWhile (·.1 ≠ .rbrace)))
      (if (lastButOne ws).1 = .string then some (strOf (lastButOne ws).2) else none)
  | [_, _, _, n, _, (_, y), _] => makeExportAll {} (some (exportNameOf n)) (strOf y)
  | ws => makeExportAll {} none (strOf (lastButOne ws).2)

@[simp] theorem lastButOne_append (ws : List Word) (w e : Word) : lastButOne (ws ++ [w, e]) = w := by
  have hSplit : ws ++ [w, e] = (ws ++ [w]) ++ [e] := by simp
  rw [lastButOne, hSplit, List.dropLast_concat, List.getLastD_concat]

theorem mem_nameTerminals_of_ident : ∀ t ∈ identTerminals, t ∈ nameTerminals := by decide

theorem IsImportSpec.names {ws : List Word} {v : Build ImportSpecifier} (h : IsImportSpec ws v) :
    ∀ w ∈ ws, w.1 ∈ nameTerminals := by
  cases h with
  | plain w hw => exact List.forall_mem_singleton.mpr (mem_nameTerminals_of_ident _ hw)
  | renamed n a w hn hw =>
    have hAs : Terminal.kwAs ∈ nameTerminals := by decide
    simpa [hn, hAs] using mem_nameTerminals_of_ident _ hw

theorem IsExportSpec.names {ws : List Word} {v : Build ExportSpecifier} (h : IsExportSpec ws v) :
    ∀ w ∈ ws, w.1 ∈ nameTerminals := by
  cases h with
  | plain n hn => exact List.forall_mem_singleton.mpr hn
  | renamed n a m hn hm =>
    have hAs : Terminal.kwAs ∈ nameTerminals := by decide
    simpa [hn, hAs] using hm

theorem ne_comma_of_name : ∀ t ∈ nameTerminals, t ≠ .comma := by decide

theorem IsImportSpec.value (ws : List Word) (v : Build ImportSpecifier) (h : IsImportSpec ws v) :
    v = importSpecOf ws ∧ ws ≠ [] ∧ ∀ w ∈ ws, w.1 ≠ .comma := by
  refine ⟨?_, ?_, fun w hw => ne_comma_of_name _ (h.names w hw)⟩
  · cases h <;> rfl
  · cases h <;> exact List.cons_ne_nil _ _

theorem IsExportSpec.value (ws : List Word) (v : Build ExportSpecifier) (h : IsExportSpec ws v) :
    v = exportSpecOf ws ∧ ws ≠ [] ∧ ∀ w ∈ ws, w.1 ≠ .comma := by
  refine ⟨?_, ?_, fun w hw => ne_comma_of_name _ (h.names w hw)⟩
  · cases h <;> rfl
  · cases h <;> exact List.cons_ne_nil _ _

theorem IsBinding.value {us : List Word} {v : Build (List ImportSpecifier)} (h : IsBinding us v) :
    v = clauseOf us := by
  cases h with
  | star s a w hw => rfl
  | braces a b hElements =>
    rw [clauseOf, List.dropLast_concat]
    exact hElements.value IsImportSpec.value

theorem IsBinding.two_le_length {us : List Word} {v : Build (List ImportSpecifier)}
    (h : IsBinding us v) : 2 ≤ us.length := by
  cases h with
  | star s a w hw => exact Nat.le_succ 2
  | braces a b hElements =>
    rw [List.length_cons, List.length_append, List.length_singleton]
    omega

theorem ne_lbrace_of_ident : ∀ t ∈ identTerminals, t ≠ .lbrace := by decide

theorem clauseOf_default {d : Word} (hd : d.1 ∈ identTerminals) :
    clauseOf [d] = .ok [.default ⟨d.2, {}⟩ {}] := by
  obtain ⟨t, x⟩ := d
  rw [clauseOf]
  exact fun a heq => ne_lbrace_of_ident t hd (congrArg Prod.fst heq)

theorem clauseOf_both {d c : Word} (hd : d.1 ∈ identTerminals) {us : List Word}
    (hus : 2 ≤ us.length) :
    clauseOf (d :: c :: us) = append (.ok [.default ⟨d.2, {}⟩ {}]) (clauseOf us) := by
  obtain ⟨t, x⟩ := d
  rw [clauseOf]
  · exact fun a heq => ne_lbrace_of_ident t hd (congrArg Prod.fst heq)
  · rintro w rfl
    simp at hus

theorem IsClause.value {us : List Word} {v : Build (List ImportSpecifier)} (h : IsClause us v) :
    v = clauseOf us := by
  cases h with
  | default d hd => exact (clauseOf_default hd).symm
  | both d hd c hBinding => rw [clauseOf_both hd hBinding.two_le_length, ← hBinding.value]
  | binding hBinding => exact hBinding.value

/-- The first word of what an import binds. -/
theorem IsClause.exists_head {us : List Word} {v : Build (List ImportSpecifier)}
    (h : IsClause us v) : ∃ w rest, us = w :: rest ∧ w.1 ∈ .star :: .lbrace :: identTerminals := by
  have hBinding {us : List Word} {v : Build (List ImportSpecifier)} (h : IsBinding us v) :
      ∃ w rest, us = w :: rest ∧ w.1 ∈ .star :: .lbrace :: identTerminals := by
    cases h with
    | star s a w hw => exact ⟨_, _, rfl, List.mem_cons_self⟩
    | braces a b hElements => exact ⟨_, _, rfl, List.mem_cons_of_mem _ List.mem_cons_self⟩
  cases h with
  | default d hd => exact ⟨d, [], rfl, by simp [hd]⟩
  | both d hd c _ => exact ⟨d, _, rfl, by simp [hd]⟩
  | binding h => exact hBinding h

theorem declarationOf_import {i : Text} {us : List Word} {v : Build (List ImportSpecifier)}
    (h : IsClause us v) (f s e : Word) :
    declarationOf ((.kwImport, i) :: (us ++ [f, s, e])) =
      makeImport {} (clauseOf us) (strOf s.2) := by
  have hTake : (us ++ [f, s, e]).take ((us ++ [f, s, e]).length - 3) = us := by simp
  have hLast : lastButOne (us ++ [f, s, e]) = s := by
    rw [show us ++ [f, s, e] = (us ++ [f]) ++ [s, e] by simp, lastButOne_append]
  obtain ⟨w, rest, rfl, hw⟩ := h.exists_head
  have hString : w.1 ≠ .string := by
    intro heq
    rw [heq] at hw
    exact absurd hw (by decide)
  rw [List.cons_append, declarationOf, ← List.cons_append, hTake, hLast]
  exact fun x ws heq => hString (congrArg Prod.fst (List.cons.inj heq).1)

theorem declarationOf_export (x a : Text) (ws : List Word) :
    declarationOf ((.kwExport, x) :: (.lbrace, a) :: ws) =
      makeNamedExport {} (elementsOf exportSpecOf (ws.takeWhile (·.1 ≠ .rbrace)))
        (if (lastButOne ws).1 = .string then some (strOf (lastButOne ws).2) else none) :=
  rfl

/-- The words in the braces of a list of exported names are those before the closing brace. -/
theorem takeWhile_exports {us : List Word} {v : Build (List ExportSpecifier)}
    (h : Elements IsExportSpec us v) (b : Text) (ws : List Word) :
    (us ++ (.rbrace, b) :: ws).takeWhile (·.1 ≠ .rbrace) = us := by
  have hNames : ∀ t ∈ nameTerminals, t ≠ .rbrace := by decide
  have hNone : ∀ w ∈ us, w.1 ≠ .rbrace :=
    h.forall_mem (by simp) fun ws x hSpec w hw => hNames _ (hSpec.names w hw)
  rw [List.takeWhile_append_of_pos (by simpa using hNone)]
  simp

/-- The words of a declaration say what it is. -/
theorem IsDeclaration.value {c : Category} {ws : List Word} {v : Build ModuleItem}
    (h : IsDeclaration c ws v) : v = declarationOf ws := by
  cases h with
  | bare i x e he => rfl
  | imports i hClause f x e he => rw [declarationOf_import hClause, ← hClause.value]
  | @exports x a b us v hElements e he =>
    rw [declarationOf_export, takeWhile_exports hElements, ← hElements.value IsExportSpec.value,
      lastButOne_append]
    rfl
  | @reexports x a b us v hElements f y e he =>
    have hLast : us ++ [(.rbrace, b), (.kwFrom, f), (.string, y), e] =
        (us ++ [(.rbrace, b), (.kwFrom, f)]) ++ [(.string, y), e] := by simp
    rw [declarationOf_export, takeWhile_exports hElements, ← hElements.value IsExportSpec.value, hLast,
      lastButOne_append]
    rfl
  | all x s f y e he => rfl
  | allAs x s a n hn f y e he => rfl

-- ---------------------------------------------------------------------------------------------
-- A declaration alone
-- ---------------------------------------------------------------------------------------------

/-- The terminals of a declaration but for its end. -/
def bodyTerminals : List Terminal := .comma :: .lbrace :: .rbrace :: .star :: nameTerminals

theorem mem_bodyTerminals_of_name {t : Terminal} (h : t ∈ nameTerminals) : t ∈ bodyTerminals := by
  simp [bodyTerminals, h]

theorem Elements.body {α : Type} {E : List Word → Build α → Prop}
    (hE : ∀ ws x, E ws x → ∀ w ∈ ws, w.1 ∈ nameTerminals) {us : List Word} {v : Build (List α)}
    (h : Elements E us v) : ∀ w ∈ us, w.1 ∈ bodyTerminals :=
  h.forall_mem (fun _ => List.mem_cons_self) fun ws x hx w hw =>
    mem_bodyTerminals_of_name (hE ws x hx w hw)

theorem IsBinding.body {us : List Word} {v : Build (List ImportSpecifier)} (h : IsBinding us v) :
    ∀ w ∈ us, w.1 ∈ bodyTerminals := by
  cases h with
  | star s a w hw =>
    have hWord := mem_bodyTerminals_of_name (mem_nameTerminals_of_ident _ hw)
    have hRest : Terminal.star ∈ bodyTerminals ∧ Terminal.kwAs ∈ bodyTerminals := by decide
    simp [hWord, hRest]
  | braces a b hElements =>
    have hInner := hElements.body fun _ _ hSpec => hSpec.names
    have hBraces : Terminal.lbrace ∈ bodyTerminals ∧ Terminal.rbrace ∈ bodyTerminals := by decide
    simpa [hBraces, or_imp, forall_and] using hInner

theorem IsClause.body {us : List Word} {v : Build (List ImportSpecifier)} (h : IsClause us v) :
    ∀ w ∈ us, w.1 ∈ bodyTerminals := by
  have hDefault {d : Word} (hd : d.1 ∈ identTerminals) : d.1 ∈ bodyTerminals :=
    mem_bodyTerminals_of_name (mem_nameTerminals_of_ident _ hd)
  cases h with
  | default d hd => exact List.forall_mem_singleton.mpr (hDefault hd)
  | both d hd c hBinding =>
    exact List.forall_mem_cons.mpr ⟨hDefault hd, List.forall_mem_cons.mpr
      ⟨List.mem_cons_self, hBinding.body⟩⟩
  | binding hBinding => exact hBinding.body

/-- The last word of a declaration is its end, and no word before it is one. -/
theorem IsDeclaration.exists_end {c : Category} {ws : List Word} {v : Build ModuleItem}
    (h : IsDeclaration c ws v) :
    ∃ front e, ws = front ++ [e] ∧ e.1 ∈ endTerminals ∧ ∀ w ∈ front, w.1 ∈ bodyTerminals := by
  have hWords : [.kwImport, .kwExport, .string, .kwFrom, .kwAs, .lbrace, .rbrace, .star] ⊆
      bodyTerminals := by decide
  simp only [List.cons_subset, List.nil_subset, and_true] at hWords
  cases h with
  | bare i x e he => exact ⟨[(.kwImport, i), (.string, x)], e, rfl, he, by simp [hWords]⟩
  | @imports i us v hClause f x e he =>
    have hBody := hClause.body
    refine ⟨(.kwImport, i) :: (us ++ [(.kwFrom, f), (.string, x)]), e, by simp, he, ?_⟩
    simpa [hWords, or_imp, forall_and] using hBody
  | @exports x a b us v hElements e he =>
    have hBody := hElements.body fun _ _ hSpec => hSpec.names
    refine ⟨(.kwExport, x) :: (.lbrace, a) :: (us ++ [(.rbrace, b)]), e, by simp, he, ?_⟩
    simpa [hWords, or_imp, forall_and] using hBody
  | @reexports x a b us v hElements f y e he =>
    have hBody := hElements.body fun _ _ hSpec => hSpec.names
    refine ⟨(.kwExport, x) :: (.lbrace, a) :: (us ++ [(.rbrace, b), (.kwFrom, f), (.string, y)]), e,
      by simp, he, ?_⟩
    simpa [hWords, or_imp, forall_and] using hBody
  | all x s f y e he =>
    exact ⟨[(.kwExport, x), (.star, s), (.kwFrom, f), (.string, y)], e, rfl, he, by simp [hWords]⟩
  | allAs x s a n hn f y e he =>
    have hName := mem_bodyTerminals_of_name hn
    exact ⟨[(.kwExport, x), (.star, s), (.kwAs, a), n, (.kwFrom, f), (.string, y)], e, rfl, he,
      by simp [hWords, hName]⟩

theorem IsDeclaration.moduleDecl {c : Category} {ws : List Word} {v : Build ModuleItem}
    (h : IsDeclaration c ws v) : IsPhrase .moduleDecl ws v := by
  refine phrase_iff.mpr ?_
  show Forms moduleGrammar ModuleGrammar.moduleDecl _
  unfold ModuleGrammar.moduleDecl ModuleGrammar.cat
  simp only [forms_orElse, forms_cat]
  cases h with
  | bare i x e he => exact .inr (.inl ⟨_, _, phrase_importBare.mpr (.bare i x e he), rfl, rfl⟩)
  | imports i hClause f x e he =>
    exact .inl ⟨_, _, phrase_importDecl.mpr (.imports i hClause f x e he), rfl, rfl⟩
  | exports x a b hElements e he =>
    exact .inr (.inr (.inr (.inr (.inr (.inl
      ⟨_, _, phrase_namedExport.mpr (.exports x a b hElements e he), rfl, rfl⟩)))))
  | reexports x a b hElements f y e he =>
    exact .inr (.inr (.inr (.inr (.inr (.inl
      ⟨_, _, phrase_namedExport.mpr (.reexports x a b hElements f y e he), rfl, rfl⟩)))))
  | all x s f y e he =>
    exact .inr (.inr (.inr (.inr (.inr (.inr
      ⟨_, _, phrase_exportAll.mpr (.all x s f y e he), rfl, rfl⟩)))))
  | allAs x s a n hn f y e he =>
    exact .inr (.inr (.inr (.inr (.inr (.inr
      ⟨_, _, phrase_exportAll.mpr (.allAs x s a n hn f y e he), rfl, rfl⟩)))))

theorem phrase_item {ws : List Word} {v : Build (List ModuleItem)} :
    IsPhrase .item ws v ↔ (∃ s, IsPhrase .stmt ws s ∧ single (ModuleItem.stmt <$> s) = v) ∨
      (∃ d, IsPhrase .moduleDecl ws d ∧ single d = v) ∨
      ∃ x, [(.terminator, x)] = ws ∧ .ok [] = v := by
  refine phrase_iff.trans ?_
  show Forms moduleGrammar item _ ↔ _
  unfold item tok ModuleGrammar.cat
  simp only [forms_orElse, forms_map, forms_cat, forms_tok]
  constructor
  · rintro (⟨_, s, h, rfl, rfl⟩ | ⟨_, d, h, rfl, rfl⟩ | ⟨x, rfl, rfl⟩)
    · exact .inl ⟨s, h, rfl⟩
    · exact .inr (.inl ⟨d, h, rfl⟩)
    · exact .inr (.inr ⟨x, rfl, rfl⟩)
  · rintro (⟨s, h, rfl⟩ | ⟨d, h, rfl⟩ | ⟨x, rfl, rfl⟩)
    · exact .inl ⟨_, s, h, rfl, rfl⟩
    · exact .inr (.inl ⟨_, d, h, rfl, rfl⟩)
    · exact .inr (.inr ⟨x, rfl, rfl⟩)

theorem phrase_items {ws : List Word} {v : Build (List ModuleItem)} :
    IsPhrase .items ws v ↔ (∃ us xs vs ys, IsPhrase .items us xs ∧ IsPhrase .item vs ys ∧
      us ++ vs = ws ∧ append xs ys = v) ∨ IsPhrase .item ws v := by
  refine phrase_iff.trans ?_
  show Forms moduleGrammar items _ ↔ _
  unfold items plainList ModuleGrammar.cat
  simp only [forms_orElse, forms_seq, forms_map, forms_cat]
  constructor
  · rintro (⟨us, xs, hInit, vs, ys, hLast, rfl, rfl⟩ | ⟨_, _, h, rfl, rfl⟩)
    · exact .inl ⟨us, xs, vs, ys, hInit, hLast, rfl, rfl⟩
    · exact .inr h
  · rintro (⟨us, xs, vs, ys, hInit, hLast, rfl, rfl⟩ | h)
    · exact .inl ⟨us, xs, hInit, vs, ys, hLast, rfl, rfl⟩
    · exact .inr ⟨_, _, h, rfl, rfl⟩

/-- The first item of a module; where nothing follows it, it is the whole module. -/
theorem exists_first_item {ws : List Word} {v : Build (List ModuleItem)} (h : IsPhrase .items ws v) :
    ∃ us x rest, us ++ rest = ws ∧ IsPhrase .item us x ∧ (rest = [] → x = v) := by
  induction hn : ws.length using Nat.strongRecOn generalizing ws v with
  | _ n ih =>
    subst hn
    rcases phrase_items.mp h with ⟨us, xs, vs, ys, hInit, hLast, rfl, rfl⟩ | hItem
    · have hSome := List.length_pos_iff.mpr hLast.ne_nil
      obtain ⟨us, x, rest, rfl, hFirst, -⟩ := ih us.length (by simp; omega) hInit rfl
      refine ⟨us, x, rest ++ vs, by simp, hFirst, fun hRest => ?_⟩
      exact absurd (List.append_eq_nil_iff.mp hRest).2 hLast.ne_nil
    · exact ⟨ws, v, [], List.append_nil ws, hItem, fun _ => rfl⟩

-- ---------------------------------------------------------------------------------------------
-- Other phrases
-- ---------------------------------------------------------------------------------------------

/-- Terminals other than `import` and `export`. -/
def isOther (t : Terminal) : Bool := t ≠ .kwImport && t ≠ .kwExport

/-- The categories of phrases that begin with `import` only as a call and never with `export`. -/
def opensCode : Category → Bool
  | .propIdent | .exportName | .propName | .keyValuePatProp | .patProp | .patProps
  | .keyValueProp | .methodDef | .methodLike | .prop | .props
  | .classMethod | .classProp | .classItem | .classItems
  | .namedSpec | .namedSpecs | .exportSpec | .exportSpecs
  | .importDecl | .importBare | .exportDefaultDecl | .exportDefaultExpr | .exportNamedDecl
  | .namedExport | .exportAll | .moduleDecl | .item | .items => false
  | _ => true

theorem shape_opensCode {n : Category} (hn : opensCode n = true) : ∀ ss ∈ moduleGrammar.shape n,
    ss = [.tok .kwImport, .cat .arguments] ∨ ss.head?.any (startsIn opensCode isOther) = true := by
  have hAll : ∀ n ∈ Category.all, opensCode n = true → ∀ ss ∈ moduleGrammar.shape n,
      ss = [.tok .kwImport, .cat .arguments] ∨
        ss.head?.any (startsIn opensCode isOther) = true := by decide +kernel
  exact hAll n (Category.mem_all n) hn

theorem beginsIn_arguments : BeginsIn moduleGrammar (· = .arguments) (· = .lpar) := by
  intro n hn
  obtain rfl := of_decide_eq_true hn
  decide +kernel

/-- How a phrase of code begins: with some other terminal, or with `import` and a parenthesis. -/
def OpensCode (ts : List Token) : Prop :=
  ∃ a rest, ts = a :: rest ∧ (isOther a.kind = true ∨
    a.kind = .kwImport ∧ ∃ b rest', rest = b :: rest' ∧ b.kind = .lpar)

theorem OpensCode.append {ts : List Token} (h : OpensCode ts) (us : List Token) :
    OpensCode (ts ++ us) := by
  obtain ⟨a, rest, rfl, hOther | ⟨hImport, b, rest', rfl, hParen⟩⟩ := h
  · exact ⟨a, rest ++ us, rfl, .inl hOther⟩
  · exact ⟨a, b :: rest' ++ us, rfl, .inr ⟨hImport, b, rest' ++ us, rfl, hParen⟩⟩

theorem opensCode_call (f : Forest moduleGrammar [.tok .kwImport, .cat .arguments]) :
    OpensCode f.yield := by
  match f with
  | .cons _ _ (.leaf _ token hKind) (.cons _ _ arguments .nil) =>
    obtain ⟨paren, hHead, hParen⟩ := Tree.exists_head beginsIn_arguments arguments rfl
    obtain ⟨rest, hYield⟩ := List.head?_eq_some_iff.mp hHead
    refine ⟨token, paren :: rest, ?_, .inr ⟨hKind, paren, rest, rfl, of_decide_eq_true hParen⟩⟩
    rw [Forest.yield, yield_single, hYield]
    rfl

mutual

theorem Tree.opens : {s : Symbol Category} → (tree : Tree moduleGrammar s) →
    startsIn opensCode isOther s = true → OpensCode tree.yield
  | _, .leaf _ token hKind, hOk => ⟨token, [], rfl, .inl (by rw [hKind]; exact hOk)⟩
  | _, .node n i children, hGood =>
    Forest.opens children (shape_opensCode hGood _ (mem_shape n i))

theorem Forest.opens : {ss : List (Symbol Category)} → (f : Forest moduleGrammar ss) →
    ss = [.tok .kwImport, .cat .arguments] ∨ ss.head?.any (startsIn opensCode isOther) = true →
    OpensCode f.yield
  | _, f, .inl hCall => by
    subst hCall
    exact opensCode_call f
  | _, .cons _ _ tree rest, .inr hGood => by
    rw [Forest.yield]
    exact (Tree.opens tree hGood).append _

end

/-- The first two words of a statement: the first is neither `import` nor `export`, or the statement
begins with a call of `import`. -/
theorem opens_stmt {ws : List Word} {v : Build Stmt} (h : IsPhrase .stmt ws v) :
    ∃ w rest, ws = w :: rest ∧
      (isOther w.1 = true ∨ w.1 = .kwImport ∧ ∃ w' rest', rest = w' :: rest' ∧ w'.1 = .lpar) := by
  obtain ⟨tree, rfl, -⟩ := h
  obtain ⟨a, rest, hYield, hOpens⟩ := Tree.opens tree rfl
  refine ⟨a.word, rest.map Token.word, by rw [hYield, List.map_cons], hOpens.imp id ?_⟩
  rintro ⟨hImport, b, rest', rfl, hParen⟩
  exact ⟨hImport, b.word, rest'.map Token.word, rfl, hParen⟩

/-- The categories of declarations that may be exported by name. -/
def opensDeclaration : Category → Bool
  | .varDecl | .varKind | .fnDecl | .classDecl => true
  | _ => false

/-- Terminals that do not open a list of exported names or an export of everything. -/
def opensNoList (t : Terminal) : Bool := t ≠ .lbrace && t ≠ .star

theorem beginsIn_declaration : BeginsIn moduleGrammar opensDeclaration opensNoList := by
  have hAll : ∀ n ∈ Category.all, opensDeclaration n = true → ∀ ss ∈ moduleGrammar.shape n,
      ss.head?.any (startsIn opensDeclaration opensNoList) = true := by decide +kernel
  exact fun n => hAll n (Category.mem_all n)

/-- A default export begins with `export` and `default`. -/
theorem opens_exportDefault {ws : List Word} {v : Build ModuleItem}
    (h : IsPhrase .exportDefaultDecl ws v ∨ IsPhrase .exportDefaultExpr ws v) :
    ∃ x d rest, ws = (.kwExport, x) :: (.kwDefault, d) :: rest := by
  rcases h with h | h
  · have hRule : Forms moduleGrammar exportDefaultDecl _ := phrase_iff.mp h
    unfold exportDefaultDecl tok at hRule
    simp only [forms_seq, forms_seqLeft, forms_map, forms_span, forms_tok] at hRule
    obtain ⟨x, d, _, _, _, rfl, -⟩ := hRule
    exact ⟨x, d, _, rfl⟩
  · have hRule : Forms moduleGrammar exportDefaultExpr _ := phrase_iff.mp h
    unfold exportDefaultExpr tok ModuleGrammar.cat at hRule
    simp only [forms_seq, forms_seqLeft, forms_map, forms_span, forms_tok, forms_cat] at hRule
    obtain ⟨x, d, _, _, _, _, _, _, rfl, -⟩ := hRule
    exact ⟨x, d, _, rfl⟩

/-- An exported declaration begins with `export` and the beginning of the declaration. -/
theorem opens_exportNamedDecl {ws : List Word} {v : Build ModuleItem}
    (h : IsPhrase .exportNamedDecl ws v) :
    ∃ x w rest, ws = (.kwExport, x) :: w :: rest ∧ opensNoList w.1 = true := by
  have hRule : Forms moduleGrammar exportNamedDecl _ := phrase_iff.mp h
  unfold exportNamedDecl tok ModuleGrammar.cat at hRule
  simp only [forms_seq, forms_seqLeft, forms_orElse, forms_map, forms_span, forms_tok,
    forms_cat] at hRule
  obtain ⟨x, ⟨_, _, hDecl, rfl, -⟩ | ⟨_, _, hDecl, rfl, -⟩ | ⟨_, _, hDecl, rfl, -⟩⟩ := hRule
  · obtain ⟨w, rest, rfl, hw⟩ := IsPhrase.exists_head beginsIn_declaration rfl hDecl
    exact ⟨x, w, rest, rfl, hw⟩
  · obtain ⟨w, rest, rfl, hw⟩ := IsPhrase.exists_head beginsIn_declaration rfl hDecl
    exact ⟨x, w, rest, rfl, hw⟩
  · obtain ⟨w, rest, rfl, hw⟩ := IsPhrase.exists_head beginsIn_declaration rfl hDecl
    exact ⟨x, w, rest, rfl, hw⟩

/-- What else stands at the top of a module begins with `export` and what may not follow it in a
declaration of the kinds above. -/
theorem declaration_or_other {ws : List Word} {v : Build ModuleItem}
    (h : IsPhrase .moduleDecl ws v) : (∃ c, IsDeclaration c ws v) ∨
      ∃ x w rest, ws = (.kwExport, x) :: w :: rest ∧ opensNoList w.1 = true := by
  have hRule : Forms moduleGrammar moduleDecl _ := phrase_iff.mp h
  unfold moduleDecl ModuleGrammar.cat at hRule
  simp only [forms_orElse, forms_cat] at hRule
  have hDefault {us : List Word} {u : Build ModuleItem}
      (h : IsPhrase .exportDefaultDecl us u ∨ IsPhrase .exportDefaultExpr us u) :
      ∃ x w rest, us = (.kwExport, x) :: w :: rest ∧ opensNoList w.1 = true := by
    obtain ⟨x, d, rest, hWords⟩ := opens_exportDefault h
    exact ⟨x, (.kwDefault, d), rest, hWords, rfl⟩
  obtain ⟨_, _, hDecl, rfl, rfl⟩ | ⟨_, _, hDecl, rfl, rfl⟩ | ⟨_, _, hDecl, rfl, rfl⟩ |
    ⟨_, _, hDecl, rfl, rfl⟩ | ⟨_, _, hDecl, rfl, rfl⟩ | ⟨_, _, hDecl, rfl, rfl⟩ |
    ⟨_, _, hDecl, rfl, rfl⟩ := hRule
  · exact .inl ⟨_, phrase_importDecl.mp hDecl⟩
  · exact .inl ⟨_, phrase_importBare.mp hDecl⟩
  · exact .inr (hDefault (.inl hDecl))
  · exact .inr (hDefault (.inr hDecl))
  · exact .inr (opens_exportNamedDecl hDecl)
  · exact .inl ⟨_, phrase_namedExport.mp hDecl⟩
  · exact .inl ⟨_, phrase_exportAll.mp hDecl⟩

/-- The first two words of a declaration. -/
theorem IsDeclaration.opens {c : Category} {ws : List Word} {v : Build ModuleItem}
    (h : IsDeclaration c ws v) : ∃ w w' rest, ws = w :: w' :: rest ∧
      (w.1 = .kwImport ∧ w'.1 ≠ .lpar ∨ w.1 = .kwExport ∧ opensNoList w'.1 = false) := by
  cases h with
  | bare i x e he => exact ⟨_, _, _, rfl, .inl ⟨rfl, by simp⟩⟩
  | imports i hClause f x e he =>
    obtain ⟨w, rest, rfl, hw⟩ := hClause.exists_head
    refine ⟨_, w, _, rfl, .inl ⟨rfl, fun hParen => ?_⟩⟩
    rw [hParen] at hw
    exact absurd hw (by decide)
  | exports x a b hElements e he => exact ⟨_, _, _, rfl, .inr ⟨rfl, rfl⟩⟩
  | reexports x a b hElements f y e he => exact ⟨_, _, _, rfl, .inr ⟨rfl, rfl⟩⟩
  | all x s f y e he => exact ⟨_, _, _, rfl, .inr ⟨rfl, rfl⟩⟩
  | allAs x s a n hn f y e he => exact ⟨_, _, _, rfl, .inr ⟨rfl, rfl⟩⟩

/-- An end is not found in the body of a declaration, so one that begins another is all of it. -/
theorem IsDeclaration.eq_nil_of_append {c c' : Category} {us rest : List Word}
    {v v' : Build ModuleItem} (h : IsDeclaration c (us ++ rest) v) (h' : IsDeclaration c' us v') :
    rest = [] := by
  obtain ⟨front, e, hWords, -, hBody⟩ := h.exists_end
  obtain ⟨front', e', rfl, hEnd, -⟩ := h'.exists_end
  have hApart : ∀ t ∈ endTerminals, t ∉ bodyTerminals := by decide
  rcases List.eq_nil_or_concat rest with rfl | ⟨rest, z, rfl⟩
  · rfl
  have hFront : front' ++ [e'] ++ rest = front := by
    rw [List.concat_eq_append, ← List.append_assoc] at hWords
    exact (List.append_inj' hWords rfl).1
  have hMem : e' ∈ front := by
    rw [← hFront]
    simp
  exact absurd (hBody e' hMem) (hApart _ hEnd)

/-- Where the words of a declaration begin with an item, the item is the whole declaration. -/
theorem IsDeclaration.of_item {c : Category} {us rest : List Word} {v : Build ModuleItem}
    (h : IsDeclaration c (us ++ rest) v) {x : Build (List ModuleItem)} (hItem : IsPhrase .item us x) :
    rest = [] ∧ x = single v := by
  obtain ⟨w, w', ws, hWords, hOpens⟩ := h.opens
  rcases phrase_item.mp hItem with ⟨s, hStmt, rfl⟩ | ⟨d, hDecl, rfl⟩ | ⟨t, rfl, rfl⟩
  · obtain ⟨a, as, rfl, hOther | ⟨hImport, b, bs, rfl, hParen⟩⟩ := opens_stmt hStmt
    · obtain rfl : a = w := (List.cons.inj hWords).1
      rcases hOpens with ⟨hKind, -⟩ | ⟨hKind, -⟩ <;>
        · rw [hKind] at hOther
          cases hOther
    · obtain ⟨rfl, hTail⟩ : a = w ∧ _ := List.cons.inj hWords
      obtain rfl : b = w' := (List.cons.inj hTail).1
      rcases hOpens with ⟨-, hNot⟩ | ⟨hKind, -⟩
      · exact absurd hParen hNot
      · rw [hKind] at hImport
        cases hImport
  · rcases declaration_or_other hDecl with ⟨c', hDecl⟩ | ⟨y, b, bs, rfl, hNoList⟩
    · obtain rfl := h.eq_nil_of_append hDecl
      rw [List.append_nil] at h
      exact ⟨rfl, by rw [h.value, hDecl.value]⟩
    · obtain ⟨rfl, hTail⟩ : (.kwExport, y) = w ∧ _ := List.cons.inj hWords
      obtain rfl : b = w' := (List.cons.inj hTail).1
      rcases hOpens with ⟨hKind, -⟩ | ⟨-, hList⟩
      · cases hKind
      · rw [hNoList] at hList
        cases hList
  · obtain rfl : (.terminator, t) = w := (List.cons.inj hWords).1
    rcases hOpens with ⟨hKind, -⟩ | ⟨hKind, -⟩ <;> cases hKind

/-- A declaration is a module. -/
theorem IsDeclaration.items {c : Category} {ws : List Word} {v : Build ModuleItem}
    (h : IsDeclaration c ws v) : IsPhrase .items ws (single v) :=
  phrase_items.mpr (.inr (phrase_item.mpr (.inr (.inl ⟨v, h.moduleDecl, rfl⟩))))

/-- A module with the words of a declaration is this declaration and nothing else. -/
theorem IsDeclaration.unique {c : Category} {ws : List Word} {v : Build ModuleItem}
    (h : IsDeclaration c ws v) {x : Build (List ModuleItem)} (hItems : IsPhrase .items ws x) :
    x = single v := by
  obtain ⟨us, y, rest, rfl, hItem, hWhole⟩ := exists_first_item hItems
  obtain ⟨hRest, rfl⟩ := h.of_item hItem
  exact (hWhole hRest).symm

end ClientBoundary
