import ClientBoundary.Proofs.Compilation
import ClientBoundary.Proofs.PrintedDeclarations

/-!
# Imports in any spelling

The source of an import is a string literal, and the names that it takes may be strings too. One
source or name can be written in many ways. The checks look at what is meant: an import is accepted
however it is spelled, and the reports on it are those on its source and its names.

* `SpecifierText`, `ImportText` — the spellings of a name and of an import.
* `importReports` — what an import of names from a source is told.
* `respelled_import_is_checked` — a spelling hides nothing.
-/

namespace ClientBoundary

open Grammar

open Erasure (plain)

-- ---------------------------------------------------------------------------------------------
-- Spellings
-- ---------------------------------------------------------------------------------------------

/-- How a name is written in the braces of an import: as a word or as a string literal, and then with
a local name, or as the local name that it is. -/
inductive SpecifierText (name : Text) : Text → Prop where
  | same (h : IsLocalName name) : SpecifierText name name
  | word (h : Pattern.IsWord name) {x : Text} (hx : IsLocalName x) :
      SpecifierText name (name ++ " as " ++ x)
  | string {raw : Text} (h : SpellingOf name raw) {x : Text} (hx : IsLocalName x) :
      SpecifierText name (raw ++ " as " ++ x)

/-- How an import of names from a source is written; a default may stand before the names, and where
there are none, the source may stand alone. -/
inductive ImportText (source : Text) : List Text → Text → Prop where
  | bare {raw : Text} (h : SpellingOf source raw) : ImportText source [] ("import " ++ raw ++ ";")
  | named {names texts : List Text} (hNames : List.Forall₂ SpecifierText names texts) {raw : Text}
      (h : SpellingOf source raw) :
      ImportText source names ("import " ++ Printer.inlineBraces texts ++ " from " ++ raw ++ ";")
  | both {x : Text} (hx : IsLocalName x) {names texts : List Text}
      (hNames : List.Forall₂ SpecifierText names texts) {raw : Text} (h : SpellingOf source raw) :
      ImportText source names
        ("import " ++ (x ++ ", " ++ Printer.inlineBraces texts) ++ " from " ++ raw ++ ";")

/-- The name that a specifier takes from the source. -/
def ImportSpecifier.imported (a : ImportSpecifier) : Text := (ImportedName.ofSpecifier a).name

theorem imported_plain (a : ImportSpecifier) : (plain.importSpecifier a).imported = a.imported := by
  match a with
  | .named _ none _ => rfl
  | .named _ (some (.ident _)) _ => rfl
  | .named _ (some (.str _)) _ => rfl
  | .default _ _ => rfl
  | .starAs _ _ => rfl

/-- A name in any spelling is a specifier that takes this name. -/
theorem SpecifierText.laid {name text : Text} (h : SpecifierText name text) :
    ∃ a, Laid IsImportSpec plain.importSpecifier text a ∧ a.imported = name := by
  cases h with
  | same h => exact ⟨_, .importPlain h {} {}, rfl⟩
  | word h hx =>
    have hName := Glyph.names_word (i := ⟨name, {}⟩) h
    exact ⟨_, .importRenamed hName hx {} {}, rfl⟩
  | string h hx =>
    have hName := Glyph.names_string (l := ⟨name, none, {}⟩) h.isLiteral
    exact ⟨_, .importRenamed hName hx {} {}, rfl⟩

theorem exists_specifiers {names texts : List Text} (h : List.Forall₂ SpecifierText names texts) :
    ∃ as, List.Forall₂ (Laid IsImportSpec plain.importSpecifier) texts as ∧
      as.map ImportSpecifier.imported = names := by
  induction h with
  | nil => exact ⟨[], .nil, rfl⟩
  | cons hFirst _ ih =>
    obtain ⟨a, hLaid, hName⟩ := hFirst.laid
    obtain ⟨as, hLaids, hNames⟩ := ih
    exact ⟨a :: as, .cons hLaid hLaids, by rw [List.map_cons, hName, hNames]⟩

/-- An import in any spelling declares an import from its source that takes its names, and nothing
but perhaps a default besides. -/
theorem ImportText.declaredBy {source text : Text} {names : List Text}
    (h : ImportText source names text) :
    ∃ as src, DeclaredBy text (.importDecl as src {}) ∧ src.value = source ∧
      (as.map ImportSpecifier.imported = names ∨ as.map ImportSpecifier.imported = [] :: names) := by
  let src : StrLit := ⟨source, none, {}⟩
  cases h with
  | @bare raw h =>
    have hLiteral : IsLiteral raw src.value := h.isLiteral
    exact ⟨[], src, .bareImport hLiteral {}, rfl, .inl rfl⟩
  | @named names texts hNames raw h =>
    have hLiteral : IsLiteral raw src.value := h.isLiteral
    obtain ⟨as, hLaids, hImported⟩ := exists_specifiers hNames
    exact ⟨as, src, .imports (Laid.importNames hLaids).importBinding hLiteral {}, rfl, .inl hImported⟩
  | @both x hx names texts hNames raw h =>
    have hLiteral : IsLiteral raw src.value := h.isLiteral
    obtain ⟨as, hLaids, hImported⟩ := exists_specifiers hNames
    have hClause := Laid.importBoth hx (Laid.importNames hLaids) {} {}
    refine ⟨_, src, .imports hClause hLiteral {}, rfl, .inr ?_⟩
    rw [List.map_cons, hImported]
    rfl

-- ---------------------------------------------------------------------------------------------
-- Reports
-- ---------------------------------------------------------------------------------------------

/-- A diagnostic without its place. -/
def Diagnostic.unplaced (d : Diagnostic) : Diagnostic := { d with span := {} }

/-- What an import of names from a source is told in a graph: first about the source, then about each
denied name. -/
def importReports (target : Target) (source : Text) (names : List Text) : List Diagnostic :=
  (if (forbiddenSources target).contains source then [importReport target source {}] else []) ++
    (names.filter (deniedNames target source).2.contains).map fun name =>
      apiReport (deniedNames target source).1 name {}

theorem Imports.eq_imported {a : ImportSpecifier} {name : Text} {span : Span}
    (h : Imports a name span) : name = a.imported := by
  cases h <;> rfl

theorem SpecifierReports.unplaced {library : Text} {denied : List Text}
    {as : List ImportSpecifier} {reports : List Diagnostic}
    (h : SpecifierReports library denied as reports) :
    reports.map Diagnostic.unplaced =
      ((as.map ImportSpecifier.imported).filter denied.contains).map fun name =>
        apiReport library name {} := by
  induction h with
  | nil => rfl
  | deny hName hDenied _ ih =>
    rw [hName.eq_imported] at hDenied ⊢
    rw [List.map_cons, List.map_cons, List.filter_cons_of_pos (by simpa using hDenied),
      List.map_cons, ih]
    rfl
  | allow hName hAllowed _ ih =>
    rw [hName.eq_imported] at hAllowed
    rw [List.map_cons, List.filter_cons_of_neg (by simpa using hAllowed), ih]

/-- No graph denies the empty name, which stands for a default. -/
theorem nil_notMem_deniedNames (target : Target) (source : Text) :
    [] ∉ (deniedNames target source).2 := by
  have hReact : [] ∉ Denylist.reactNames := by decide +kernel
  have hReactDom : [] ∉ Denylist.reactDomNames := by decide +kernel
  unfold deniedNames
  split
  · exact hReact
  · split
    · exact hReactDom
    · exact List.not_mem_nil

theorem importReports_default (target : Target) (source : Text) (names : List Text) :
    importReports target source ([] :: names) = importReports target source names := by
  rw [importReports, List.filter_cons_of_neg (by simpa using nil_notMem_deniedNames target source),
    importReports]

theorem ItemReports.unplaced {target : Target} {as : List ImportSpecifier} {src : StrLit}
    {span : Span} {reports : List Diagnostic} (h : ItemReports target (.importDecl as src span) reports) :
    reports.map Diagnostic.unplaced =
      importReports target src.value (as.map ImportSpecifier.imported) := by
  cases h with
  | importDecl hNames =>
    rw [List.map_append, hNames.unplaced, importReports]
    congr 1
    by_cases hSource : src.value ∈ forbiddenSources target
    · rw [if_pos hSource, if_pos (by simpa using hSource)]
      rfl
    · rw [if_neg hSource, if_neg (by simpa using hSource)]
      rfl
  | other hOther => exact absurd rfl (hOther as src span)

-- ---------------------------------------------------------------------------------------------
-- Compiling
-- ---------------------------------------------------------------------------------------------

/-- Compiling a module that is one import reports on this import. -/
theorem compileModule_import {m : Module} {as : List ImportSpecifier} {src : StrLit} {span : Span}
    (hBody : m.body = [.importDecl as src span]) {config : Config} (hOn : config ≠ .all false)
    (filename : Text) (comments : CommentTable) (sink : DiagnosticSink) :
    ∃ reports, (compileModule config filename m comments sink).sink.diagnostics =
        sink.diagnostics ++ reports ∧
      reports.map Diagnostic.unplaced =
        importReports config.target src.value (as.map ImportSpecifier.imported) := by
  have hBoundary : ¬ (config.target = .server ∧ m.isClientBoundary = true) := by
    rw [Module.isClientBoundary, Module.prologue, hBody]
    simp [ModuleItem.isDirective, ModuleItem.directive?]
  rw [show compileModule config filename m comments sink =
    compileFor config.target filename m comments sink from if_pos (enabled_of_ne hOn)]
  obtain ⟨reports, hReports, hCheck⟩ := checkImports_items config.target m.body
  rw [hBody] at hReports
  cases hReports with
  | @cons _ itemReports _ rest hItem hRest =>
    cases hRest
    refine ⟨itemReports, ?_, hItem.unplaced⟩
    rw [(compileFor_other hBoundary).2.2, hCheck]
    simp

/-- Respelling an import cannot hide it from validation: in any spelling of its source and its names it
is accepted as a module, and the reports on the module are those on the source and on the denied
names, with the same texts in the same order. -/
theorem respelled_import_is_checked (source : Text) (names : List Text) (text : Text)
    (h : ImportText source names text) (file : Option Text) :
    ∃ parsed, parseModule text file = .ok parsed ∧
      ∀ config, config ≠ .all false → ∀ filename sink, ∃ reports,
        (compileModule config filename parsed.module parsed.comments sink).sink.diagnostics =
          sink.diagnostics ++ reports ∧
        reports.map Diagnostic.unplaced =
          importReports (if IsServer config then .server else .client) source names := by
  obtain ⟨as, src, hDeclared, hSource, hNames⟩ := h.declaredBy
  obtain ⟨parsed, hParsed, hBody⟩ := hDeclared.parse rfl file
  obtain ⟨as', src', span, hItem, hValue, hSame⟩ :
      ∃ as' src' span, parsed.module.body = [.importDecl as' src' span] ∧ src'.value = source ∧
        as'.map ImportSpecifier.imported = as.map ImportSpecifier.imported := by
    obtain ⟨i, hi, hPlain⟩ := List.map_eq_singleton_iff.mp hBody
    cases i with
    | importDecl as' src' span =>
      obtain ⟨hSpecifiers, hSrc, -⟩ := ModuleItem.importDecl.inj hPlain
      refine ⟨as', src', span, hi, (StrLit.mk.inj hSrc).1.trans hSource, ?_⟩
      have hImported := congrArg (List.map ImportSpecifier.imported) hSpecifiers
      simpa only [List.map_map, Function.comp_def, imported_plain] using hImported
    | _ => cases hPlain
  refine ⟨parsed, hParsed, fun config hOn filename sink => ?_⟩
  obtain ⟨reports, hReports, hTexts⟩ := compileModule_import hItem hOn filename parsed.comments sink
  refine ⟨reports, hReports, ?_⟩
  rw [hTexts, ← target_eq_ite hOn, hValue, hSame]
  rcases hNames with hNames | hNames
  · rw [hNames]
  · rw [hNames, importReports_default]

/-- A denied name with an escape in it, taken under another name from a source with an escape in it. -/
theorem escaped_import_is_checked :
    ImportText "react" ["useRef"] "import \x7b 'use\\x52ef' as from \x7d from \"\\u\x7b72\x7deact\";" ∧
    ∃ parsed, parseModule "import \x7b 'use\\x52ef' as from \x7d from \"\\u\x7b72\x7deact\";" none =
        .ok parsed ∧
      ∀ config, config ≠ .all false → ∀ filename sink, ∃ reports,
        (compileModule config filename parsed.module parsed.comments sink).sink.diagnostics =
          sink.diagnostics ++ reports ∧
        reports.map Diagnostic.unplaced =
          if IsServer config then [apiReport "React" "useRef" {}] else [] := by
  have hPlain {quote c : Char} (hc : c ∉ [quote, '\\', '\n']) :
      WrittenAs quote (.char c) [.char c] := by
    refine ⟨.plain _ ?_, ?_, ?_⟩ <;> simp_all
  have hName : SpellingOf "useRef" "'use\\x52ef'" := by
    refine ⟨'\'', by decide, ["u", "s", "e", "\\x52", "e", "f"], ?_, by decide +kernel⟩
    exact .cons (hPlain (by decide)) (.cons (hPlain (by decide)) (.cons (hPlain (by decide))
      (.cons ⟨.two "52" _ ⟨by decide, by decide⟩ rfl, by decide, by decide⟩
        (.cons (hPlain (by decide)) (.cons (hPlain (by decide)) .nil)))))
  have hSource : SpellingOf "react" "\"\\u\x7b72\x7deact\"" := by
    refine ⟨'"', by decide, ["\\u\x7b72\x7d", "e", "a", "c", "t"], ?_, by decide +kernel⟩
    exact .cons ⟨.braced "72" _ ⟨by decide, by decide⟩ (by decide), by decide, by decide⟩
      (.cons (hPlain (by decide)) (.cons (hPlain (by decide)) (.cons (hPlain (by decide))
        (.cons (hPlain (by decide)) .nil))))
  have hAlias : IsLocalName "from" := ⟨by decide, by decide⟩
  have hText := ImportText.named (.cons (.string hName hAlias) .nil) hSource
  obtain ⟨parsed, hParsed, hReports⟩ := respelled_import_is_checked _ _ _ hText none
  refine ⟨hText, parsed, hParsed, fun config hOn filename sink => ?_⟩
  obtain ⟨reports, hSink, hTexts⟩ := hReports config hOn filename sink
  refine ⟨reports, hSink, hTexts.trans ?_⟩
  split
  · decide +kernel
  · decide +kernel

end ClientBoundary
