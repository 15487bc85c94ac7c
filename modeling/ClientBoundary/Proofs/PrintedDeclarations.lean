import ClientBoundary.Ast.Printer
import ClientBoundary.Proofs.PropertyTokens
import ClientBoundary.Proofs.WordLines

/-!
# Printed imports and re-exports

What the printer writes for an import, a list of exported names or an export of everything is a line,
and the words of the line are those of the declaration. So the printed text is read back as the same
declaration, however its names are spelled and whatever words of the language they are.

* `Laid` — a text on a line, and what its words say.
* `Laid.separated`, `Laid.braced` — texts with commas between them, and in braces.
* `DeclaredBy`, `DeclaredBy.parse` — a line that declares an item is read as this item.
* `printed_declaration_reads_back` — the same for what the printer writes.
-/

namespace ClientBoundary

open Grammar ModuleGrammar

/-- The erasure of spans and of the forms that literals were written in. -/
abbrev Erasure.plain : Erasure := { raws := true }

open Erasure (plain)

-- ---------------------------------------------------------------------------------------------
-- Texts on a line
-- ---------------------------------------------------------------------------------------------

/-- After a blank the text is made of words of the kind `E`, and they say `a` up to what `erase` leaves
out. -/
def Laid {α : Type} (E : List Word → Build α → Prop) (erase : α → α) (text : Text) (a : α) : Prop :=
  ∃ line, (∀ g ∈ line, g.Fits) ∧ lineText line = .char ' ' :: text ∧
    ∃ b, E (lineWords line) (.ok b) ∧ erase b = erase a

/-- A word after a blank. -/
def Glyph.word (x : Text) : Glyph := ⟨true, Terminal.ofWord x, x⟩

/-- A string literal after a blank. -/
def Glyph.string (x : Text) : Glyph := ⟨true, .string, x⟩

theorem fits_mark (spaced : Bool) {text : String} {kind : Terminal} (h : (text, kind) ∈ marks) :
    (⟨spaced, kind, text⟩ : Glyph).Fits := .mark spaced h

theorem ofWord_import : Terminal.ofWord "import" = .kwImport := by decide +kernel

theorem ofWord_export : Terminal.ofWord "export" = .kwExport := by decide +kernel

theorem lineWords_as (line : List Glyph) :
    lineWords (.word "as" :: line) = (.kwAs, Text.ofString "as") :: lineWords line := by
  rw [lineWords_cons, Glyph.word, show Terminal.ofWord "as" = .kwAs by decide +kernel]

section Lists

variable {α : Type} {E : List Word → Build α → Prop} {erase : α → α}

theorem Laid.imp {β : Type} {E' : List Word → Build β → Prop} {erase' : β → β} {text : Text} {a : α}
    {b : β} {f : α → β} (h : Laid E erase text a) (hE : ∀ ws x, E ws (.ok x) → E' ws (.ok (f x)))
    (hErase : ∀ x, erase x = erase a → erase' (f x) = erase' b) : Laid E' erase' text b := by
  obtain ⟨line, hFits, hText, x, hx, hSame⟩ := h
  exact ⟨line, hFits, hText, f x, hE _ _ hx, hErase x hSame⟩

/-- One more element in front of a list. -/
theorem Separated.cons {us vs : List Word} {x : α} {v : Build (List α)} (c : Text)
    (hFirst : E us (.ok x)) (h : Separated E vs v) :
    Separated E (us ++ (.comma, c) :: vs) (append (.ok [x]) v) := by
  induction h with
  | one hOne =>
    rw [← show single (.ok x) = .ok [x] from rfl, ← snoc_eq_append]
    exact .more c (.one hFirst) hOne
  | @more us' vs' xs y c' _ hLast ih =>
    have hValue : append (.ok [x]) (snoc xs y) = snoc (append (.ok [x]) xs) y := by
      cases xs with
      | error e => rfl
      | ok xs => cases y <;> rfl
    have hWords : us ++ (.comma, c) :: (us' ++ (.comma, c') :: vs') =
        (us ++ (.comma, c) :: us') ++ (.comma, c') :: vs' := by simp
    rw [hValue, hWords]
    exact .more c' ih hLast

/-- Texts with commas between them. -/
theorem Laid.separated {texts : List Text} {as : List α} (hSome : as ≠ [])
    (h : List.Forall₂ (Laid E erase) texts as) :
    Laid (Separated E) (List.map erase) (Printer.commas texts) as := by
  induction h with
  | nil => exact absurd rfl hSome
  | @cons text a texts as hFirst hRest ih =>
    cases hRest with
    | nil => exact hFirst.imp (f := fun x => [x]) (fun _ _ hx => .one hx) fun x hx => by simp [hx]
    | @cons text' a' texts as hSecond hRest =>
      obtain ⟨line, hFits, hText, x, hx, hSame⟩ := hFirst
      obtain ⟨line', hFits', hText', xs, hxs, hSames⟩ := ih (by simp)
      refine ⟨line ++ ⟨false, .comma, ","⟩ :: line', ?_, ?_, x :: xs, ?_, ?_⟩
      · simp only [List.forall_mem_append, List.forall_mem_cons]
        exact ⟨hFits, fits_mark false (by decide), hFits'⟩
      · rw [lineText_append, lineText_cons, hText, hText']
        simp [Printer.commas, Text.join, Text.ofString]
      · rw [lineWords_append]
        exact .cons _ hx hxs
      · rw [List.map_cons, List.map_cons, hSame, hSames]

/-- A list in braces. -/
def Braced (E : List Word → Build α → Prop) (ws : List Word) (v : Build (List α)) : Prop :=
  ∃ a b us, Elements E us v ∧ ws = (.lbrace, a) :: (us ++ [(.rbrace, b)])

/-- Texts in braces. -/
theorem Laid.braced {texts : List Text} {as : List α} (h : List.Forall₂ (Laid E erase) texts as) :
    Laid (Braced E) (List.map erase) (Printer.inlineBraces texts) as := by
  by_cases hSome : as = []
  · subst hSome
    cases h
    refine ⟨[⟨true, .lbrace, "\x7b"⟩, ⟨false, .rbrace, "\x7d"⟩], ?_, by decide, [], ?_, rfl⟩
    · simpa using ⟨fits_mark true (by decide), fits_mark false (by decide)⟩
    · exact ⟨_, _, [], .none, rfl⟩
  · have hTexts : texts ≠ [] := by
      rintro rfl
      cases h
      exact hSome rfl
    obtain ⟨line, hFits, hText, xs, hxs, hSame⟩ := Laid.separated hSome h
    refine ⟨⟨true, .lbrace, "\x7b"⟩ :: (line ++ [⟨true, .rbrace, "\x7d"⟩]), ?_, ?_, xs, ?_, hSame⟩
    · simp only [List.forall_mem_append, List.forall_mem_cons]
      exact ⟨fits_mark true (by decide), hFits, fits_mark true (by decide), List.forall_mem_nil _⟩
    · have hBraces : Printer.inlineBraces texts =
          Text.ofString "\x7b " ++ Printer.commas texts ++ Text.ofString " \x7d" := by
        cases texts with
        | nil => exact absurd rfl hTexts
        | cons t ts => rfl
      rw [lineText_cons, lineText_append, hText, lineText_cons, hBraces]
      simp [Text.ofString, lineText, linePieces, spell]
    · refine ⟨"\x7b", "\x7d", lineWords line, .some hxs, ?_⟩
      rw [lineWords, List.map_cons, List.map_append]
      rfl

end Lists

-- ---------------------------------------------------------------------------------------------
-- Names
-- ---------------------------------------------------------------------------------------------

/-- A word that can be the name of something local. -/
structure IsLocalName (x : Text) : Prop where
  word : Pattern.IsWord x
  admitted : Terminal.ofWord x ∈ identTerminals

/-- A text is a string literal for a value. -/
structure IsLiteral (x value : Text) : Prop where
  token : Pattern.string x = some x.length
  decoded : StringLiteral.value x = .ok value

/-- A string has no written form, or one that is a literal for its value. -/
def StrLit.Sound (l : StrLit) : Prop := ∀ raw ∈ l.raw, IsLiteral raw l.value

/-- The name of an export is any word or a string. -/
inductive ExportName.Sound : ExportName → Prop where
  | ident (i : Ident) (h : Pattern.IsWord i.sym) : Sound (.ident i)
  | str (l : StrLit) (h : l.Sound) : Sound (.str l)

theorem IsLiteral.strOf_eq {x value : Text} (h : IsLiteral x value) :
    strOf x = .ok ⟨value, some x, {}⟩ := by
  show makeStr {} (Word.bare (.string, x)) = _
  rw [makeStr, show (Word.bare (.string, x)).text = x from rfl, h.decoded]
  rfl

theorem SpellingOf.isLiteral {value raw : Text} (h : SpellingOf value raw) : IsLiteral raw value where
  token := by simpa using h.string []
  decoded := h.decoded

/-- A printed string is a literal for its value. -/
theorem StrLit.Sound.printed {l : StrLit} (h : l.Sound) : IsLiteral (Printer.str l) l.value := by
  cases hRaw : l.raw with
  | some raw =>
    rw [Printer.str, hRaw]
    exact h raw hRaw
  | none =>
    rw [Printer.str, hRaw]
    exact (spellingOf_quoted l.value).isLiteral

/-- A word of a line that names an export. -/
structure Glyph.Names (g : Glyph) (n : ExportName) : Prop where
  fits : g.Fits
  spaced : g.spaced = true
  kind : g.kind ∈ nameTerminals
  value : ∃ m, exportNameOf (g.kind, g.text) = .ok m ∧ plain.exportName m = plain.exportName n

theorem Glyph.names_word {i : Ident} (h : Pattern.IsWord i.sym) :
    (Glyph.word i.sym).Names (.ident i) where
  fits := .word h
  spaced := rfl
  kind := List.mem_cons_of_mem _ (Terminal.ofWord_mem i.sym)
  value := by
    have hString : Terminal.ofWord i.sym ≠ .string := by
      have hAll : Terminal.string ∉ propIdentTerminals := by decide
      exact fun hEq => hAll (hEq ▸ Terminal.ofWord_mem i.sym)
    exact ⟨.ident ⟨i.sym, {}⟩, if_neg hString, rfl⟩

theorem Glyph.names_string {x : Text} {l : StrLit} (h : IsLiteral x l.value) :
    (Glyph.string x).Names (.str l) where
  fits := .string h.token
  spaced := rfl
  kind := List.mem_cons_self
  value := by
    refine ⟨.str ⟨l.value, some x, {}⟩, ?_, rfl⟩
    show ExportName.str <$> strOf x = _
    rw [h.strOf_eq]
    rfl

/-- A printed name is a word of a line. -/
theorem ExportName.Sound.printed {n : ExportName} (h : n.Sound) :
    ∃ g : Glyph, g.text = Printer.exportName n ∧ g.Names n := by
  cases h with
  | ident i hWord => exact ⟨.word i.sym, rfl, Glyph.names_word hWord⟩
  | str l hSound => exact ⟨.string (Printer.str l), rfl, Glyph.names_string hSound.printed⟩

-- ---------------------------------------------------------------------------------------------
-- Specifiers
-- ---------------------------------------------------------------------------------------------

/-- A name as it is. -/
theorem Laid.importPlain {x : Text} (h : IsLocalName x) (s t : Span) :
    Laid IsImportSpec plain.importSpecifier x (.named ⟨x, s⟩ none t) := by
  refine ⟨[.word x], ?_, ?_, _, .plain (Terminal.ofWord x, x) h.admitted, rfl⟩
  · exact List.forall_mem_singleton.mpr (.word h.word)
  · simp [Glyph.word, Text.ofString]

/-- A name with a local name after it. -/
theorem Laid.importRenamed {g : Glyph} {n : ExportName} (hg : g.Names n) {x : Text}
    (h : IsLocalName x) (s t : Span) :
    Laid IsImportSpec plain.importSpecifier (g.text ++ " as " ++ x) (.named ⟨x, s⟩ (some n) t) := by
  obtain ⟨m, hm, hSame⟩ := hg.value
  refine ⟨[g, .word "as", .word x], ?_, ?_, .named ⟨x, {}⟩ (some m) {}, ?_, ?_⟩
  · simp only [List.forall_mem_cons]
    exact ⟨hg.fits, .word (by decide), .word h.word, List.forall_mem_nil _⟩
  · simp [Glyph.word, hg.spaced, Text.ofString]
  · have hSpec := IsImportSpec.renamed (g.kind, g.text) "as" (Terminal.ofWord x, x) hg.kind h.admitted
    rw [hm] at hSpec
    rw [lineWords_cons, lineWords_as]
    exact hSpec
  · exact congrArg (fun n => ImportSpecifier.named ⟨x, {}⟩ (some n) {}) hSame

/-- An exported name as it is. -/
theorem Laid.exportPlain {g : Glyph} {n : ExportName} (hg : g.Names n) (s : Span) :
    Laid IsExportSpec plain.exportSpecifier g.text ⟨n, none, s⟩ := by
  obtain ⟨m, hm, hSame⟩ := hg.value
  refine ⟨[g], List.forall_mem_singleton.mpr hg.fits, ?_, ⟨m, none, {}⟩, ?_, ?_⟩
  · simp [hg.spaced, Text.ofString]
  · have hSpec := IsExportSpec.plain (g.kind, g.text) hg.kind
    rw [hm] at hSpec
    exact hSpec
  · exact congrArg (fun n => ExportSpecifier.mk n none {}) hSame

/-- An exported name with another name outside. -/
theorem Laid.exportRenamed {g g' : Glyph} {n n' : ExportName} (hg : g.Names n) (hg' : g'.Names n')
    (s : Span) :
    Laid IsExportSpec plain.exportSpecifier (g.text ++ " as " ++ g'.text) ⟨n, some n', s⟩ := by
  obtain ⟨m, hm, hSame⟩ := hg.value
  obtain ⟨m', hm', hSame'⟩ := hg'.value
  refine ⟨[g, .word "as", g'], ?_, ?_, ⟨m, some m', {}⟩, ?_, ?_⟩
  · simp only [List.forall_mem_cons]
    exact ⟨hg.fits, .word (by decide), hg'.fits, List.forall_mem_nil _⟩
  · simp [Glyph.word, hg.spaced, hg'.spaced, Text.ofString]
  · have hSpec := IsExportSpec.renamed (g.kind, g.text) "as" (g'.kind, g'.text) hg.kind hg'.kind
    rw [hm, hm'] at hSpec
    rw [lineWords_cons, lineWords_as]
    exact hSpec
  · simp only [Erasure.exportSpecifier, Option.map_some, hSame, hSame']

-- ---------------------------------------------------------------------------------------------
-- What an import binds
-- ---------------------------------------------------------------------------------------------

section Clauses

variable {text x : Text} {as : List ImportSpecifier}

/-- Names in braces. -/
theorem Laid.importNames {texts : List Text}
    (h : List.Forall₂ (Laid IsImportSpec plain.importSpecifier) texts as) :
    Laid IsBinding (List.map plain.importSpecifier) (Printer.inlineBraces texts) as := by
  refine (Laid.braced h).imp (f := id) ?_ fun _ hx => hx
  rintro ws x ⟨a, b, us, hElements, rfl⟩
  exact .braces a b hElements

/-- The name space of the module. -/
theorem Laid.importStar (h : IsLocalName x) (s t : Span) :
    Laid IsBinding (List.map plain.importSpecifier) ("* as " ++ x) [.starAs ⟨x, s⟩ t] := by
  refine ⟨[⟨true, .star, "*"⟩, .word "as", .word x], ?_, ?_, [.starAs ⟨x, {}⟩ {}], ?_, rfl⟩
  · simp only [List.forall_mem_cons]
    exact ⟨fits_mark true (by decide), .word (by decide), .word h.word, List.forall_mem_nil _⟩
  · simp [Glyph.word, Text.ofString]
  · rw [lineWords_cons, lineWords_as]
    exact .star "*" "as" (Terminal.ofWord x, x) h.admitted

theorem Laid.importBinding (h : Laid IsBinding (List.map plain.importSpecifier) text as) :
    Laid IsClause (List.map plain.importSpecifier) text as :=
  h.imp (f := id) (fun _ _ => .binding) fun _ hx => hx

/-- A default alone. -/
theorem Laid.importDefault (h : IsLocalName x) (s t : Span) :
    Laid IsClause (List.map plain.importSpecifier) x [.default ⟨x, s⟩ t] := by
  refine ⟨[.word x], List.forall_mem_singleton.mpr (.word h.word), ?_, _,
    .default (Terminal.ofWord x, x) h.admitted, rfl⟩
  simp [Glyph.word, Text.ofString]

/-- A default and more. -/
theorem Laid.importBoth (h : IsLocalName x)
    (hMore : Laid IsBinding (List.map plain.importSpecifier) text as) (s t : Span) :
    Laid IsClause (List.map plain.importSpecifier) (x ++ ", " ++ text) (.default ⟨x, s⟩ t :: as) := by
  obtain ⟨line, hFits, hText, xs, hxs, hSame⟩ := hMore
  refine ⟨.word x :: ⟨false, .comma, ","⟩ :: line, ?_, ?_, .default ⟨x, {}⟩ {} :: xs, ?_, ?_⟩
  · simp only [List.forall_mem_cons]
    exact ⟨.word h.word, fits_mark false (by decide), hFits⟩
  · rw [lineText_cons, lineText_cons, hText]
    simp [Glyph.word, Text.ofString]
  · exact .both (Terminal.ofWord x, x) h.admitted "," hxs
  · rw [List.map_cons, List.map_cons, hSame]
    rfl

end Clauses

-- ---------------------------------------------------------------------------------------------
-- Declarations
-- ---------------------------------------------------------------------------------------------

/-- The text is a line of words that declare the item, up to its spans and the forms of its
literals. -/
def DeclaredBy (text : Text) (item : ModuleItem) : Prop :=
  ∃ x line c item', Pattern.IsWord x ∧ (∀ g ∈ line, g.Fits) ∧ text = x ++ lineText line ∧
    IsDeclaration c ((Terminal.ofWord x, x) :: lineWords line) (.ok item') ∧
    plain.item item' = plain.item item

/-- The source of a declaration and its end. -/
def sourceLine (x : Text) : List Glyph := [.word "from", .string x, ⟨false, .semi, ";"⟩]

theorem fits_source {x value : Text} (h : IsLiteral x value) : ∀ g ∈ sourceLine x, g.Fits := by
  simp only [sourceLine, List.forall_mem_cons]
  exact ⟨.word (by decide), .string h.token, fits_mark false (by decide), List.forall_mem_nil _⟩

theorem lineWords_source (x : Text) :
    lineWords (sourceLine x) = [(.kwFrom, Text.ofString "from"), (.string, x), (.semi, ";")] := by
  rw [sourceLine, lineWords_cons, Glyph.word, show Terminal.ofWord "from" = .kwFrom by decide +kernel]
  rfl

theorem lineText_source (x : Text) :
    lineText (sourceLine x) = Text.ofString " from " ++ (x ++ Text.ofString ";") := by
  simp [sourceLine, Glyph.word, Glyph.string, Text.ofString]

section Sources

variable {x : Text} {src : StrLit}

theorem DeclaredBy.bareImport (h : IsLiteral x src.value) (s : Span) :
    DeclaredBy ("import " ++ x ++ ";") (.importDecl [] src s) := by
  refine ⟨"import", [.string x, ⟨false, .semi, ";"⟩], .importBare,
    .importDecl [] ⟨src.value, some x, {}⟩ {}, by decide, ?_, ?_, ?_, rfl⟩
  · simp only [List.forall_mem_cons]
    exact ⟨.string h.token, fits_mark false (by decide), List.forall_mem_nil _⟩
  · simp [Glyph.string, Text.ofString]
  · have hItem := IsDeclaration.bare "import" x (.semi, ";") (by decide)
    rw [h.strOf_eq] at hItem
    rw [ofWord_import]
    exact hItem

theorem DeclaredBy.imports {text : Text} {as : List ImportSpecifier}
    (hClause : Laid IsClause (List.map plain.importSpecifier) text as) (h : IsLiteral x src.value)
    (s : Span) :
    DeclaredBy ("import " ++ text ++ " from " ++ x ++ ";") (.importDecl as src s) := by
  obtain ⟨line, hFits, hText, xs, hxs, hSame⟩ := hClause
  refine ⟨"import", line ++ sourceLine x, .importDecl, .importDecl xs ⟨src.value, some x, {}⟩ {},
    by decide, List.forall_mem_append.mpr ⟨hFits, fits_source h⟩, ?_, ?_, ?_⟩
  · rw [lineText_append, hText, lineText_source]
    simp [Text.ofString]
  · have hItem := IsDeclaration.imports "import" hxs "from" x (.semi, ";") (by decide)
    rw [h.strOf_eq] at hItem
    rw [ofWord_import, lineWords_append, lineWords_source]
    exact hItem
  · simp only [Erasure.item, hSame]
    rfl

theorem DeclaredBy.exports {text : Text} {es : List ExportSpecifier}
    (hNames : Laid (Braced IsExportSpec) (List.map plain.exportSpecifier) text es) (s : Span) :
    DeclaredBy ("export " ++ text ++ ";") (.namedExport es none s) := by
  obtain ⟨line, hFits, hText, xs, ⟨a, b, us, hElements, hWords⟩, hSame⟩ := hNames
  refine ⟨"export", line ++ [⟨false, .semi, ";"⟩], .namedExport, .namedExport xs none {},
    by decide, ?_, ?_, ?_, ?_⟩
  · exact List.forall_mem_append.mpr
      ⟨hFits, List.forall_mem_singleton.mpr (fits_mark false (by decide))⟩
  · rw [lineText_append, hText]
    simp [Text.ofString]
  · rw [ofWord_export, lineWords_append, hWords, List.cons_append, List.append_assoc]
    exact .exports "export" a b hElements (.semi, ";") (by decide)
  · simp only [Erasure.item, hSame, Option.map_none]

theorem DeclaredBy.reexports {text : Text} {es : List ExportSpecifier}
    (hNames : Laid (Braced IsExportSpec) (List.map plain.exportSpecifier) text es)
    (h : IsLiteral x src.value) (s : Span) :
    DeclaredBy ("export " ++ text ++ " from " ++ x ++ ";") (.namedExport es (some src) s) := by
  obtain ⟨line, hFits, hText, xs, ⟨a, b, us, hElements, hWords⟩, hSame⟩ := hNames
  refine ⟨"export", line ++ sourceLine x, .namedExport,
    .namedExport xs (some ⟨src.value, some x, {}⟩) {}, by decide,
    List.forall_mem_append.mpr ⟨hFits, fits_source h⟩, ?_, ?_, ?_⟩
  · rw [lineText_append, hText, lineText_source]
    simp [Text.ofString]
  · have hItem := IsDeclaration.reexports "export" a b hElements "from" x (.semi, ";") (by decide)
    rw [h.strOf_eq] at hItem
    rw [ofWord_export, lineWords_append, lineWords_source, hWords, List.cons_append,
      List.append_assoc]
    exact hItem
  · simp only [Erasure.item, hSame, Option.map_some]
    rfl

theorem DeclaredBy.exportAll (h : IsLiteral x src.value) (s : Span) :
    DeclaredBy ("export * from " ++ x ++ ";") (.exportAll src none s) := by
  refine ⟨"export", ⟨true, .star, "*"⟩ :: sourceLine x, .exportAll,
    .exportAll ⟨src.value, some x, {}⟩ none {}, by decide,
    List.forall_mem_cons.mpr ⟨fits_mark true (by decide), fits_source h⟩, ?_, ?_, rfl⟩
  · rw [lineText_cons, lineText_source]
    simp [Text.ofString]
  · have hItem := IsDeclaration.all "export" "*" "from" x (.semi, ";") (by decide)
    rw [h.strOf_eq] at hItem
    rw [ofWord_export, lineWords_cons, lineWords_source]
    exact hItem

theorem DeclaredBy.exportAllAs {g : Glyph} {n : ExportName} (hg : g.Names n)
    (h : IsLiteral x src.value) (s : Span) :
    DeclaredBy ("export * as " ++ g.text ++ " from " ++ x ++ ";") (.exportAll src (some n) s) := by
  obtain ⟨m, hm, hSame⟩ := hg.value
  refine ⟨"export", ⟨true, .star, "*"⟩ :: .word "as" :: g :: sourceLine x, .exportAll,
    .exportAll ⟨src.value, some x, {}⟩ (some m) {}, by decide, ?_, ?_, ?_, ?_⟩
  · simp only [List.forall_mem_cons]
    exact ⟨fits_mark true (by decide), .word (by decide), hg.fits, fits_source h⟩
  · simp only [lineText_cons, lineText_source, hg.spaced]
    simp [Glyph.word, Text.ofString]
  · have hItem := IsDeclaration.allAs "export" "*" "as" (g.kind, g.text) hg.kind "from" x (.semi, ";")
      (by decide)
    rw [h.strOf_eq, hm] at hItem
    rw [ofWord_export, lineWords_cons, lineWords_as, lineWords_cons, lineWords_source]
    exact hItem
  · simp only [Erasure.item, Option.map_some, hSame]
    rfl

end Sources

-- ---------------------------------------------------------------------------------------------
-- Reading a line
-- ---------------------------------------------------------------------------------------------

/-- The item is an import or a re-export. -/
def ModuleItem.declares : ModuleItem → Bool
  | .importDecl .. | .namedExport .. | .exportAll .. => true
  | _ => false

theorem Erasure.declares_item (r : Erasure) (i : ModuleItem) : (r.item i).declares = i.declares := by
  cases i <;> rfl

theorem Erasure.plain_spans_exportName (n : ExportName) :
    plain.exportName (spans.exportName n) = plain.exportName n := by
  cases n <;> rfl

theorem Erasure.plain_spans_importSpecifier (a : ImportSpecifier) :
    plain.importSpecifier (spans.importSpecifier a) = plain.importSpecifier a := by
  cases a with
  | named i imported s => cases imported <;> simp [importSpecifier, ident, plain_spans_exportName]
  | default i s => rfl
  | starAs i s => rfl

theorem Erasure.plain_spans_exportSpecifier (e : ExportSpecifier) :
    plain.exportSpecifier (spans.exportSpecifier e) = plain.exportSpecifier e := by
  obtain ⟨orig, exported, s⟩ := e
  cases exported <;> simp [exportSpecifier, plain_spans_exportName]

theorem Erasure.plain_spans_item {i : ModuleItem} (h : i.declares = true) :
    plain.item (spans.item i) = plain.item i := by
  cases i with
  | importDecl as src s => simp [item, str, raw, plain_spans_importSpecifier]
  | namedExport es src s => cases src <;> simp [item, str, raw, plain_spans_exportSpecifier]
  | exportAll src name s => cases name <;> simp [item, str, raw, plain_spans_exportName]
  | _ => cases h

/-- A line that declares an item is read as this item. -/
theorem DeclaredBy.parse {text : Text} {item : ModuleItem} (h : DeclaredBy text item)
    (hKind : item.declares = true) (file : Option Text) :
    ∃ parsed, parseModule text file = .ok parsed ∧
      parsed.module.body.map plain.item = [plain.item item] := by
  obtain ⟨x, line, c, item', hx, hFits, rfl, hItem, hSame⟩ := h
  obtain ⟨parsed, hParsed, hBody⟩ := parseModule_line hx hFits hItem file
  obtain ⟨i, hi, rfl⟩ := List.map_eq_singleton_iff.mp hBody
  have hRead : i.declares = true := by
    rw [← Erasure.spans.declares_item, ← plain.declares_item, hSame, plain.declares_item, hKind]
  refine ⟨parsed, hParsed, ?_⟩
  rw [hi, List.map_singleton, ← Erasure.plain_spans_item hRead, hSame]

-- ---------------------------------------------------------------------------------------------
-- Printed items
-- ---------------------------------------------------------------------------------------------

/-- A specifier that stands in the braces of an import. -/
inductive IsNamed : ImportSpecifier → Prop where
  | asIs (i : Ident) (hi : IsLocalName i.sym) (s : Span) : IsNamed (.named i none s)
  | renamed (i : Ident) (hi : IsLocalName i.sym) (n : ExportName) (hn : n.Sound) (s : Span) :
      IsNamed (.named i (some n) s)

/-- What an import may bind besides a default: any names of the module, or its name space. -/
inductive Bindings : List ImportSpecifier → Prop where
  | named {as : List ImportSpecifier} (h : ∀ a ∈ as, IsNamed a) : Bindings as
  | star (i : Ident) (hi : IsLocalName i.sym) (s : Span) : Bindings [.starAs i s]

/-- What an import may bind. -/
inductive Specifiers : List ImportSpecifier → Prop where
  | bindings {as : List ImportSpecifier} (h : Bindings as) : Specifiers as
  | default (i : Ident) (hi : IsLocalName i.sym) (s : Span) {as : List ImportSpecifier}
      (h : Bindings as) : Specifiers (.default i s :: as)

/-- An import or a re-export that can be written down. -/
inductive ModuleItem.Sound : ModuleItem → Prop where
  | imports {as : List ImportSpecifier} (h : Specifiers as) (src : StrLit) (hSrc : src.Sound)
      (s : Span) : Sound (.importDecl as src s)
  | exports {es : List ExportSpecifier}
      (h : ∀ e ∈ es, e.orig.Sound ∧ ∀ n ∈ e.exported, ExportName.Sound n) (src : Option StrLit)
      (hSrc : ∀ l ∈ src, StrLit.Sound l) (s : Span) : Sound (.namedExport es src s)
  | all (src : StrLit) (hSrc : src.Sound) (name : Option ExportName)
      (hName : ∀ n ∈ name, ExportName.Sound n) (s : Span) : Sound (.exportAll src name s)

theorem IsNamed.laid {a : ImportSpecifier} (h : IsNamed a) :
    ∃ text, Printer.namedImport? a = some text ∧ Printer.bareImport? a = none ∧
      Laid IsImportSpec plain.importSpecifier text a := by
  cases h with
  | asIs i hi s => exact ⟨_, rfl, rfl, .importPlain hi _ _⟩
  | renamed i hi n hn s =>
    obtain ⟨g, hText, hg⟩ := hn.printed
    refine ⟨_, rfl, rfl, ?_⟩
    rw [← hText]
    exact .importRenamed hg hi _ _

theorem laid_named {as : List ImportSpecifier} (h : ∀ a ∈ as, IsNamed a) :
    as.filterMap Printer.bareImport? = [] ∧
      List.Forall₂ (Laid IsImportSpec plain.importSpecifier)
        (as.filterMap Printer.namedImport?) as := by
  induction as with
  | nil => exact ⟨rfl, .nil⟩
  | cons a as ih =>
    obtain ⟨hFirst, hRest⟩ := List.forall_mem_cons.mp h
    obtain ⟨text, hNamed, hBare, hLaid⟩ := hFirst.laid
    obtain ⟨hBares, hLaids⟩ := ih hRest
    rw [List.filterMap_cons_none hBare, List.filterMap_cons_some hNamed]
    exact ⟨hBares, .cons hLaid hLaids⟩

/-- What the printer writes for the specifiers of an import, with commas between. -/
def clauseTexts (as : List ImportSpecifier) : List Text :=
  let named := as.filterMap Printer.namedImport?
  as.filterMap Printer.bareImport? ++ (if named.isEmpty then [] else [Printer.inlineBraces named])

theorem Bindings.laid {as : List ImportSpecifier} (h : Bindings as) (hSome : as ≠ []) :
    ∃ text, clauseTexts as = [text] ∧ Laid IsBinding (List.map plain.importSpecifier) text as := by
  cases h with
  | named h =>
    obtain ⟨hBare, hLaid⟩ := laid_named h
    have hNamed : as.filterMap Printer.namedImport? ≠ [] := by
      intro hNil
      rw [hNil] at hLaid
      cases hLaid
      exact hSome rfl
    refine ⟨Printer.inlineBraces (as.filterMap Printer.namedImport?), ?_, .importNames hLaid⟩
    simp [clauseTexts, hBare, hNamed]
  | star i hi s => exact ⟨_, rfl, .importStar hi i.span s⟩

theorem Specifiers.laid {as : List ImportSpecifier} (h : Specifiers as) (hSome : as ≠ []) :
    Laid IsClause (List.map plain.importSpecifier) (Printer.commas (clauseTexts as)) as := by
  cases h with
  | bindings h =>
    obtain ⟨text, hTexts, hLaid⟩ := h.laid hSome
    rw [hTexts]
    exact hLaid.importBinding
  | @default i hi s as h =>
    rw [show clauseTexts (.default i s :: as) = i.sym :: clauseTexts as from rfl]
    by_cases hMore : as = []
    · subst hMore
      exact .importDefault hi i.span s
    · obtain ⟨text, hTexts, hLaid⟩ := h.laid hMore
      rw [hTexts, show Printer.commas [i.sym, text] = i.sym ++ ", " ++ text by
        simp [Printer.commas, Text.join]]
      exact .importBoth hi hLaid i.span s

theorem ExportSpecifier.laid {e : ExportSpecifier} (hOrig : e.orig.Sound)
    (hExported : ∀ n ∈ e.exported, ExportName.Sound n) :
    Laid IsExportSpec plain.exportSpecifier (Printer.exportSpecifier e) e := by
  obtain ⟨orig, exported, s⟩ := e
  obtain ⟨g, hText, hg⟩ := hOrig.printed
  cases exported with
  | none =>
    have hPrinted : Printer.exportSpecifier ⟨orig, none, s⟩ = Printer.exportName orig :=
      List.append_nil _
    rw [hPrinted, ← hText]
    exact .exportPlain hg s
  | some n =>
    obtain ⟨g', hText', hg'⟩ := (hExported n rfl).printed
    have hPrinted : Printer.exportSpecifier ⟨orig, some n, s⟩ =
        Printer.exportName orig ++ (Text.ofString " as " ++ Printer.exportName n) := rfl
    rw [hPrinted, ← hText, ← hText', ← List.append_assoc]
    exact .exportRenamed hg hg' s

theorem Printer.item_importDecl {as : List ImportSpecifier} (h : as ≠ []) (src : StrLit)
    (depth : Nat) (s : Span) :
    item depth (.importDecl as src s) =
      "import " ++ commas (clauseTexts as) ++ " from " ++ str src ++ ";" := by
  cases as with
  | nil => exact absurd rfl h
  | cons a as => rfl

/-- What is printed for a declaration is a line that declares it. -/
theorem ModuleItem.Sound.declaredBy {item : ModuleItem} (h : item.Sound) (depth : Nat) :
    DeclaredBy (Printer.item depth item) item := by
  cases h with
  | @imports as h src hSrc s =>
    by_cases hSome : as = []
    · subst hSome
      exact .bareImport hSrc.printed s
    · rw [Printer.item_importDecl hSome]
      exact .imports (h.laid hSome) hSrc.printed s
  | @exports es h src hSrc s =>
    have hNames : List.Forall₂ (Laid IsExportSpec plain.exportSpecifier)
        (es.map Printer.exportSpecifier) es := by
      rw [List.forall₂_map_left_iff, List.forall₂_same]
      exact fun e he => ExportSpecifier.laid (h e he).1 (h e he).2
    cases src with
    | none =>
      have hPrinted : Printer.item depth (.namedExport es none s) =
          "export " ++ Printer.inlineBraces (es.map Printer.exportSpecifier) ++ ";" := by
        simp [Printer.item, Text.ofString]
      rw [hPrinted]
      exact .exports (.braced hNames) s
    | some l =>
      have hPrinted : Printer.item depth (.namedExport es (some l) s) =
          "export " ++ Printer.inlineBraces (es.map Printer.exportSpecifier) ++ " from "
            ++ Printer.str l ++ ";" := by
        simp [Printer.item, Text.ofString]
      rw [hPrinted]
      exact .reexports (.braced hNames) (hSrc l rfl).printed s
  | all src hSrc name hName s =>
    cases name with
    | none => exact .exportAll hSrc.printed s
    | some n =>
      obtain ⟨g, hText, hg⟩ := (hName n rfl).printed
      have hPrinted : Printer.item depth (.exportAll src (some n) s) =
          "export * as " ++ g.text ++ " from " ++ Printer.str src ++ ";" := by
        rw [hText]
        rfl
      rw [hPrinted]
      exact .exportAllAs hg hSrc.printed s

/-- Import and re-export declarations round-trip: what is printed for one is read as one item, and it
is the declaration up to spans and the forms of its literals. Local names are the words that the
grammar admits there, the names of exports are any words or strings. -/
theorem printed_declaration_reads_back (item : ModuleItem) (h : item.Sound) (depth : Nat)
    (file : Option Text) :
    ∃ parsed, parseModule (Printer.item depth item) file = .ok parsed ∧
      parsed.module.body.map plain.item = [plain.item item] := by
  have hKind : item.declares = true := by cases h <;> rfl
  exact (h.declaredBy depth).parse hKind file

/-- A reserved word and a string with an escape are imported under the local names `from` and `of`. -/
theorem import_of_reserved_word_reads_back :
    (ModuleItem.importDecl
      [.default ⟨"as", {}⟩ {}, .named ⟨"from", {}⟩ (some (.ident ⟨"if", {}⟩)) {},
        .named ⟨"of", {}⟩ (some (.str ⟨"\n", some "'\\x0a'", {}⟩)) {}]
      ⟨"a\nb", none, {}⟩ {}).Sound ∧
    ∃ parsed, parseModule "import as, \x7b if as from, '\\x0a' as of \x7d from \"a\\nb\";" none =
        .ok parsed ∧
      parsed.module.body.map plain.item = [.importDecl
        [.default ⟨"as", {}⟩ {}, .named ⟨"from", {}⟩ (some (.ident ⟨"if", {}⟩)) {},
          .named ⟨"of", {}⟩ (some (.str ⟨"\n", none, {}⟩)) {}]
        ⟨"a\nb", none, {}⟩ {}] := by
  have hLocal : ∀ x ∈ ["as", "from", "of"], IsLocalName x := by
    simp only [List.forall_mem_cons]
    exact ⟨⟨by decide, by decide⟩, ⟨by decide, by decide⟩, ⟨by decide, by decide⟩,
      List.forall_mem_nil _⟩
  have hIf : Pattern.IsWord "if" := by decide
  have hEscape : StrLit.Sound ⟨"\n", some "'\\x0a'", {}⟩ := by
    rintro raw hRaw
    cases hRaw
    exact ⟨by decide, by decide⟩
  have hSound := ModuleItem.Sound.imports
    (.default ⟨"as", {}⟩ (hLocal "as" (by decide)) {} (.named (List.forall_mem_cons.mpr
      ⟨.renamed ⟨"from", {}⟩ (hLocal "from" (by decide)) (.ident ⟨"if", {}⟩) (.ident _ hIf) {},
        List.forall_mem_singleton.mpr
          (.renamed ⟨"of", {}⟩ (hLocal "of" (by decide)) (.str _) (.str _ hEscape) {})⟩)))
    ⟨"a\nb", none, {}⟩ (fun raw hRaw => by cases hRaw) {}
  exact ⟨hSound, printed_declaration_reads_back _ hSound 0 none⟩

end ClientBoundary
