import ClientBoundary.Boundary.Compile
import ClientBoundary.Proofs.Collection
import ClientBoundary.Proofs.Traversal
import Mathlib.Data.List.Forall2

/-!
# What compiling a module does

The compilation is stated here without its own vocabulary: the prologue is any split of the body
into string statements and a rest that does not begin with one, a directive is a string statement
of the prologue with the value `client`, and the reports are written out word by word.

* `prologueSplit_prologue` — the prologue that the compilation works with is such a split.
* `checkImports_items` — checking the imports of a module reports on its items one by one.
* `compileModule_meets_specification` — the whole: off, replaced by a reference, or checked.
-/

namespace ClientBoundary

-- ---------------------------------------------------------------------------------------------
-- The prologue
-- ---------------------------------------------------------------------------------------------

/-- The item is a statement made of one string literal with the given value. -/
inductive IsStringStmt : ModuleItem → Text → Prop where
  | intro (lit : StrLit) (span : Span) : IsStringStmt (.stmt (.exprStmt (.str lit) span)) lit.value

/-- A body cut after its longest run of string statements. -/
structure PrologueSplit (body prologue rest : List ModuleItem) : Prop where
  body_eq : body = prologue ++ rest
  strings : ∀ i ∈ prologue, ∃ value, IsStringStmt i value
  maximal : ∀ i ∈ rest.head?, ∀ value, ¬ IsStringStmt i value

theorem directive?_eq_some_iff (i : ModuleItem) (value : Text) :
    i.directive? = some value ↔ IsStringStmt i value := by
  constructor
  · intro h
    unfold ModuleItem.directive? at h
    split at h
    · cases h
      exact .intro _ _
    · cases h
  · rintro ⟨lit, span⟩
    rfl

instance (i : ModuleItem) (value : Text) : Decidable (IsStringStmt i value) :=
  decidable_of_iff _ (directive?_eq_some_iff i value)

theorem isDirective_iff (i : ModuleItem) :
    i.isDirective = true ↔ ∃ value, IsStringStmt i value := by
  simp only [ModuleItem.isDirective, Option.isSome_iff_exists, directive?_eq_some_iff]

theorem isClientDirective_iff (i : ModuleItem) :
    i.isClientDirective = true ↔ IsStringStmt i clientDirective := by
  rw [ModuleItem.isClientDirective, decide_eq_true_eq, directive?_eq_some_iff]

/-- The prologue of a module and what follows it are a split of its body. -/
theorem prologueSplit_prologue (m : Module) :
    PrologueSplit m.body m.prologue m.afterPrologue where
  body_eq := m.prologue_append.symm
  strings := fun i hi => (isDirective_iff i).mp (Module.isDirective_of_mem_prologue hi)
  maximal := by
    intro i hi value hString
    have hIs := (isDirective_iff i).mpr ⟨value, hString⟩
    rw [Module.isDirective_head_afterPrologue hi] at hIs
    cases hIs

/-- A body has only one such split. -/
theorem PrologueSplit.unique {body p r q s : List ModuleItem}
    (h : PrologueSplit body p r) (h' : PrologueSplit body q s) : p = q ∧ r = s := by
  have hEq : p ++ r = q ++ s := h.body_eq.symm.trans h'.body_eq
  -- if one prologue were longer, the other's rest would begin with a string statement
  rcases List.append_eq_append_iff.mp hEq with ⟨t, hq, hr⟩ | ⟨t, hp, hs⟩
  · cases t with
    | nil => exact ⟨by simpa using hq.symm, by simpa using hr⟩
    | cons i t =>
      obtain ⟨value, hString⟩ := h'.strings i (by simp [hq])
      exact absurd hString (h.maximal i (by simp [hr]) value)
  · cases t with
    | nil => exact ⟨by simpa using hp, by simpa using hs.symm⟩
    | cons i t =>
      obtain ⟨value, hString⟩ := h.strings i (by simp [hp])
      exact absurd hString (h'.maximal i (by simp [hs]) value)

-- ---------------------------------------------------------------------------------------------
-- Reports
-- ---------------------------------------------------------------------------------------------

/-- The report that a module must not be imported into a graph. -/
def importReport (target : Target) (source : Text) (span : Span) : Diagnostic where
  message :=
    match target with
    | .server => "Disallowed import of \x60" ++ source
        ++ Text.ofString "\x60 in the Server Components compilation."
    | .client => "Disallowed import of \x60" ++ source
        ++ Text.ofString "\x60 in the Client Components compilation."
  code := some "RSC_DISALLOWED_IMPORT"
  phase := some "rsc"
  severity := "error"
  span := span
  notes := []

/-- The report that a name of a library must not be imported into the server graph. -/
def apiReport (library name : Text) (span : Span) : Diagnostic where
  message := "Disallowed " ++ library ++ " API \x60" ++ name
    ++ Text.ofString "\x60 in the Server Components compilation."
  code := some "RSC_DISALLOWED_API"
  phase := some "rsc"
  severity := "error"
  span := span
  notes := []

/-- The sources that are forbidden in a graph. -/
def forbiddenSources : Target → List Text
  | .server => Denylist.serverSources
  | .client => Denylist.clientSources

/-- The library that a source is in the messages of a graph, and its names that are denied there.
Only the server graph looks at names, and only at those of two libraries. -/
def deniedNames (target : Target) (source : Text) : Text × List Text :=
  if target = .server ∧ source = Text.ofString "react" then ("React", Denylist.reactNames)
  else if target = .server ∧ source = Text.ofString "react-dom" then
    ("ReactDOM", Denylist.reactDomNames)
  else ([], [])

/-- The name that a specifier takes from the source, with its place: what stands before `as`, the
empty name for a default and `*` for a whole name space. -/
inductive Imports : ImportSpecifier → Text → Span → Prop where
  | plain (i : Ident) (s : Span) : Imports (.named i none s) i.sym i.span
  | renamed (l i : Ident) (s : Span) : Imports (.named l (some (.ident i)) s) i.sym i.span
  | quoted (l : Ident) (lit : StrLit) (s : Span) :
      Imports (.named l (some (.str lit)) s) lit.value lit.span
  | default (i : Ident) (s : Span) : Imports (.default i s) [] s
  | starAs (i : Ident) (s : Span) : Imports (.starAs i s) "*" s

/-- The reports on the specifiers of an import, one for each denied name, in order. -/
inductive SpecifierReports (library : Text) (denied : List Text) :
    List ImportSpecifier → List Diagnostic → Prop where
  | nil : SpecifierReports library denied [] []
  | deny {spec name span specs reports} (hName : Imports spec name span) (hDenied : name ∈ denied)
      (hRest : SpecifierReports library denied specs reports) :
      SpecifierReports library denied (spec :: specs) (apiReport library name span :: reports)
  | allow {spec name span specs reports} (hName : Imports spec name span)
      (hAllowed : name ∉ denied) (hRest : SpecifierReports library denied specs reports) :
      SpecifierReports library denied (spec :: specs) reports

/-- The reports on one item: on an import first the one on its source, then those on its
specifiers; on anything else none. -/
inductive ItemReports (target : Target) : ModuleItem → List Diagnostic → Prop where
  | importDecl {specifiers src span reports}
      (hNames : SpecifierReports (deniedNames target src.value).1 (deniedNames target src.value).2
        specifiers reports) :
      ItemReports target (.importDecl specifiers src span)
        ((if src.value ∈ forbiddenSources target then [importReport target src.value span] else [])
          ++ reports)
  | other {i} (hOther : ∀ specifiers src span, i ≠ .importDecl specifiers src span) :
      ItemReports target i []

theorem imports_ofSpecifier (spec : ImportSpecifier) :
    Imports spec (ImportedName.ofSpecifier spec).name (ImportedName.ofSpecifier spec).span := by
  match spec with
  | .named i none s => exact .plain i s
  | .named l (some (.ident i)) s => exact .renamed l i s
  | .named l (some (.str lit)) s => exact .quoted l lit s
  | .default i s => exact .default i s
  | .starAs i s => exact .starAs i s

/-- Picking the denied names out of a record reports on its specifiers one by one. -/
theorem specifierReports_filter (library : Text) (denied : List Text)
    (specifiers : List ImportSpecifier) :
    SpecifierReports library denied specifiers
      (((specifiers.map ImportedName.ofSpecifier).filter (·.name ∈ denied)).map
        fun n => apiReport library n.name n.span) := by
  induction specifiers with
  | nil => exact .nil
  | cons spec specs ih =>
    rw [List.map_cons, List.filter_cons]
    by_cases hDenied : (ImportedName.ofSpecifier spec).name ∈ denied
    · rw [if_pos (by simpa using hDenied), List.map_cons]
      exact .deny (imports_ofSpecifier spec) hDenied ih
    · rw [if_neg (by simpa using hDenied)]
      exact .allow (imports_ofSpecifier spec) hDenied ih

theorem importReport_eq (target : Target) (source : Text) (span : Span) :
    (Denylist.Violation.source target source span).diagnostic = importReport target source span := by
  cases target <;>
    simp [Denylist.Violation.diagnostic, Denylist.Violation.message, Denylist.Violation.code,
      Denylist.Violation.span, Denylist.graphName, importReport, Text.ofString]

theorem apiReport_react (name : Text) (span : Span) :
    (Denylist.Violation.react name span).diagnostic = apiReport "React" name span := by
  simp [Denylist.Violation.diagnostic, Denylist.Violation.message, Denylist.Violation.code,
    Denylist.Violation.span, apiReport, Text.ofString]

theorem apiReport_reactDom (name : Text) (span : Span) :
    (Denylist.Violation.reactDom name span).diagnostic = apiReport "ReactDOM" name span := by
  simp [Denylist.Violation.diagnostic, Denylist.Violation.message, Denylist.Violation.code,
    Denylist.Violation.span, apiReport, Text.ofString]


/-- The two parts of the check of names in the server graph, of which at most one is not empty. -/
theorem nameViolations_server (r : ImportRecord) :
    ((if r.source = Text.ofString "react" then
        (Denylist.listed Denylist.reactNames r).map fun n => Denylist.Violation.react n.name n.span
      else []) ++
     (if r.source = Text.ofString "react-dom" then
        (Denylist.listed Denylist.reactDomNames r).map fun n =>
          Denylist.Violation.reactDom n.name n.span
      else [])).map Denylist.Violation.diagnostic =
    (r.names.filter (·.name ∈ (deniedNames .server r.source).2)).map
      fun n => apiReport (deniedNames .server r.source).1 n.name n.span := by
  have hApart : Text.ofString "react" ≠ Text.ofString "react-dom" := by decide
  by_cases hReact : r.source = Text.ofString "react"
  · have hDom : r.source ≠ Text.ofString "react-dom" := fun h => hApart (hReact.symm.trans h)
    simp [deniedNames, Denylist.listed, hReact, hApart, apiReport_react, Function.comp_def]
  · by_cases hDom : r.source = Text.ofString "react-dom"
    · simp [deniedNames, Denylist.listed, hDom, hApart.symm, apiReport_reactDom,
        Function.comp_def]
    · simp [deniedNames, hReact, hDom]

/-- The rules that an import declaration breaks are the reports on it. -/
theorem itemReports_violations (target : Target) (specifiers : List ImportSpecifier) (src : StrLit)
    (span : Span) :
    ItemReports target (.importDecl specifiers src span)
      ((Denylist.violations target
        ⟨src.value, span, specifiers.map .ofSpecifier⟩).map Denylist.Violation.diagnostic) := by
  have hNames := specifierReports_filter (deniedNames target src.value).1
    (deniedNames target src.value).2 specifiers
  have hReports : ItemReports target (.importDecl specifiers src span) _ := .importDecl hNames
  cases target with
  | server =>
    rw [Denylist.violations, Denylist.serverViolations, List.append_assoc, List.map_append,
      nameViolations_server]
    simp only [forbiddenSources] at hReports
    by_cases hSource : src.value ∈ Denylist.serverSources
    · simpa [hSource, importReport_eq] using hReports
    · simpa [hSource] using hReports
  | client =>
    rw [Denylist.violations, Denylist.clientViolations]
    have hNone : (specifiers.map ImportedName.ofSpecifier).filter
        (·.name ∈ (deniedNames .client src.value).2) = [] := by
      rw [List.filter_eq_nil_iff]
      simp [deniedNames]
    rw [hNone] at hReports
    simp only [forbiddenSources] at hReports
    by_cases hSource : src.value ∈ Denylist.clientSources
    · simpa [hSource, importReport_eq] using hReports
    · simpa [hSource] using hReports

/-- Checking the imports of a list of items reports on the items one by one, in order. -/
theorem checkImports_items (target : Target) (items : List ModuleItem) :
    ∃ reports, List.Forall₂ (ItemReports target) items reports ∧
      checkImports target (items.filterMap ImportRecord.ofItem?) = reports.flatten := by
  induction items with
  | nil => exact ⟨[], .nil, rfl⟩
  | cons i items ih =>
    obtain ⟨reports, hReports, hEq⟩ := ih
    rw [checkImports] at hEq
    cases h : ImportRecord.ofItem? i with
    | none =>
      refine ⟨[] :: reports, .cons (.other ?_) hReports, ?_⟩
      · rintro specifiers src span rfl
        cases h
      · rw [checkImports, List.filterMap_cons_none h, hEq, List.flatten_cons, List.nil_append]
    | some r =>
      cases i with
      | importDecl specifiers src span =>
        refine ⟨_ :: reports, .cons (itemReports_violations target specifiers src span) hReports, ?_⟩
        rw [checkImports, List.filterMap_cons_some h, List.flatMap_cons, List.map_append, hEq,
          List.flatten_cons]
        cases h
        rfl
      | _ => cases h

-- ---------------------------------------------------------------------------------------------
-- The whole compilation
-- ---------------------------------------------------------------------------------------------

/-- The configurations that compile for the server graph. -/
def IsServer (config : Config) : Prop := config = .all true ∨ config = .options true

instance (config : Config) : Decidable (IsServer config) := inferInstanceAs (Decidable (_ ∨ _))

/-- The two statements that stand for a client module in the server graph:
`const { createProxy } = require("private-next-rsc-mod-ref-proxy")` and
`module.exports = createProxy(filepath)`. -/
def proxyStatements (filepath : Text) : List ModuleItem :=
  [.stmt (.varDecl .const
    [.mk (.object [.assign ⟨"createProxy", {}⟩ none {}] {})
      (some (.call (.ident ⟨"require", {}⟩)
        [.str ⟨"private-next-rsc-mod-ref-proxy", none, {}⟩] {})) {}] {}),
   .stmt (.exprStmt
    (.assign "="
      (.expr (.member (.ident ⟨"module", {}⟩) (.ident ⟨"exports", {}⟩) {}))
      (.call (.ident ⟨"createProxy", {}⟩) [.str ⟨filepath, none, {}⟩] {}) {}) {})]

theorem enabled_of_ne {config : Config} (hOn : config ≠ .all false) : config.enabled = true := by
  match config with
  | .all true => rfl
  | .all false => exact absurd rfl hOn
  | .options _ => rfl

theorem target_eq_server_iff {config : Config} (hOn : config ≠ .all false) :
    config.target = .server ↔ IsServer config := by
  match config with
  | .all true => simp [Config.target, IsServer]
  | .all false => exact absurd rfl hOn
  | .options true => simp [Config.target, IsServer]
  | .options false => simp [Config.target, IsServer]

theorem target_eq_ite {config : Config} (hOn : config ≠ .all false) :
    config.target = if IsServer config then .server else .client := by
  by_cases hServer : IsServer config
  · rw [if_pos hServer]
    exact (target_eq_server_iff hOn).mpr hServer
  · rw [if_neg hServer]
    have hNot := mt (target_eq_server_iff hOn).mp hServer
    cases h : config.target with
    | server => exact absurd h hNot
    | client => rfl

theorem isClientBoundary_iff (m : Module) :
    m.isClientBoundary = true ↔ ∃ i ∈ m.prologue, IsStringStmt i "client" := by
  rw [Module.isClientBoundary, List.any_eq_true]
  exact exists_congr fun i => and_congr_right fun _ => isClientDirective_iff i

theorem withoutDirectives_body (m : Module) :
    m.withoutDirectives.body =
      m.prologue.filter (fun i => ¬ IsStringStmt i "client") ++ m.afterPrologue := by
  have hKept : (fun i : ModuleItem => !i.isClientDirective) =
      fun i => decide (¬ IsStringStmt i "client") := by
    funext i
    rw [Bool.eq_iff_iff, Bool.not_eq_true', decide_eq_true_eq, ← Bool.not_eq_true,
      isClientDirective_iff]
    rfl
  rw [Module.withoutDirectives, hKept]

/-- In the server graph a boundary becomes a reference, and nothing in it is reported. -/
theorem compileFor_boundary {target : Target} {filepath : Text} {m : Module}
    {comments : CommentTable} {sink : DiagnosticSink}
    (hRun : target = .server ∧ m.isClientBoundary = true) :
    (compileFor target filepath m comments sink).module =
        { m with body := proxyStatements filepath } ∧
      (compileFor target filepath m comments sink).comments =
        (settleComments m comments).addLeading (m.span.lo.getD 0) Reference.sentinel ∧
      (compileFor target filepath m comments sink).sink = sink := by
  rw [compileFor, collect_eq, if_pos hRun]
  exact ⟨rfl, rfl, rfl⟩

/-- Any other module stays without its directives, and its imports are checked. -/
theorem compileFor_other {target : Target} {filepath : Text} {m : Module}
    {comments : CommentTable} {sink : DiagnosticSink}
    (hRun : ¬ (target = .server ∧ m.isClientBoundary = true)) :
    (compileFor target filepath m comments sink).module = m.withoutDirectives ∧
      (compileFor target filepath m comments sink).comments = settleComments m comments ∧
      (compileFor target filepath m comments sink).sink.diagnostics =
        sink.diagnostics ++ checkImports target (m.body.filterMap ImportRecord.ofItem?) := by
  rw [compileFor, collect_eq, if_neg hRun]
  exact ⟨traverse_none m.withoutDirectives, rfl, rfl⟩

theorem withoutDirectives_of_not_boundary {m : Module} (h : m.isClientBoundary = false) :
    m.withoutDirectives = m := by
  have hKept : m.prologue.filter (fun i => !i.isClientDirective) = m.prologue := by
    rw [List.filter_eq_self]
    intro i hi
    have := (List.any_eq_false.mp h) i hi
    simpa using this
  rw [Module.withoutDirectives, hKept, ← (prologueSplit_prologue m).body_eq]

theorem settleComments_of_not_boundary {m : Module} (h : m.isClientBoundary = false)
    (t : CommentTable) : settleComments m t = t := by
  have hEmpty : ∀ lo, Prologue.Carried.handOver { table := t } lo = { table := t } := fun _ => rfl
  have hPrologue : ∀ is : List ModuleItem, (∀ i ∈ is, i.isClientDirective = false) →
      is.foldl (Prologue.Carried.passDirective m.span.lo) { table := t } = { table := t } := by
    intro is hNone
    induction is with
    | nil => rfl
    | cons i is ih =>
      have hStep : Prologue.Carried.passDirective m.span.lo { table := t } i = { table := t } := by
        rw [Prologue.Carried.passDirective, hNone i List.mem_cons_self, if_neg Bool.false_ne_true,
          hEmpty]
      rw [List.foldl_cons, hStep]
      exact ih fun j hj => hNone j (List.mem_cons_of_mem i hj)
  have hRest : ∀ is : List ModuleItem,
      is.foldl Prologue.Carried.pass { table := t } = { table := t } := by
    intro is
    induction is with
    | nil => rfl
    | cons i is ih => exact ih
  have hNone : ∀ i ∈ m.prologue, i.isClientDirective = false := by
    intro i hi
    simpa using (List.any_eq_false.mp h) i hi
  rw [settleComments, hPrologue _ hNone]
  show (m.afterPrologue.foldl Prologue.Carried.pass { table := t }).finish m.span.hi = t
  rw [hRest]
  rfl

/-- A module that is no boundary and imports nothing is left as it is, whatever the configuration. -/
theorem compileModule_unchanged {m : Module} (hBoundary : m.isClientBoundary = false)
    (hImports : m.body.filterMap ImportRecord.ofItem? = []) (config : Config) (filename : Text)
    (comments : CommentTable) (sink : DiagnosticSink) :
    (compileModule config filename m comments sink).module = m ∧
      (compileModule config filename m comments sink).comments = comments ∧
      (compileModule config filename m comments sink).sink = sink := by
  by_cases hOff : config = .all false
  · subst hOff
    exact ⟨rfl, rfl, rfl⟩
  · have hRun : ¬ (config.target = .server ∧ m.isClientBoundary = true) := by
      rw [hBoundary]
      simp
    obtain ⟨hModule, hComments, hSink⟩ :=
      @compileFor_other config.target filename m comments sink hRun
    rw [show compileModule config filename m comments sink =
      compileFor config.target filename m comments sink from if_pos (enabled_of_ne hOff)]
    refine ⟨?_, ?_, ?_⟩
    · rw [hModule, withoutDirectives_of_not_boundary hBoundary]
    · rw [hComments, settleComments_of_not_boundary hBoundary]
    · rw [hImports, show checkImports config.target [] = [] from rfl, List.append_nil] at hSink
      exact congrArg DiagnosticSink.mk hSink

/-- The compilation of a module. Its prologue is the longest run of string statements at the start
of the body, and it is a boundary when one of these has the value `client`. -/
theorem compileModule_meets_specification (config : Config) (filename : Text) (m : Module)
    (comments : CommentTable) (sink : DiagnosticSink) :
    let out := compileModule config filename m comments sink
    (config = .all false → out.module = m ∧ out.comments = comments ∧ out.sink = sink) ∧
    ∃ prologue rest, PrologueSplit m.body prologue rest ∧
      (∀ p r, PrologueSplit m.body p r → p = prologue ∧ r = rest) ∧
      (config ≠ .all false → (IsServer config ∧ ∃ i ∈ prologue, IsStringStmt i "client") →
        out.module = { m with body := proxyStatements filename } ∧ out.sink = sink) ∧
      (config ≠ .all false → ¬ (IsServer config ∧ ∃ i ∈ prologue, IsStringStmt i "client") →
        out.module =
          { m with body := prologue.filter (fun i => ¬ IsStringStmt i "client") ++ rest } ∧
        ∃ reports,
          List.Forall₂ (ItemReports (if IsServer config then .server else .client)) m.body reports ∧
          out.sink.diagnostics = sink.diagnostics ++ reports.flatten) := by
  intro out
  have hSplit := prologueSplit_prologue m
  refine ⟨?_, m.prologue, m.afterPrologue, hSplit, fun p r h => h.unique hSplit, ?_, ?_⟩
  · rintro rfl
    exact ⟨rfl, rfl, rfl⟩
  · intro hOn ⟨hServer, hBoundary⟩
    have hRun : config.target = .server ∧ m.isClientBoundary = true :=
      ⟨(target_eq_server_iff hOn).mpr hServer, (isClientBoundary_iff m).mpr hBoundary⟩
    have hOut : out = compileFor config.target filename m comments sink :=
      if_pos (enabled_of_ne hOn)
    rw [hOut]
    exact ⟨(compileFor_boundary hRun).1, (compileFor_boundary hRun).2.2⟩
  · intro hOn hElse
    have hRun : ¬ (config.target = .server ∧ m.isClientBoundary = true) := by
      rw [target_eq_server_iff hOn, isClientBoundary_iff]
      exact hElse
    have hOut : out = compileFor config.target filename m comments sink :=
      if_pos (enabled_of_ne hOn)
    obtain ⟨reports, hReports, hCheck⟩ := checkImports_items config.target m.body
    rw [hOut]
    refine ⟨?_, reports, ?_, ?_⟩
    · rw [← withoutDirectives_body]
      exact (compileFor_other hRun).1
    · rw [← target_eq_ite hOn]
      exact hReports
    · rw [← hCheck]
      exact (compileFor_other hRun).2.2

end ClientBoundary
