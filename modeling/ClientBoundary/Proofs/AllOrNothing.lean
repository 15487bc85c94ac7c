import ClientBoundary.Proofs.DiskWrites
import Mathlib.Data.List.Forall2

/-!
# A run is all or nothing

A run compiles all its sources into one sink before it writes anything, so that it can tell from the
sink alone whether to write. This is right only because each source leaves a printed module or an
error: a source that cannot be read or is no module has no printed module and is always reported,
and whatever is reported on a module is an error too. Were there a source with neither, it would go
missing from a run that ends well.

* `Compiles` — what compiling one source comes to.
* `run_compileSources` — compiling sources in order collects what each of them comes to.
* `Delivered` — the modules of all sources come out in the way that was asked for.
* `run_all_or_nothing` — a run fails exactly when a source is at fault, and leaves nothing behind
  then; otherwise the modules of all sources are delivered unless writing fails.
-/

namespace ClientBoundary

namespace CommandLine

-- ---------------------------------------------------------------------------------------------
-- Reports of a compilation
-- ---------------------------------------------------------------------------------------------

theorem isError_of_mem_checkImports {target : Target} {imports : List ImportRecord}
    {report : Diagnostic} (h : report ∈ checkImports target imports) : report.isError = true := by
  obtain ⟨violation, -, rfl⟩ := List.mem_map.mp h
  rfl

theorem isError_of_parseFile {file : Text} {bytes : ByteArray} {report : Diagnostic}
    (h : parseFile file bytes = .ok (.error report)) : report.isError = true := by
  unfold parseFile at h
  split at h
  · cases h
  · split at h
    · cases h
    · cases h
      rfl
    · cases h

/-- The reports on a module. -/
def denials (config : Config) (source : Path) (parsed : ParsedModule) : List Diagnostic :=
  (compileModule config source.text parsed.module parsed.comments {}).sink.diagnostics

/-- The text that a module is compiled to. -/
def moduleText (config : Config) (source : Path) (parsed : ParsedModule) : Text :=
  let compiled := compileModule config source.text parsed.module parsed.comments {}
  printModule compiled.module (some compiled.comments)

/-- A compilation only adds to the sink. -/
theorem compileModule_sink (config : Config) (filename : Text) (m : Module)
    (comments : CommentTable) (sink : DiagnosticSink) :
    compileModule config filename m comments sink =
      { compileModule config filename m comments {} with
        sink := sink.extend (compileModule config filename m comments {}).sink.diagnostics } := by
  unfold compileModule compileFor
  split
  · dsimp only
    split
    · simp [DiagnosticSink.extend]
    · simp [DiagnosticSink.extend]
  · simp [DiagnosticSink.extend]

theorem isError_of_mem_denials {config : Config} {source : Path} {parsed : ParsedModule}
    {report : Diagnostic} (h : report ∈ denials config source parsed) : report.isError = true := by
  unfold denials compileModule compileFor at h
  split at h
  · dsimp only at h
    split at h
    · cases h
    · exact isError_of_mem_checkImports h
  · cases h

-- ---------------------------------------------------------------------------------------------
-- What compiling sources comes to
-- ---------------------------------------------------------------------------------------------

/-- What compiling a source comes to: its printed module unless there is none, and the reports on
it. -/
inductive Compiles (d : Disk) (config : Config) (source : Path) :
    Option Text × List Diagnostic → Prop where
  | unreadable {fault : DiskFault} (hRead : d.read source = .error fault) :
      Compiles d config source (none, [unreadable source fault])
  | noModule {bytes : ByteArray} {report : Diagnostic} (hRead : d.read source = .ok bytes)
      (hParse : parseFile source.text bytes = .ok (.error report)) :
      Compiles d config source (none, [report])
  | module {bytes : ByteArray} {parsed : ParsedModule} (hRead : d.read source = .ok bytes)
      (hParse : parseFile source.text bytes = .ok (.ok parsed)) :
      Compiles d config source
        (some (moduleText config source parsed), denials config source parsed)

/-- A source is at fault: it cannot be read, it is no module, or it imports what is denied. -/
inductive Faulty (d : Disk) (config : Config) (source : Path) : Prop where
  | unreadable {fault : DiskFault} (hRead : d.read source = .error fault)
  | noModule {bytes : ByteArray} {report : Diagnostic} (hRead : d.read source = .ok bytes)
      (hParse : parseFile source.text bytes = .ok (.error report))
  | denied {bytes : ByteArray} {parsed : ParsedModule} {report : Diagnostic}
      (hRead : d.read source = .ok bytes) (hParse : parseFile source.text bytes = .ok (.ok parsed))
      (hReport : report ∈ denials config source parsed)

namespace Compiles

variable {d : Disk} {config : Config} {source : Path} {result : Option Text × List Diagnostic}

theorem isError (h : Compiles d config source result) :
    ∀ report ∈ result.2, report.isError = true := by
  intro report hReport
  cases h with
  | unreadable hRead =>
    rw [List.mem_singleton.mp hReport]
    rfl
  | noModule hRead hParse =>
    rw [List.mem_singleton.mp hReport]
    exact isError_of_parseFile hParse
  | module hRead hParse => exact isError_of_mem_denials hReport

/-- A source is at fault exactly when there are reports on it. -/
theorem faulty_iff (h : Compiles d config source result) :
    Faulty d config source ↔ result.2 ≠ [] := by
  cases h with
  | unreadable hRead => exact iff_of_true (.unreadable hRead) (List.cons_ne_nil _ _)
  | noModule hRead hParse => exact iff_of_true (.noModule hRead hParse) (List.cons_ne_nil _ _)
  | module hRead hParse =>
    constructor
    · intro hFaulty
      cases hFaulty with
      | unreadable hRead' => cases hRead.symm.trans hRead'
      | noModule hRead' hParse' =>
        cases hRead.symm.trans hRead'
        cases hParse.symm.trans hParse'
      | denied hRead' hParse' hReport =>
        cases hRead.symm.trans hRead'
        cases hParse.symm.trans hParse'
        exact List.ne_nil_of_mem hReport
    · intro hReports
      obtain ⟨report, hReport⟩ := List.exists_mem_of_ne_nil _ hReports
      exact .denied hRead hParse hReport

/-- A source without reports has a printed module. -/
theorem exists_text (h : Compiles d config source result) (hReports : result.2 = []) :
    ∃ text, result.1 = some text := by
  cases h with
  | unreadable hRead => cases hReports
  | noModule hRead hParse => cases hReports
  | module hRead hParse => exact ⟨_, rfl⟩

end Compiles

/-- The reading of a source that can be read does not break off. -/
def Readable (d : Disk) (source : Path) : Prop :=
  ∀ bytes, d.read source = .ok bytes → ∃ result, parseFile source.text bytes = .ok result

theorem Compiles.readable {d : Disk} {config : Config} {source : Path}
    {result : Option Text × List Diagnostic} (h : Compiles d config source result) :
    Readable d source := by
  intro bytes hBytes
  cases h with
  | unreadable hRead => cases hRead.symm.trans hBytes
  | noModule hRead hParse | module hRead hParse =>
    cases hRead.symm.trans hBytes
    exact ⟨_, hParse⟩

theorem exists_compiles {d : Disk} (config : Config) {source : Path} (h : Readable d source) :
    ∃ result, Compiles d config source result := by
  cases hRead : d.read source with
  | error fault => exact ⟨_, .unreadable hRead⟩
  | ok bytes =>
    obtain ⟨report | parsed, hParse⟩ := h bytes hRead
    · exact ⟨_, .noModule hRead hParse⟩
    · exact ⟨_, .module hRead hParse⟩

theorem exists_all_compile {d : Disk} (config : Config) {sources : List Path}
    (h : ∀ source ∈ sources, Readable d source) :
    ∃ results, List.Forall₂ (Compiles d config) sources results := by
  induction sources with
  | nil => exact ⟨[], .nil⟩
  | cons source sources ih =>
    obtain ⟨result, hResult⟩ := exists_compiles config (h source List.mem_cons_self)
    obtain ⟨results, hResults⟩ := ih fun s hs => h s (List.mem_cons_of_mem _ hs)
    exact ⟨result :: results, .cons hResult hResults⟩

/-- Compiling a source adds what it comes to, and does not touch the disk. -/
theorem run_compileSource {d : Disk} {config : Config} {source : Path}
    {result : Option Text × List Diagnostic} (h : Compiles d config source result) (p : Progress) :
    ∃ log, (compileSource config source p : StateM Disk _) d =
      (.ok ⟨p.sink.extend result.2, log, p.outputs ++ [result.1]⟩, d) := by
  rw [compileSource, run_bind, run_read]
  cases h with
  | unreadable hRead =>
    simp only [hRead]
    exact ⟨p.log, rfl⟩
  | noModule hRead hParse =>
    simp only [hRead, compileBytes, hParse]
    exact ⟨p.log, rfl⟩
  | module hRead hParse =>
    simp only [hRead, compileBytes, hParse]
    rw [compileModule_sink]
    exact ⟨_, rfl⟩

/-- Compiling sources in order collects what each of them comes to. -/
theorem run_compileSources {d : Disk} {config : Config} {sources : List Path}
    {results : List (Option Text × List Diagnostic)}
    (h : List.Forall₂ (Compiles d config) sources results) (p : Progress) :
    ∃ log, (compileSources config sources p : StateM Disk _) d =
      (.ok ⟨p.sink.extend (results.flatMap (·.2)), log, p.outputs ++ results.map (·.1)⟩, d) := by
  induction h generalizing p with
  | nil =>
    refine ⟨p.log, ?_⟩
    simp only [DiagnosticSink.extend, List.flatMap_nil, List.map_nil, List.append_nil]
    rfl
  | cons hSource _ ih =>
    obtain ⟨log, hFirst⟩ := run_compileSource hSource p
    obtain ⟨log', hRest⟩ := ih ⟨_, log, _⟩
    refine ⟨log', ?_⟩
    rw [compileSources, run_bind, hFirst]
    refine hRest.trans ?_
    simp [DiagnosticSink.extend]

-- ---------------------------------------------------------------------------------------------
-- Finishing
-- ---------------------------------------------------------------------------------------------

/-- Where outputs go: a single one to the path itself unless there is a directory. -/
def destined (d : Disk) (sources : List Path) (output : Path) : List Path :=
  if sources.length = 1 ∧ d.status output ≠ some .directory then [output]
  else outputPaths output (sources.map (·.place d.working))

theorem length_destined (d : Disk) (sources : List Path) (output : Path) :
    (destined d sources output).length = sources.length := by
  unfold destined
  split
  · next h => exact h.1.symm
  · simp [outputPaths]

theorem run_places (sources : List Path) (d : Disk) :
    (sources.mapM MonadDisk.place : StateM Disk _) d =
      (sources.map (·.place d.working), d) := by
  induction sources with
  | nil => rfl
  | cons source sources ih =>
    rw [List.mapM_cons, run_bind, run_bind]
    change (_ :: ((sources.mapM MonadDisk.place : StateM Disk _) d).1,
      ((sources.mapM MonadDisk.place : StateM Disk _) d).2) = _
    rw [ih]
    rfl

theorem run_destinations (sources : List Path) (output : Path) (d : Disk) :
    (destinations sources output : StateM Disk _) d = (destined d sources output, d) := by
  rw [destinations, run_bind]
  change (if sources.length = 1 ∧ (!decide (d.status output = some .directory)) = true
    then _ else _ : StateM Disk _) d = _
  by_cases hOne : sources.length = 1 ∧ d.status output ≠ some .directory
  · rw [if_pos (by simpa using hOne), destined, if_pos hOne]
    rfl
  · rw [if_neg (by simpa using hOne), destined, if_neg hOne, run_bind, run_places]
    rfl

/-- What a run prints when it prints no code. -/
def withoutCode (r : Request) (exitCode : Nat) (reports : List Diagnostic) : Printed :=
  if r.json then .report ⟨exitCode, reports, r.sources.head?⟩ else .code []

/-- What a run says on the error channel once its sources are compiled. -/
def errorLines (r : Request) (p : Progress) : List Text :=
  logLines r p.log ++ if r.json then [] else p.sink.diagnostics.map Diagnostic.line

theorem finish_of_errors {r : Request} {p : Progress} (d : Disk) (h : p.sink.hasErrors = true) :
    (finish r p : StateM Disk _) d =
      (⟨.ok 1, withoutCode r 1 p.sink.diagnostics, errorLines r p⟩, d) := by
  simp only [finish, h]
  rfl

theorem finish_to_channel {r : Request} {p : Progress} (d : Disk) (h : p.sink.hasErrors = false)
    (hOutput : r.output = none) :
    (finish r p : StateM Disk _) d =
      (⟨.ok 0, if r.json then withoutCode r 0 p.sink.diagnostics
        else .code (p.outputs.filterMap id).flatten, errorLines r p⟩, d) := by
  simp only [finish, h, hOutput, errorLines, withoutCode]
  cases r.json with
  | false => rfl
  | true => rfl

theorem finish_to_disk {r : Request} {p : Progress} {output : Path} (d : Disk)
    (h : p.sink.hasErrors = false) (hOutput : r.output = some output) :
    (finish r p : StateM Disk _) d =
      (⟨((writeOutputs ((destined d r.sources output).zip p.outputs) : StateM Disk _) d).1.map
          fun _ => 0, withoutCode r 0 p.sink.diagnostics, errorLines r p⟩,
        ((writeOutputs ((destined d r.sources output).zip p.outputs) : StateM Disk _) d).2) := by
  simp only [finish, h, hOutput]
  rw [if_neg (by simp), run_bind, run_destinations, run_bind]
  cases ((writeOutputs ((destined d r.sources output).zip p.outputs) : StateM Disk _) d).1 with
  | error failure => rfl
  | ok _ => rfl

-- ---------------------------------------------------------------------------------------------
-- A whole run
-- ---------------------------------------------------------------------------------------------

/-- The configuration that a request asks for, which is valid. -/
inductive Configured (d : Disk) (r : Request) : Config → Prop where
  | byOption (hPath : r.config = none) : Configured d r (.options !r.client)
  | byFile {path : Path} {bytes : ByteArray} {config : Config} (hPath : r.config = some path)
      (hRead : d.read path = .ok bytes) (hConfig : Config.ofBytes path bytes = .ok config) :
      Configured d r config

/-- A run gets as far as compiling, and can compile: the arguments are a request, it passes the
checks on it, its configuration is valid, and the reading of no source breaks off. -/
structure Accepted (d : Disk) (argv : List Text) (r : Request) (config : Config) : Prop where
  request : request argv = .ok r
  jobs : 1 ≤ r.jobs
  output : ∀ output ∈ r.output, 1 < r.sources.length → d.status output ≠ some .file
  config : Configured d r config
  sources : ∀ source ∈ r.sources, Readable d source

theorem run_outputIsFile {r : Request} {d : Disk}
    (h : ∀ output ∈ r.output, 1 < r.sources.length → d.status output ≠ some .file) :
    (outputIsFile r : StateM Disk _) d = (false, d) := by
  unfold outputIsFile
  cases hOutput : r.output with
  | none => rfl
  | some output =>
    dsimp only
    split
    · rfl
    · next hMany =>
      change (decide (d.status output = some .file), d) = (false, d)
      rw [decide_eq_false (h output hOutput (by omega))]

theorem run_configOf {r : Request} {d : Disk} {config : Config} (h : Configured d r config) :
    (configOf r : StateM Disk _) d = (.ok config, d) := by
  cases h with
  | byOption hPath =>
    rw [configOf, hPath]
    rfl
  | byFile hPath hRead hConfig =>
    rw [configOf, hPath]
    change (Config.load _ : StateM Disk _) d = _
    rw [Config.load, run_bind, run_read]
    simp only [hRead, hConfig]
    rfl

theorem run_of_accepted {d : Disk} {argv : List Text} {r : Request} {config : Config}
    (h : Accepted d argv r config) :
    (run argv : StateM Disk _) d = (runWith r config : StateM Disk _) d := by
  rw [run, h.request]
  change (runRequest r : StateM Disk _) d = _
  rw [runRequest, if_neg (by have := h.jobs; omega), run_bind, run_outputIsFile h.output]
  change ((configOf r : StateM Disk _) >>= _) d = _
  rw [run_bind, run_configOf h.config]

/-- The modules of all sources come out in the way that was asked for: as text in their order, not
at all beside a report, or on the disk. -/
inductive Delivered (d : Disk) (r : Request) (texts : List Text) : Printed → Disk → Prop where
  | printed (hOutput : r.output = none) (hJson : r.json = false) :
      Delivered d r texts (.code texts.flatten) d
  | reported (hOutput : r.output = none) (hJson : r.json = true) :
      Delivered d r texts (.report ⟨0, [], r.sources.head?⟩) d
  | written {output : Path} {d' : Disk} (hOutput : r.output = some output)
      (hEach : (destined d r.sources output).length = texts.length)
      (hHolds : Holds ((destined d r.sources output).zip texts) d d') :
      Delivered d r texts (withoutCode r 0 []) d'

theorem Delivered.holds {d d' : Disk} {r : Request} {texts : List Text} {printed : Printed}
    {output : Path} (h : Delivered d r texts printed d') (hOutput : r.output = some output) :
    Holds ((destined d r.sources output).zip texts) d d' := by
  cases h with
  | printed hNone _ => cases hNone.symm.trans hOutput
  | reported hNone _ => cases hNone.symm.trans hOutput
  | written hSome _ hHolds =>
    cases hSome.symm.trans hOutput
    exact hHolds

/-- All sources are modules, printed as the texts, and there is nothing to report on them. -/
def AllClean (d : Disk) (config : Config) (sources : List Path) (texts : List Text) : Prop :=
  List.Forall₂ (fun source text => Compiles d config source (some text, [])) sources texts

/-- The modules of all sources are printed, but not all of them can be written. -/
def WritingFails (d : Disk) (r : Request) (config : Config) (exit : Except Failure Nat)
    (d' : Disk) : Prop :=
  ∃ texts output failure, AllClean d config r.sources texts ∧ r.output = some output ∧
    exit = .error failure ∧
    (writeOutputs ((destined d r.sources output).zip (texts.map some)) : StateM Disk _) d =
      (.error failure, d')

/-- How a run ends that gets as far as compiling. -/
inductive Ends (d : Disk) (r : Request) (config : Config) : Outcome → Disk → Prop where
  | faulty {results : List (Option Text × List Diagnostic)} {lines : List Text}
      (hFaulty : ∃ source ∈ r.sources, Faulty d config source)
      (hResults : List.Forall₂ (Compiles d config) r.sources results) :
      Ends d r config ⟨.ok 1, withoutCode r 1 (results.flatMap (·.2)), lines⟩ d
  | clean {texts : List Text} {printed : Printed} {lines : List Text} {d' : Disk}
      (hClean : AllClean d config r.sources texts) (hDelivered : Delivered d r texts printed d') :
      Ends d r config ⟨.ok 0, printed, lines⟩ d'
  | brokenOff {failure : Failure} {lines : List Text} {d' : Disk}
      (hFails : WritingFails d r config (.error failure) d') :
      Ends d r config ⟨.error failure, withoutCode r 0 [], lines⟩ d'

/-- Among sources without reports none lacks a printed module. -/
theorem allClean_of_no_reports {d : Disk} {config : Config} {sources : List Path}
    {results : List (Option Text × List Diagnostic)}
    (h : List.Forall₂ (Compiles d config) sources results) (hNone : results.flatMap (·.2) = []) :
    ∃ texts, AllClean d config sources texts ∧ results.map (·.1) = texts.map some := by
  induction h with
  | nil => exact ⟨[], .nil, rfl⟩
  | @cons _ result _ _ hSource _ ih =>
    obtain ⟨_, reports⟩ := result
    rw [List.flatMap_cons, List.append_eq_nil_iff] at hNone
    obtain ⟨rfl, hRest⟩ := hNone
    obtain ⟨text, rfl⟩ := hSource.exists_text rfl
    obtain ⟨texts, hClean, hTexts⟩ := ih hRest
    exact ⟨text :: texts, .cons hSource hClean, by rw [List.map_cons, List.map_cons, hTexts]⟩

theorem exists_faulty {d : Disk} {config : Config} {sources : List Path}
    {results : List (Option Text × List Diagnostic)}
    (h : List.Forall₂ (Compiles d config) sources results) (hSome : results.flatMap (·.2) ≠ []) :
    ∃ source ∈ sources, Faulty d config source := by
  induction h with
  | nil => exact absurd rfl hSome
  | @cons source result sources results hSource _ ih =>
    by_cases hReports : result.2 = []
    · rw [List.flatMap_cons, hReports] at hSome
      obtain ⟨other, hMem, hFaulty⟩ := ih hSome
      exact ⟨other, List.mem_cons_of_mem _ hMem, hFaulty⟩
    · exact ⟨source, List.mem_cons_self, hSource.faulty_iff.mpr hReports⟩

theorem AllClean.not_faulty {d : Disk} {config : Config} {sources : List Path} {texts : List Text}
    (h : AllClean d config sources texts) : ¬ ∃ source ∈ sources, Faulty d config source := by
  rintro ⟨source, hMem, hFaulty⟩
  induction h with
  | nil => cases hMem
  | cons hSource _ ih =>
    rcases List.mem_cons.mp hMem with rfl | hMem
    · exact hSource.faulty_iff.mp hFaulty rfl
    · exact ih hMem

theorem WritingFails.not_faulty {d d' : Disk} {r : Request} {config : Config}
    {exit : Except Failure Nat} (h : WritingFails d r config exit d') :
    ¬ ∃ source ∈ r.sources, Faulty d config source := by
  obtain ⟨texts, output, failure, hClean, -⟩ := h
  exact hClean.not_faulty

theorem isError_of_all {d : Disk} {config : Config} {sources : List Path}
    {results : List (Option Text × List Diagnostic)}
    (h : List.Forall₂ (Compiles d config) sources results) :
    ∀ report ∈ results.flatMap (·.2), report.isError = true := by
  induction h with
  | nil => simp
  | cons hSource _ ih =>
    intro report hReport
    rw [List.flatMap_cons, List.mem_append] at hReport
    rcases hReport with hReport | hReport
    · exact hSource.isError report hReport
    · exact ih report hReport

/-- Reports that are errors make a sink fail when there are any. -/
theorem hasErrors_extend {reports : List Diagnostic} (hSome : reports ≠ [])
    (h : ∀ report ∈ reports, report.isError = true) :
    (({} : DiagnosticSink).extend reports).hasErrors = true := by
  obtain ⟨report, hReport⟩ := List.exists_mem_of_ne_nil _ hSome
  exact List.any_eq_true.mpr ⟨report, hReport, h report hReport⟩

/-- When there is nothing to report, all modules come out unless writing fails. -/
theorem finish_ends {d d' : Disk} {r : Request} {config : Config} {texts : List Text}
    {log : List LogEntry} {o : Outcome} (hClean : AllClean d config r.sources texts)
    (hRun : (finish r ⟨{}, log, texts.map some⟩ : StateM Disk _) d = (o, d')) :
    Ends d r config o d' := by
  cases hOutput : r.output with
  | none =>
    rw [finish_to_channel d rfl hOutput] at hRun
    obtain ⟨rfl, rfl⟩ := Prod.mk.inj hRun
    refine .clean hClean ?_
    cases hJson : r.json with
    | false =>
      have hFlat : ((texts.map some).filterMap id).flatten = texts.flatten := by
        simp [List.filterMap_map]
      simp only [hFlat]
      exact .printed hOutput hJson
    | true =>
      simp only [withoutCode, hJson]
      exact .reported hOutput hJson
  | some output =>
    rw [finish_to_disk d rfl hOutput] at hRun
    obtain ⟨rfl, rfl⟩ := Prod.mk.inj hRun
    rcases hWrite : (writeOutputs ((destined d r.sources output).zip (texts.map some)) :
      StateM Disk _) d with ⟨failure | ⟨⟩, d'⟩
    · exact .brokenOff ⟨texts, output, failure, hClean, hOutput, rfl, hWrite⟩
    · have hLength := (length_destined d r.sources output).trans hClean.length_eq
      rw [List.zip_map_right] at hWrite
      exact .clean hClean (.written hOutput hLength (holds_of_writeOutputs hWrite))

theorem run_ends {d d' : Disk} {argv : List Text} {r : Request} {config : Config} {o : Outcome}
    (h : Accepted d argv r config) (hRun : (run argv : StateM Disk _) d = (o, d')) :
    Ends d r config o d' := by
  obtain ⟨results, hResults⟩ := exists_all_compile config h.sources
  obtain ⟨log, hCompile⟩ := run_compileSources hResults { log := [.configured config] }
  rw [run_of_accepted h, runWith, run_bind, hCompile] at hRun
  dsimp only at hRun
  by_cases hReports : results.flatMap (·.2) = []
  · obtain ⟨texts, hClean, hTexts⟩ := allClean_of_no_reports hResults hReports
    rw [hReports, hTexts] at hRun
    exact finish_ends hClean hRun
  · have hErrors := hasErrors_extend hReports (isError_of_all hResults)
    rw [finish_of_errors d hErrors] at hRun
    obtain ⟨rfl, rfl⟩ := Prod.mk.inj hRun
    exact .faulty (exists_faulty hResults hReports) hResults

/-- A disk with one module on it. -/
def oneModule : Disk := ({} : Disk).withFile [Text.ofString "a.js"] "a".toUTF8

/-- What the module on it comes to. -/
theorem compiles_oneModule_iff {result : Option Text × List Diagnostic} :
    Compiles oneModule (.options true) ⟨.working, ["a.js"]⟩ result ↔
      result = (some (Text.ofString "a;\n"), []) := by
  have hRead : oneModule.read ⟨.working, ["a.js"]⟩ = .ok "a".toUTF8 := rfl
  have hFile : (match parseFile "a.js" "a".toUTF8 with
      | .ok (.ok parsed) =>
        decide (moduleText (.options true) ⟨.working, ["a.js"]⟩ parsed = Text.ofString "a;\n") &&
          (denials (.options true) ⟨.working, ["a.js"]⟩ parsed).isEmpty
      | _ => false) = true := by
    decide +kernel
  split at hFile
  · rename_i parsed hParse
    rw [Bool.and_eq_true, decide_eq_true_eq, List.isEmpty_iff] at hFile
    rw [← hFile.1, ← hFile.2]
    constructor
    · intro h
      cases h with
      | unreadable hRead' => cases hRead.symm.trans hRead'
      | noModule hRead' hParse' =>
        cases hRead.symm.trans hRead'
        cases hParse.symm.trans hParse'
      | module hRead' hParse' =>
        cases hRead.symm.trans hRead'
        cases hParse.symm.trans hParse'
        rfl
    · rintro rfl
      exact .module hRead hParse
  · cases hFile

/-- A run ends with 1 exactly when a source is at fault. It has printed no code and written nothing
then, only said what is wrong with the sources, in their order. When it ends with 0 all sources have
a printed module, and they come out in the way that was asked for. There is no other end unless
writing fails. -/
theorem run_all_or_nothing {d d' : Disk} {argv : List Text} {r : Request} {config : Config}
    {o : Outcome} (h : Accepted d argv r config)
    (hRun : (run argv : StateM Disk _) d = (o, d')) :
    (o.exit = .ok 1 ↔ ∃ source ∈ r.sources, Faulty d config source) ∧
    (o.exit = .ok 1 → d' = d ∧ ∃ results, List.Forall₂ (Compiles d config) r.sources results ∧
      o.printed = withoutCode r 1 (results.flatMap (·.2))) ∧
    (o.exit = .ok 0 → ∃ texts, AllClean d config r.sources texts ∧
      Delivered d r texts o.printed d') ∧
    (o.exit = .ok 0 ∨ o.exit = .ok 1 ∨ WritingFails d r config o.exit d') := by
  cases run_ends h hRun with
  | faulty hFaulty hResults =>
    exact ⟨iff_of_true rfl hFaulty, fun _ => ⟨rfl, _, hResults, rfl⟩, nofun, .inr (.inl rfl)⟩
  | clean hClean hDelivered =>
    exact ⟨iff_of_false nofun hClean.not_faulty, nofun, fun _ => ⟨_, hClean, hDelivered⟩,
      .inl rfl⟩
  | brokenOff hFails =>
    exact ⟨iff_of_false nofun hFails.not_faulty, nofun, nofun, .inr (.inr hFails)⟩

/-- A module is written to the path that is given for it. It is not written, nor anything else, when
a source beside it is missing. -/
theorem module_written_unless_another_is_missing :
    (((run ["a.js", "-o", "out/b.js"] : StateM Disk _) oneModule).1.exit = .ok 0 ∧
      ((run ["a.js", "-o", "out/b.js"] : StateM Disk _) oneModule).2.read
        ⟨.working, ["out", "b.js"]⟩ = .ok "a;\n".toUTF8) ∧
    ((run ["a.js", "b.js", "-o", "out"] : StateM Disk _) oneModule).1.exit = .ok 1 ∧
      ((run ["a.js", "b.js", "-o", "out"] : StateM Disk _) oneModule).2 = oneModule := by
  have hModule := compiles_oneModule_iff.mpr rfl
  constructor
  · have h : Accepted oneModule ["a.js", "-o", "out/b.js"]
        { sources := [⟨.working, ["a.js"]⟩], output := some ⟨.working, ["out", "b.js"]⟩ }
        (.options true) :=
      { request := by decide +kernel
        jobs := by decide
        output := by decide +kernel
        config := .byOption rfl
        sources := by simpa using hModule.readable }
    have hTexts : ∀ texts, AllClean oneModule (.options true) [⟨.working, ["a.js"]⟩] texts →
        texts = ["a;\n"] := by
      rintro _ (_ | ⟨hText, ⟨⟩⟩)
      cases compiles_oneModule_iff.mp hText
      rfl
    have hRun := run_all_or_nothing h (Prod.eta _).symm
    rcases hRun.2.2.2 with hExit | hExit | hFails
    · obtain ⟨texts, hClean, hDelivered⟩ := hRun.2.2.1 hExit
      obtain rfl := hTexts texts hClean
      obtain ⟨place, bytes, -, hBytes, hRead⟩ :=
        (hDelivered.holds rfl).each (rfl : _ = [] ++ (_, _) :: [])
      cases hBytes
      exact ⟨hExit, hRead (by simp)⟩
    · obtain ⟨source, hMem, hFaulty⟩ := hRun.1.mp hExit
      obtain rfl := List.mem_singleton.mp hMem
      exact absurd rfl (hModule.faulty_iff.mp hFaulty)
    · obtain ⟨texts, output, failure, hClean, hOutput, -, hWrite⟩ := hFails
      obtain rfl := hTexts texts hClean
      cases hOutput
      have hOk : ((writeOutputs [(⟨.working, ["out", "b.js"]⟩, some (Text.ofString "a;\n"))] :
          StateM Disk _) oneModule).1 = .ok () := by decide +kernel
      cases hOk.symm.trans (congrArg Prod.fst hWrite)
  · have h : Accepted oneModule ["a.js", "b.js", "-o", "out"]
        { sources := [⟨.working, ["a.js"]⟩, ⟨.working, ["b.js"]⟩]
          output := some ⟨.working, ["out"]⟩ } (.options true) :=
      { request := by decide +kernel
        jobs := by decide
        output := by decide +kernel
        config := .byOption rfl
        sources := by
          have hMissing : Readable oneModule ⟨.working, ["b.js"]⟩ := by
            intro bytes hBytes
            cases hBytes
          simpa using ⟨hModule.readable, hMissing⟩ }
    have hRun := run_all_or_nothing h (Prod.eta _).symm
    have hRead : oneModule.read ⟨.working, ["b.js"]⟩ = .error .notFound := rfl
    have hExit := hRun.1.mpr ⟨_, by simp, .unreadable hRead⟩
    exact ⟨hExit, (hRun.2.1 hExit).1⟩

end CommandLine

end ClientBoundary
