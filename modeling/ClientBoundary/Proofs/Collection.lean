import ClientBoundary.Boundary.Prologue
import Mathlib.Data.List.TakeWhile

/-!
# What is collected from a module

The body of a module is scanned once. What comes out of the scan is said here by cutting the body
after its prologue: directives are looked for in the first part only, and everything in the second
part stays.

* `scan_prologue`, `scan_rest` — the scan on its way through the two parts.
* `collect_eq` — the whole scan.
-/

namespace ClientBoundary

namespace Module

/-- The prologue of a module. -/
def prologue (m : Module) : List ModuleItem := m.body.takeWhile ModuleItem.isDirective

/-- The items after the prologue. -/
def afterPrologue (m : Module) : List ModuleItem := m.body.dropWhile ModuleItem.isDirective

/-- Whether a module is a client boundary. -/
def isClientBoundary (m : Module) : Bool := m.prologue.any ModuleItem.isClientDirective

/-- The import declarations of a module in order. -/
def imports (m : Module) : List ImportRecord := m.body.filterMap ImportRecord.ofItem?

/-- The module without the directives of its prologue. -/
def withoutDirectives (m : Module) : Module :=
  { m with body := m.prologue.filter (fun i => !i.isClientDirective) ++ m.afterPrologue }

theorem prologue_append (m : Module) : m.prologue ++ m.afterPrologue = m.body :=
  List.takeWhile_append_dropWhile

theorem isDirective_of_mem_prologue {m : Module} {i : ModuleItem} (h : i ∈ m.prologue) :
    i.isDirective = true :=
  List.mem_takeWhile_imp h

theorem isDirective_head_afterPrologue {m : Module} {i : ModuleItem}
    (h : i ∈ m.afterPrologue.head?) : i.isDirective = false := by
  have hNot := List.head?_dropWhile_not ModuleItem.isDirective m.body
  rw [Module.afterPrologue] at h
  rw [Option.mem_def.mp h] at hNot
  exact hNot

end Module

namespace Prologue

/-- Pass an item of the prologue. -/
def Carried.passDirective (moduleLo : Option Int) (c : Carried) (i : ModuleItem) : Carried :=
  if i.isClientDirective then c.pickUp moduleLo i.span.lo else c.handOver i.span.lo

/-- Pass an item after the prologue. -/
def Carried.pass (c : Carried) (i : ModuleItem) : Carried := c.handOver i.span.lo

end Prologue

/-- The comments of a module after its directives were taken out. -/
def settleComments (m : Module) (table : CommentTable) : CommentTable :=
  let carried := m.prologue.foldl (Prologue.Carried.passDirective m.span.lo) { table }
  (m.afterPrologue.foldl Prologue.Carried.pass carried).finish m.span.hi

-- ---------------------------------------------------------------------------------------------
-- The scan
-- ---------------------------------------------------------------------------------------------

/-- A string is no import. -/
theorem ofItem?_of_isDirective {i : ModuleItem} (h : i.isDirective = true) :
    ImportRecord.ofItem? i = none := by
  cases i with
  | importDecl => cases h
  | _ => rfl

/-- All imports come after the prologue. -/
theorem imports_eq_afterPrologue (m : Module) :
    m.imports = m.afterPrologue.filterMap ImportRecord.ofItem? := by
  have hNone : m.prologue.filterMap ImportRecord.ofItem? = [] :=
    List.filterMap_eq_nil_iff.mpr fun _ hi =>
      ofItem?_of_isDirective (Module.isDirective_of_mem_prologue hi)
  rw [Module.imports, ← m.prologue_append, List.filterMap_append, hNone, List.nil_append]

namespace Prologue

variable {lo : Option Int}

theorem Scan.step_directive {s : Scan} {i : ModuleItem} (hIn : s.inPrologue = true)
    (h : i.isDirective = true) :
    s.step lo i =
      { s with
        isClientBoundary := s.isClientBoundary || i.isClientDirective
        kept := s.kept ++ [i].filter (fun i => !i.isClientDirective)
        carried := s.carried.passDirective lo i } := by
  rw [Scan.step, ofItem?_of_isDirective h]
  cases hClient : i.isClientDirective <;>
    simp [hIn, h, hClient, Scan.keep, Carried.passDirective]

theorem Scan.step_other {s : Scan} {i : ModuleItem} (h : (s.inPrologue && i.isDirective) = false) :
    s.step lo i =
      { s with
        inPrologue := false
        imports := s.imports ++ [i].filterMap ImportRecord.ofItem?
        kept := s.kept ++ [i]
        carried := s.carried.pass i } := by
  cases hImport : ImportRecord.ofItem? i <;>
    simp [Scan.step, hImport, h, Scan.keep, Carried.pass]

/-- As long as there are only strings, the prologue stays open and directives are taken out. -/
theorem scan_prologue (items : List ModuleItem) (h : ∀ i ∈ items, i.isDirective = true) (s : Scan)
    (hIn : s.inPrologue = true) :
    items.foldl (Scan.step lo) s =
      { s with
        isClientBoundary := s.isClientBoundary || items.any ModuleItem.isClientDirective
        kept := s.kept ++ items.filter (fun i => !i.isClientDirective)
        carried := items.foldl (Carried.passDirective lo) s.carried } := by
  induction items generalizing s with
  | nil => simp
  | cons i items ih =>
    have hItems : ∀ j ∈ items, j.isDirective = true := fun j hj => h j (List.mem_cons_of_mem i hj)
    rw [List.foldl_cons, Scan.step_directive hIn (h i List.mem_cons_self), ih hItems]
    · cases hClient : i.isClientDirective <;> simp [hClient]
    · exact hIn

/-- From the first item on that is no string, all items stay. -/
theorem scan_rest (items : List ModuleItem) (s : Scan)
    (h : s.inPrologue = true → ∀ i ∈ items.head?, i.isDirective = false) :
    items.foldl (Scan.step lo) s =
      { s with
        inPrologue := s.inPrologue && items.isEmpty
        imports := s.imports ++ items.filterMap ImportRecord.ofItem?
        kept := s.kept ++ items
        carried := items.foldl Carried.pass s.carried } := by
  induction items generalizing s with
  | nil => simp
  | cons i items ih =>
    have hOther : (s.inPrologue && i.isDirective) = false := by
      cases hIn : s.inPrologue with
      | false => rfl
      | true => exact h hIn i rfl
    rw [List.foldl_cons, Scan.step_other hOther, ih _ fun hIn => by cases hIn]
    cases hImport : ImportRecord.ofItem? i <;> simp [hImport]

end Prologue

/-- What is collected, part by part. -/
theorem collect_eq (m : Module) (table : CommentTable) :
    collect m table =
      ⟨m.isClientBoundary, m.imports, m.withoutDirectives, settleComments m table⟩ := by
  rw [collect, ← m.prologue_append, List.foldl_append,
    Prologue.scan_prologue _ (fun _ => Module.isDirective_of_mem_prologue) _ rfl,
    Prologue.scan_rest _ _ fun _ _ => Module.isDirective_head_afterPrologue,
    imports_eq_afterPrologue]
  simp [Module.isClientBoundary, Module.withoutDirectives, settleComments]

end ClientBoundary
