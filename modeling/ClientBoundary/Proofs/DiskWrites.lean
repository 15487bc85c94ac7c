import ClientBoundary.CommandLine.Run
import ClientBoundary.Disk.Basic
import Mathlib.Data.Set.Insert

/-!
# What writing does to a disk

A run changes the disk in two ways only: it makes directories where there is nothing, and it writes
files where there is no directory. So a disk grows: directories stay, and a file changes only where
one is written. In particular a path that leads somewhere leads there for the rest of the run, and
it makes sense to speak of the place of an output although directories are made for it on the way.

* `Disk.Grows` — a disk comes from another by making directories and writing files at some places.
* `Disk.Grows.locate` — what a path led to it still leads to.
* `MonadDisk.keepsFiles_makeDirectories` — making directories changes no file.
* `CommandLine.Holds` — outputs stand at their paths, the last one where several go to one place,
  and every other file is as it was.
* `CommandLine.holds_of_writeOutputs` — this is so when writing them has succeeded.
-/

namespace ClientBoundary

namespace Disk

-- ---------------------------------------------------------------------------------------------
-- Putting something at a place
-- ---------------------------------------------------------------------------------------------

theorem node?_put_self (d : Disk) {place : List Text} (node : DiskNode) (h : place ≠ []) :
    (d.put place node).node? place = some node := by
  have hGone : (d.nodes.filter (·.1 ≠ place)).find? (·.1 = place) = none := by
    rw [List.find?_eq_none]
    intro entry hEntry
    simpa using (List.mem_filter.mp hEntry).2
  have hRoot : place.isEmpty = false := List.isEmpty_eq_false_iff.mpr h
  simp only [node?, put, List.find?_append, hGone, hRoot, Option.none_or]
  simp

theorem node?_put_of_ne (d : Disk) {place q : List Text} (node : DiskNode) (h : q ≠ place) :
    (d.put place node).node? q = d.node? q := by
  have hKept : (d.nodes.filter (·.1 ≠ place)).find? (·.1 = q) = d.nodes.find? (·.1 = q) := by
    rw [List.find?_filter]
    congr 1
    funext entry
    by_cases hEntry : entry.1 = q
    · simp [hEntry, h]
    · simp [hEntry]
  have hOther : ([(place, node)] : List (List Text × DiskNode)).find? (·.1 = q) = none := by
    simp [Ne.symm h]
  simp only [node?, put, List.find?_append, hKept, hOther, Option.or_none]

/-- The root is a directory, so what is no directory is elsewhere. -/
theorem ne_nil_of_node? {d : Disk} {place : List Text} (h : d.node? place ≠ some .directory) :
    place ≠ [] := by
  rintro rfl
  exact h rfl

-- ---------------------------------------------------------------------------------------------
-- Growing
-- ---------------------------------------------------------------------------------------------

/-- A disk grows into another by making directories, and by writing files at some places. -/
structure Grows (written : Set (List Text)) (d d' : Disk) : Prop where
  working : d'.working = d.working
  directories : ∀ {place}, d.node? place = some .directory → d'.node? place = some .directory
  files : ∀ {place}, place ∉ written → ∀ content,
    d'.node? place = some (.file content) ↔ d.node? place = some (.file content)

namespace Grows

variable {written : Set (List Text)} {d d' : Disk}

theorem refl (d : Disk) : Grows written d d := ⟨rfl, id, fun _ _ => .rfl⟩

theorem trans {a b c : Disk} (h : Grows written a b) (h' : Grows written b c) :
    Grows written a c where
  working := h'.working.trans h.working
  directories := h'.directories ∘ h.directories
  files hNot content := (h'.files hNot content).trans (h.files hNot content)

theorem mono {more : Set (List Text)} (hSub : written ⊆ more) (h : Grows written d d') :
    Grows more d d' where
  working := h.working
  directories := h.directories
  files hNot := h.files fun hMem => hNot (hSub hMem)

theorem enter (h : Grows written d d') {place q : List Text} {name : Text}
    (hEnter : d.enter place name = .ok q) : d'.enter place name = .ok q := by
  unfold Disk.enter at hEnter ⊢
  split at hEnter
  · cases hEnter
  · cases hEnter
  · next hNode => rw [h.directories hNode, ← hEnter]

theorem follow (h : Grows written d d') {names : List Text} {place q : List Text}
    (hNames : names.foldlM d.enter place = .ok q) :
    names.foldlM d'.enter place = .ok q := by
  induction names generalizing place with
  | nil => exact hNames
  | cons name names ih =>
    rw [List.foldlM_cons] at hNames ⊢
    cases hEnter : d.enter place name with
    | error fault =>
      rw [hEnter] at hNames
      cases hNames
    | ok next =>
      rw [hEnter] at hNames
      rw [h.enter hEnter]
      exact ih hNames

/-- What a path led to it still leads to. -/
theorem locate (h : Grows written d d') {p : Path} {q : List Text}
    (hLocate : d.locate p = .ok q) : d'.locate p = .ok q := by
  unfold Disk.locate at hLocate ⊢
  rw [h.working]
  exact h.follow hLocate

end Grows

theorem makeDirectory_grows {d d' : Disk} {p : Path} (h : d.makeDirectory p = .ok d') :
    Grows ∅ d d' := by
  unfold makeDirectory at h
  cases hLocate : d.locate p with
  | error fault =>
    rw [hLocate] at h
    cases h
  | ok place =>
    rw [hLocate] at h
    cases hNode : d.node? place with
    | some node =>
      simp only [bind, Except.bind, hNode] at h
      cases h
    | none =>
      simp only [bind, Except.bind, hNode, Except.ok.injEq] at h
      subst h
      have hRoot : place ≠ [] := ne_nil_of_node? (d := d) (by simp [hNode])
      refine ⟨rfl, ?_, ?_⟩
      · intro q hq
        have hNe : q ≠ place := by
          rintro rfl
          simp [hNode] at hq
        rw [node?_put_of_ne d _ hNe, hq]
      · intro q _ content
        by_cases hq : q = place
        · subst hq
          simp [node?_put_self d _ hRoot, hNode]
        · rw [node?_put_of_ne d _ hq]

theorem read_of_file {d : Disk} {p : Path} {place : List Text} {content : ByteArray}
    (hLocate : d.locate p = .ok place) (hNode : d.node? place = some (.file content)) :
    d.read p = .ok content := by
  simp only [read, hLocate, bind, Except.bind, hNode]

/-- A file that is written stands at the place that its path leads to, and nothing else changes. -/
theorem write_grows {d d' : Disk} {p : Path} {content : ByteArray}
    (h : d.write p content = .ok d') :
    ∃ place, d.locate p = .ok place ∧ Grows {place} d d' ∧
      d'.node? place = some (.file content) := by
  unfold write at h
  cases hLocate : d.locate p with
  | error fault =>
    rw [hLocate] at h
    cases h
  | ok place =>
    have hNode : d.node? place ≠ some .directory := by
      intro hNode
      simp only [hLocate, bind, Except.bind, hNode] at h
      cases h
    have hPut : d.put place (.file content) = d' := by
      simp only [hLocate, bind, Except.bind] at h
      exact Except.ok.inj h
    subst hPut
    refine ⟨place, rfl, ⟨rfl, ?_, ?_⟩, node?_put_self d _ (ne_nil_of_node? hNode)⟩
    · intro q hq
      have hNe : q ≠ place := by
        rintro rfl
        exact hNode hq
      rw [node?_put_of_ne d _ hNe, hq]
    · intro q hq _
      rw [node?_put_of_ne d _ (by simpa using hq)]

end Disk

-- ---------------------------------------------------------------------------------------------
-- Computations on a disk
-- ---------------------------------------------------------------------------------------------

theorem run_bind {α β : Type} (x : StateM Disk α) (f : α → StateM Disk β) (d : Disk) :
    (x >>= f) d = f (x d).1 (x d).2 := rfl

theorem run_read (p : Path) (d : Disk) :
    (MonadDisk.read p : StateM Disk _) d = (d.read p, d) := rfl

theorem run_write (p : Path) (content : ByteArray) (d : Disk) :
    (MonadDisk.write p content : StateM Disk _) d = Disk.attempt (·.write p content) d := rfl

/-- A computation changes no file, on whatever disk it is run. -/
def KeepsFiles {α : Type} (x : StateM Disk α) : Prop := ∀ d, Disk.Grows ∅ d (x d).2

theorem keepsFiles_pure {α : Type} (a : α) : KeepsFiles (pure a : StateM Disk α) := .refl

theorem KeepsFiles.bind {α β : Type} {x : StateM Disk α} {f : α → StateM Disk β}
    (hx : KeepsFiles x) (hf : ∀ a, KeepsFiles (f a)) : KeepsFiles (x >>= f) :=
  fun d => (hx d).trans (hf (x d).1 (x d).2)

theorem Disk.attempt_of_ok {change : Disk → Except DiskFault Disk} {d d' : Disk}
    (h : change d = .ok d') : attempt change d = (.ok (), d') := by
  rw [attempt, h]

theorem Disk.attempt_of_error {change : Disk → Except DiskFault Disk} {d : Disk} {fault : DiskFault}
    (h : change d = .error fault) : attempt change d = (.error fault, d) := by
  rw [attempt, h]

namespace MonadDisk

open Disk

theorem keepsFiles_isDirectory (p : Path) : KeepsFiles (isDirectory p : StateM Disk _) := .refl

theorem keepsFiles_makeDirectory (p : Path) : KeepsFiles (makeDirectory p : StateM Disk _) := by
  intro d
  change Grows ∅ d (attempt (·.makeDirectory p) d).2
  cases hMake : d.makeDirectory p with
  | error fault =>
    rw [attempt_of_error hMake]
    exact .refl d
  | ok d' =>
    rw [attempt_of_ok hMake]
    exact makeDirectory_grows hMake

theorem keepsFiles_makeOne (p : Path) : KeepsFiles (makeOne p : StateM Disk _) := by
  refine .bind (keepsFiles_makeDirectory p) fun result => ?_
  cases result with
  | ok _ => exact keepsFiles_pure _
  | error fault =>
    refine .bind (keepsFiles_isDirectory p) fun there => ?_
    cases there <;> exact keepsFiles_pure _

theorem keepsFiles_makeAbove (above : Nat) (p : Path) :
    KeepsFiles (makeAbove above p : StateM Disk _) := by
  induction above generalizing p with
  | zero => exact keepsFiles_makeOne p
  | succ above ih =>
    refine .bind (keepsFiles_makeDirectory p) fun result => ?_
    split
    · refine .bind (ih p.parent) fun result => ?_
      cases result with
      | ok _ => exact keepsFiles_makeOne p
      | error fault => exact keepsFiles_pure _
    · exact keepsFiles_pure _
    · refine .bind (keepsFiles_isDirectory p) fun there => ?_
      cases there <;> exact keepsFiles_pure _

/-- Making directories changes no file. -/
theorem keepsFiles_makeDirectories (p : Path) :
    KeepsFiles (makeDirectories p : StateM Disk _) := keepsFiles_makeAbove _ p

end MonadDisk

-- ---------------------------------------------------------------------------------------------
-- Writing outputs
-- ---------------------------------------------------------------------------------------------

namespace CommandLine

open Disk

/-- An output that was written stands at the place its path leads to, and nothing else changes but
that there are more directories. -/
theorem writeOutput_grows {path : Path} {text : Text} {d d' : Disk}
    (h : (writeOutput path text : StateM Disk _) d = (.ok (), d')) :
    ∃ place bytes, d'.locate path = .ok place ∧ Text.encode? text = some bytes ∧
      Grows {place} d d' ∧ d'.node? place = some (.file bytes) := by
  have hMade := MonadDisk.keepsFiles_makeDirectories path.parent d
  rw [writeOutput, run_bind] at h
  generalize (MonadDisk.makeDirectories path.parent : StateM Disk _) d = made at h hMade
  obtain ⟨_ | _, between⟩ := made
  · cases h
  · dsimp only at h hMade
    rw [run_bind, run_write] at h
    cases hWrite : between.write path ((Text.encode? text).getD .empty) with
    | error fault =>
      rw [attempt_of_error hWrite] at h
      cases h
    | ok written =>
      rw [attempt_of_ok hWrite] at h
      obtain ⟨place, hPlace, hGrows, hFile⟩ := write_grows hWrite
      cases hText : Text.encode? text with
      | none =>
        simp only [hText] at h
        cases h
      | some bytes =>
        simp only [hText] at h hFile
        obtain ⟨-, rfl⟩ := Prod.mk.inj h
        have hWhole := (hMade.mono (Set.empty_subset {place})).trans hGrows
        exact ⟨place, bytes, hGrows.locate hPlace, rfl, hWhole, hFile⟩

/-- Outputs stand on what a disk has become: each at its path, unless a later one leads to the same
place, and nothing else is changed but that there are more directories. -/
structure Holds (outputs : List (Path × Text)) (d d' : Disk) : Prop where
  grows : Grows {place | ∃ output ∈ outputs, d'.locate output.1 = .ok place} d d'
  each : ∀ {before path text after}, outputs = before ++ (path, text) :: after →
    ∃ place bytes, d'.locate path = .ok place ∧ Text.encode? text = some bytes ∧
      ((∀ later ∈ after, d'.locate later.1 ≠ .ok place) → d'.read path = .ok bytes)

/-- Outputs that were written stand on the disk. -/
theorem holds_of_writeOutputs {outputs : List (Path × Text)} {d d' : Disk}
    (h : (writeOutputs (outputs.map (Prod.map id some)) : StateM Disk _) d = (.ok (), d')) :
    Holds outputs d d' := by
  induction outputs generalizing d with
  | nil =>
    obtain ⟨-, rfl⟩ := Prod.mk.inj h
    exact ⟨.refl _, by simp⟩
  | cons output outputs ih =>
    obtain ⟨path, text⟩ := output
    change ((writeOutput path text : StateM Disk _) >>= _) d = _ at h
    rw [run_bind] at h
    rcases hFirst : (writeOutput path text : StateM Disk _) d with ⟨_ | ⟨⟩, between⟩
    · rw [hFirst] at h
      cases h
    · rw [hFirst] at h
      have hRest := ih h
      obtain ⟨place, bytes, hPlace, hBytes, hGrows, hFile⟩ := writeOutput_grows hFirst
      have hLater := hRest.grows.locate hPlace
      refine ⟨(hGrows.mono ?_).trans (hRest.grows.mono ?_), ?_⟩
      · rintro _ rfl
        exact ⟨_, List.mem_cons_self, hLater⟩
      · rintro q ⟨output, hMem, hOutput⟩
        exact ⟨output, List.mem_cons_of_mem _ hMem, hOutput⟩
      · intro before path' text' after hSplit
        rcases List.cons_eq_append_iff.mp hSplit with ⟨rfl, hHead⟩ | ⟨more, rfl, hMore⟩
        · -- the first output keeps its content when no later one goes to its place
          obtain ⟨hOutput, rfl⟩ := List.cons.inj hHead
          obtain ⟨rfl, rfl⟩ := Prod.mk.inj hOutput
          refine ⟨place, bytes, hLater, hBytes, fun hAlone => read_of_file hLater ?_⟩
          refine (hRest.grows.files ?_ bytes).mpr hFile
          rintro ⟨later, hMem, hSame⟩
          exact hAlone later hMem hSame
        · exact hRest.each hMore

end CommandLine

end ClientBoundary
