import ClientBoundary.Path.Layout
import Mathlib.Data.List.Forall2
import Mathlib.Data.List.Infix

/-!
# Outputs keep the layout of their sources

What is dropped from the places of all sources is the deepest directory above all of them. The names
that are left lead below the output directory, they tell the sources apart, and the way from one
source to another is the way between their outputs.

Everything follows from what a directory above all places is: a prefix of the directory of each. The
common directory has just these as its prefixes (`prefix_commonDirectory_iff`), so it is one of them
and every other is a prefix of it.

* `Layout.IsAbove` — a directory holds a place, at whatever depth.
* `Layout.route` — the names that lead from one file to another; `follow_route` says that they do.
* `Layout.Keeps` — outputs below a directory keep the layout of their sources.
* `outputs_keep_layout` — they do for every list of sources.
-/

namespace ClientBoundary

/-- The place of a file: some name leads to it from the root, and none leads up. -/
structure Path.IsFilePlace (place : List Text) : Prop where
  ne_nil : place ≠ []
  up : Path.up ∉ place

/-- No name leads up in the place that a path leads to. -/
theorem Path.up_notMem_place {working : List Text} (hWorking : up ∉ working) (p : Path) :
    up ∉ p.place working := by
  have hFollow (names : List Text) : ∀ place, up ∉ place → up ∉ names.foldl follow place := by
    induction names with
    | nil => exact fun _ h => h
    | cons name names ih =>
      intro place h
      refine ih (follow place name) ?_
      unfold follow
      split
      · exact fun hUp => h (List.mem_of_mem_dropLast hUp)
      · next hName =>
        rw [List.mem_append, List.mem_singleton]
        exact not_or.mpr ⟨h, Ne.symm hName⟩
  unfold place
  refine hFollow p.names _ ?_
  split
  · exact hWorking
  · exact List.not_mem_nil

namespace Layout

-- ---------------------------------------------------------------------------------------------
-- The directory above all places
-- ---------------------------------------------------------------------------------------------

theorem prefix_commonPrefix_iff {c a b : List Text} :
    c <+: commonPrefix a b ↔ c <+: a ∧ c <+: b := by
  fun_induction commonPrefix a b generalizing c with
  | case1 as x bs ih =>
    cases c with
    | nil => simp
    | cons y c =>
      rw [List.cons_prefix_cons, List.cons_prefix_cons, List.cons_prefix_cons, ih]
      tauto
  | case2 x as y bs hNe =>
    cases c with
    | nil => simp
    | cons z c =>
      rw [List.cons_prefix_cons, List.cons_prefix_cons]
      constructor
      · intro h
        exact absurd (List.prefix_nil.mp h) (List.cons_ne_nil z c)
      · rintro ⟨⟨rfl, -⟩, rfl, -⟩
        exact absurd rfl hNe
  | case3 a b hEmpty =>
    constructor
    · intro h
      rw [List.prefix_nil.mp h]
      exact ⟨List.nil_prefix, List.nil_prefix⟩
    · rintro ⟨ha, hb⟩
      cases a with
      | nil => exact ha
      | cons x as =>
        cases b with
        | nil => exact hb
        | cons y bs => exact (hEmpty x as y bs rfl rfl).elim

theorem commonPrefix_append (c a b : List Text) :
    commonPrefix (c ++ a) (c ++ b) = c ++ commonPrefix a b := by
  induction c with
  | nil => rfl
  | cons x c ih =>
    rw [List.cons_append, List.cons_append, commonPrefix, if_pos rfl, ih, List.cons_append]

theorem prefix_commonDirectory_iff {c : List Text} {places : List (List Text)}
    (hSome : places ≠ []) :
    c <+: commonDirectory places ↔ ∀ place ∈ places, c <+: place.dropLast := by
  fun_induction commonDirectory places with
  | case1 => exact absurd rfl hSome
  | case2 place => rw [List.forall_mem_singleton]
  | case3 place places hMore ih =>
    rw [prefix_commonPrefix_iff, ih hMore, List.forall_mem_cons]

/-- A directory is above a place: names lead from the one to the other. -/
def IsAbove (directory place : List Text) : Prop := ∃ names, names ≠ [] ∧ place = directory ++ names

theorem prefix_dropLast_of_isAbove {directory place : List Text} (h : IsAbove directory place) :
    directory <+: place.dropLast := by
  obtain ⟨names, hNames, rfl⟩ := h
  rw [List.dropLast_append_of_ne_nil hNames]
  exact List.prefix_append directory _

theorem eq_append_relativeTo {directory place : List Text} (h : directory <+: place.dropLast) :
    place = directory ++ relativeTo directory place :=
  List.prefix_iff_eq_append.mp (h.trans (List.dropLast_prefix place)) |>.symm

theorem relativeTo_ne_nil {directory place : List Text} (h : directory <+: place.dropLast)
    (hPlace : place ≠ []) : relativeTo directory place ≠ [] := by
  have hLength := h.length_le
  have hPositive := List.length_pos_iff.mpr hPlace
  rw [List.length_dropLast] at hLength
  refine List.length_pos_iff.mp ?_
  rw [relativeTo, List.length_drop]
  omega

-- ---------------------------------------------------------------------------------------------
-- Ways between files
-- ---------------------------------------------------------------------------------------------

/-- The names that lead from one file to another: up from the directory of the first as far as the
deepest directory above both, and down from there. -/
def route (source target : List Text) : List Text :=
  let shared := (commonPrefix source.dropLast target.dropLast).length
  (source.dropLast.drop shared).map (fun _ => Path.up) ++ target.drop shared

theorem foldl_follow_up (place names : List Text) :
    (names.map fun _ => Path.up).foldl Path.follow place =
      place.take (place.length - names.length) := by
  induction names generalizing place with
  | nil => simp
  | cons name names ih =>
    rw [List.map_cons, List.foldl_cons, Path.follow, if_pos rfl, ih, List.dropLast_eq_take,
      List.take_take, List.length_take, List.length_cons]
    congr 1
    omega

theorem foldl_follow_down (place : List Text) {names : List Text} (h : Path.up ∉ names) :
    names.foldl Path.follow place = place ++ names := by
  induction names generalizing place with
  | nil => simp
  | cons name names ih =>
    obtain ⟨hName, hNames⟩ := not_or.mp (List.mem_cons.not.mp h)
    rw [List.foldl_cons, Path.follow, if_neg (Ne.symm hName), ih _ hNames, List.append_assoc,
      List.singleton_append]

/-- The names lead where they should. -/
theorem follow_route (source : List Text) {target : List Text} (h : Path.up ∉ target) :
    (route source target).foldl Path.follow source.dropLast = target := by
  obtain ⟨hSource, hTarget⟩ := prefix_commonPrefix_iff.mp
    (List.prefix_refl (commonPrefix source.dropLast target.dropLast))
  rw [route, List.foldl_append, foldl_follow_up, foldl_follow_down]
  · have hUp : source.dropLast.length - (source.dropLast.drop
        (commonPrefix source.dropLast target.dropLast).length).length =
        (commonPrefix source.dropLast target.dropLast).length := by
      have hLength := hSource.length_le
      rw [List.length_drop]
      omega
    rw [hUp, ← List.prefix_iff_eq_take.mp hSource]
    exact (eq_append_relativeTo hTarget).symm
  · exact fun hMem => h (List.mem_of_mem_drop hMem)

/-- The way between two files does not depend on what is above both. -/
theorem route_append (directory : List Text) {source target : List Text} (hSource : source ≠ [])
    (hTarget : target ≠ []) :
    route (directory ++ source) (directory ++ target) = route source target := by
  simp only [route, List.dropLast_append_of_ne_nil hSource, List.dropLast_append_of_ne_nil hTarget,
    commonPrefix_append, List.length_append, List.drop_length_add_append]

-- ---------------------------------------------------------------------------------------------
-- Outputs
-- ---------------------------------------------------------------------------------------------

/-- The path of an output below a directory has the names that lead from a directory to the source.
They are not empty and lead down. -/
def IsMoved (output : Path) (directory place : List Text) (path : Path) : Prop :=
  ∃ names, names ≠ [] ∧ Path.up ∉ names ∧ place = directory ++ names ∧ path = output.below names

/-- Outputs at paths below a directory keep the layout that sources have from a directory on. -/
structure Keeps (output : Path) (directory : List Text) (places : List (List Text))
    (paths : List Path) : Prop where
  /-- Each source has its output, and what is dropped is the same for all. -/
  moved : List.Forall₂ (IsMoved output directory) places paths
  /-- No other directory above all sources is deeper. -/
  deepest : ∀ above, (∀ place ∈ places, IsAbove above place) → above <+: directory
  /-- Two sources share an output exactly when they are one file. -/
  apart : ∀ s ∈ places.zip paths, ∀ t ∈ places.zip paths, s.2 = t.2 ↔ s.1 = t.1
  /-- What leads from one source to another leads from output to output. -/
  routes : ∀ s ∈ places.zip paths, ∀ t ∈ places.zip paths,
    (route s.1 t.1).foldl Path.follow s.1.dropLast = t.1 ∧ route s.2.names t.2.names = route s.1 t.1

theorem isMoved_relativeTo (output : Path) {directory place : List Text}
    (hPlace : Path.IsFilePlace place) (h : directory <+: place.dropLast) :
    IsMoved output directory place (output.below (relativeTo directory place)) := by
  refine ⟨_, relativeTo_ne_nil h hPlace.ne_nil, ?_, eq_append_relativeTo h, rfl⟩
  exact fun hUp => hPlace.up (List.mem_of_mem_drop hUp)

section

variable {output : Path} {directory place place' : List Text} {path path' : Path}

theorem IsMoved.eq_iff (h : IsMoved output directory place path)
    (h' : IsMoved output directory place' path') : path = path' ↔ place = place' := by
  obtain ⟨names, -, -, rfl, rfl⟩ := h
  obtain ⟨names', -, -, rfl, rfl⟩ := h'
  simp [Path.below]

theorem IsMoved.route_eq (h : IsMoved output directory place path)
    (h' : IsMoved output directory place' path') :
    route path.names path'.names = route place place' := by
  obtain ⟨names, hNames, -, rfl, rfl⟩ := h
  obtain ⟨names', hNames', -, rfl, rfl⟩ := h'
  rw [route_append directory hNames hNames']
  exact route_append output.names hNames hNames'

end

end Layout

open Layout in
/-- Outputs below a directory keep the layout of their sources. -/
theorem outputs_keep_layout (output : Path) {places : List (List Text)} (hSome : places ≠ [])
    (hPlaces : ∀ place ∈ places, Path.IsFilePlace place) :
    Keeps output (commonDirectory places) places (outputPaths output places) := by
  have hAbove : ∀ place ∈ places, commonDirectory places <+: place.dropLast :=
    (prefix_commonDirectory_iff hSome).mp List.prefix_rfl
  have hMoved : List.Forall₂ (IsMoved output (commonDirectory places)) places
      (outputPaths output places) := by
    rw [outputPaths, List.forall₂_map_right_iff, List.forall₂_same]
    exact fun place hMem => isMoved_relativeTo output (hPlaces place hMem) (hAbove place hMem)
  refine ⟨hMoved, ?_, ?_, ?_⟩
  · intro above h
    exact (prefix_commonDirectory_iff hSome).mpr fun place hMem =>
      prefix_dropLast_of_isAbove (h place hMem)
  · intro s hs t ht
    exact (List.forall₂_zip hMoved hs).eq_iff (List.forall₂_zip hMoved ht)
  · intro s hs t ht
    have hTarget := hPlaces t.1 (List.of_mem_zip ht).1
    exact ⟨follow_route s.1 hTarget.up,
      (List.forall₂_zip hMoved hs).route_eq (List.forall₂_zip hMoved ht)⟩

/-- The directory of one source is above that of another, and two paths lead to one source. -/
theorem outputs_keep_layout_of_nested :
    let sources : List Path := [
      ⟨.working, ["app", "layout.js"]⟩, ⟨.working, ["app", "blog", "page.js"]⟩,
      ⟨.working, ["app", "blog", "..", "shop", "page.js"]⟩,
      ⟨.slash, ["srv", "app", "shop", "page.js"]⟩]
    let places := sources.map (Path.place ["srv"])
    let paths : List Path := [
      ⟨.working, ["out", "layout.js"]⟩, ⟨.working, ["out", "blog", "page.js"]⟩,
      ⟨.working, ["out", "shop", "page.js"]⟩, ⟨.working, ["out", "shop", "page.js"]⟩]
    (∀ place ∈ places, Path.IsFilePlace place) ∧
      Layout.Keeps ⟨.working, ["out"]⟩ ["srv", "app"] places paths := by
  intro sources places paths
  have hPlaces : ∀ place ∈ places, Path.IsFilePlace place := by
    have hSome : ∀ place ∈ places, place ≠ [] := by decide
    intro place hMem
    obtain ⟨source, -, rfl⟩ := List.mem_map.mp hMem
    exact ⟨hSome _ hMem, source.up_notMem_place (by decide)⟩
  have hDirectory : Layout.commonDirectory places = (["srv", "app"] : List Text) := by decide
  have hPaths : outputPaths ⟨.working, ["out"]⟩ places = paths := by decide
  refine ⟨hPlaces, ?_⟩
  have hKeeps := outputs_keep_layout ⟨.working, ["out"]⟩ (by decide : places ≠ []) hPlaces
  rwa [hDirectory, hPaths] at hKeeps

end ClientBoundary
