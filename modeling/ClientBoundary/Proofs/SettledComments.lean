import ClientBoundary.Proofs.PrintedComments
import Mathlib.Data.List.Infix

/-!
# Comments while directives are taken out

Taking the directives out of a module moves comments and does nothing else to them. This holds of
every module, read or put together by hand, whatever its spans say: places may be unknown, and
several items may claim the same one.

* `TakenOut`, `GivesAt`, `ReceivesAt` — which items are taken out, and the positions whose comments
  may change: those of items taken out, and those of the first item with a place that stays after
  one. They are said of a body alone.
* `settle_steps` — what is kept by an item that is taken out and by one that stays holds after all
  items of a module.
* `Settling` — what is kept: the comments in the table and on their way are those at the start, the
  comments of one position stay together, and positions not concerned keep theirs.
* `collect_only_moves_comments` — the whole, and that a second time nothing happens.
-/

namespace ClientBoundary

open Prologue (Carried)

-- ---------------------------------------------------------------------------------------------
-- Items that are taken out
-- ---------------------------------------------------------------------------------------------

/-- The item after the items `before` is taken out: it is the directive, and only strings stand
before it. -/
structure TakenOut (before : List ModuleItem) (i : ModuleItem) : Prop where
  strings : ∀ j ∈ before, ∃ value, IsStringStmt j value
  client : IsStringStmt i "client"

/-- Some item is in a relation to those before it. -/
def Occurs (P : List ModuleItem → ModuleItem → Prop) (items : List ModuleItem) : Prop :=
  ∃ before i after, items = before ++ i :: after ∧ P before i

/-- An item at a position is taken out. The comments at the start of the module are not its own. -/
def GivesAt (start : Option Int) (items : List ModuleItem) (pos : Int) : Prop :=
  Occurs (fun before i => TakenOut before i ∧ i.span.lo = some pos ∧ start ≠ some pos) items

/-- An item has been taken out, and none with a place has stayed since. -/
def Pending (items : List ModuleItem) : Prop :=
  ∃ before d since, items = before ++ d :: since ∧ TakenOut before d ∧ ∀ j ∈ since, j.span.lo = none

/-- The first item with a place that stays after one that is taken out is at a position. -/
def ReceivesAt (items : List ModuleItem) (pos : Int) : Prop :=
  Occurs (fun before i => Pending before ∧ ¬ TakenOut before i ∧ i.span.lo = some pos) items

theorem occurs_concat {P : List ModuleItem → ModuleItem → Prop} {items : List ModuleItem}
    {i : ModuleItem} : Occurs P (items ++ [i]) ↔ Occurs P items ∨ P items i := by
  constructor
  · rintro ⟨before, j, after, hSplit, hP⟩
    rcases List.eq_nil_or_concat after with rfl | ⟨init, last, rfl⟩
    · obtain ⟨rfl, hLast⟩ := List.append_inj_left' hSplit rfl, List.append_inj_right' hSplit rfl
      exact .inr ((List.cons.inj hLast).1 ▸ hP)
    · have hInit : items ++ [i] = (before ++ j :: init) ++ [last] := by simpa using hSplit
      exact .inl ⟨before, j, init, List.append_inj_left' hInit rfl, hP⟩
  · rintro (⟨before, j, after, rfl, hP⟩ | hP)
    · exact ⟨before, j, after ++ [i], by simp, hP⟩
    · exact ⟨items, i, [], rfl, hP⟩

theorem pending_of_takenOut {items : List ModuleItem} {i : ModuleItem} (h : TakenOut items i) :
    Pending (items ++ [i]) :=
  ⟨items, i, [], rfl, h, List.forall_mem_nil _⟩

theorem Pending.concat {items : List ModuleItem} {i : ModuleItem} (h : Pending items)
    (hLo : i.span.lo = none) : Pending (items ++ [i]) := by
  obtain ⟨before, d, since, rfl, hOut, hSince⟩ := h
  refine ⟨before, d, since ++ [i], by simp, hOut, ?_⟩
  simpa [hLo, or_imp, forall_and] using hSince

-- ---------------------------------------------------------------------------------------------
-- One item after the other
-- ---------------------------------------------------------------------------------------------

/-- What is kept by an item that is taken out and by one that stays holds after all items. -/
theorem settle_steps {m : Module} {t : CommentTable} {P : List ModuleItem → Carried → Prop}
    (hStart : P [] { table := t })
    (hOut : ∀ {done c i}, TakenOut done i → P done c →
      P (done ++ [i]) (c.pickUp m.span.lo i.span.lo))
    (hStay : ∀ {done c i}, ¬ TakenOut done i → P done c → P (done ++ [i]) (c.handOver i.span.lo)) :
    ∃ c : Carried, settleComments m t = c.finish m.span.hi ∧ P m.body c := by
  have hSplit := prologueSplit_prologue m
  have hPrologue : ∀ (items done : List ModuleItem) (c : Carried),
      (∀ j ∈ done ++ items, ∃ value, IsStringStmt j value) → P done c →
      P (done ++ items) (items.foldl (Carried.passDirective m.span.lo) c) := by
    intro items
    induction items with
    | nil => simp
    | cons i items ih =>
      intro done c hStrings h
      have hStep : P (done ++ [i]) (Carried.passDirective m.span.lo c i) := by
        rw [Carried.passDirective]
        split
        · rename_i hClient
          exact hOut ⟨fun j hj => hStrings j (by simp [hj]), (isClientDirective_iff i).mp hClient⟩ h
        · rename_i hOther
          exact hStay (fun hTaken => hOther ((isClientDirective_iff i).mpr hTaken.client)) h
      simpa using ih (done ++ [i]) _ (by simpa using hStrings) hStep
  -- after the prologue there is always an item before that is no string, or the item is none
  have hRest : ∀ (items done : List ModuleItem) (c : Carried),
      ((∃ j ∈ done, ∀ value, ¬ IsStringStmt j value) ∨
        ∀ i ∈ items.head?, ∀ value, ¬ IsStringStmt i value) → P done c →
      P (done ++ items) (items.foldl Carried.pass c) := by
    intro items
    induction items with
    | nil => simp
    | cons i items ih =>
      intro done c hEnded h
      have hStays : ¬ TakenOut done i := by
        intro hTaken
        rcases hEnded with ⟨j, hj, hNot⟩ | hNot
        · exact (hTaken.strings j hj).elim fun value => hNot value
        · exact hNot i rfl _ hTaken.client
      have hEnded' : ∃ j ∈ done ++ [i], ∀ value, ¬ IsStringStmt j value := by
        rcases hEnded with ⟨j, hj, hNot⟩ | hNot
        · exact ⟨j, List.mem_append_left _ hj, hNot⟩
        · exact ⟨i, by simp, hNot i rfl⟩
      simpa [Carried.pass] using
        ih (done ++ [i]) (c.handOver i.span.lo) (.inl hEnded') (hStay hStays h)
  refine ⟨_, rfl, ?_⟩
  rw [hSplit.body_eq]
  refine hRest _ _ _ (.inr hSplit.maximal) ?_
  simpa using hPrologue m.prologue [] _ (by simpa using hSplit.strings) hStart

theorem pickUp_cases (c : Carried) (start lo : Option Int) :
    (c.pickUp start lo = c ∧ ∀ pos, lo = some pos → start = some pos) ∨
      ∃ pos, lo = some pos ∧ start ≠ some pos ∧ c.pickUp start lo =
        ⟨c.comments ++ c.table.leading.get pos, (c.table.takeLeading pos).2⟩ := by
  cases lo with
  | none => exact .inl ⟨rfl, by simp⟩
  | some pos =>
    by_cases hStart : start = some pos
    · exact .inl ⟨by simp [Carried.pickUp, hStart], by simp [hStart]⟩
    · refine .inr ⟨pos, rfl, hStart, ?_⟩
      rw [Carried.pickUp, if_neg (Ne.symm hStart)]
      rfl

theorem handOver_cases (c : Carried) (lo : Option Int) :
    (c.handOver lo = c ∧ (c.comments = [] ∨ lo = none)) ∨
      ∃ pos, lo = some pos ∧ c.comments ≠ [] ∧
        c.handOver lo = ⟨[], c.table.handLeading pos c.comments⟩ := by
  cases hComments : c.comments with
  | nil => exact .inl ⟨by simp [Carried.handOver, hComments], .inl rfl⟩
  | cons d ds =>
    cases lo with
    | none => exact .inl ⟨by simp [Carried.handOver, hComments], .inr rfl⟩
    | some pos => exact .inr ⟨pos, rfl, by simp, by simp [Carried.handOver, hComments]⟩

-- ---------------------------------------------------------------------------------------------
-- All comments of a table
-- ---------------------------------------------------------------------------------------------

/-- The comments of a table, on both sides and wherever they are filed. -/
def CommentTable.all (t : CommentTable) : List Comment := (t.leading ++ t.trailing).map (·.2)

theorem CommentEntries.get_append_erase_perm (es : CommentEntries) (pos : Int) :
    (es.get pos ++ (es.erase pos).map (·.2)).Perm (es.map (·.2)) := by
  have hSplit := (List.filter_append_perm (fun e : Int × Comment => decide (e.1 = pos)) es).map (·.2)
  rw [List.map_append] at hSplit
  simpa [CommentEntries.get, CommentEntries.erase] using hSplit

theorem all_takeLeading (t : CommentTable) (pos : Int) :
    (t.leading.get pos ++ (t.takeLeading pos).2.all).Perm t.all := by
  rw [CommentTable.all, CommentTable.all, List.map_append, List.map_append, ← List.append_assoc]
  exact (t.leading.get_append_erase_perm pos).append_right _

/-- Comments handed to a position are filed with those that were there before. -/
theorem CommentEntries.hand_perm (es : CommentEntries) (pos : Int) (cs : List Comment) :
    ((es.erase pos).map (·.2) ++ (cs ++ es.get pos)).Perm (cs ++ es.map (·.2)) := by
  refine List.perm_append_comm.trans ?_
  rw [List.append_assoc]
  exact (es.get_append_erase_perm pos).append_left _

theorem all_handLeading (t : CommentTable) (cs : List Comment) (pos : Int) :
    (t.handLeading pos cs).all.Perm (cs ++ t.all) := by
  have hAll : (t.handLeading pos cs).all =
      (t.leading.erase pos).map (·.2) ++ (cs ++ t.leading.get pos) ++ t.trailing.map (·.2) := by
    show (CommentTable.addAllLeading { t with leading := t.leading.erase pos } pos
      (cs ++ t.leading.get pos)).all = _
    rw [addAllLeading_eq]
    simp [CommentTable.all, Function.comp_def]
  rw [hAll, CommentTable.all, List.map_append, ← List.append_assoc cs]
  exact (t.leading.hand_perm pos cs).append_right _

theorem all_handTrailing (t : CommentTable) (cs : List Comment) (pos : Int) :
    (t.handTrailing pos cs).all.Perm (cs ++ t.all) := by
  have hAll : (t.handTrailing pos cs).all =
      t.leading.map (·.2) ++ ((t.trailing.erase pos).map (·.2) ++ (cs ++ t.trailing.get pos)) := by
    show (CommentTable.addAllTrailing { t with trailing := t.trailing.erase pos } pos
      (cs ++ t.trailing.get pos)).all = _
    rw [addAllTrailing_eq]
    simp [CommentTable.all, Function.comp_def]
  rw [hAll, CommentTable.all, List.map_append]
  refine ((t.trailing.hand_perm pos cs).append_left _).trans ?_
  rw [← List.append_assoc, ← List.append_assoc]
  exact List.perm_append_comm.append_right _

theorem get_handTrailing_ne (t : CommentTable) (cs : List Comment) {pos q : Int} (h : q ≠ pos) :
    (t.handTrailing pos cs).trailing.get q = t.trailing.get q := by
  show ((CommentTable.addAllTrailing { t with trailing := t.trailing.erase pos } pos
    (cs ++ t.trailing.get pos)).trailing).get q = _
  rw [addAllTrailing_eq]
  show CommentEntries.get (t.trailing.erase pos ++ _) q = _
  rw [CommentEntries.get_append, CommentEntries.get_erase_ne _ h, CommentEntries.get_map_pair,
    if_neg (Ne.symm h), List.append_nil]

-- ---------------------------------------------------------------------------------------------
-- What is kept
-- ---------------------------------------------------------------------------------------------

/-- The items `done` of a module that begins at `start` have been passed, and `t` was its table. -/
structure Settling (start : Option Int) (t : CommentTable) (done : List ModuleItem) (c : Carried) :
    Prop where
  /-- No comment is lost and none comes from elsewhere. -/
  conserved : (c.comments ++ c.table.all).Perm t.all
  /-- The comments of one position are on their way or at one position again, in their order. -/
  together : ∀ pos, t.leading.get pos <:+: c.comments ∨
    ∃ q, t.leading.get pos <:+: c.table.leading.get q
  /-- What a position receives goes in front of its own. -/
  behind : ∀ pos, ¬ GivesAt start done pos → t.leading.get pos <:+ c.table.leading.get pos
  untouched : ∀ pos, ¬ GivesAt start done pos → ¬ ReceivesAt done pos →
    c.table.leading.get pos = t.leading.get pos
  emptied : ∀ pos, GivesAt start done pos → ¬ ReceivesAt done pos → c.table.leading.get pos = []
  trailing : c.table.trailing = t.trailing
  /-- Comments are on their way only after an item was taken out. -/
  pending : c.comments ≠ [] → Pending done

theorem settling_start (start : Option Int) (t : CommentTable) :
    Settling start t [] { table := t } where
  conserved := .refl _
  together pos := .inr ⟨pos, List.infix_refl _⟩
  behind pos _ := List.suffix_refl _
  untouched _ _ _ := rfl
  emptied pos h := by
    obtain ⟨before, i, after, hSplit, -⟩ := h
    simp at hSplit
  trailing := rfl
  pending h := absurd rfl h

variable {start : Option Int} {t : CommentTable} {done : List ModuleItem} {c : Carried}
  {i : ModuleItem}

/-- An item that is taken out. -/
theorem Settling.pickUp (h : Settling start t done c) (hOut : TakenOut done i) :
    Settling start t (done ++ [i]) (c.pickUp start i.span.lo) := by
  have hPending : Pending (done ++ [i]) := pending_of_takenOut hOut
  have hReceives : ∀ pos, ReceivesAt (done ++ [i]) pos ↔ ReceivesAt done pos := fun pos =>
    occurs_concat.trans (or_iff_left fun hLast => hLast.2.1 hOut)
  rcases pickUp_cases c start i.span.lo with ⟨hSame, hAtStart⟩ | ⟨lo, hLo, hStart, hNext⟩
  · have hGives : ∀ pos, GivesAt start (done ++ [i]) pos ↔ GivesAt start done pos := fun pos =>
      occurs_concat.trans (or_iff_left fun hLast => hLast.2.2 (hAtStart pos hLast.2.1))
    rw [hSame]
    exact {
      conserved := h.conserved
      together := h.together
      behind := fun pos hG => h.behind pos (mt (hGives pos).mpr hG)
      untouched := fun pos hG hR =>
        h.untouched pos (mt (hGives pos).mpr hG) (mt (hReceives pos).mpr hR)
      emptied := fun pos hG hR => h.emptied pos ((hGives pos).mp hG) (mt (hReceives pos).mpr hR)
      trailing := h.trailing
      pending := fun _ => hPending }
  · have hGives : ∀ pos, GivesAt start (done ++ [i]) pos ↔ GivesAt start done pos ∨ pos = lo := by
      intro pos
      refine occurs_concat.trans (or_congr_right ⟨fun hLast => ?_, ?_⟩)
      · exact Option.some.inj (hLast.2.1.symm.trans hLo)
      · rintro rfl
        exact ⟨hOut, hLo, hStart⟩
    have hOther : ∀ pos, pos ≠ lo →
        (c.table.takeLeading lo).2.leading.get pos = c.table.leading.get pos := fun _ hNe =>
      CommentEntries.get_erase_ne _ hNe
    rw [hNext]
    exact {
      conserved := by
        refine .trans ?_ h.conserved
        rw [List.append_assoc]
        exact (all_takeLeading c.table lo).append_left _
      together := by
        intro pos
        rcases h.together pos with hCarried | ⟨q, hHeld⟩
        · exact .inl (List.infix_append_of_infix_left hCarried)
        · by_cases hq : q = lo
          · exact .inl (List.infix_append_of_infix_right (hq ▸ hHeld))
          · exact .inr ⟨q, (hOther q hq).symm ▸ hHeld⟩
      behind := by
        intro pos hG
        rw [hGives, not_or] at hG
        exact (hOther pos hG.2).symm ▸ h.behind pos hG.1
      untouched := by
        intro pos hG hR
        rw [hGives, not_or] at hG
        exact (hOther pos hG.2).trans (h.untouched pos hG.1 (mt (hReceives pos).mpr hR))
      emptied := by
        intro pos hG hR
        by_cases hPos : pos = lo
        · subst hPos
          exact CommentEntries.get_erase_self _ _
        · have hBefore := ((hGives pos).mp hG).resolve_right hPos
          exact (hOther pos hPos).trans (h.emptied pos hBefore (mt (hReceives pos).mpr hR))
      trailing := h.trailing
      pending := fun _ => hPending }

/-- An item that stays. -/
theorem Settling.handOver (h : Settling start t done c) (hStays : ¬ TakenOut done i) :
    Settling start t (done ++ [i]) (c.handOver i.span.lo) := by
  have hGives : ∀ pos, GivesAt start (done ++ [i]) pos ↔ GivesAt start done pos := fun pos =>
    occurs_concat.trans (or_iff_left fun hLast => hStays hLast.1)
  have hReceives : ∀ pos, ReceivesAt done pos → ReceivesAt (done ++ [i]) pos := fun pos hR =>
    occurs_concat.mpr (.inl hR)
  rcases handOver_cases c i.span.lo with ⟨hSame, hWhy⟩ | ⟨lo, hLo, hSome, hNext⟩
  · rw [hSame]
    exact {
      conserved := h.conserved
      together := h.together
      behind := fun pos hG => h.behind pos (mt (hGives pos).mpr hG)
      untouched := fun pos hG hR => h.untouched pos (mt (hGives pos).mpr hG) (mt (hReceives pos) hR)
      emptied := fun pos hG hR => h.emptied pos ((hGives pos).mp hG) (mt (hReceives pos) hR)
      trailing := h.trailing
      pending := fun hSome => (h.pending hSome).concat (hWhy.resolve_left hSome) }
  · have hReceiver : ReceivesAt (done ++ [i]) lo :=
      occurs_concat.mpr (.inr ⟨h.pending hSome, hStays, hLo⟩)
    have hOther : ∀ pos, ¬ ReceivesAt (done ++ [i]) pos →
        (c.table.handLeading lo c.comments).leading.get pos = c.table.leading.get pos :=
      fun pos hR => get_handLeading_ne _ _ fun hPos => hR (hPos ▸ hReceiver)
    rw [hNext]
    exact {
      conserved := (all_handLeading _ _ _).trans h.conserved
      together := by
        intro pos
        refine .inr ?_
        rcases h.together pos with hCarried | ⟨q, hHeld⟩
        · refine ⟨lo, ?_⟩
          rw [get_handLeading_self]
          exact List.infix_append_of_infix_left hCarried
        · refine ⟨q, ?_⟩
          by_cases hq : q = lo
          · subst hq
            rw [get_handLeading_self]
            exact List.infix_append_of_infix_right hHeld
          · rw [get_handLeading_ne _ _ hq]
            exact hHeld
      behind := by
        intro pos hG
        have hBefore := h.behind pos (mt (hGives pos).mpr hG)
        by_cases hPos : pos = lo
        · subst hPos
          rw [get_handLeading_self]
          exact hBefore.trans (List.suffix_append _ _)
        · rw [get_handLeading_ne _ _ hPos]
          exact hBefore
      untouched := fun pos hG hR => (hOther pos hR).trans
        (h.untouched pos (mt (hGives pos).mpr hG) (mt (hReceives pos) hR))
      emptied := fun pos hG hR => (hOther pos hR).trans
        (h.emptied pos ((hGives pos).mp hG) (mt (hReceives pos) hR))
      trailing := (handLeading_trailing _ _ _).trans h.trailing
      pending := fun hNone => absurd rfl hNone }

-- ---------------------------------------------------------------------------------------------
-- The end of the module
-- ---------------------------------------------------------------------------------------------

/-- Leaving what is on its way at the end: the comments there get it in front of them. -/
theorem finish_trailing (c : Carried) (hi : Option Int) :
    (c.finish hi).trailing.get (hi.getD 0) = c.comments ++ c.table.trailing.get (hi.getD 0) ∧
      (∀ pos, pos ≠ hi.getD 0 → (c.finish hi).trailing.get pos = c.table.trailing.get pos) ∧
      (c.finish hi).all.Perm (c.comments ++ c.table.all) := by
  unfold Carried.finish
  split
  · rename_i hNone
    rw [hNone]
    exact ⟨rfl, fun _ _ => rfl, .refl _⟩
  · exact ⟨get_handTrailing _ _ _, fun _ => get_handTrailing_ne _ _, all_handTrailing _ _ _⟩

-- ---------------------------------------------------------------------------------------------
-- A second time
-- ---------------------------------------------------------------------------------------------

theorem prologue_withoutDirectives (m : Module) :
    m.withoutDirectives.prologue = m.prologue.filter fun i => !i.isClientDirective := by
  have hAll : ∀ i ∈ m.prologue.filter fun i => !i.isClientDirective, i.isDirective = true :=
    fun i hi => Module.isDirective_of_mem_prologue (List.mem_filter.mp hi).1
  have hNone : m.afterPrologue.takeWhile ModuleItem.isDirective = [] := by
    cases hRest : m.afterPrologue with
    | nil => rfl
    | cons i rest =>
      have hNot : i.isDirective = false :=
        Module.isDirective_head_afterPrologue (by rw [hRest]; rfl)
      exact List.takeWhile_cons_of_neg (by simp [hNot])
  rw [Module.prologue, Module.withoutDirectives, List.takeWhile_append_of_pos hAll]
  exact (congrArg _ hNone).trans (List.append_nil _)

theorem withoutDirectives_not_boundary (m : Module) :
    m.withoutDirectives.isClientBoundary = false := by
  rw [Module.isClientBoundary, prologue_withoutDirectives, List.any_eq_false]
  intro i hi
  simpa using (List.mem_filter.mp hi).2

/-- Directives are no imports. -/
theorem imports_withoutDirectives (m : Module) : m.withoutDirectives.imports = m.imports := by
  have hKept : (m.prologue.filter fun i => !i.isClientDirective).filterMap ImportRecord.ofItem? = [] :=
    List.filterMap_eq_nil_iff.mpr fun i hi =>
      ofItem?_of_isDirective (Module.isDirective_of_mem_prologue (List.mem_filter.mp hi).1)
  rw [imports_eq_afterPrologue m, Module.imports, Module.withoutDirectives, List.filterMap_append,
    hKept, List.nil_append]

/-- A second time there is nothing to take out. -/
theorem collect_collected (m : Module) (t : CommentTable) :
    collect (collect m t).module (collect m t).comments =
      { collect m t with isClientBoundary := false } := by
  have hNot := withoutDirectives_not_boundary m
  rw [collect_eq, collect_eq, hNot, imports_withoutDirectives,
    withoutDirectives_of_not_boundary hNot, settleComments_of_not_boundary hNot]

/-- Taking the directives out only moves comments. They are the same ones before and after. Those of
one position stay together and in order; what a position receives goes in front of its own. Only the
positions of items taken out, of the items that receive their comments, and the end of the module
are concerned, and the first of these are empty afterwards unless they receive. A second time there
is no directive, the imports are the same, and neither the body nor the table changes. -/
theorem collect_only_moves_comments (m : Module) (t : CommentTable) :
    let once := collect m t
    let again := collect once.module once.comments
    once.comments.all.Perm t.all ∧
    (∀ pos, ¬ GivesAt m.span.lo m.body pos →
      t.leading.get pos <:+ once.comments.leading.get pos) ∧
    (∀ pos, t.trailing.get pos <:+ once.comments.trailing.get pos) ∧
    (∀ pos, (∃ q, t.leading.get pos <:+: once.comments.leading.get q) ∨
      t.leading.get pos <:+: once.comments.trailing.get (m.span.hi.getD 0)) ∧
    (∀ pos, ¬ GivesAt m.span.lo m.body pos → ¬ ReceivesAt m.body pos →
      once.comments.leading.get pos = t.leading.get pos) ∧
    (∀ pos, GivesAt m.span.lo m.body pos → ¬ ReceivesAt m.body pos →
      once.comments.leading.get pos = []) ∧
    (∀ pos, pos ≠ m.span.hi.getD 0 → once.comments.trailing.get pos = t.trailing.get pos) ∧
    again.isClientBoundary = false ∧ again.imports = once.imports ∧
    again.module = once.module ∧ again.comments = once.comments := by
  intro once again
  obtain ⟨c, hSettled, h⟩ := settle_steps (m := m) (settling_start m.span.lo t)
    (fun hOut h => h.pickUp hOut) (fun hStays h => h.handOver hStays)
  have hComments : once.comments = c.finish m.span.hi :=
    (congrArg Collected.comments (collect_eq m t)).trans hSettled
  have hAgain : again = { once with isClientBoundary := false } := collect_collected m t
  have hLeading : once.comments.leading = c.table.leading := by rw [hComments, finish_leading]
  obtain ⟨hEnd, hElsewhere, hAll⟩ := finish_trailing c m.span.hi
  rw [← hComments, h.trailing] at hEnd hElsewhere
  rw [← hComments] at hAll
  refine ⟨hAll.trans h.conserved, hLeading ▸ h.behind, fun pos => ?_, fun pos => ?_,
    hLeading ▸ h.untouched, hLeading ▸ h.emptied, hElsewhere, by rw [hAgain],
    by rw [hAgain], by rw [hAgain], by rw [hAgain]⟩
  · by_cases hPos : pos = m.span.hi.getD 0
    · rw [hPos, hEnd]
      exact List.suffix_append _ _
    · exact (hElsewhere pos hPos).symm ▸ List.suffix_refl _
  · rw [hLeading, hEnd]
    rcases h.together pos with hCarried | hHeld
    · exact .inr (List.infix_append_of_infix_left hCarried)
    · exact .inl hHeld

end ClientBoundary
