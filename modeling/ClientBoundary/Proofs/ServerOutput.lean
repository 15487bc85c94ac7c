import ClientBoundary.Ast.Printer
import ClientBoundary.Proofs.Attachment
import ClientBoundary.Proofs.Compilation

/-!
# What the server build shows of a client module

The comments of a directive that is taken out travel to the next item that stays. In a reference no
item stays, so of the comments between items only those behind the last item that would have stayed
are seen, at the end of the output.

* `Passed` — the comments on their way after some items have been passed, with a step lemma for an
  item that is taken out and for one that stays.
* `settled_ends` — what lies at the two ends of the table after all items.
* `serverOutput_of_boundary` — the printed reference: comments above, the two statements, comments
  below, and nothing else of the source.
-/

namespace ClientBoundary

-- ---------------------------------------------------------------------------------------------
-- Entries
-- ---------------------------------------------------------------------------------------------

theorem CommentEntries.get_append (es fs : CommentEntries) (pos : Int) :
    CommentEntries.get (es ++ fs) pos = es.get pos ++ fs.get pos := by
  simp [CommentEntries.get, List.filter_append]

theorem CommentEntries.get_erase_ne (es : CommentEntries) {pos q : Int} (h : q ≠ pos) :
    CommentEntries.get (es.erase pos) q = es.get q := by
  rw [CommentEntries.get, CommentEntries.get, CommentEntries.erase, List.filter_filter]
  congr 1
  apply List.filter_congr
  intro e _
  by_cases he : e.1 = q
  · simp [he, h]
  · simp [he]

theorem CommentEntries.get_erase_self (es : CommentEntries) (pos : Int) :
    CommentEntries.get (es.erase pos) pos = [] := by
  simp [CommentEntries.get, CommentEntries.erase]

theorem CommentEntries.get_map_pair (cs : List Comment) (pos q : Int) :
    CommentEntries.get (cs.map fun c => (pos, c)) q = if pos = q then cs else [] := by
  by_cases h : pos = q
  · simp [CommentEntries.get, h, List.filter_map, Function.comp_def]
  · simp [CommentEntries.get, h, List.filter_map, Function.comp_def]

theorem addAllLeading_eq (t : CommentTable) (pos : Int) (cs : List Comment) :
    t.addAllLeading pos cs = { t with leading := t.leading ++ cs.map fun c => (pos, c) } := by
  induction cs generalizing t with
  | nil => simp [CommentTable.addAllLeading]
  | cons c cs ih =>
    show (t.addLeading pos c).addAllLeading pos cs = _
    rw [ih]
    simp [CommentTable.addLeading]

theorem addAllTrailing_eq (t : CommentTable) (pos : Int) (cs : List Comment) :
    t.addAllTrailing pos cs = { t with trailing := t.trailing ++ cs.map fun c => (pos, c) } := by
  induction cs generalizing t with
  | nil => simp [CommentTable.addAllTrailing]
  | cons c cs ih =>
    show (t.addTrailing pos c).addAllTrailing pos cs = _
    rw [ih]
    simp [CommentTable.addTrailing]

/-- Handing comments to an item touches no other position. -/
theorem get_handLeading_ne (t : CommentTable) (cs : List Comment) {pos q : Int} (h : q ≠ pos) :
    (t.handLeading pos cs).leading.get q = t.leading.get q := by
  show ((({ t with leading := t.leading.erase pos } : CommentTable).addAllLeading pos
    (cs ++ t.leading.get pos)).leading).get q = _
  rw [addAllLeading_eq]
  show CommentEntries.get (t.leading.erase pos ++ _) q = _
  rw [CommentEntries.get_append, CommentEntries.get_erase_ne _ h, CommentEntries.get_map_pair,
    if_neg (Ne.symm h), List.append_nil]

theorem handLeading_trailing (t : CommentTable) (cs : List Comment) (pos : Int) :
    (t.handLeading pos cs).trailing = t.trailing := by
  show (({ t with leading := t.leading.erase pos } : CommentTable).addAllLeading pos
    (cs ++ t.leading.get pos)).trailing = _
  rw [addAllLeading_eq]

/-- Handing comments to the end puts them in front of those that are there. -/
theorem get_handTrailing (t : CommentTable) (cs : List Comment) (pos : Int) :
    (t.handTrailing pos cs).trailing.get pos = cs ++ t.trailing.get pos := by
  show ((({ t with trailing := t.trailing.erase pos } : CommentTable).addAllTrailing pos
    (cs ++ t.trailing.get pos)).trailing).get pos = _
  rw [addAllTrailing_eq]
  show CommentEntries.get (t.trailing.erase pos ++ _) pos = _
  rw [CommentEntries.get_append, CommentEntries.get_erase_self, CommentEntries.get_map_pair,
    if_pos rfl, List.nil_append]

theorem handTrailing_leading (t : CommentTable) (cs : List Comment) (pos : Int) :
    (t.handTrailing pos cs).leading = t.leading := by
  show (({ t with trailing := t.trailing.erase pos } : CommentTable).addAllTrailing pos
    (cs ++ t.trailing.get pos)).leading = _
  rw [addAllTrailing_eq]

-- ---------------------------------------------------------------------------------------------
-- Comments on their way
-- ---------------------------------------------------------------------------------------------

open Prologue (Carried)

/-- The comments between an item and the one before it. -/
def CommentTable.between (t : CommentTable) (i : ModuleItem) : List Comment :=
  Printer.itemComments (some t) 0 i

theorem CommentTable.between_eq (t : CommentTable) {i : ModuleItem} {lo : Int}
    (h : i.span.lo = some lo) : t.between i = if lo = 0 then [] else t.leading.get lo := by
  simp [CommentTable.between, Printer.itemComments, h, CommentTable.getLeading]

/-- The items `done` have been passed, and `kept` are those of them that stay. On their way are the
comments of the run of items after the last one that stays; no other position than those of the
items passed has changed, and neither has the start. -/
structure Passed (t : CommentTable) (done kept : List ModuleItem) (c : Carried) : Prop where
  carried : ∃ pre tail, done = pre ++ tail ∧ kept.getLast? = pre.getLast? ∧
    c.comments = tail.flatMap t.between
  leading : ∀ pos, (pos = 0 ∨ ∀ i ∈ done, i.span.lo ≠ some pos) →
    c.table.leading.get pos = t.leading.get pos
  trailing : c.table.trailing = t.trailing

theorem passed_start (t : CommentTable) : Passed t [] [] { table := t } :=
  ⟨⟨[], [], rfl, rfl, rfl⟩, fun _ _ => rfl, rfl⟩

theorem untouched_of_append {done : List ModuleItem} {i : ModuleItem} {pos : Int}
    (h : pos = 0 ∨ ∀ j ∈ done ++ [i], j.span.lo ≠ some pos) :
    pos = 0 ∨ ∀ j ∈ done, j.span.lo ≠ some pos :=
  h.imp_right fun h j hj => h j (List.mem_append_left _ hj)

/-- An item that is taken out: its comments join those on their way. -/
theorem Passed.pickUp {t : CommentTable} {done kept : List ModuleItem} {c : Carried}
    (h : Passed t done kept c) {i : ModuleItem} {lo : Int} (hLo : i.span.lo = some lo)
    (hNew : ∀ j ∈ done, j.span.lo ≠ some lo) :
    Passed t (done ++ [i]) kept (c.pickUp (some 0) i.span.lo) := by
  obtain ⟨pre, tail, hDone, hKept, hComments⟩ := h.carried
  have hSplit : done ++ [i] = pre ++ (tail ++ [i]) := by rw [hDone, List.append_assoc]
  by_cases hZero : lo = 0
  · have hSame : c.pickUp (some 0) i.span.lo = c := by simp [Carried.pickUp, hLo, hZero]
    rw [hSame]
    refine ⟨⟨pre, tail ++ [i], hSplit, hKept, ?_⟩,
      fun pos hPos => h.leading pos (untouched_of_append hPos), h.trailing⟩
    simp [hComments, t.between_eq hLo, hZero]
  · have hFound : c.table.leading.get lo = t.leading.get lo := h.leading lo (.inr hNew)
    have hNext : c.pickUp (some 0) i.span.lo =
        ⟨c.comments ++ c.table.leading.get lo,
          { c.table with leading := c.table.leading.erase lo }⟩ := by
      simp [Carried.pickUp, hLo, hZero, CommentTable.takeLeading]
    rw [hNext]
    refine ⟨⟨pre, tail ++ [i], hSplit, hKept, ?_⟩, ?_, h.trailing⟩
    · simp [hComments, hFound, t.between_eq hLo, hZero]
    · intro pos hPos
      have hNe : pos ≠ lo := by
        rintro rfl
        rcases hPos with rfl | hPos
        · exact hZero rfl
        · exact hPos i (by simp) hLo
      show CommentEntries.get (c.table.leading.erase lo) pos = _
      rw [CommentEntries.get_erase_ne _ hNe]
      exact h.leading pos (untouched_of_append hPos)

/-- An item that stays: what is on its way is handed to it. -/
theorem Passed.handOver {t : CommentTable} {done kept : List ModuleItem} {c : Carried}
    (h : Passed t done kept c) {i : ModuleItem} {lo : Int} (hLo : i.span.lo = some lo)
    (hFirst : done ≠ [] → lo ≠ 0) :
    Passed t (done ++ [i]) (kept ++ [i]) (c.handOver i.span.lo) := by
  obtain ⟨pre, tail, hDone, hKept, hComments⟩ := h.carried
  have hLast : (kept ++ [i]).getLast? = (done ++ [i]).getLast? := by simp
  cases hOwn : c.comments with
  | nil =>
    have hSame : c.handOver i.span.lo = c := by simp [Carried.handOver, hOwn]
    rw [hSame]
    exact ⟨⟨done ++ [i], [], by simp, hLast, by simp [hOwn]⟩,
      fun pos hPos => h.leading pos (untouched_of_append hPos), h.trailing⟩
  | cons d ds =>
    have hNext : c.handOver i.span.lo = ⟨[], c.table.handLeading lo c.comments⟩ := by
      simp [Carried.handOver, hOwn, hLo]
    -- something is carried only after an item was taken out, so this is not the first one
    have hNonempty : done ≠ [] := by
      rintro rfl
      have hTail : tail = [] := (List.append_eq_nil_iff.mp hDone.symm).2
      rw [hTail, hOwn] at hComments
      cases hComments
    rw [hNext]
    refine ⟨⟨done ++ [i], [], by simp, hLast, rfl⟩, ?_, ?_⟩
    · intro pos hPos
      have hNe : pos ≠ lo := by
        rintro rfl
        rcases hPos with rfl | hPos
        · exact hFirst hNonempty rfl
        · exact hPos i (by simp) hLo
      show (c.table.handLeading lo c.comments).leading.get pos = _
      rw [get_handLeading_ne _ _ hNe]
      exact h.leading pos (untouched_of_append hPos)
    · show (c.table.handLeading lo c.comments).trailing = _
      rw [handLeading_trailing]
      exact h.trailing

/-- The position of an item is new, and is the start only when no item came before. -/
theorem LaidOut.fresh {done rest : List ModuleItem} {i : ModuleItem}
    (hLaid : LaidOut (done ++ i :: rest)) :
    ∃ lo, i.span.lo = some lo ∧ (∀ j ∈ done, j.span.lo ≠ some lo) ∧ (done ≠ [] → lo ≠ 0) := by
  obtain ⟨lo, hi, hAt⟩ := hLaid.exists_at (by simp : i ∈ done ++ i :: rest)
  have hBefore : ∀ j ∈ done, ∃ lo' hi', j.At lo' hi' ∧ hi' ≤ lo := by
    intro j hj
    obtain ⟨lo', hi', hAt'⟩ := hLaid.exists_at (List.mem_append_left (i :: rest) hj)
    exact ⟨lo', hi', hAt', hLaid.le_of_split rfl hj List.mem_cons_self hAt' hAt⟩
  refine ⟨lo, hAt.lo_eq, ?_, ?_⟩
  · intro j hj hEq
    obtain ⟨lo', hi', hAt', hLe⟩ := hBefore j hj
    have := Option.some.inj (hAt'.lo_eq.symm.trans hEq)
    have := hAt'.filled
    omega
  · intro hDone
    obtain ⟨j, hj⟩ := List.exists_mem_of_ne_nil done hDone
    obtain ⟨lo', hi', hAt', hLe⟩ := hBefore j hj
    have := hAt'.nonneg
    have := hAt'.filled
    omega

/-- What holds of the items passed, those of them that stay and the comments on their way is kept
over a prologue when it is kept by an item that is taken out and by one that stays. -/
theorem prologue_induction {P : List ModuleItem → List ModuleItem → Carried → Prop}
    (hPickUp : ∀ {done kept c i lo}, P done kept c → i.span.lo = some lo →
      (∀ j ∈ done, j.span.lo ≠ some lo) → P (done ++ [i]) kept (c.pickUp (some 0) i.span.lo))
    (hHandOver : ∀ {done kept c i lo}, P done kept c → i.span.lo = some lo →
      (∀ j ∈ done, j.span.lo ≠ some lo) → (done ≠ [] → lo ≠ 0) →
      P (done ++ [i]) (kept ++ [i]) (c.handOver i.span.lo))
    (items : List ModuleItem) {done kept : List ModuleItem} {c : Carried}
    (hLaid : LaidOut (done ++ items)) (h : P done kept c) :
    P (done ++ items) (kept ++ items.filter fun i => !i.isClientDirective)
      (items.foldl (Carried.passDirective (some 0)) c) := by
  induction items generalizing done kept c with
  | nil => simpa using h
  | cons i items ih =>
    obtain ⟨lo, hLo, hNew, hFirst⟩ := hLaid.fresh
    have hLaid' : LaidOut ((done ++ [i]) ++ items) := by simpa using hLaid
    by_cases hOut : i.isClientDirective = true
    · have := ih hLaid' (hPickUp h hLo hNew)
      simpa [Carried.passDirective, hOut] using this
    · have := ih hLaid' (hHandOver h hLo hNew hFirst)
      simpa [Carried.passDirective, hOut] using this

theorem rest_induction {P : List ModuleItem → List ModuleItem → Carried → Prop}
    (hHandOver : ∀ {done kept c i lo}, P done kept c → i.span.lo = some lo →
      (∀ j ∈ done, j.span.lo ≠ some lo) → (done ≠ [] → lo ≠ 0) →
      P (done ++ [i]) (kept ++ [i]) (c.handOver i.span.lo))
    (items : List ModuleItem) {done kept : List ModuleItem} {c : Carried}
    (hLaid : LaidOut (done ++ items)) (h : P done kept c) :
    P (done ++ items) (kept ++ items) (items.foldl Carried.pass c) := by
  induction items generalizing done kept c with
  | nil => simpa using h
  | cons i items ih =>
    obtain ⟨lo, hLo, hNew, hFirst⟩ := hLaid.fresh
    have hLaid' : LaidOut ((done ++ [i]) ++ items) := by simpa using hLaid
    have := ih hLaid' (hHandOver h hLo hNew hFirst)
    simpa [Carried.pass] using this

/-- What is kept by one item after the other holds after all items of a module. -/
theorem settle_induction {P : List ModuleItem → List ModuleItem → Carried → Prop} {m : Module}
    {t : CommentTable} (hLaid : LaidOut m.body) (hLo : m.span.lo = some 0)
    (hStart : P [] [] { table := t })
    (hPickUp : ∀ {done kept c i lo}, P done kept c → i.span.lo = some lo →
      (∀ j ∈ done, j.span.lo ≠ some lo) → P (done ++ [i]) kept (c.pickUp (some 0) i.span.lo))
    (hHandOver : ∀ {done kept c i lo}, P done kept c → i.span.lo = some lo →
      (∀ j ∈ done, j.span.lo ≠ some lo) → (done ≠ [] → lo ≠ 0) →
      P (done ++ [i]) (kept ++ [i]) (c.handOver i.span.lo)) :
    ∃ c : Carried, settleComments m t = c.finish m.span.hi ∧
      P m.body m.withoutDirectives.body c := by
  have hBody : m.prologue ++ m.afterPrologue = m.body := m.prologue_append
  have hLaid' : LaidOut (m.prologue ++ m.afterPrologue) := hBody ▸ hLaid
  have hPart : LaidOut ([] ++ m.prologue) :=
    ⟨fun i hi => hLaid'.placed i (List.mem_append_left _ hi),
      (List.pairwise_append.mp hLaid'.ordered).1⟩
  have hPrologue := prologue_induction hPickUp hHandOver m.prologue hPart hStart
  have hAll := rest_induction hHandOver m.afterPrologue hLaid' hPrologue
  refine ⟨_, by rw [settleComments, hLo], ?_⟩
  rwa [List.nil_append, hBody] at hAll

theorem finish_leading (c : Carried) (hi : Option Int) :
    (c.finish hi).leading = c.table.leading := by
  unfold Carried.finish
  split
  · rfl
  · exact handTrailing_leading _ _ _

theorem get_finish_trailing (c : Carried) (total : Int) :
    (c.finish (some total)).trailing.get total = c.comments ++ c.table.trailing.get total := by
  unfold Carried.finish
  split
  · rename_i hNone
    rw [hNone, List.nil_append]
  · exact get_handTrailing _ _ _

/-- The two ends of the table after the directives are taken out. Nothing changes at the start,
and the end receives the comments of the items after the last one that stays. -/
theorem settled_ends {m : Module} {total : Int} (t : CommentTable) (hLaid : LaidOut m.body)
    (hLo : m.span.lo = some 0) (hHi : m.span.hi = some total) :
    (settleComments m t).leading.get 0 = t.leading.get 0 ∧
    ∃ pre tail, m.body = pre ++ tail ∧ m.withoutDirectives.body.getLast? = pre.getLast? ∧
      (settleComments m t).trailing.get total =
        tail.flatMap t.between ++ t.trailing.get total := by
  obtain ⟨c, hSettled, hAll⟩ := settle_induction (t := t) hLaid hLo (passed_start t)
    (fun h hAt hNew => h.pickUp hAt hNew) (fun h hAt _ hFirst => h.handOver hAt hFirst)
  obtain ⟨pre, tail, hSplit, hLast, hCarried⟩ := hAll.carried
  refine ⟨?_, pre, tail, hSplit, hLast, ?_⟩
  · rw [hSettled, finish_leading]
    exact hAll.leading 0 (.inl rfl)
  · rw [hSettled, hHi, get_finish_trailing, hCarried, hAll.trailing]

-- ---------------------------------------------------------------------------------------------
-- Comments above and below
-- ---------------------------------------------------------------------------------------------

/-- The recorded comments that end before the first item. -/
def commentsAbove (body : List ModuleItem) (t : CommentTable) : List Comment :=
  t.recorded.filter fun c => ∃ i ∈ body.head?, c.EndsBefore i

/-- The recorded comments that begin after the last item that stays, all of them if none does, but
for those before the first item. -/
def commentsBelow (body kept : List ModuleItem) (t : CommentTable) : List Comment :=
  t.recorded.filter fun c =>
    (∀ i ∈ kept.getLast?, c.BeginsAfter i) ∧ ¬ ∃ i ∈ body.head?, c.EndsBefore i

/-- Entries of two kinds, where those of the first kind come first. -/
theorem filter_or_eq_append {α : Type} {p q : α → Bool} {l : List α}
    (h : l.Pairwise fun a b => q a = true → p b = false) (hApart : ∀ a ∈ l, p a = true → q a = false) :
    l.filter (fun a => p a || q a) = l.filter p ++ l.filter q := by
  induction l with
  | nil => rfl
  | cons a l ih =>
    obtain ⟨hHead, hTail⟩ := List.pairwise_cons.mp h
    have hRest := ih hTail fun b hb => hApart b (List.mem_cons_of_mem a hb)
    by_cases hp : p a = true
    · have hq := hApart a List.mem_cons_self hp
      simp [hp, hq, hRest]
    · by_cases hq : q a = true
      · have hNone : l.filter p = [] := by
          rw [List.filter_eq_nil_iff]
          intro b hb
          simp [hHead b hb hq]
        rw [hNone, List.nil_append] at hRest
        simp [hp, hq, hRest, hNone]
      · simp [hp, hq, hRest]

theorem flatMap_between {t : CommentTable} (hSorted : t.leading.Pairwise fun e f => e.1 ≤ f.1)
    (items : List ModuleItem) (hLaid : LaidOut items) :
    items.flatMap t.between =
      (t.leading.filter fun e => ∃ i ∈ items, i.span.lo = some e.1 ∧ e.1 ≠ 0).map (·.2) := by
  induction items with
  | nil => simp
  | cons i items ih =>
    obtain ⟨hFirst, hOrder⟩ := List.pairwise_cons.mp hLaid.ordered
    have hRest : LaidOut items :=
      ⟨fun j hj => hLaid.placed j (List.mem_cons_of_mem i hj), hOrder⟩
    obtain ⟨lo, hi, hAt⟩ := hLaid.exists_at List.mem_cons_self
    have hLater : ∀ j ∈ items, ∀ lo', j.span.lo = some lo' → lo < lo' := by
      intro j hj lo' hLo'
      have := hFirst j hj hi lo' hAt.hi_eq hLo'
      have := hAt.filled
      omega
    have hOwn : t.between i =
        (t.leading.filter fun e => i.span.lo = some e.1 ∧ e.1 ≠ 0).map (·.2) := by
      rw [t.between_eq hAt.lo_eq, hAt.lo_eq]
      by_cases hZero : lo = 0
      · rw [if_pos hZero]
        simp [hZero, eq_comm]
      · rw [if_neg hZero, CommentEntries.get]
        congr 1
        apply List.filter_congr
        intro e _
        by_cases he : e.1 = lo
        · simp [he, hZero]
        · simp [he, Ne.symm he]
    have hSplit : (t.leading.filter fun e => ∃ j ∈ i :: items, j.span.lo = some e.1 ∧ e.1 ≠ 0) =
        (t.leading.filter fun e => i.span.lo = some e.1 ∧ e.1 ≠ 0) ++
          t.leading.filter fun e => ∃ j ∈ items, j.span.lo = some e.1 ∧ e.1 ≠ 0 := by
      rw [← filter_or_eq_append]
      · apply List.filter_congr
        intro e _
        simp
      · -- an entry of a later item cannot stand before one of this item
        refine hSorted.imp ?_
        intro e f hLe hLater'
        simp only [decide_eq_true_eq] at hLater'
        obtain ⟨j, hj, hLo, -⟩ := hLater'
        have := hLater j hj e.1 hLo
        rw [decide_eq_false_iff_not, hAt.lo_eq]
        rintro ⟨hEq, -⟩
        have := Option.some.inj hEq
        omega
      · intro e _ hOwn'
        simp only [decide_eq_true_eq] at hOwn'
        rw [decide_eq_false_iff_not]
        rintro ⟨j, hj, hLo, -⟩
        have := hLater j hj e.1 hLo
        have := Option.some.inj (hAt.lo_eq.symm.trans hOwn'.1)
        omega
    rw [List.flatMap_cons, hOwn, ih hRest, hSplit, List.map_append]

section Ends

variable {body : List ModuleItem} {total : Int} {comments : List Comment} {t : CommentTable}

/-- A trailing comment begins after every item, so it does not end before the first. -/
theorem Filed.trailing_after (hLaid : LaidOut body) (h : Filed body total comments t)
    (hLine : InLine comments) {e : Int × Comment} (he : e ∈ t.trailing) :
    (∀ i ∈ body, e.2.BeginsAfter i) ∧ ¬ ∃ i ∈ body.head?, e.2.EndsBefore i := by
  obtain ⟨lo, hi, hLo, hHi, hLt⟩ := hLine.placed e.2
    (h.trailingOrder.subset (List.mem_map_of_mem he))
  have hAfter : ∀ i ∈ body, ∃ li hi', i.At li hi' ∧ hi' ≤ lo := by
    intro i hMem
    obtain ⟨li, hi', hAt⟩ := hLaid.exists_at hMem
    obtain ⟨k, hk⟩ := Option.isSome_iff_exists.mp
      (List.getLast?_isSome.mpr (List.ne_nil_of_mem hMem))
    obtain ⟨lk, hk', hK⟩ := hLaid.exists_at (List.mem_of_getLast? hk)
    have := hLaid.le_last (List.append_nil body).symm hk hMem hAt hK
    have hBegins := (h.trailing e he).2 k hk
    rw [Comment.BeginsAfter, hK.hi_eq, hLo] at hBegins
    exact ⟨li, hi', hAt, Int.le_trans this hBegins⟩
  refine ⟨fun i hMem => ?_, ?_⟩
  · obtain ⟨li, hi', hAt, hLe⟩ := hAfter i hMem
    rw [Comment.BeginsAfter, hAt.hi_eq, hLo]
    exact hLe
  · rintro ⟨i, hHead, hEnds⟩
    obtain ⟨li, hi', hAt, hLe⟩ := hAfter i (List.mem_of_head? hHead)
    rw [Comment.EndsBefore, hHi, hAt.lo_eq] at hEnds
    have hEnds' : hi ≤ li := hEnds
    have := hAt.filled
    omega

/-- What is filed at the start are the comments above. -/
theorem Filed.commentsAbove_eq (hLaid : LaidOut body) (h : Filed body total comments t)
    (hLine : InLine comments) : commentsAbove body t = t.leading.get 0 := by
  have hTrailing : (t.trailing.map (·.2)).filter (fun c => ∃ i ∈ body.head?, c.EndsBefore i) = [] := by
    rw [List.filter_eq_nil_iff]
    intro c hc
    obtain ⟨e, he, rfl⟩ := List.mem_map.mp hc
    simpa using (h.trailing_after hLaid hLine he).2
  rw [commentsAbove, CommentTable.recorded, List.filter_append, hTrailing, List.append_nil,
    List.filter_map, CommentEntries.get]
  congr 1
  apply List.filter_congr
  intro e he
  obtain ⟨s, u, -, hHi, hLt, hFrom⟩ := h.leadsFrom hLaid hLine he
  have hZero := hFrom.eq_zero_iff hLaid hLt
  rw [← hHi] at hZero
  simp only [Function.comp_apply, decide_eq_decide]
  exact hZero.symm

/-- What is filed after the items that stay, and at the end, are the comments below. -/
theorem Filed.commentsBelow_eq (hLaid : LaidOut body) (h : Filed body total comments t)
    (hLine : InLine comments) {pre tail kept : List ModuleItem} (hSplit : body = pre ++ tail)
    (hLast : kept.getLast? = pre.getLast?) :
    commentsBelow body kept t = tail.flatMap t.between ++ t.trailing.get total := by
  have hTail : LaidOut tail := by
    rw [hSplit] at hLaid
    exact ⟨fun i hi => hLaid.placed i (List.mem_append_right _ hi),
      (List.pairwise_append.mp hLaid.ordered).2.1⟩
  have hTrailing : (t.trailing.map (·.2)).filter (fun c =>
      (∀ i ∈ kept.getLast?, c.BeginsAfter i) ∧ ¬ ∃ i ∈ body.head?, c.EndsBefore i) =
        t.trailing.get total := by
    have hAll : t.trailing.get total = t.trailing.map (·.2) := by
      rw [CommentEntries.get, List.filter_eq_self.mpr]
      intro e he
      simpa using (h.trailing e he).1
    rw [hAll, List.filter_eq_self]
    intro c hc
    obtain ⟨e, he, rfl⟩ := List.mem_map.mp hc
    obtain ⟨hAfter, hNot⟩ := h.trailing_after hLaid hLine he
    rw [decide_eq_true_eq, hLast]
    refine ⟨fun i hi => hAfter i ?_, hNot⟩
    rw [hSplit]
    exact List.mem_append_left _ (List.mem_of_getLast? hi)
  rw [commentsBelow, CommentTable.recorded, List.filter_append, hTrailing,
    flatMap_between (h.positions_sorted hLaid hLine) tail hTail, List.filter_map]
  congr 2
  apply List.filter_congr
  intro e he
  obtain ⟨s, u, hLo, hHi, hLt, hFrom⟩ := h.leadsFrom hLaid hLine he
  have hIff := hFrom.exists_tail_iff hLaid hLt hSplit
  rw [← hLo, ← hHi, ← hLast] at hIff
  simp only [Function.comp_apply, decide_eq_decide]
  exact hIff.symm

end Ends

-- ---------------------------------------------------------------------------------------------
-- The printed reference
-- ---------------------------------------------------------------------------------------------

theorem join_lines (lines : List Text) (h : lines ≠ []) :
    Text.join "\n" lines ++ Text.ofString "\n" = lines.flatMap (· ++ Text.ofString "\n") := by
  induction lines with
  | nil => exact absurd rfl h
  | cons l lines ih =>
    cases lines with
    | nil => simp [Text.join]
    | cons l' lines =>
      have hJoin : Text.join (Text.ofString "\n") (l :: l' :: lines) =
          l ++ Text.ofString "\n" ++ Text.join (Text.ofString "\n") (l' :: lines) := rfl
      rw [hJoin, List.append_assoc, ih (List.cons_ne_nil _ _)]
      rfl

theorem printModule_eq_flatMap (m : Module) (t : Option CommentTable) :
    printModule m t = (Printer.moduleLines m t).flatMap (· ++ Text.ofString "\n") := by
  unfold printModule
  split
  · rename_i hNil
    rw [hNil]
    rfl
  · rename_i hLines
    exact join_lines _ hLines

/-- The lines of the reference to a file, comments apart. -/
def referenceLines (filename : Text) : List Text :=
  ["const \x7b createProxy \x7d = require(\"private-next-rsc-mod-ref-proxy\");",
   "module.exports = createProxy(" ++ Text.quoted filename ++ ");"]

/-- The two statements of a reference with given spans and written forms of their strings. `span`
gives the span from one token of the text to another. -/
def referenceItems (span : Nat → Nat → Span) (raw raw' : Option Text) (filename : Text) :
    List ModuleItem :=
  [.stmt (.varDecl .const
    [.mk (.object [.assign ⟨"createProxy", span 2 2⟩ none (span 2 2)] (span 1 3))
      (some (.call (.ident ⟨"require", span 5 5⟩)
        [.str ⟨"private-next-rsc-mod-ref-proxy", raw, span 7 7⟩] (span 5 8))) (span 1 8)] (span 0 9)),
   .stmt (.exprStmt
    (.assign "="
      (.expr (.member (.ident ⟨"module", span 10 10⟩) (.ident ⟨"exports", span 12 12⟩)
        (span 10 12)))
      (.call (.ident ⟨"createProxy", span 14 14⟩) [.str ⟨filename, raw', span 16 16⟩] (span 14 17))
      (span 10 17)) (span 10 18))]

theorem proxyStatements_eq (filename : Text) :
    proxyStatements filename = referenceItems (fun _ _ => {}) none none filename := rfl

/-- The literal is written as the printer quotes its value. -/
def WrittenQuoted (raw : Option Text) (value : Text) : Prop :=
  raw.getD (Text.quoted value) = Text.quoted value

theorem print_referenceItems (span : Nat → Nat → Span) {raw raw' : Option Text} {filename : Text}
    (hRaw : WrittenQuoted raw "private-next-rsc-mod-ref-proxy") (hRaw' : WrittenQuoted raw' filename) :
    (referenceItems span raw raw' filename).map (Printer.item 0) = referenceLines filename := by
  have hImport : Printer.str ⟨"private-next-rsc-mod-ref-proxy", raw, span 7 7⟩ =
      Text.quoted "private-next-rsc-mod-ref-proxy" := hRaw
  have hExport : Printer.str ⟨filename, raw', span 16 16⟩ = Text.quoted filename := hRaw'
  have hLines : (referenceItems span raw raw' filename).map (Printer.item 0) =
      ["const \x7b createProxy \x7d = require(" ++
        Printer.str ⟨"private-next-rsc-mod-ref-proxy", raw, span 7 7⟩ ++ ")" ++ ";",
       "module.exports = createProxy(" ++ Printer.str ⟨filename, raw', span 16 16⟩ ++ ")" ++ ";"] :=
    rfl
  rw [hLines, hImport, hExport, referenceLines]
  simp only [List.append_assoc]
  rfl

/-- The comment that marks a reference, as it is written. -/
def sentinelLine : Text := "/* __next_internal_client_entry_do_not_use__ */"

/-- The text of the reference to a file, with comments above and below it. -/
def referenceText (filename : Text) (above below : List Comment) : Text :=
  (above.map Comment.render ++ [sentinelLine] ++ referenceLines filename
    ++ below.map Comment.render).flatMap (· ++ Text.ofString "\n")

/-- A reference is printed as its text when no comment is filed at its statements. -/
theorem printModule_reference {m : Module} {t : CommentTable} {span : Nat → Nat → Span}
    {raw raw' : Option Text} {filename : Text}
    (hBody : m.body = referenceItems span raw raw' filename)
    (hRaw : WrittenQuoted raw "private-next-rsc-mod-ref-proxy") (hRaw' : WrittenQuoted raw' filename)
    (hNone : ∀ i ∈ m.body, Printer.itemComments (some t) (m.span.lo.getD 0) i = [])
    {above below : List Comment} {mark : Comment}
    (hAbove : t.getLeading (some (m.span.lo.getD 0)) = above ++ [mark])
    (hMark : mark.render = sentinelLine) (hBelow : t.getTrailing m.span.hi = below) :
    printModule m (some t) = referenceText filename above below := by
  have hItems : m.body.flatMap (fun i =>
      (Printer.itemComments (some t) (m.span.lo.getD 0) i).map Comment.render
        ++ [Printer.item 0 i]) = referenceLines filename := by
    rw [← print_referenceItems span hRaw hRaw', ← hBody, List.map_eq_flatMap]
    apply List.flatMap_congr
    intro i hi
    rw [hNone i hi]
    rfl
  rw [printModule_eq_flatMap, Printer.moduleLines]
  simp only [Option.map_some, Option.getD_some]
  rw [hItems, hAbove, hBelow, List.map_append, List.map_singleton, hMark, referenceText]

/-- The statements that take the place of a module are synthetic, so no comment is filed at them. -/
theorem printModule_synthetic {m : Module} {t : CommentTable} {filename : Text}
    (hBody : m.body = proxyStatements filename) {above below : List Comment}
    (hAbove : t.getLeading (some (m.span.lo.getD 0)) = above ++ [Reference.sentinel])
    (hBelow : t.getTrailing m.span.hi = below) :
    printModule m (some t) = referenceText filename above below := by
  have hNone : ∀ i ∈ m.body, Printer.itemComments (some t) (m.span.lo.getD 0) i = [] := by
    intro i hi
    have hLo : i.span.lo = none := by
      rw [hBody] at hi
      rcases List.mem_cons.mp hi with rfl | hi
      · rfl
      · rw [List.mem_singleton.mp hi]
        rfl
    simp [Printer.itemComments, hLo]
  exact printModule_reference (hBody.trans (proxyStatements_eq filename))
    (Eq.refl (Text.quoted _)) (Eq.refl (Text.quoted _)) hNone hAbove rfl hBelow

-- ---------------------------------------------------------------------------------------------
-- No client code in the server build
-- ---------------------------------------------------------------------------------------------

/-- A source that is read as a module whose prologue holds the directive of a client boundary. -/
structure ClientSource (source : Text) (file : Option Text) (parsed : ParsedModule)
    (prologue rest : List ModuleItem) : Prop where
  read : parseModule source file = .ok parsed
  split : PrologueSplit parsed.module.body prologue rest
  client : ∃ i ∈ prologue, IsStringStmt i "client"

/-- The items of a module but for the directives that are taken out. -/
def keptItems (prologue rest : List ModuleItem) : List ModuleItem :=
  prologue.filter (fun i => ¬ IsStringStmt i "client") ++ rest

/-- The server build of a client module is a reference, and shows nothing else of the source than
the comments above and below. -/
theorem printModule_server {source : Text} {file : Option Text} {parsed : ParsedModule}
    {prologue rest : List ModuleItem} (h : ClientSource source file parsed prologue rest)
    {config : Config} (hServer : IsServer config) (filename : Text) (sink : DiagnosticSink) :
    printModule (compileModule config filename parsed.module parsed.comments sink).module
        (some (compileModule config filename parsed.module parsed.comments sink).comments) =
      referenceText filename (commentsAbove parsed.module.body parsed.comments)
        (commentsBelow parsed.module.body (keptItems prologue rest) parsed.comments) ∧
    (compileModule config filename parsed.module parsed.comments sink).sink = sink := by
  obtain ⟨tree, hRead⟩ := parseModule_eq_ok h.read
  obtain ⟨comments, hLine, hFiled⟩ := hRead.filed
  have hLaid := hRead.laidOut
  have hLo : parsed.module.span.lo = some 0 := by rw [hRead.span]; rfl
  have hHi : parsed.module.span.hi = some (source.length : Int) := by rw [hRead.span]; rfl
  have hOn : config ≠ .all false := by
    rcases hServer with rfl | rfl
    · decide
    · decide
  obtain ⟨rfl, rfl⟩ := h.split.unique (prologueSplit_prologue parsed.module)
  have hRun : config.target = .server ∧ parsed.module.isClientBoundary = true :=
    ⟨(target_eq_server_iff hOn).mpr hServer, (isClientBoundary_iff parsed.module).mpr h.client⟩
  have hOut : compileModule config filename parsed.module parsed.comments sink =
      compileFor config.target filename parsed.module parsed.comments sink :=
    if_pos (enabled_of_ne hOn)
  obtain ⟨hModule, hComments, hSink⟩ :=
    @compileFor_boundary config.target filename parsed.module parsed.comments sink hRun
  obtain ⟨hStart, pre, tail, hSplit, hLast, hEnd⟩ := settled_ends parsed.comments hLaid hLo hHi
  rw [withoutDirectives_body] at hLast
  rw [hOut]
  refine ⟨?_, hSink⟩
  rw [hModule, hComments, hLo]
  have hAbove : CommentTable.getLeading ((settleComments parsed.module parsed.comments).addLeading
      0 Reference.sentinel) (some 0) =
        commentsAbove parsed.module.body parsed.comments ++ [Reference.sentinel] := by
    show CommentEntries.get (_ ++ [(0, Reference.sentinel)]) 0 = _
    rw [CommentEntries.get_append, hStart, hFiled.commentsAbove_eq hLaid hLine]
    rfl
  have hBelow : CommentTable.getTrailing ((settleComments parsed.module parsed.comments).addLeading
      0 Reference.sentinel) (some (source.length : Int)) =
        commentsBelow parsed.module.body
          (keptItems parsed.module.prologue parsed.module.afterPrologue) parsed.comments := by
    show (settleComments parsed.module parsed.comments).trailing.get _ = _
    rw [hEnd, keptItems, hFiled.commentsBelow_eq hLaid hLine hSplit hLast]
  refine printModule_synthetic rfl ?_ ?_
  · rw [hLo]
    exact hAbove
  · rw [hHi]
    exact hBelow

/-- What of a comment is printed. -/
def Comment.content (c : Comment) : CommentKind × Text := (c.kind, c.text)

theorem map_render_congr {cs ds : List Comment} (h : cs.map Comment.content = ds.map Comment.content) :
    cs.map Comment.render = ds.map Comment.render := by
  have hRender : ∀ es : List Comment, es.map Comment.render =
      (es.map Comment.content).map fun p => Comment.render ⟨p.1, p.2, {}⟩ := by
    intro es
    rw [List.map_map]
    rfl
  rw [hRender, hRender, h]

/-- Whether a source is read as a client module with the given contents above and below. -/
def outerCommentsAre (source : Text) (above below : List (CommentKind × Text)) : Bool :=
  match parseModule source none with
  | .ok parsed =>
    parsed.module.isClientBoundary
      && (commentsAbove parsed.module.body parsed.comments).map Comment.content = above
      && (commentsBelow parsed.module.body
          (keptItems parsed.module.prologue parsed.module.afterPrologue)
          parsed.comments).map Comment.content = below
  | .error _ => false

theorem clientSource_of_outerCommentsAre {source : Text} {above below : List (CommentKind × Text)}
    (h : outerCommentsAre source above below = true) :
    ∃ parsed, ClientSource source none parsed parsed.module.prologue parsed.module.afterPrologue ∧
      (commentsAbove parsed.module.body parsed.comments).map Comment.content = above ∧
      (commentsBelow parsed.module.body
          (keptItems parsed.module.prologue parsed.module.afterPrologue)
          parsed.comments).map Comment.content = below := by
  unfold outerCommentsAre at h
  split at h
  · rename_i parsed hRead
    simp only [Bool.and_eq_true, decide_eq_true_eq] at h
    obtain ⟨⟨hClient, hAbove⟩, hBelow⟩ := h
    exact ⟨parsed, ⟨hRead, prologueSplit_prologue _, (isClientBoundary_iff _).mp hClient⟩, hAbove,
      hBelow⟩
  · cases h

/-- No client code in the server build. A client module is printed as the comments above it, the
mark and the two statements of a reference, and the comments below it, without any report; and two
client modules with the same comments in these two places are printed alike. -/
theorem server_build_shows_only_outer_comments {source : Text} {file : Option Text}
    {parsed : ParsedModule} {prologue rest : List ModuleItem}
    (h : ClientSource source file parsed prologue rest) {config : Config}
    (hServer : IsServer config) (filename : Text) (sink : DiagnosticSink) :
    let out := compileModule config filename parsed.module parsed.comments sink
    let above := commentsAbove parsed.module.body parsed.comments
    let below := commentsBelow parsed.module.body (keptItems prologue rest) parsed.comments
    parsed.comments.recorded.Pairwise Comment.Precedes ∧
    printModule out.module (some out.comments) = referenceText filename above below ∧
    out.sink = sink ∧
    ∀ (source' : Text) (file' : Option Text) (parsed' : ParsedModule)
      (prologue' rest' : List ModuleItem) (config' : Config) (sink' : DiagnosticSink),
      ClientSource source' file' parsed' prologue' rest' → IsServer config' →
      (commentsAbove parsed'.module.body parsed'.comments).map Comment.content =
        above.map Comment.content →
      (commentsBelow parsed'.module.body (keptItems prologue' rest') parsed'.comments).map
          Comment.content =
        below.map Comment.content →
      let out' := compileModule config' filename parsed'.module parsed'.comments sink'
      printModule out'.module (some out'.comments) = printModule out.module (some out.comments) := by
  intro out above below
  obtain ⟨hText, hSink⟩ := printModule_server h hServer filename sink
  obtain ⟨tree, hRead⟩ := parseModule_eq_ok h.read
  obtain ⟨comments, hLine, hFiled⟩ := hRead.filed
  refine ⟨hFiled.recorded_ordered hRead.laidOut hLine, hText, hSink, ?_⟩
  intro source' file' parsed' prologue' rest' config' sink' h' hServer' hAbove hBelow out'
  have hText' := (printModule_server h' hServer' filename sink').1
  rw [show printModule out'.module (some out'.comments) = _ from hText',
    show printModule out.module (some out.comments) = _ from hText, referenceText, referenceText,
    map_render_congr hAbove, map_render_congr hBelow]

set_option maxRecDepth 100000 in
/-- Two client modules, one with an import that the server graph forbids and one with a name and a
comment inside: the same reference stands for both. -/
theorem server_build_of_import_and_of_name :
    ∃ parsed parsed',
      ClientSource "// top\n\"client\"; import \"fs\";\n// end" none parsed
        parsed.module.prologue parsed.module.afterPrologue ∧
      ClientSource "// top\n\"client\"; /* in */ run;\n// end" none parsed'
        parsed'.module.prologue parsed'.module.afterPrologue ∧
      let out := compileModule (.all true) "a.js" parsed.module parsed.comments {}
      let out' := compileModule (.options true) "a.js" parsed'.module parsed'.comments {}
      printModule out.module (some out.comments) =
        referenceText "a.js" (commentsAbove parsed.module.body parsed.comments)
          (commentsBelow parsed.module.body
            (keptItems parsed.module.prologue parsed.module.afterPrologue) parsed.comments) ∧
      printModule out'.module (some out'.comments) = printModule out.module (some out.comments) := by
  have hBoth : outerCommentsAre "// top\n\"client\"; import \"fs\";\n// end"
        [(.line, " top")] [(.line, " end")] = true ∧
      outerCommentsAre "// top\n\"client\"; /* in */ run;\n// end"
        [(.line, " top")] [(.line, " end")] = true := by decide +kernel
  obtain ⟨parsed, h, hAbove, hBelow⟩ := clientSource_of_outerCommentsAre hBoth.1
  obtain ⟨parsed', h', hAbove', hBelow'⟩ := clientSource_of_outerCommentsAre hBoth.2
  obtain ⟨-, hText, -, hAlike⟩ :=
    server_build_shows_only_outer_comments h (.inl rfl : IsServer (.all true)) "a.js" {}
  exact ⟨parsed, parsed', h, h', hText, hAlike _ none parsed' _ _ (.options true) {} h' (.inr rfl)
    (hAbove'.trans hAbove.symm) (hBelow'.trans hBelow.symm)⟩

end ClientBoundary
