import ClientBoundary.Proofs.ServerOutput

/-!
# Recorded comments are printed

What the printer writes of a module is a list of parts, each of them a comment or an item. The
comments among them are exactly those of the table, in the order of the source and with the text
they have there; and taking the directives out of a module changes nothing in this list.

* `Lexeme.CutFrom` — every lexeme of a source is the piece of it that its two places mark, and a
  comment has the marks that its form asks for (`render_commentOf`).
* `Filed.printedComments_eq` — every comment of the table is filed where the printer looks for it.
* `Flow` — while the comments of a directive travel to the next item that stays, the comments of
  the items passed are those of the items that stay, followed by those on their way.
-/

namespace ClientBoundary

-- ---------------------------------------------------------------------------------------------
-- The parts of a printed module
-- ---------------------------------------------------------------------------------------------

/-- A part of the text of a module: a comment, or an item. -/
inductive Part where
  | comment (c : Comment)
  | item (i : ModuleItem)

namespace Part

/-- The text of a part. -/
def text : Part → Text
  | comment c => c.render
  | item i => Printer.item 0 i

/-- The comment that a part is. -/
def comment? : Part → Option Comment
  | comment c => some c
  | item _ => none

end Part

/-- What is printed of a module with its comments, part by part. -/
def printedParts (m : Module) (t : CommentTable) : List Part :=
  (t.getLeading (some (m.span.lo.getD 0))).map .comment
    ++ m.body.flatMap (fun i =>
        (Printer.itemComments (some t) (m.span.lo.getD 0) i).map .comment ++ [.item i])
    ++ (t.getTrailing m.span.hi).map .comment

/-- The comments that are printed with a module. -/
def printedComments (m : Module) (t : CommentTable) : List Comment :=
  (printedParts m t).filterMap Part.comment?

/-- A module is printed part by part, each on a line of its own. -/
theorem printModule_eq_parts (m : Module) (t : CommentTable) :
    printModule m (some t) = (printedParts m t).flatMap fun p => p.text ++ Text.ofString "\n" := by
  have hLines : Printer.moduleLines m (some t) = (printedParts m t).map Part.text := by
    simp only [Printer.moduleLines, printedParts, List.map_append, List.map_map, List.map_flatMap,
      Option.map_some, Option.getD_some]
    rfl
  rw [printModule_eq_flatMap, hLines, List.flatMap_map]

theorem filterMap_comments (cs : List Comment) :
    (cs.map Part.comment).filterMap Part.comment? = cs := by
  rw [List.filterMap_map]
  exact List.filterMap_some

theorem printedComments_eq {m : Module} {total : Int} (t : CommentTable)
    (hLo : m.span.lo = some 0) (hHi : m.span.hi = some total) :
    printedComments m t = t.leading.get 0 ++ m.body.flatMap t.between ++ t.trailing.get total := by
  have hItem : ∀ i : ModuleItem, [Part.item i].filterMap Part.comment? = [] := fun _ => rfl
  simp only [printedComments, printedParts, List.filterMap_append, List.filterMap_flatMap,
    filterMap_comments, hItem, List.append_nil, hLo, hHi, Option.getD_some]
  rfl

-- ---------------------------------------------------------------------------------------------
-- The text of a comment
-- ---------------------------------------------------------------------------------------------

/-- A lexeme is the piece of a source between its two places, and some lexer takes it off there. -/
structure Lexeme.CutFrom (source : Text) (l : Lexeme) : Prop where
  stop : l.stop.offset = l.start.offset + l.text.length
  text : (source.drop l.start.offset).take l.text.length = l.text
  taken : ∃ (s s' : Lexer) (n : Nat), s.step (source.drop l.start.offset) = some (l.kind, n, s') ∧
    l.text = (source.drop l.start.offset).take n

theorem cutFrom_of_mem {source : Text} (steps : Nat) {s : Lexer} {p : Place} {t : Text}
    (ht : t = source.drop p.offset) :
    ∀ l ∈ (lexFrom steps s p t).lexemes, l.CutFrom source := by
  induction steps generalizing s p t with
  | zero => exact List.forall_mem_nil _
  | succ steps ih =>
    rw [lexFrom]
    split
    · exact List.forall_mem_nil _
    · split
      · exact List.forall_mem_nil _
      · rename_i kind n s' hStep
        refine List.forall_mem_cons.mpr ⟨⟨Place.offset_after p _, ?_, s, s', n, ?_, ?_⟩, ih ?_⟩
        · rw [← ht, List.length_take, ← List.take_eq_take_min]
        · rw [← ht]
          exact hStep
        · rw [← ht]
        · rw [Place.offset_after, ← List.drop_drop, ← ht, List.length_take, ← List.drop_eq_drop_min]

/-- A comment is rendered as the text of its lexeme. -/
theorem render_commentOf {source : Text} {l : Lexeme} (file : Option Text)
    (hCut : l.CutFrom source) (hComment : l.isComment = true) :
    (Reader.commentOf file l).render = l.text := by
  obtain ⟨s, s', n, hStep, hText⟩ := hCut.taken
  have hMatched := Lexer.matched_of_step hStep
  cases hKind : l.kind with
  | token t => simp [Lexeme.isComment, hKind] at hComment
  | blank => simp [Lexeme.isComment, hKind] at hComment
  | lineComment =>
    obtain ⟨inner, hInner, -⟩ := take_lineComment (hMatched.line hKind)
    rw [hInner] at hText
    simp only [Reader.commentOf, hKind, hText, Comment.render]
    rfl
  | blockComment =>
    obtain ⟨inner, hInner, -⟩ := take_blockComment (hMatched.block hKind)
    rw [hInner] at hText
    have hInside : (l.text.drop 2).take (l.text.length - 4) = inner := by
      have hLength : l.text.length - 4 = inner.length := by
        rw [hText]
        simp [Text.ofString]
      rw [hLength, hText, List.append_assoc]
      exact List.take_left
    simp only [Reader.commentOf, hKind, hInside, Comment.render]
    exact hText.symm

/-- A comment that stands in a source, between the two offsets of its span, as it is rendered. -/
def Comment.WrittenIn (source : Text) (c : Comment) : Prop :=
  ∃ lo hi : Nat, c.span.lo = some (lo : Int) ∧ c.span.hi = some (hi : Int) ∧ lo < hi ∧
    hi ≤ source.length ∧ c.render = (source.take hi).drop lo

theorem writtenIn_commentOf {source : Text} {l : Lexeme} (file : Option Text)
    (hl : l ∈ (lex source).lexemes) (hComment : l.isComment = true) :
    (Reader.commentOf file l).WrittenIn source := by
  have hCut : l.CutFrom source := cutFrom_of_mem source.length (by rfl) l hl
  obtain ⟨hLo, hHi⟩ := commentOf_span file l
  have hLt := ((tiling_lex source).ordered.1 l hl).2
  have hLength : l.text.length ≤ source.length - l.start.offset := by
    have := congrArg List.length hCut.text
    rw [List.length_take, List.length_drop] at this
    omega
  have hStop := hCut.stop
  refine ⟨_, _, hLo, hHi, hLt, by omega, ?_⟩
  rw [render_commentOf file hCut hComment, hStop, ← hCut.text, List.length_take, List.length_drop,
    Nat.min_eq_left hLength, List.drop_take]
  congr 1
  omega

-- ---------------------------------------------------------------------------------------------
-- Printed as recorded
-- ---------------------------------------------------------------------------------------------

section Recorded

variable {m : Module} {total : Int} {comments : List Comment} {t : CommentTable}

/-- Every trailing comment is filed at the end. -/
theorem Filed.trailing_get (h : Filed m.body total comments t) :
    t.trailing.get total = t.trailing.map (·.2) := by
  rw [CommentEntries.get, List.filter_eq_self.mpr]
  intro e he
  simpa using (h.trailing e he).1

/-- Leading comments are those at the start and those of the items, in this order. -/
theorem Filed.leading_eq (hLaid : LaidOut m.body) (h : Filed m.body total comments t)
    (hLine : InLine comments) :
    t.leading.map (·.2) = t.leading.get 0 ++ m.body.flatMap t.between := by
  have hSorted := h.positions_sorted hLaid hLine
  have hNonneg : ∀ e ∈ t.leading, 0 ≤ e.1 := by
    intro e he
    obtain ⟨_, _, -, -, -, hFrom⟩ := h.leadsFrom hLaid hLine he
    exact hFrom.nonneg
  have hFound : ∀ e ∈ t.leading, e.1 = 0 ∨ ∃ i ∈ m.body, i.span.lo = some e.1 ∧ e.1 ≠ 0 := by
    intro e he
    by_cases hZero : e.1 = 0
    · exact .inl hZero
    · refine .inr ?_
      obtain ⟨pos, c⟩ := e
      cases h.leading (pos, c) he with
      | first => exact absurd rfl hZero
      | between xs ys a b _ _ hItems hLo _ _ => exact ⟨b, by simp [hItems], hLo, hZero⟩
  rw [flatMap_between hSorted m.body hLaid, CommentEntries.get, ← List.map_append,
    ← filter_or_eq_append]
  · congr 1
    symm
    rw [List.filter_eq_self]
    intro e he
    simpa using hFound e he
  · -- positions do not go back, so the start comes first
    refine hSorted.imp_of_mem ?_
    intro e f he hf hLe hItem
    simp only [decide_eq_true_eq] at hItem
    obtain ⟨_, _, _, hNonzero⟩ := hItem
    have := hNonneg e he
    rw [decide_eq_false_iff_not]
    omega
  · intro e _ hZero
    simp only [decide_eq_true_eq] at hZero
    simp [hZero]

theorem Filed.printedComments_eq (hLaid : LaidOut m.body) (h : Filed m.body total comments t)
    (hLine : InLine comments) (hLo : m.span.lo = some 0) (hHi : m.span.hi = some total) :
    printedComments m t = t.recorded := by
  rw [ClientBoundary.printedComments_eq t hLo hHi, CommentTable.recorded,
    h.leading_eq hLaid hLine, h.trailing_get]

end Recorded

-- ---------------------------------------------------------------------------------------------
-- Printed as before
-- ---------------------------------------------------------------------------------------------

open Prologue (Carried)

/-- Handing comments to an item puts them in front of its own. -/
theorem get_handLeading_self (t : CommentTable) (cs : List Comment) (pos : Int) :
    (t.handLeading pos cs).leading.get pos = cs ++ t.leading.get pos := by
  show ((({ t with leading := t.leading.erase pos } : CommentTable).addAllLeading pos
    (cs ++ t.leading.get pos)).leading).get pos = _
  rw [addAllLeading_eq]
  show CommentEntries.get (t.leading.erase pos ++ _) pos = _
  rw [CommentEntries.get_append, CommentEntries.get_erase_self, CommentEntries.get_map_pair,
    if_pos rfl, List.nil_append]

/-- The comments of the items passed are those of the items that stay, and after them those on
their way. -/
structure Flow (t : CommentTable) (done kept : List ModuleItem) (c : Carried) : Prop
    extends Passed t done kept c where
  sub : kept ⊆ done
  flow : kept.flatMap c.table.between ++ c.comments = done.flatMap t.between

theorem flow_start (t : CommentTable) : Flow t [] [] { table := t } :=
  ⟨passed_start t, List.Subset.refl _, rfl⟩

/-- Items that are elsewhere keep their comments. -/
theorem flatMap_between_congr {t u : CommentTable} {items : List ModuleItem} {lo : Int}
    (hNew : ∀ j ∈ items, j.span.lo ≠ some lo)
    (hSame : ∀ pos, pos ≠ lo → t.leading.get pos = u.leading.get pos) :
    items.flatMap t.between = items.flatMap u.between := by
  refine List.flatMap_congr fun j hj => ?_
  cases hLo : j.span.lo with
  | none => simp [CommentTable.between, Printer.itemComments, hLo]
  | some pos =>
    have hNe : pos ≠ lo := by
      rintro rfl
      exact hNew j hj hLo
    rw [t.between_eq hLo, u.between_eq hLo, hSame pos hNe]

theorem Flow.pickUp {t : CommentTable} {done kept : List ModuleItem} {c : Carried}
    (h : Flow t done kept c) {i : ModuleItem} {lo : Int} (hLo : i.span.lo = some lo)
    (hNew : ∀ j ∈ done, j.span.lo ≠ some lo) :
    Flow t (done ++ [i]) kept (c.pickUp (some 0) i.span.lo) := by
  refine ⟨h.toPassed.pickUp hLo hNew, fun j hj => List.mem_append_left _ (h.sub hj), ?_⟩
  rw [List.flatMap_append, List.flatMap_singleton, t.between_eq hLo, ← h.flow]
  by_cases hZero : lo = 0
  · have hSame : c.pickUp (some 0) i.span.lo = c := by simp [Carried.pickUp, hLo, hZero]
    rw [hSame, if_pos hZero, List.append_nil]
  · have hNext : c.pickUp (some 0) i.span.lo =
        ⟨c.comments ++ c.table.leading.get lo,
          { c.table with leading := c.table.leading.erase lo }⟩ := by
      simp [Carried.pickUp, hLo, hZero, CommentTable.takeLeading]
    have hKept : kept.flatMap
        (CommentTable.between { c.table with leading := c.table.leading.erase lo }) =
          kept.flatMap c.table.between :=
      flatMap_between_congr (fun j hj => hNew j (h.sub hj)) fun pos hPos =>
        CommentEntries.get_erase_ne _ hPos
    rw [hNext, if_neg hZero]
    dsimp only
    rw [hKept, h.leading lo (.inr hNew), List.append_assoc]

theorem Flow.handOver {t : CommentTable} {done kept : List ModuleItem} {c : Carried}
    (h : Flow t done kept c) {i : ModuleItem} {lo : Int} (hLo : i.span.lo = some lo)
    (hNew : ∀ j ∈ done, j.span.lo ≠ some lo) (hFirst : done ≠ [] → lo ≠ 0) :
    Flow t (done ++ [i]) (kept ++ [i]) (c.handOver i.span.lo) := by
  have hSub : kept ++ [i] ⊆ done ++ [i] :=
    List.append_subset.mpr ⟨fun j hj => List.mem_append_left _ (h.sub hj),
      List.subset_append_right _ _⟩
  refine ⟨h.toPassed.handOver hLo hFirst, hSub, ?_⟩
  have hOwn : c.table.leading.get lo = t.leading.get lo := h.leading lo (.inr hNew)
  rw [List.flatMap_append, List.flatMap_append, List.flatMap_singleton, List.flatMap_singleton,
    t.between_eq hLo, ← h.flow]
  cases hComments : c.comments with
  | nil =>
    have hSame : c.handOver i.span.lo = c := by simp [Carried.handOver, hComments]
    rw [hSame, c.table.between_eq hLo, hOwn, hComments, List.append_nil, List.append_nil]
  | cons d ds =>
    have hNext : c.handOver i.span.lo = ⟨[], c.table.handLeading lo c.comments⟩ := by
      simp [Carried.handOver, hComments, hLo]
    -- something is carried only after an item was taken out, so this is not the first one
    have hNonzero : lo ≠ 0 := by
      refine hFirst ?_
      rintro rfl
      have hFlow := h.flow
      rw [hComments, List.flatMap_nil] at hFlow
      simp at hFlow
    have hKept : kept.flatMap (c.table.handLeading lo c.comments).between =
        kept.flatMap c.table.between :=
      flatMap_between_congr (fun j hj => hNew j (h.sub hj)) fun pos hPos =>
        get_handLeading_ne _ _ hPos
    rw [hNext, ← hComments]
    dsimp only
    rw [hKept, CommentTable.between_eq _ hLo, if_neg hNonzero, if_neg hNonzero,
      get_handLeading_self, hOwn, List.append_nil, List.append_assoc]

/-- Taking the directives out of a module keeps the comments that are printed with it. -/
theorem printedComments_collect {m : Module} {total : Int} (t : CommentTable)
    (hLaid : LaidOut m.body) (hLo : m.span.lo = some 0) (hHi : m.span.hi = some total) :
    printedComments (collect m t).module (collect m t).comments = printedComments m t := by
  obtain ⟨c, hSettled, hFlow⟩ := settle_induction (t := t) hLaid hLo (flow_start t)
    (fun h hAt hNew => h.pickUp hAt hNew) (fun h hAt hNew hFirst => h.handOver hAt hNew hFirst)
  have hModule : (collect m t).module = m.withoutDirectives := by rw [collect_eq]
  have hBetween : ∀ i, (c.finish m.span.hi).between i = c.table.between i := by
    intro i
    cases hAt : i.span.lo with
    | none => simp [CommentTable.between, Printer.itemComments, hAt]
    | some lo => rw [CommentTable.between_eq _ hAt, CommentTable.between_eq _ hAt, finish_leading]
  have hLeading : (c.finish m.span.hi).leading.get 0 = t.leading.get 0 := by
    rw [finish_leading]
    exact hFlow.leading 0 (.inl rfl)
  have hTrailing : (c.finish m.span.hi).trailing.get total =
      c.comments ++ t.trailing.get total := by
    rw [hHi, get_finish_trailing, hFlow.trailing]
  have hComments : (collect m t).comments = c.finish m.span.hi := by rw [collect_eq, hSettled]
  rw [hModule, hComments, printedComments_eq (m := m.withoutDirectives) _ hLo hHi,
    printedComments_eq t hLo hHi, hLeading, hTrailing, ← hFlow.flow]
  simp only [funext hBetween, List.append_assoc]

/-- Recorded comments survive. With a module that is read, the printer writes exactly the comments
of its table, each once, in the order of the source and as they are written there; and it writes the
same comments after the directives were taken out of the module. -/
theorem recorded_comments_are_printed {source : Text} {file : Option Text} {parsed : ParsedModule}
    (h : parseModule source file = .ok parsed) :
    let m := parsed.module
    let t := parsed.comments
    let out := collect m t
    printModule m (some t) = ((printedParts m t).flatMap fun p => p.text ++ Text.ofString "\n") ∧
    printedComments m t = t.recorded ∧
    t.recorded.Pairwise Comment.Precedes ∧
    (∀ c ∈ t.recorded, c.WrittenIn source) ∧
    printModule out.module (some out.comments) =
      ((printedParts out.module out.comments).flatMap fun p => p.text ++ Text.ofString "\n") ∧
    printedComments out.module out.comments = t.recorded := by
  intro m t out
  obtain ⟨tree, hRead⟩ := parseModule_eq_ok h
  have hLaid := hRead.laidOut
  have hLo : m.span.lo = some 0 := by rw [hRead.span]; rfl
  have hHi : m.span.hi = some (source.length : Int) := by rw [hRead.span]; rfl
  have hFiled := hRead.filed_lexemes
  have hLine := inLine_commentOf file (tiling_lex source) Lexeme.isComment
  have hPrinted := hFiled.printedComments_eq hLaid hLine hLo hHi
  refine ⟨printModule_eq_parts m t, hPrinted, hFiled.recorded_ordered hLaid hLine, ?_,
    printModule_eq_parts _ _, (printedComments_collect t hLaid hLo hHi).trans hPrinted⟩
  intro c hc
  obtain ⟨l, hl, rfl⟩ := List.mem_map.mp (hFiled.mem_comments hc)
  obtain ⟨hMem, hComment⟩ := List.mem_filter.mp hl
  exact writtenIn_commentOf file hMem hComment

set_option maxRecDepth 100000 in
/-- A directive between comments is taken out, and its comments are printed in their old order. -/
theorem comments_around_a_directive_are_printed :
    ∃ parsed, parseModule "// a\n\"x\"; /* b */ \"client\"; // c\ny // d" none = .ok parsed ∧
      parsed.comments.recorded.map Comment.content =
        [(CommentKind.line, Text.ofString " a"), (.block, Text.ofString " b "),
          (.line, Text.ofString " c"), (.line, Text.ofString " d")] ∧
      printedComments parsed.module parsed.comments = parsed.comments.recorded ∧
      let out := collect parsed.module parsed.comments
      out.module.body.length = 2 ∧
      printedComments out.module out.comments = parsed.comments.recorded := by
  have hReads : readsAs "// a\n\"x\"; /* b */ \"client\"; // c\ny // d" (fun parsed =>
      (parsed.comments.recorded.map Comment.content =
        [(CommentKind.line, Text.ofString " a"), (.block, Text.ofString " b "),
          (.line, Text.ofString " c"), (.line, Text.ofString " d")]) &&
      ((collect parsed.module parsed.comments).module.body.length = 2)) = true := by
    decide +kernel
  obtain ⟨parsed, hParsed, hKind⟩ := exists_of_readsAs hReads
  simp only [Bool.and_eq_true, decide_eq_true_eq] at hKind
  obtain ⟨-, hPrinted, -, -, -, hCollected⟩ := recorded_comments_are_printed hParsed
  exact ⟨parsed, hParsed, hKind.1, hPrinted, hKind.2, hCollected⟩

end ClientBoundary
