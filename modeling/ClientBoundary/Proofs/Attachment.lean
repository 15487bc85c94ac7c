import ClientBoundary.Proofs.ModuleTree

/-!
# Where comments are recorded

The comments of a source that is read are filed one by one. `attachment_sound` says what each of the
four answers means for items that are laid out from left to right, and `filed_comments` says it of
the whole table: a leading comment lies before the first item and is filed at the start, or lies
between two items and is filed at the second; a trailing comment lies after the last item and is
filed at the end; and all recorded comments, the leading ones first, are in the order of the source
(`CommentTable.recorded`).
-/

namespace ClientBoundary

-- ---------------------------------------------------------------------------------------------
-- Comments and items
-- ---------------------------------------------------------------------------------------------

/-- The first offset is known, and so is the second, and the first is not beyond it. -/
def UpTo : Option Int → Option Int → Prop
  | some a, some b => a ≤ b
  | _, _ => False

instance (a b : Option Int) : Decidable (UpTo a b) :=
  match a, b with
  | some a, some b => inferInstanceAs (Decidable (a ≤ b))
  | none, _ => isFalse id
  | some _, none => isFalse id

/-- The comment ends before the item begins. -/
def Comment.EndsBefore (c : Comment) (i : ModuleItem) : Prop := UpTo c.span.hi i.span.lo

/-- The comment begins after the item has ended. -/
def Comment.BeginsAfter (c : Comment) (i : ModuleItem) : Prop := UpTo i.span.hi c.span.lo

/-- One comment ends before another begins. -/
def Comment.Precedes (c d : Comment) : Prop := UpTo c.span.hi d.span.lo

instance (c : Comment) (i : ModuleItem) : Decidable (c.EndsBefore i) :=
  inferInstanceAs (Decidable (UpTo _ _))

instance (c : Comment) (i : ModuleItem) : Decidable (c.BeginsAfter i) :=
  inferInstanceAs (Decidable (UpTo _ _))

/-- Comments one after the other, each with a place of its own. -/
structure InLine (comments : List Comment) : Prop where
  placed : ∀ c ∈ comments, ∃ lo hi, c.span.lo = some lo ∧ c.span.hi = some hi ∧ lo < hi
  ordered : comments.Pairwise Comment.Precedes

/-- All comments of a table, the leading ones first. -/
def CommentTable.recorded (t : CommentTable) : List Comment :=
  t.leading.map (·.2) ++ t.trailing.map (·.2)

-- ---------------------------------------------------------------------------------------------
-- Attachment
-- ---------------------------------------------------------------------------------------------

/-- What the place of a comment among the items is, for each answer. -/
inductive AttachedAt (items : List ModuleItem) (start stop : Int) : Reader.Attachment → Prop where
  | inside : AttachedAt items start stop .inside
  | first (i : ModuleItem) (rest : List ModuleItem) (hItems : items = i :: rest)
      (hBefore : UpTo (some stop) i.span.lo) : AttachedAt items start stop .first
  | before (xs ys : List ModuleItem) (a b : ModuleItem) (lo : Int)
      (hItems : items = xs ++ a :: b :: ys) (hLo : b.span.lo = some lo) (hBefore : stop ≤ lo)
      (hAfter : UpTo a.span.hi (some start)) : AttachedAt items start stop (.before lo)
  | trailing (hAfter : ∀ i ∈ items.getLast?, UpTo i.span.hi (some start)) :
      AttachedAt items start stop .trailing

/-- The search for the next item, after the items `done` have been passed: what is found is an
item that begins at or after the offset, and the end of the one before it is remembered. -/
theorem nextItem_cases (stop : Int) (done items : List ModuleItem) :
    (∃ xs b ys lo, items = xs ++ b :: ys ∧ b.span.lo = some lo ∧ stop ≤ lo ∧
      Reader.nextItem stop done.isEmpty (done.getLast?.bind (·.span.hi)) items =
        (some ((done ++ xs).isEmpty, lo), (done ++ xs).getLast?.bind (·.span.hi))) ∨
    Reader.nextItem stop done.isEmpty (done.getLast?.bind (·.span.hi)) items =
      (none, (done ++ items).getLast?.bind (·.span.hi)) := by
  induction items generalizing done with
  | nil => exact .inr (by rw [Reader.nextItem, List.append_nil])
  | cons i items ih =>
    -- an item that is passed joins those done before
    have hPassed : Reader.nextItem stop false i.span.hi items =
        Reader.nextItem stop (done ++ [i]).isEmpty
          ((done ++ [i]).getLast?.bind (·.span.hi)) items := by
      rw [List.isEmpty_eq_false_iff.mpr (List.append_ne_nil_of_right_ne_nil _ (by simp)),
        List.getLast?_concat]
      rfl
    have hSkip : Reader.nextItem stop false i.span.hi items =
          Reader.nextItem stop done.isEmpty (done.getLast?.bind (·.span.hi)) (i :: items) →
        (∃ xs b ys lo, i :: items = xs ++ b :: ys ∧ b.span.lo = some lo ∧ stop ≤ lo ∧
          Reader.nextItem stop done.isEmpty (done.getLast?.bind (·.span.hi)) (i :: items) =
            (some ((done ++ xs).isEmpty, lo), (done ++ xs).getLast?.bind (·.span.hi))) ∨
        Reader.nextItem stop done.isEmpty (done.getLast?.bind (·.span.hi)) (i :: items) =
          (none, (done ++ i :: items).getLast?.bind (·.span.hi)) := by
      intro hEq
      rw [← hEq, hPassed]
      rcases ih (done ++ [i]) with ⟨xs, b, ys, lo, rfl, hLo, hStop, hNext⟩ | hNext
      · refine .inl ⟨i :: xs, b, ys, lo, rfl, hLo, hStop, ?_⟩
        rw [hNext, List.append_assoc, List.singleton_append]
      · refine .inr ?_
        rw [hNext, List.append_assoc, List.singleton_append]
    cases hLo : i.span.lo with
    | none => exact hSkip (by rw [Reader.nextItem, hLo])
    | some lo =>
      by_cases hStop : stop ≤ lo
      · refine .inl ⟨[], i, items, lo, rfl, hLo, hStop, ?_⟩
        rw [Reader.nextItem, hLo, List.append_nil]
        exact if_pos hStop
      · refine hSkip ?_
        rw [Reader.nextItem, hLo]
        exact (if_neg hStop).symm

theorem upTo_of_not_lt {start hi : Int} (h : ¬ start < hi) : UpTo (some hi) (some start) :=
  Int.not_lt.mp h

/-- The answer says where the comment lies. -/
theorem attachment_sound {items : List ModuleItem} (hLaid : LaidOut items) (start stop : Int) :
    AttachedAt items start stop (Reader.attachment items start stop) := by
  have hSpans : ∀ i ∈ items, ∃ hi, i.span.hi = some hi := by
    intro i hi
    obtain ⟨_, _, _, hHi, _⟩ := hLaid.placed i hi
    exact ⟨_, hHi⟩
  rcases nextItem_cases stop [] items with ⟨xs, b, ys, lo, hItems, hLo, hStop, hNext⟩ | hNext
  · rcases List.eq_nil_or_concat xs with rfl | ⟨zs, a, rfl⟩
    · have hNext' : Reader.nextItem stop true none items = (some (true, lo), none) := hNext
      simp only [Reader.attachment, hNext']
      refine .first b ys hItems ?_
      rw [hLo]
      exact hStop
    · obtain ⟨hi, hHi⟩ := hSpans a (by simp [hItems])
      have hNext' : Reader.nextItem stop true none items = (some (false, lo), some hi) := by
        refine hNext.trans ?_
        simp [hHi]
      simp only [Reader.attachment, hNext']
      split
      · exact .inside
      · rename_i hNot
        refine .before zs ys a b lo (by simp [hItems]) hLo hStop ?_
        rw [hHi]
        exact upTo_of_not_lt (by simpa using hNot)
  · cases hLast : items.getLast? with
    | none =>
      have hNext' : Reader.nextItem stop true none items = (none, none) := by
        refine hNext.trans ?_
        simp [hLast]
      simp only [Reader.attachment, hNext']
      exact .trailing fun i hi => by cases hLast ▸ hi
    | some i =>
      obtain ⟨hi, hHi⟩ := hSpans i (List.mem_of_getLast? hLast)
      have hNext' : Reader.nextItem stop true none items = (none, some hi) := by
        refine hNext.trans ?_
        simp [hLast, hHi]
      simp only [Reader.attachment, hNext']
      split
      · exact .inside
      · rename_i hNot
        refine .trailing fun j hj => ?_
        obtain rfl : i = j := Option.some.inj (hLast.symm.trans hj)
        rw [hHi]
        exact upTo_of_not_lt (by simpa using hNot)

-- ---------------------------------------------------------------------------------------------
-- The table of a source
-- ---------------------------------------------------------------------------------------------

/-- Where a leading comment lies, and where it is filed: before the first item, at the start; or
between two items, at the second. -/
inductive LeadsAt (items : List ModuleItem) : Int → Comment → Prop where
  | first (i : ModuleItem) (rest : List ModuleItem) (c : Comment) (hItems : items = i :: rest)
      (hBefore : c.EndsBefore i) : LeadsAt items 0 c
  | between (xs ys : List ModuleItem) (a b : ModuleItem) (lo : Int) (c : Comment)
      (hItems : items = xs ++ a :: b :: ys) (hLo : b.span.lo = some lo)
      (hAfter : c.BeginsAfter a) (hBefore : c.EndsBefore b) : LeadsAt items lo c

/-- The comments of a source, filed in the order of the source. -/
structure Filed (items : List ModuleItem) (total : Int) (comments : List Comment)
    (table : CommentTable) : Prop where
  leading : ∀ e ∈ table.leading, LeadsAt items e.1 e.2
  trailing : ∀ e ∈ table.trailing, e.1 = total ∧ ∀ i ∈ items.getLast?, e.2.BeginsAfter i
  leadingOrder : (table.leading.map (·.2)).Sublist comments
  trailingOrder : (table.trailing.map (·.2)).Sublist comments

theorem commentOf_span (file : Option Text) (l : Lexeme) :
    (Reader.commentOf file l).span.lo = some (l.start.offset : Int) ∧
      (Reader.commentOf file l).span.hi = some (l.stop.offset : Int) := by
  unfold Reader.commentOf
  split
  · exact ⟨rfl, rfl⟩
  · exact ⟨rfl, rfl⟩

/-- One more comment is filed where it lies. -/
theorem Filed.attach {m : Module} {total : Int} {comments : List Comment} {table : CommentTable}
    (hLaid : LaidOut m.body) (hLo : m.span.lo = some 0) (hHi : m.span.hi = some total)
    (h : Filed m.body total comments table) (file : Option Text) (l : Lexeme) :
    Filed m.body total (comments ++ [Reader.commentOf file l])
      (Reader.attach m file table l) := by
  obtain ⟨hStart, hStop⟩ := commentOf_span file l
  have hLeading := h.leadingOrder.trans (List.sublist_append_left comments [Reader.commentOf file l])
  have hTrailing :=
    h.trailingOrder.trans (List.sublist_append_left comments [Reader.commentOf file l])
  -- a comment that is added goes to the end of its side
  have hAddLeading : ∀ pos, LeadsAt m.body pos (Reader.commentOf file l) →
      Filed m.body total (comments ++ [Reader.commentOf file l])
        (table.addLeading pos (Reader.commentOf file l)) := by
    intro pos hPos
    refine ⟨?_, h.trailing, ?_, hTrailing⟩
    · intro e he
      rcases List.mem_append.mp he with he | he
      · exact h.leading e he
      · rw [List.mem_singleton.mp he]
        exact hPos
    · rw [CommentTable.addLeading, List.map_append]
      exact h.leadingOrder.append (List.Sublist.refl _)
  have hSound := attachment_sound hLaid l.start.offset l.stop.offset
  unfold Reader.attach
  split
  · exact ⟨h.leading, h.trailing, hLeading, hTrailing⟩
  · rename_i hAt
    rw [hAt] at hSound
    cases hSound with
    | first i rest hItems hBefore =>
      refine hAddLeading _ ?_
      rw [hLo]
      refine .first i rest _ hItems ?_
      rw [Comment.EndsBefore, hStop]
      exact hBefore
  · rename_i lo hAt
    rw [hAt] at hSound
    cases hSound with
    | before xs ys a b _ hItems hLo' hBefore hAfter =>
      refine hAddLeading _ (.between xs ys a b lo _ hItems hLo' ?_ ?_)
      · rw [Comment.BeginsAfter, hStart]
        exact hAfter
      · rw [Comment.EndsBefore, hStop, hLo']
        exact hBefore
  · rename_i hAt
    rw [hAt] at hSound
    cases hSound with
    | trailing hAfter =>
      refine ⟨h.leading, ?_, hLeading, ?_⟩
      · intro e he
        rcases List.mem_append.mp he with he | he
        · exact h.trailing e he
        · rw [List.mem_singleton.mp he, hHi]
          refine ⟨rfl, fun i hi => ?_⟩
          rw [Comment.BeginsAfter, hStart]
          exact hAfter i hi
      · rw [CommentTable.addTrailing, List.map_append]
        exact h.trailingOrder.append (List.Sublist.refl _)

theorem filed_foldl {m : Module} {file : Option Text} {total : Int} (hLaid : LaidOut m.body)
    (hLo : m.span.lo = some 0) (hHi : m.span.hi = some total) (ls : List Lexeme)
    {comments : List Comment} {table : CommentTable} (h : Filed m.body total comments table) :
    Filed m.body total (comments ++ ls.map (Reader.commentOf file))
      (ls.foldl (Reader.attach m file) table) := by
  induction ls generalizing comments table with
  | nil => simpa using h
  | cons l ls ih =>
    have := ih (h.attach hLaid hLo hHi file l)
    simpa using this

theorem inLine_commentOf {ls : List Lexeme} {p : Place} (file : Option Text) (h : Tiling p ls)
    (keep : Lexeme → Bool) : InLine ((ls.filter keep).map (Reader.commentOf file)) where
  placed := by
    intro c hc
    obtain ⟨l, hl, rfl⟩ := List.mem_map.mp hc
    obtain ⟨hLo, hHi⟩ := commentOf_span file l
    have := (h.ordered.1 l (List.mem_filter.mp hl).1).2
    exact ⟨_, _, hLo, hHi, by omega⟩
  ordered := by
    refine List.pairwise_map.mpr ((h.ordered.2.filter keep).imp ?_)
    intro a b hab
    rw [Comment.Precedes, (commentOf_span file a).2, (commentOf_span file b).1]
    exact Int.ofNat_le.mpr hab

/-- The comments of a source that is read are filed where they lie. -/
theorem ReadFrom.filed_lexemes {source : Text} {file : Option Text} {parsed : ParsedModule}
    {tree : Option ItemsTree} (h : ReadFrom source file parsed tree) :
    Filed parsed.module.body source.length ((lex source).comments.map (Reader.commentOf file))
      parsed.comments := by
  have hStart : Filed parsed.module.body source.length [] {} :=
    ⟨List.forall_mem_nil _, List.forall_mem_nil _, .slnil, .slnil⟩
  have hLo : parsed.module.span.lo = some 0 := by rw [h.span]; rfl
  have hHi : parsed.module.span.hi = some (source.length : Int) := by rw [h.span]; rfl
  rw [h.comments]
  exact filed_foldl h.laidOut hLo hHi _ hStart

theorem ReadFrom.filed {source : Text} {file : Option Text} {parsed : ParsedModule}
    {tree : Option ItemsTree} (h : ReadFrom source file parsed tree) :
    ∃ comments, InLine comments ∧
      Filed parsed.module.body source.length comments parsed.comments :=
  ⟨_, inLine_commentOf file (tiling_lex source) Lexeme.isComment, h.filed_lexemes⟩

-- ---------------------------------------------------------------------------------------------
-- Places and offsets
-- ---------------------------------------------------------------------------------------------

section Places

variable {items : List ModuleItem} {total : Int} {comments : List Comment} {table : CommentTable}

/-- The item stretches from one offset to another. -/
structure ModuleItem.At (i : ModuleItem) (lo hi : Int) : Prop where
  lo_eq : i.span.lo = some lo
  hi_eq : i.span.hi = some hi
  nonneg : 0 ≤ lo
  filled : lo < hi

theorem LaidOut.exists_at (h : LaidOut items) {i : ModuleItem} (hMem : i ∈ items) :
    ∃ lo hi, i.At lo hi := by
  obtain ⟨lo, hi, hLo, hHi, hLt⟩ := h.placed i hMem
  exact ⟨lo, hi, hLo, hHi, Int.natCast_nonneg lo, by omega⟩

theorem LaidOut.le_of_split (h : LaidOut items) {pre tail : List ModuleItem}
    (hItems : items = pre ++ tail) {i j : ModuleItem} (hPre : i ∈ pre) (hTail : j ∈ tail)
    {lo hi lo' hi' : Int} (hAt : i.At lo hi) (hAt' : j.At lo' hi') : hi ≤ lo' := by
  have hOrder := h.ordered
  rw [hItems] at hOrder
  exact (List.pairwise_append.mp hOrder).2.2 i hPre j hTail hi lo' hAt.hi_eq hAt'.lo_eq

/-- No item ends after the last one. -/
theorem LaidOut.le_last (h : LaidOut items) {pre tail : List ModuleItem}
    (hItems : items = pre ++ tail) {i k : ModuleItem} (hLast : pre.getLast? = some k)
    (hMem : i ∈ pre) {lo hi lo' hi' : Int} (hAt : i.At lo hi) (hAt' : k.At lo' hi') : hi ≤ hi' := by
  obtain ⟨init, rfl⟩ := List.getLast?_eq_some_iff.mp hLast
  rcases List.mem_append.mp hMem with hInit | hSelf
  · have := h.le_of_split (hItems.trans (List.append_assoc _ _ _)) hInit
      (List.mem_append_left _ (List.mem_singleton_self k)) hAt hAt'
    have := hAt'.filled
    omega
  · obtain rfl := List.mem_singleton.mp hSelf
    have := Option.some.inj (hAt.hi_eq.symm.trans hAt'.hi_eq)
    omega

/-- No item ends before the first one. -/
theorem LaidOut.first_le (h : LaidOut items) {i j : ModuleItem} {rest : List ModuleItem}
    (hItems : items = [i] ++ rest) (hMem : j ∈ items) {lo hi lo' hi' : Int} (hAt : i.At lo hi)
    (hAt' : j.At lo' hi') : hi ≤ hi' := by
  rcases List.mem_append.mp (hItems ▸ hMem) with hSelf | hRest
  · obtain rfl := List.mem_singleton.mp hSelf
    have := Option.some.inj (hAt.hi_eq.symm.trans hAt'.hi_eq)
    omega
  · have := h.le_of_split hItems (List.mem_singleton_self i) hRest hAt hAt'
    have := hAt'.filled
    omega

/-- Every item ends no later than the first of two neighbours, or begins no sooner than the
second. -/
theorem LaidOut.apart (h : LaidOut items) {xs ys : List ModuleItem} {a b d : ModuleItem}
    (hItems : items = xs ++ a :: b :: ys) (hMem : d ∈ items) {la ha lb hb ld hd : Int}
    (hA : a.At la ha) (hB : b.At lb hb) (hD : d.At ld hd) : hd ≤ ha ∨ lb ≤ ld := by
  have hSplit : items = (xs ++ [a]) ++ b :: ys := by rw [hItems, List.append_assoc]; rfl
  rcases List.mem_append.mp (hSplit ▸ hMem) with hLeft | hRight
  · exact .inl (h.le_last hSplit List.getLast?_concat hLeft hD hA)
  · rcases List.mem_cons.mp hRight with rfl | hRest
    · have := Option.some.inj (hD.lo_eq.symm.trans hB.lo_eq)
      omega
    · have hSplit' : items = (xs ++ [a, b]) ++ ys := by rw [hItems, List.append_assoc]; rfl
      have := h.le_of_split hSplit' (List.mem_append_right _ (by simp)) hRest hB hD
      have := hB.filled
      omega

/-- A leading comment in numbers: it stretches from `s` to `t`, and either ends before the first
item, or lies between two. -/
inductive LeadsFrom (items : List ModuleItem) (s t : Int) : Int → Prop where
  | first (i : ModuleItem) (rest : List ModuleItem) (lo hi : Int) (hItems : items = [i] ++ rest)
      (hAt : i.At lo hi) (hBefore : t ≤ lo) : LeadsFrom items s t 0
  | between (xs ys : List ModuleItem) (a b : ModuleItem) (lo hi lo' hi' : Int)
      (hItems : items = xs ++ a :: b :: ys) (hAt : a.At lo hi) (hAt' : b.At lo' hi')
      (hAfter : hi ≤ s) (hBefore : t ≤ lo') : LeadsFrom items s t lo'

theorem LeadsAt.leadsFrom (hLaid : LaidOut items) {pos : Int} {c : Comment}
    (h : LeadsAt items pos c) {s t : Int} (hLo : c.span.lo = some s) (hHi : c.span.hi = some t) :
    LeadsFrom items s t pos := by
  cases h with
  | first i rest _ hItems hBefore =>
    obtain ⟨lo, hi, hAt⟩ := hLaid.exists_at (hItems ▸ List.mem_cons_self : i ∈ items)
    rw [Comment.EndsBefore, hHi, hAt.lo_eq] at hBefore
    exact .first i rest lo hi hItems hAt hBefore
  | between xs ys a b lo _ hItems hLo' hAfter hBefore =>
    obtain ⟨la, ha, hA⟩ := hLaid.exists_at (by simp [hItems] : a ∈ items)
    obtain ⟨lb, hb, hB⟩ := hLaid.exists_at (by simp [hItems] : b ∈ items)
    obtain rfl := Option.some.inj (hLo'.symm.trans hB.lo_eq)
    rw [Comment.BeginsAfter, hLo, hA.hi_eq] at hAfter
    rw [Comment.EndsBefore, hHi, hB.lo_eq] at hBefore
    exact .between xs ys a b la ha _ hb hItems hA hB hAfter hBefore

theorem LeadsFrom.nonneg {s t pos : Int} (h : LeadsFrom items s t pos) : 0 ≤ pos := by
  cases h with
  | first => exact Int.le_refl 0
  | between xs ys a b lo hi _ hi' hItems hAt hAt' hAfter hBefore => exact hAt'.nonneg

/-- A leading comment ends before some item. -/
theorem LeadsFrom.exists_next {s t pos : Int} (h : LeadsFrom items s t pos) :
    ∃ i ∈ items, ∃ lo hi, i.At lo hi ∧ t ≤ lo := by
  cases h with
  | first i rest lo hi hItems hAt hBefore => exact ⟨i, by simp [hItems], lo, hi, hAt, hBefore⟩
  | between xs ys a b lo hi _ hi' hItems hAt hAt' hAfter hBefore =>
    exact ⟨b, by simp [hItems], pos, hi', hAt', hBefore⟩

/-- What is filed at the start is what ends before the first item. -/
theorem LeadsFrom.eq_zero_iff (hLaid : LaidOut items) {s t pos : Int}
    (h : LeadsFrom items s t pos) (hPlaced : s < t) :
    pos = 0 ↔ ∃ i ∈ items.head?, UpTo (some t) i.span.lo := by
  cases h with
  | first i rest lo hi hItems hAt hBefore =>
    refine iff_of_true rfl ⟨i, by rw [hItems]; rfl, ?_⟩
    rw [hAt.lo_eq]
    exact hBefore
  | between xs ys a b lo hi _ hi' hItems hAt hAt' hAfter hBefore =>
    have hAB : hi ≤ pos := by omega
    refine iff_of_false (by have := hAt.nonneg; have := hAt.filled; omega) ?_
    rintro ⟨i, hi, hEnds⟩
    obtain ⟨rest, hFirst⟩ := List.head?_eq_some_iff.mp hi
    obtain ⟨li, hi', hI⟩ := hLaid.exists_at (hFirst ▸ List.mem_cons_self : i ∈ items)
    have := hLaid.first_le hFirst (by simp [hItems] : a ∈ items) hI hAt
    rw [hI.lo_eq] at hEnds
    have hEnds' : t ≤ li := hEnds
    have := hI.filled
    omega

/-- What begins after the last item of `pre` is filed at an item that follows `pre`. -/
theorem LeadsFrom.exists_tail_iff (hLaid : LaidOut items) {s t pos : Int}
    (h : LeadsFrom items s t pos) (hPlaced : s < t) {pre tail : List ModuleItem}
    (hSplit : items = pre ++ tail) :
    (∃ i ∈ tail, i.span.lo = some pos ∧ pos ≠ 0) ↔
      (∀ k ∈ pre.getLast?, UpTo k.span.hi (some s)) ∧
        ¬ ∃ i ∈ items.head?, UpTo (some t) i.span.lo := by
  rw [← h.eq_zero_iff hLaid hPlaced]
  cases h with
  | first i rest lo hi hItems hAt hBefore => simp
  | between xs ys a b lo hi _ hi' hItems hAt hAt' hAfter hBefore =>
    have hNonzero : pos ≠ 0 := by
      have := hAt.nonneg
      have := hAt.filled
      omega
    have hMem : ∀ {k}, k ∈ pre.getLast? → k ∈ pre := fun hk => List.mem_of_getLast? hk
    constructor
    · rintro ⟨j, hj, hLo, -⟩
      refine ⟨fun k hk => ?_, hNonzero⟩
      obtain ⟨lk, hk', hK⟩ := hLaid.exists_at
        (hSplit ▸ List.mem_append_left tail (hMem hk) : k ∈ items)
      obtain ⟨lj, hj', hJ⟩ := hLaid.exists_at
        (hSplit ▸ List.mem_append_right pre hj : j ∈ items)
      obtain rfl := Option.some.inj (hLo.symm.trans hJ.lo_eq)
      have := hLaid.le_of_split hSplit (hMem hk) hj hK hJ
      have := hK.filled
      -- the last item of `pre` is not at or beyond the second neighbour, so it ends by the first
      have hEnd : hk' ≤ hi := by
        rcases hLaid.apart hItems (hSplit ▸ List.mem_append_left tail (hMem hk)) hAt hAt' hK
          with h | h
        · exact h
        · omega
      rw [hK.hi_eq]
      exact Int.le_trans hEnd hAfter
    · rintro ⟨hLast, -⟩
      have hB : b ∈ pre ++ tail := hSplit ▸ (by simp [hItems] : b ∈ items)
      rcases List.mem_append.mp hB with hPre | hTail
      · obtain ⟨k, hk⟩ := Option.isSome_iff_exists.mp
          (List.getLast?_isSome.mpr (List.ne_nil_of_mem hPre))
        obtain ⟨lk, hk', hK⟩ := hLaid.exists_at
          (hSplit ▸ List.mem_append_left tail (hMem hk) : k ∈ items)
        have := hLaid.le_last hSplit hk hPre hAt' hK
        have hBegins := hLast k hk
        rw [hK.hi_eq] at hBegins
        have hBegins' : hk' ≤ s := hBegins
        have := hAt'.filled
        omega
      · exact ⟨b, hTail, hAt'.lo_eq, hNonzero⟩

/-- Of two comments the later one is not filed at an earlier position. -/
theorem LeadsFrom.le_of_precedes (hLaid : LaidOut items) {s t pos s' t' pos' : Int}
    (h : LeadsFrom items s t pos) (h' : LeadsFrom items s' t' pos') (hPlaced : s < t)
    (hPlaced' : s' < t') (hOrder : t ≤ s') : pos ≤ pos' := by
  cases h with
  | first => exact h'.nonneg
  | between xs ys a b lo hi _ hi' hItems hAt hAt' hAfter hBefore =>
    cases h' with
    | first i rest li hi'' hItems' hI hBefore' =>
      have := hLaid.first_le hItems' (by simp [hItems] : a ∈ items) hI hAt
      have := hI.filled
      omega
    | between xs' ys' c d lc hc ld hd hItems' hC hD hAfter' hBefore' =>
      have := hD.filled
      rcases hLaid.apart hItems (by simp [hItems'] : d ∈ items) hAt hAt' hD with h | h
      · omega
      · exact h

end Places

-- ---------------------------------------------------------------------------------------------
-- The order of the table
-- ---------------------------------------------------------------------------------------------

section Order

variable {items : List ModuleItem} {total : Int} {comments : List Comment} {table : CommentTable}

theorem Filed.mem_comments (h : Filed items total comments table) {c : Comment}
    (hMem : c ∈ table.recorded) : c ∈ comments := by
  rcases List.mem_append.mp hMem with hc | hc
  · exact h.leadingOrder.subset hc
  · exact h.trailingOrder.subset hc

/-- Each leading comment in numbers. -/
theorem Filed.leadsFrom (hLaid : LaidOut items) (h : Filed items total comments table)
    (hLine : InLine comments) {e : Int × Comment} (he : e ∈ table.leading) :
    ∃ s t, e.2.span.lo = some s ∧ e.2.span.hi = some t ∧ s < t ∧ LeadsFrom items s t e.1 := by
  obtain ⟨s, t, hLo, hHi, hLt⟩ := hLine.placed e.2
    (h.leadingOrder.subset (List.mem_map_of_mem he))
  exact ⟨s, t, hLo, hHi, hLt, (h.leading e he).leadsFrom hLaid hLo hHi⟩

/-- Leading comments are filed at positions that do not go back. -/
theorem Filed.positions_sorted (hLaid : LaidOut items) (h : Filed items total comments table)
    (hLine : InLine comments) : table.leading.Pairwise fun e f => e.1 ≤ f.1 := by
  have hOrder : table.leading.Pairwise fun e f => e.2.Precedes f.2 :=
    List.pairwise_map.mp (hLine.ordered.sublist h.leadingOrder)
  refine hOrder.imp_of_mem ?_
  intro e f he hf hPrecedes
  obtain ⟨s, t, -, hHi, hLt, hE⟩ := h.leadsFrom hLaid hLine he
  obtain ⟨s', t', hLo', -, hLt', hF⟩ := h.leadsFrom hLaid hLine hf
  rw [Comment.Precedes, hHi, hLo'] at hPrecedes
  exact hE.le_of_precedes hLaid hF hLt hLt' hPrecedes

/-- Recorded comments are in the order of the source: a trailing comment begins after the last
item, and a leading one ends before some item. -/
theorem Filed.recorded_ordered (hLaid : LaidOut items) (h : Filed items total comments table)
    (hLine : InLine comments) : table.recorded.Pairwise Comment.Precedes := by
  refine List.pairwise_append.mpr ⟨hLine.ordered.sublist h.leadingOrder,
    hLine.ordered.sublist h.trailingOrder, ?_⟩
  intro c hc d hd
  obtain ⟨e, he, rfl⟩ := List.mem_map.mp hc
  obtain ⟨f, hf, rfl⟩ := List.mem_map.mp hd
  obtain ⟨s, t, -, hHi, hLt, hE⟩ := h.leadsFrom hLaid hLine he
  obtain ⟨s', t', hLo', -, hLt'⟩ := hLine.placed f.2
    (h.trailingOrder.subset (List.mem_map_of_mem hf))
  obtain ⟨i, hi, lo, hi', hAt, hBefore⟩ := hE.exists_next
  obtain ⟨k, hk⟩ := Option.isSome_iff_exists.mp
    (List.getLast?_isSome.mpr (List.ne_nil_of_mem hi))
  obtain ⟨lk, hk', hK⟩ := hLaid.exists_at (List.mem_of_getLast? hk)
  have := hLaid.le_last (List.append_nil items).symm hk hi hAt hK
  have hAfter := (h.trailing f hf).2 k hk
  rw [Comment.BeginsAfter, hK.hi_eq, hLo'] at hAfter
  have hAfter' : hk' ≤ s' := hAfter
  have := hAt.filled
  rw [Comment.Precedes, hHi, hLo']
  exact (by omega : t ≤ s')

end Order

end ClientBoundary
