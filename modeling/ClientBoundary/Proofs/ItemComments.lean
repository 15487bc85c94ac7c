import ClientBoundary.Proofs.Attachment
import ClientBoundary.Proofs.Leftmost
import ClientBoundary.Proofs.StatementEnds
import Mathlib.Data.List.Forall2
import Mathlib.Data.List.Pairwise

/-!
# Comments and the tokens of items

`attachment_sound` says where a comment is filed in terms of the spans of items. Here the same is
said in terms of their tokens, and of all comments of a source at once.

The two views differ at one place. An item that a line feed ends has a terminator as its last token,
which has the place of the line feed, so the span of the item reaches over whatever stands between
its last written token and the end of the line. A comment there is taken for one inside the item and
is not recorded.

* `itemTokens` — the tokens of each item, from the tree of the source (`itemOf_phrases`).
* `inside_iff` — a comment counts as inside exactly when it lies between two written tokens of an
  item, or between the last of them and the terminator.
* `comment_recorded_iff` — a comment is recorded, once and where it belongs, exactly when neither is
  the case for any item; and it is not recorded otherwise.
-/

namespace ClientBoundary

open Grammar

-- ---------------------------------------------------------------------------------------------
-- The tokens of an item
-- ---------------------------------------------------------------------------------------------

/-- The categories of which the outermost phrases are the items of a module. -/
def isItem : Category → Bool
  | .stmt | .moduleDecl => true
  | _ => false

/-- The tokens of each item of a source, terminators included. -/
def itemTokens (source : Text) : List (List Token) :=
  match Reader.syntaxTree source (lex source) with
  | .ok (some tree) => tree.phrases isItem
  | _ => []

/-- The tokens of an item: the first is no terminator, and the item has the span of all. -/
structure ItemOf (file : Option Text) (ts : List Token) (i : ModuleItem) : Prop where
  span : i.span = spanOf file ts
  code : ∃ first, ts.head? = some first ∧ isCode first.kind = true

theorem itemOf_single {file : Option Text} {ts : List Token} {items : List ModuleItem}
    (hPhrase : ItemPhrase file ts items) (hCode : ∀ t ∈ ts.head?, t.kind ≠ .terminator) :
    List.Forall₂ (ItemOf file) [ts] items := by
  cases hPhrase with
  | blank t hKind => exact absurd hKind (hCode t rfl)
  | item i first rest hKind hSpan => exact .cons ⟨hSpan, first, rfl, hKind⟩ .nil

theorem ne_terminator_of_begins {n : Category} (hBegins : beginsWithCode n = true)
    (tree : ModuleTree n) : ∀ t ∈ tree.yield.head?, t.kind ≠ .terminator := by
  intro t ht
  obtain ⟨first, hHead, hCode⟩ := Tree.exists_head beginsIn_code tree hBegins
  obtain rfl := Option.some.inj (hHead.symm.trans ht)
  rw [isCode, Bool.and_eq_true, decide_eq_true_eq] at hCode
  exact hCode.1

/-- The phrases of a tree of one item are the tokens of that item. -/
theorem itemOf_item {file : Option Text} (tree : ModuleTree .item) {items : List ModuleItem}
    (hValue : tree.value file = .ok items) :
    List.Forall₂ (ItemOf file) (tree.phrases isItem) items := by
  have hPhrase := itemPhrase_of_value hValue
  cases tree with
  | node n i children =>
    match i, children with
    | ⟨0, _⟩, .cons _ _ t .nil =>
      change ItemPhrase file (t.yield ++ []) items at hPhrase
      change List.Forall₂ (ItemOf file) (t.phrases isItem ++ []) items
      rw [List.append_nil] at hPhrase ⊢
      rw [Tree.phrases_of_mem rfl]
      exact itemOf_single hPhrase (ne_terminator_of_begins rfl t)
    | ⟨1, _⟩, .cons _ _ t .nil =>
      change ItemPhrase file (t.yield ++ []) items at hPhrase
      change List.Forall₂ (ItemOf file) (t.phrases isItem ++ []) items
      rw [List.append_nil] at hPhrase ⊢
      rw [Tree.phrases_of_mem rfl]
      exact itemOf_single hPhrase (ne_terminator_of_begins rfl t)
    | ⟨2, _⟩, .cons _ _ (.leaf _ t hKind) .nil =>
      cases hValue
      exact .nil

/-- The phrases of a tree of items are the tokens of its items, one by one. -/
theorem itemOf_phrases (file : Option Text) : (tree : ModuleTree .items) →
    ∀ items, tree.value file = .ok items →
      List.Forall₂ (ItemOf file) (tree.phrases isItem) items
  | .node _ ⟨0, _⟩ (.cons _ _ init (.cons _ _ last .nil)), items, hValue => by
    change ModuleGrammar.append (init.value file) (last.value file) = .ok items at hValue
    change List.Forall₂ (ItemOf file) (init.phrases isItem ++ (last.phrases isItem ++ [])) items
    rw [List.append_nil]
    cases hInit : init.value file with
    | error e =>
      rw [hInit] at hValue
      cases hValue
    | ok is =>
      cases hLast : last.value file with
      | error e =>
        rw [hInit, hLast] at hValue
        cases hValue
      | ok js =>
        rw [hInit, hLast] at hValue
        cases hValue
        exact List.rel_append (itemOf_phrases file init is hInit) (itemOf_item last hLast)
  | .node _ ⟨1, _⟩ (.cons _ _ last .nil), items, hValue => by
    change List.Forall₂ (ItemOf file) (last.phrases isItem ++ []) items
    rw [List.append_nil]
    exact itemOf_item last hValue
termination_by tree => tree.nodes
decreasing_by exact Nat.lt_succ_of_le (Nat.le_add_right init.nodes _)

theorem ReadFrom.itemOf {source : Text} {file : Option Text} {parsed : ParsedModule}
    {tree : Option ItemsTree} (h : ReadFrom source file parsed tree) :
    List.Forall₂ (ItemOf file) (itemTokens source) parsed.module.body := by
  have hBuilt := h.built
  rw [itemTokens, h.matched]
  cases tree with
  | none =>
    rw [← Except.ok.inj hBuilt]
    exact .nil
  | some tree => exact itemOf_phrases file tree _ hBuilt

theorem ReadFrom.sublist_itemTokens {source : Text} {file : Option Text} {parsed : ParsedModule}
    {tree : Option ItemsTree} (h : ReadFrom source file parsed tree) {ts : List Token}
    (hMem : ts ∈ itemTokens source) : ts.Sublist (lex source).statements := by
  rw [itemTokens, h.matched] at hMem
  rw [← h.tokens]
  cases tree with
  | none => cases hMem
  | some tree => exact tree.sublist_of_phrases ts hMem

-- ---------------------------------------------------------------------------------------------
-- Tokens and comments
-- ---------------------------------------------------------------------------------------------

/-- What holds of all tokens of a source, and of a terminator in the place of one of them, holds of
all that is put out. -/
theorem Insertion.forall_put {P : Token → Prop} (hTerminator : ∀ t, P t → P (terminatorAt t))
    {s : Insertion} {ts : List Token} (hTokens : ∀ t ∈ ts, P t) (hPending : ∀ t ∈ s.pending, P t)
    (hLast : ∀ t ∈ s.lastToken, P t) : ∀ x ∈ s.put ts, P x := by
  induction ts generalizing s with
  | nil =>
    intro x hx
    rw [put_nil, Option.mem_toList] at hx
    unfold finish at hx
    split at hx
    · rename_i t ht
      split at hx
      · cases hx
        exact hTerminator t (hLast t ht)
      · cases hx
    · cases hx
  | cons t ts ih =>
    obtain ⟨hHead, hRest⟩ := List.forall_mem_cons.mp hTokens
    rw [put_cons]
    rcases step_cases s t with ⟨hOut, _, hState⟩ | ⟨settled, closed, hOut, hSettled, hClosed,
      hPending', hLast'⟩
    · rw [hOut, List.nil_append]
      rcases hState with hState | hState
      · rw [hState]
        exact ih hRest hPending hLast
      · rw [hState]
        refine ih hRest ?_ hLast
        intro u hu
        cases hu
        exact hHead
    · intro x hx
      rw [hOut] at hx
      simp only [List.mem_append, Option.mem_toList, List.mem_singleton] at hx
      rcases hx with ((hx | hx) | rfl) | hx
      · obtain ⟨nl, hNl, rfl⟩ := hSettled x hx
        exact hTerminator nl (hPending nl hNl)
      · obtain ⟨_, rfl⟩ := hClosed x hx
        exact hTerminator t hHead
      · exact hHead
      · refine ih hRest ?_ ?_ x hx
        · intro u hu
          rw [hPending'] at hu
          cases hu
        · intro u hu
          rw [hLast'] at hu
          cases hu
          exact hHead

/-- A comment and a stretch of the source that have nothing in common. -/
def Lexeme.ApartFrom (l : Lexeme) (start stop : Place) : Prop :=
  start.offset < stop.offset ∧
    (stop.offset ≤ l.start.offset ∨ l.stop.offset ≤ start.offset)

theorem lexemes_apart {source : Text} {l l' : Lexeme} (h : l ∈ (lex source).lexemes)
    (h' : l' ∈ (lex source).lexemes) (hDiffer : l ≠ l') :
    l.stop.offset ≤ l'.start.offset ∨ l'.stop.offset ≤ l.start.offset := by
  have hEither : (lex source).lexemes.Pairwise fun a b =>
      a.stop.offset ≤ b.start.offset ∨ b.stop.offset ≤ a.start.offset :=
    (tiling_lex source).ordered.2.imp .inl
  have : Std.Symm fun a b : Lexeme =>
      a.stop.offset ≤ b.start.offset ∨ b.stop.offset ≤ a.start.offset := ⟨fun _ _ => Or.symm⟩
  exact hEither.forall h h' hDiffer

theorem apartFrom_token {source : Text} {l : Lexeme} (hComment : l ∈ (lex source).comments) :
    ∀ t ∈ (lex source).tokens, l.ApartFrom t.start t.stop := by
  intro t ht
  obtain ⟨l', hMem', hToken⟩ := List.mem_filterMap.mp ht
  obtain ⟨hMem, hIs⟩ := List.mem_filter.mp hComment
  have hDiffer : l' ≠ l := by
    rintro rfl
    unfold Lexeme.token? at hToken
    unfold Lexeme.isComment at hIs
    split at hToken
    · rename_i hKind
      rw [hKind] at hIs
      cases hIs
    · cases hToken
  have hPlace : t.start = l'.start ∧ t.stop = l'.stop := by
    unfold Lexeme.token? at hToken
    split at hToken
    · cases hToken
      exact ⟨rfl, rfl⟩
    · cases hToken
  rw [hPlace.1, hPlace.2]
  exact ⟨((tiling_lex source).ordered.1 l' hMem').2, lexemes_apart hMem' hMem hDiffer⟩

/-- No comment overlaps a token that the grammar is matched against. -/
theorem apartFrom_statements {source : Text} (hLexed : (lex source).failure = none) {l : Lexeme}
    (hComment : l ∈ (lex source).comments) :
    ∀ t ∈ (lex source).statements, l.ApartFrom t.start t.stop := by
  rw [Lexing.statements_eq_put hLexed]
  exact Insertion.forall_put (fun _ h => h) (apartFrom_token hComment) nofun nofun

/-- The comment stands between two written tokens of an item. -/
def Lexeme.LiesIn (l : Lexeme) (ts : List Token) : Prop :=
  ∃ a ∈ ts, ∃ b ∈ ts, a.kind ≠ .terminator ∧ b.kind ≠ .terminator ∧
    a.stop.offset ≤ l.start.offset ∧ l.stop.offset ≤ b.start.offset

/-- The comment stands after the last written token of an item and before the terminator that was
inserted there, that is, before the line feed that ends the item. -/
def Lexeme.LiesBeforeEnd (l : Lexeme) (ts : List Token) : Prop :=
  (∃ x ∈ ts.getLast?, x.kind = .terminator ∧ l.stop.offset ≤ x.start.offset) ∧
    ∀ t ∈ ts, t.kind ≠ .terminator → t.stop.offset ≤ l.start.offset

instance (l : Lexeme) (ts : List Token) : Decidable (l.LiesIn ts) :=
  inferInstanceAs (Decidable (∃ a ∈ ts, _))

instance (l : Lexeme) (ts : List Token) : Decidable (l.LiesBeforeEnd ts) :=
  inferInstanceAs (Decidable (_ ∧ _))

/-- The span of an item and the stretch of a comment have something in common. -/
def ModuleItem.Overlaps (i : ModuleItem) (start stop : Int) : Prop :=
  ∃ lo hi : Int, i.span.lo = some lo ∧ i.span.hi = some hi ∧ lo < stop ∧ start < hi

theorem InOrder.sublist {ts us : List Token} (h : InOrder us) (hSub : ts.Sublist us) :
    InOrder ts where
  stops := h.stops.sublist hSub
  starts := h.starts.sublist hSub
  filled t ht := h.filled t (hSub.subset ht)

/-- No token ends before the first or after the last. -/
theorem InOrder.stops_between {ts : List Token} (h : InOrder ts) {first last : Token}
    (hFirst : ts.head? = some first) (hLast : ts.getLast? = some last) {t : Token} (ht : t ∈ ts) :
    first.stop.offset ≤ t.stop.offset ∧ t.stop.offset ≤ last.stop.offset := by
  obtain ⟨rest, rfl⟩ := List.head?_eq_some_iff.mp hFirst
  constructor
  · rcases List.mem_cons.mp ht with rfl | hRest
    · exact Nat.le_refl _
    · exact (List.pairwise_cons.mp h.stops).1 t hRest
  · obtain ⟨init, hInit⟩ := List.getLast?_eq_some_iff.mp hLast
    have hStops := h.stops
    rw [hInit] at hStops ht
    rcases List.mem_append.mp ht with hMem | hSelf
    · exact (List.pairwise_append.mp hStops).2.2 t hMem last (List.mem_singleton_self _)
    · obtain rfl := List.mem_singleton.mp hSelf
      exact Nat.le_refl _

/-- The span of an item meets a comment exactly when the comment stands between two of its written
tokens or before the terminator at its end. -/
theorem overlaps_iff {file : Option Text} {ts : List Token} {i : ModuleItem} {l : Lexeme}
    (hItem : ItemOf file ts i) (hOrder : InOrder ts)
    (hApart : ∀ t ∈ ts, l.ApartFrom t.start t.stop) (hFilled : l.start.offset < l.stop.offset) :
    i.Overlaps l.start.offset l.stop.offset ↔ l.LiesIn ts ∨ l.LiesBeforeEnd ts := by
  obtain ⟨first, hFirst, hCode⟩ := hItem.code
  have hFirstMem : first ∈ ts := List.mem_of_mem_head? hFirst
  have hFirstKind : first.kind ≠ .terminator := by
    rw [isCode, Bool.and_eq_true, decide_eq_true_eq] at hCode
    exact hCode.1
  obtain ⟨last, hLast⟩ := Option.isSome_iff_exists.mp
    (List.getLast?_isSome.mpr (List.ne_nil_of_mem hFirstMem))
  have hLastMem := List.mem_of_getLast? hLast
  have hSpan : i.span.lo = some (first.start.offset : Int) ∧
      i.span.hi = some (last.stop.offset : Int) := by
    rw [hItem.span, spanOf, hFirst, hLast]
    exact ⟨rfl, rfl⟩
  have hAtFirst := hApart first hFirstMem
  have hAtLast := hApart last hLastMem
  unfold Lexeme.ApartFrom at hAtFirst hAtLast
  constructor
  · rintro ⟨lo, hi, hLo, hHi, hBegins, hEnds⟩
    rw [hSpan.1] at hLo
    rw [hSpan.2] at hHi
    cases hLo
    cases hHi
    have hBefore : first.stop.offset ≤ l.start.offset := by omega
    have hAfter : l.stop.offset ≤ last.start.offset := by omega
    by_cases hKind : last.kind = .terminator
    · by_cases hWritten : ∃ b ∈ ts, b.kind ≠ .terminator ∧ l.stop.offset ≤ b.start.offset
      · obtain ⟨b, hb, hbKind, hbAfter⟩ := hWritten
        exact .inl ⟨first, hFirstMem, b, hb, hFirstKind, hbKind, hBefore, hbAfter⟩
      · refine .inr ⟨⟨last, hLast, hKind, hAfter⟩, ?_⟩
        intro t ht htKind
        have hNot : ¬ l.stop.offset ≤ t.start.offset :=
          fun hLe => hWritten ⟨t, ht, htKind, hLe⟩
        have := (hApart t ht).2
        omega
    · exact .inl ⟨first, hFirstMem, last, hLastMem, hFirstKind, hKind, hBefore, hAfter⟩
  · intro h
    refine ⟨_, _, hSpan.1, hSpan.2, ?_⟩
    rcases h with ⟨a, ha, b, hb, _, _, hBefore, hAfter⟩ | ⟨⟨x, hx, _, hAfter⟩, hWritten⟩
    · have := (hOrder.stops_between hFirst hLast ha).1
      have := (hOrder.stops_between hFirst hLast hb).2
      have := (hApart b hb).1
      omega
    · obtain rfl := Option.some.inj (hLast.symm.trans hx)
      have := hWritten first hFirstMem hFirstKind
      omega

-- ---------------------------------------------------------------------------------------------
-- Inside an item
-- ---------------------------------------------------------------------------------------------

/-- The end that the search for the next item remembers is that of an item that it passed. -/
theorem nextItem_previous {stop hi : Int} {first : Bool} {previous : Option Int}
    {items : List ModuleItem} {found : Option (Bool × Int)}
    (h : Reader.nextItem stop first previous items = (found, some hi)) :
    previous = some hi ∨
      ∃ i ∈ items, i.span.hi = some hi ∧ ∀ lo, i.span.lo = some lo → lo < stop := by
  induction items generalizing first previous with
  | nil =>
    cases h
    exact .inl rfl
  | cons i items ih =>
    have hPassed : Reader.nextItem stop false i.span.hi items = (found, some hi) →
        (∀ lo, i.span.lo = some lo → lo < stop) →
        ∃ j ∈ i :: items, j.span.hi = some hi ∧ ∀ lo, j.span.lo = some lo → lo < stop := by
      intro hNext hBegins
      rcases ih hNext with hHi | ⟨j, hj, hHi, hLo⟩
      · exact ⟨i, List.mem_cons_self, hHi, hBegins⟩
      · exact ⟨j, List.mem_cons_of_mem _ hj, hHi, hLo⟩
    rw [Reader.nextItem] at h
    split at h
    · rename_i lo hLo
      split at h
      · cases h
        exact .inl rfl
      · refine .inr (hPassed h ?_)
        intro lo' hLo'
        rw [hLo] at hLo'
        cases hLo'
        omega
    · rename_i hLo
      refine .inr (hPassed h ?_)
      intro lo' hLo'
      rw [hLo] at hLo'
      cases hLo'

/-- A comment counts as inside an item exactly when it meets the span of one. -/
theorem attachment_eq_inside_iff {items : List ModuleItem} (hLaid : LaidOut items)
    {start stop : Int} :
    Reader.attachment items start stop = .inside ↔ ∃ i ∈ items, i.Overlaps start stop := by
  constructor
  · intro h
    obtain ⟨⟨found, previous⟩, hNext⟩ : ∃ r, Reader.nextItem stop true none items = r := ⟨_, rfl⟩
    simp only [Reader.attachment, hNext] at h
    cases previous with
    | none =>
      rw [if_neg Bool.false_ne_true] at h
      split at h <;> cases h
    | some hi =>
      by_cases hInside : start < hi
      · rcases nextItem_previous hNext with hNone | ⟨i, hMem, hHi, hLo⟩
        · cases hNone
        · obtain ⟨lo, _, hLo', _⟩ := hLaid.placed i hMem
          exact ⟨i, hMem, lo, hi, hLo', hHi, hLo lo hLo', hInside⟩
      · simp only [hInside, decide_false, Bool.false_eq_true, if_false] at h
        split at h <;> cases h
  · rintro ⟨i, hMem, lo, hi, hLo, hHi, hBegins, hEnds⟩
    obtain ⟨lo', hi', hI⟩ := hLaid.exists_at hMem
    obtain rfl := Option.some.inj (hLo.symm.trans hI.lo_eq)
    obtain rfl := Option.some.inj (hHi.symm.trans hI.hi_eq)
    -- every other answer puts the item wholly before or wholly after the comment
    have hSound := attachment_sound hLaid start stop
    cases hAt : Reader.attachment items start stop with
    | inside => rfl
    | first =>
      rw [hAt] at hSound
      cases hSound with
      | first j rest hItems hBefore =>
        have hSplit : items = [j] ++ rest := hItems
        obtain ⟨lj, hj, hJ⟩ := hLaid.exists_at (hItems ▸ List.mem_cons_self : j ∈ items)
        rw [hJ.lo_eq] at hBefore
        have hBefore' : stop ≤ lj := hBefore
        rw [hItems] at hMem
        rcases List.mem_cons.mp hMem with rfl | hRest
        · have := Option.some.inj (hLo.symm.trans hJ.lo_eq)
          omega
        · have := hLaid.le_of_split hSplit (List.mem_singleton_self j) hRest hJ hI
          have := hJ.filled
          omega
    | before pos =>
      rw [hAt] at hSound
      cases hSound with
      | before xs ys a b _ hItems hPos hBefore hAfter =>
        obtain ⟨la, ha, hA⟩ := hLaid.exists_at (by simp [hItems] : a ∈ items)
        obtain ⟨lb, hb, hB⟩ := hLaid.exists_at (by simp [hItems] : b ∈ items)
        obtain rfl := Option.some.inj (hPos.symm.trans hB.lo_eq)
        rw [hA.hi_eq] at hAfter
        have hAfter' : ha ≤ start := hAfter
        have := hLaid.apart hItems hMem hA hB hI
        omega
    | trailing =>
      rw [hAt] at hSound
      cases hSound with
      | trailing hAfter =>
        obtain ⟨k, hk⟩ := Option.isSome_iff_exists.mp
          (List.getLast?_isSome.mpr (List.ne_nil_of_mem hMem))
        obtain ⟨lk, hk', hK⟩ := hLaid.exists_at (List.mem_of_getLast? hk)
        have hAfter' := hAfter k hk
        rw [hK.hi_eq] at hAfter'
        have hAfter'' : hk' ≤ start := hAfter'
        have := hLaid.le_last (List.append_nil items).symm hk hMem hI hK
        omega

/-- What begins after some items have ended does not end before one of them. -/
theorem LaidOut.not_upTo_of_ended {items pre tail : List ModuleItem} (hLaid : LaidOut items)
    (hItems : items = pre ++ tail) {start stop : Int} (hFilled : start < stop)
    (hEnded : ∀ k ∈ pre.getLast?, UpTo k.span.hi (some start)) :
    ∀ j ∈ pre, ¬ UpTo (some stop) j.span.lo := by
  intro j hj hUpTo
  obtain ⟨k, hk⟩ := Option.isSome_iff_exists.mp (List.getLast?_isSome.mpr (List.ne_nil_of_mem hj))
  obtain ⟨lj, hj', hJ⟩ := hLaid.exists_at (hItems ▸ List.mem_append_left tail hj : j ∈ items)
  obtain ⟨lk, hk', hK⟩ := hLaid.exists_at
    (hItems ▸ List.mem_append_left tail (List.mem_of_getLast? hk) : k ∈ items)
  have hLast := hLaid.le_last hItems hk hj hJ hK
  have hEnd := hEnded k hk
  rw [hK.hi_eq] at hEnd
  rw [hJ.lo_eq] at hUpTo
  have hEnd' : hk' ≤ start := hEnd
  have hUpTo' : stop ≤ lj := hUpTo
  have := hJ.filled
  omega

/-- The next item after a comment, for each answer: the comment ends before it, and before none of
the items in front of it. -/
inductive NextAt (items : List ModuleItem) (stop : Int) : Reader.Attachment → Prop where
  | first (i : ModuleItem) (rest : List ModuleItem) (hItems : items = i :: rest)
      (hNext : UpTo (some stop) i.span.lo) : NextAt items stop .first
  | before (xs ys : List ModuleItem) (b : ModuleItem) (lo : Int) (hItems : items = xs ++ b :: ys)
      (hSome : xs ≠ []) (hPassed : ∀ j ∈ xs, ¬ UpTo (some stop) j.span.lo)
      (hLo : b.span.lo = some lo) (hNext : stop ≤ lo) : NextAt items stop (.before lo)
  | trailing (hPassed : ∀ j ∈ items, ¬ UpTo (some stop) j.span.lo) : NextAt items stop .trailing

theorem AttachedAt.nextAt {items : List ModuleItem} (hLaid : LaidOut items) {start stop : Int}
    (hFilled : start < stop) {answer : Reader.Attachment} (h : AttachedAt items start stop answer)
    (hNot : answer ≠ .inside) : NextAt items stop answer := by
  cases h with
  | inside => exact absurd rfl hNot
  | first i rest hItems hBefore => exact .first i rest hItems hBefore
  | before xs ys a b lo hItems hLo hBefore hAfter =>
    have hSplit : items = (xs ++ [a]) ++ b :: ys := by
      rw [hItems, List.append_assoc]
      rfl
    refine .before _ ys b lo hSplit (by simp) (hLaid.not_upTo_of_ended hSplit hFilled ?_) hLo hBefore
    rw [List.getLast?_concat]
    rintro _ ⟨⟩
    exact hAfter
  | trailing hAfter =>
    exact .trailing (hLaid.not_upTo_of_ended (List.append_nil items).symm hFilled hAfter)

theorem exists_mem_iff {α β : Type} {R : α → β → Prop} {P : α → Prop} {Q : β → Prop}
    {as : List α} {bs : List β} (h : List.Forall₂ R as bs)
    (hIff : ∀ a ∈ as, ∀ b, R a b → (P a ↔ Q b)) : (∃ a ∈ as, P a) ↔ ∃ b ∈ bs, Q b := by
  induction h with
  | nil => simp
  | cons hab _ ih =>
    have hHead := hIff _ List.mem_cons_self _ hab
    have hTail := ih fun a ha => hIff a (List.mem_cons_of_mem _ ha)
    simp [hHead, hTail]

/-- A comment of a source that is read counts as inside an item exactly when it stands between two
written tokens of an item or before the terminator at its end. -/
theorem inside_iff {source : Text} {file : Option Text} {parsed : ParsedModule}
    {tree : Option ItemsTree} (h : ReadFrom source file parsed tree) {l : Lexeme}
    (hComment : l ∈ (lex source).comments) :
    Reader.attachment parsed.module.body l.start.offset l.stop.offset = .inside ↔
      ∃ ts ∈ itemTokens source, l.LiesIn ts ∨ l.LiesBeforeEnd ts := by
  have hFilled := ((tiling_lex source).ordered.1 l (List.mem_filter.mp hComment).1).2
  rw [attachment_eq_inside_iff h.laidOut]
  refine (exists_mem_iff h.itemOf ?_).symm
  intro ts hts i hItem
  have hSub := h.sublist_itemTokens hts
  exact (overlaps_iff hItem ((inOrder_statements source).sublist hSub)
    (fun t ht => apartFrom_statements h.lexed hComment t (hSub.subset ht)) hFilled).symm

-- ---------------------------------------------------------------------------------------------
-- The table
-- ---------------------------------------------------------------------------------------------

namespace Reader

/-- What a comment adds to the leading comments of the table. -/
def leadingEntry (m : Module) (file : Option Text) (l : Lexeme) : Option (Int × Comment) :=
  match attachment m.body l.start.offset l.stop.offset with
  | .first => some (m.span.lo.getD 0, commentOf file l)
  | .before lo => some (lo, commentOf file l)
  | .inside | .trailing => none

/-- What a comment adds to the trailing comments of the table. -/
def trailingEntry (m : Module) (file : Option Text) (l : Lexeme) : Option (Int × Comment) :=
  match attachment m.body l.start.offset l.stop.offset with
  | .trailing => some (m.span.hi.getD 0, commentOf file l)
  | .inside | .first | .before _ => none

theorem attach_eq (m : Module) (file : Option Text) (t : CommentTable) (l : Lexeme) :
    attach m file t l = ⟨t.leading ++ (leadingEntry m file l).toList,
      t.trailing ++ (trailingEntry m file l).toList⟩ := by
  unfold attach leadingEntry trailingEntry
  cases attachment m.body l.start.offset l.stop.offset <;>
    simp [CommentTable.addLeading, CommentTable.addTrailing]

/-- The table holds what each comment adds, in the order of the comments. -/
theorem foldl_attach (m : Module) (file : Option Text) (t : CommentTable) (ls : List Lexeme) :
    ls.foldl (attach m file) t = ⟨t.leading ++ ls.filterMap (leadingEntry m file),
      t.trailing ++ ls.filterMap (trailingEntry m file)⟩ := by
  induction ls generalizing t with
  | nil => simp
  | cons l ls ih =>
    rw [List.foldl_cons, ih, attach_eq]
    cases hLeading : leadingEntry m file l <;> cases hTrailing : trailingEntry m file l <;>
      simp [hLeading, hTrailing]

theorem comment_of_entry {m : Module} {file : Option Text} {l : Lexeme} {e : Int × Comment}
    (h : leadingEntry m file l = some e ∨ trailingEntry m file l = some e) :
    e.2 = commentOf file l ∧ attachment m.body l.start.offset l.stop.offset ≠ .inside := by
  unfold leadingEntry trailingEntry at h
  cases hAt : attachment m.body l.start.offset l.stop.offset <;> simp [hAt] at h ⊢ <;> rw [← h]

end Reader

/-- Two comments of a source with the same span are one. -/
theorem eq_of_commentOf {source : Text} {file : Option Text} {l l' : Lexeme}
    (h : l ∈ (lex source).comments) (h' : l' ∈ (lex source).comments)
    (hSame : Reader.commentOf file l = Reader.commentOf file l') : l = l' := by
  have hOffsets : l.start.offset = l'.start.offset ∧ l.stop.offset = l'.stop.offset := by
    have hLo := (commentOf_span file l).1
    have hHi := (commentOf_span file l).2
    rw [hSame, (commentOf_span file l').1] at hLo
    rw [hSame, (commentOf_span file l').2] at hHi
    simp only [Option.some.injEq] at hLo hHi
    omega
  obtain ⟨hMem, _⟩ := List.mem_filter.mp h
  obtain ⟨hMem', _⟩ := List.mem_filter.mp h'
  by_contra hDiffer
  have hApart := lexemes_apart hMem hMem' hDiffer
  have := ((tiling_lex source).ordered.1 l hMem).2
  omega

theorem mem_get_iff {entries : CommentEntries} {pos : Int} {c : Comment} :
    c ∈ entries.get pos ↔ (pos, c) ∈ entries := by
  simp [CommentEntries.get]

/-- A comment is recorded once, and where it belongs: at the start of the module when it stands
before the first item, at the next item when it stands before another one, and at the end of the
module when no item follows it. -/
structure Comment.RecordedIn (c : Comment) (m : Module) (t : CommentTable) : Prop where
  once : t.recorded.count c = 1
  first : ∀ i ∈ m.body.head?, c.EndsBefore i → c ∈ t.getLeading m.span.lo
  next : ∀ before i after, m.body = before ++ i :: after → before ≠ [] →
    (∀ j ∈ before, ¬ c.EndsBefore j) → c.EndsBefore i → c ∈ t.getLeading i.span.lo
  last : (∀ i ∈ m.body, ¬ c.EndsBefore i) → c ∈ t.getTrailing m.span.hi

section Recorded

variable {source : Text} {file : Option Text} {parsed : ParsedModule} {tree : Option ItemsTree}

theorem ReadFrom.leading_eq (h : ReadFrom source file parsed tree) :
    parsed.comments.leading =
      (lex source).comments.filterMap (Reader.leadingEntry parsed.module file) := by
  rw [h.comments, Reader.foldl_attach]
  exact List.nil_append _

theorem ReadFrom.trailing_eq (h : ReadFrom source file parsed tree) :
    parsed.comments.trailing =
      (lex source).comments.filterMap (Reader.trailingEntry parsed.module file) := by
  rw [h.comments, Reader.foldl_attach]
  exact List.nil_append _

/-- A comment that counts as inside an item is not recorded. -/
theorem ReadFrom.not_recorded (h : ReadFrom source file parsed tree) {l : Lexeme}
    (hComment : l ∈ (lex source).comments)
    (hInside : Reader.attachment parsed.module.body l.start.offset l.stop.offset = .inside) :
    Reader.commentOf file l ∉ parsed.comments.recorded := by
  intro hRecorded
  have hEntry : ∃ l' ∈ (lex source).comments, ∃ e : Int × Comment,
      e.2 = Reader.commentOf file l ∧ (Reader.leadingEntry parsed.module file l' = some e ∨
        Reader.trailingEntry parsed.module file l' = some e) := by
    rcases List.mem_append.mp hRecorded with hMem | hMem
    · obtain ⟨e, he, hSame⟩ := List.mem_map.mp hMem
      rw [h.leading_eq] at he
      obtain ⟨l', hl', hEntry⟩ := List.mem_filterMap.mp he
      exact ⟨l', hl', e, hSame, .inl hEntry⟩
    · obtain ⟨e, he, hSame⟩ := List.mem_map.mp hMem
      rw [h.trailing_eq] at he
      obtain ⟨l', hl', hEntry⟩ := List.mem_filterMap.mp he
      exact ⟨l', hl', e, hSame, .inr hEntry⟩
  obtain ⟨l', hl', e, hSame, hEntry⟩ := hEntry
  obtain ⟨hComment', hNot⟩ := Reader.comment_of_entry hEntry
  obtain rfl := eq_of_commentOf hl' hComment (hComment'.symm.trans hSame)
  exact hNot hInside

theorem ReadFrom.count_recorded (h : ReadFrom source file parsed tree) {c : Comment}
    (hMem : c ∈ parsed.comments.recorded) : parsed.comments.recorded.count c = 1 := by
  have hLine := inLine_commentOf file (tiling_lex source) Lexeme.isComment
  have hOrdered := h.filed_lexemes.recorded_ordered h.laidOut hLine
  have hNodup : parsed.comments.recorded.Nodup := by
    refine hOrdered.imp_of_mem ?_
    rintro a _ ha _ hPrecedes rfl
    obtain ⟨lo, hi, hLo, hHi, hFilled⟩ := hLine.placed a (h.filed_lexemes.mem_comments ha)
    rw [Comment.Precedes, hLo, hHi] at hPrecedes
    have hPrecedes' : hi ≤ lo := hPrecedes
    omega
  exact List.count_eq_one_of_mem hNodup hMem

/-- The first element with a property is where a list is split. -/
theorem eq_of_first_splits {α : Type} {P : α → Prop} {xs ys us vs : List α} {a b : α}
    (h : xs ++ a :: ys = us ++ b :: vs) (hxs : ∀ x ∈ xs, ¬ P x) (hus : ∀ u ∈ us, ¬ P u)
    (ha : P a) (hb : P b) : a = b := by
  induction xs generalizing us with
  | nil =>
    cases us with
    | nil => exact (List.cons.inj h).1
    | cons u us =>
      obtain ⟨rfl, _⟩ := List.cons.inj h
      exact absurd ha (hus a List.mem_cons_self)
  | cons x xs ih =>
    cases us with
    | nil =>
      obtain ⟨rfl, _⟩ := List.cons.inj h
      exact absurd hb (hxs x List.mem_cons_self)
    | cons u us =>
      obtain ⟨rfl, hTail⟩ := List.cons.inj h
      exact ih hTail (fun y hy => hxs y (List.mem_cons_of_mem _ hy))
        fun y hy => hus y (List.mem_cons_of_mem _ hy)

/-- A comment that does not count as inside an item is recorded where it belongs. -/
theorem ReadFrom.recordedIn (h : ReadFrom source file parsed tree) {l : Lexeme}
    (hComment : l ∈ (lex source).comments)
    (hNot : Reader.attachment parsed.module.body l.start.offset l.stop.offset ≠ .inside) :
    (Reader.commentOf file l).RecordedIn parsed.module parsed.comments := by
  have hFilled : (l.start.offset : Int) < l.stop.offset :=
    Int.ofNat_lt.mpr ((tiling_lex source).ordered.1 l (List.mem_filter.mp hComment).1).2
  have hNext := (attachment_sound h.laidOut _ _).nextAt h.laidOut hFilled hNot
  have hLo : parsed.module.span.lo = some 0 := by rw [h.span]; rfl
  have hHi : parsed.module.span.hi = some (source.length : Int) := by rw [h.span]; rfl
  have hEnds : ∀ i, UpTo (some (l.stop.offset : Int)) i.span.lo ↔
      (Reader.commentOf file l).EndsBefore i := by
    intro i
    rw [Comment.EndsBefore, (commentOf_span file l).2]
  have hLeading : ∀ pos, Reader.leadingEntry parsed.module file l =
      some (pos, Reader.commentOf file l) →
      (pos, Reader.commentOf file l) ∈ parsed.comments.leading := by
    intro pos hEntry
    rw [h.leading_eq]
    exact List.mem_filterMap.mpr ⟨l, hComment, hEntry⟩
  generalize hAt : Reader.attachment parsed.module.body l.start.offset l.stop.offset = answer
    at hNext
  cases hNext with
  | first i rest hItems hNext =>
    have hEntry := hLeading 0 (by simp [Reader.leadingEntry, hAt, hLo])
    rw [hEnds] at hNext
    refine ⟨h.count_recorded (List.mem_append_left _ (List.mem_map_of_mem hEntry)), ?_, ?_, ?_⟩
    · intro _ _ _
      rw [hLo]
      exact mem_get_iff.mpr hEntry
    · intro before j after hSplit hSome hNone _
      obtain ⟨k, before, rfl⟩ := List.exists_cons_of_ne_nil hSome
      obtain ⟨rfl, _⟩ := List.cons.inj (hItems.symm.trans hSplit)
      exact absurd hNext (hNone i List.mem_cons_self)
    · intro hNone
      exact absurd hNext (hNone i (by simp [hItems]))
  | before xs ys b pos hItems hSome hPassed hPos hNext =>
    have hEntry := hLeading pos (by simp [Reader.leadingEntry, hAt])
    have hNext' : (Reader.commentOf file l).EndsBefore b := by
      rw [← hEnds, hPos]
      exact hNext
    simp only [hEnds] at hPassed
    refine ⟨h.count_recorded (List.mem_append_left _ (List.mem_map_of_mem hEntry)), ?_, ?_, ?_⟩
    · intro i hi hHere
      rw [hItems, List.head?_append_of_ne_nil _ hSome] at hi
      exact absurd hHere (hPassed i (List.mem_of_mem_head? hi))
    · intro before i after hSplit _ hNone hHere
      obtain rfl := eq_of_first_splits (hSplit.symm.trans hItems) hNone hPassed hHere hNext'
      rw [hPos]
      exact mem_get_iff.mpr hEntry
    · intro hNone
      exact absurd hNext' (hNone b (by simp [hItems]))
  | trailing hPassed =>
    have hEntry : ((source.length : Int), Reader.commentOf file l) ∈ parsed.comments.trailing := by
      rw [h.trailing_eq]
      exact List.mem_filterMap.mpr ⟨l, hComment, by simp [Reader.trailingEntry, hAt, hHi]⟩
    simp only [hEnds] at hPassed
    refine ⟨h.count_recorded (List.mem_append_right _ (List.mem_map_of_mem hEntry)), ?_, ?_, ?_⟩
    · intro i hi hHere
      exact absurd hHere (hPassed i (List.mem_of_mem_head? hi))
    · intro before i after hSplit _ _ hHere
      exact absurd hHere (hPassed i (by simp [hSplit]))
    · intro _
      rw [hHi]
      exact mem_get_iff.mpr hEntry

end Recorded

/-- A comment of a source that is read is recorded, once and where it belongs, exactly when it
stands neither between two written tokens of an item nor between the last of them and the terminator
inserted after it; and a comment that is not recorded so is not recorded at all. -/
theorem comment_recorded_iff {source : Text} {file : Option Text} {parsed : ParsedModule}
    (hRead : parseModule source file = .ok parsed) {l : Lexeme}
    (hComment : l ∈ (lex source).comments) :
    ((Reader.commentOf file l).RecordedIn parsed.module parsed.comments ↔
        ∀ ts ∈ itemTokens source, ¬ l.LiesIn ts ∧ ¬ l.LiesBeforeEnd ts) ∧
      (Reader.commentOf file l ∈ parsed.comments.recorded →
        (Reader.commentOf file l).RecordedIn parsed.module parsed.comments) := by
  obtain ⟨tree, h⟩ := parseModule_eq_ok hRead
  have hInside := inside_iff h hComment
  have hRecorded : Reader.commentOf file l ∈ parsed.comments.recorded →
      Reader.attachment parsed.module.body l.start.offset l.stop.offset ≠ .inside :=
    fun hMem hAt => h.not_recorded hComment hAt hMem
  refine ⟨⟨?_, ?_⟩, fun hMem => h.recordedIn hComment (hRecorded hMem)⟩
  · intro hIn ts hts
    have hMem : Reader.commentOf file l ∈ parsed.comments.recorded :=
      List.count_pos_iff.mp (by rw [hIn.once]; exact Nat.one_pos)
    have hNone := mt hInside.mpr (hRecorded hMem)
    exact not_or.mp fun hLies => hNone ⟨ts, hts, hLies⟩
  · intro hNone
    refine h.recordedIn hComment fun hAt => ?_
    obtain ⟨ts, hts, hLies⟩ := hInside.mp hAt
    exact hLies.elim (hNone ts hts).1 (hNone ts hts).2

set_option maxRecDepth 100000 in
/-- A comment at the end of a line is recorded when a semicolon ends the item before it, and lost
when the line feed does. -/
theorem comment_at_line_end_with_and_without_semicolon :
    (∃ parsed l, parseModule "a; // c\nb" none = .ok parsed ∧ (lex "a; // c\nb").comments = [l] ∧
      (Reader.commentOf none l).RecordedIn parsed.module parsed.comments) ∧
    ∃ parsed l, parseModule "a // c\nb" none = .ok parsed ∧ (lex "a // c\nb").comments = [l] ∧
      (∀ ts ∈ itemTokens "a // c\nb", ¬ l.LiesIn ts) ∧
      ¬ (Reader.commentOf none l).RecordedIn parsed.module parsed.comments := by
  have hLexed : (lex "a; // c\nb").comments =
      [⟨.lineComment, "// c", ⟨3, 1, 4⟩, ⟨7, 1, 8⟩⟩] := by decide +kernel
  have hLexed' : (lex "a // c\nb").comments =
      [⟨.lineComment, "// c", ⟨2, 1, 3⟩, ⟨6, 1, 7⟩⟩] := by decide +kernel
  generalize hLine : (⟨.lineComment, "// c", ⟨3, 1, 4⟩, ⟨7, 1, 8⟩⟩ : Lexeme) = l at hLexed
  generalize hLine' : (⟨.lineComment, "// c", ⟨2, 1, 3⟩, ⟨6, 1, 7⟩⟩ : Lexeme) = l' at hLexed'
  have hReads : readsFrom "a; // c\nb" (fun tree _ => decide
        (∀ ts ∈ tree.phrases isItem, ¬ l.LiesIn ts ∧ ¬ l.LiesBeforeEnd ts)) = true ∧
      readsFrom "a // c\nb" (fun tree _ => decide ((∀ ts ∈ tree.phrases isItem, ¬ l'.LiesIn ts) ∧
        ¬ ∀ ts ∈ tree.phrases isItem, ¬ l'.LiesIn ts ∧ ¬ l'.LiesBeforeEnd ts)) = true := by
    rw [← hLine, ← hLine']
    decide +kernel
  obtain ⟨parsed, tree, hRead, hTree, hNone⟩ := exists_of_readsFrom hReads.1
  obtain ⟨parsed', tree', hRead', hTree', hSome⟩ := exists_of_readsFrom hReads.2
  have hFound := comment_recorded_iff hRead (hLexed ▸ List.mem_singleton_self l)
  have hLost := comment_recorded_iff hRead' (hLexed' ▸ List.mem_singleton_self l')
  rw [itemTokens, hTree] at hFound
  rw [itemTokens, hTree'] at hLost ⊢
  obtain ⟨hOut, hSome⟩ := of_decide_eq_true hSome
  exact ⟨⟨parsed, l, hRead, hLexed, hFound.1.mpr (of_decide_eq_true hNone)⟩,
    parsed', l', hRead', hLexed', hOut, fun h => hSome (hLost.1.mp h)⟩

end ClientBoundary
