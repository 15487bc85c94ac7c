import ClientBoundary.Proofs.Column

/-!
# Charts hold what is under way

`Item shape start w n α k i j` says, without any chart, that after `j` terminals of `w` a phrase of
category `n` may be under way that began at `i`, of which the first `k` symbols of the alternative
`α` have been read. The chart made from `w` holds exactly these items (`Represents`), from the
empty input on (`represents_start`) and after each further terminal (`represents_next`); a terminal
is refused exactly when no item waits for it (`next_eq_none_iff`).

The step is the heart of it. Soundness follows the three operations of a step one by one.
Completeness is by induction on the item: one that ends at the new position was scanned, and is then
in the column that completion starts from, or completed, and completion leaves no move undone, or
begun, and the layout knows the categories that begin with each other.
-/

namespace ClientBoundary.Grammar

open Column (Has Sorted Below)

variable {N : Type}

-- ---------------------------------------------------------------------------------------------
-- Items
-- ---------------------------------------------------------------------------------------------

/-- A phrase under way: after `j` terminals of `w`, the first `k` symbols of the alternative `α`
of `n` have been read from position `i` on, where a phrase of category `n` was wanted. -/
inductive Item (shape : N → List (List (Symbol N))) (start : N) (w : List Terminal) :
    N → List (Symbol N) → (k i j : Nat) → Prop where
  | start {α : List (Symbol N)} (hα : α ∈ shape start) : Item shape start w start α 0 0 0
  | predict {m n : N} {β α : List (Symbol N)} {k i j : Nat} (h : Item shape start w m β k i j)
      (hNext : β[k]? = some (.cat n)) (hα : α ∈ shape n) : Item shape start w n α 0 j j
  | scan {n : N} {α : List (Symbol N)} {k i j : Nat} {t : Terminal}
      (h : Item shape start w n α k i j) (hNext : α[k]? = some (.tok t))
      (hToken : w[j]? = some t) : Item shape start w n α (k + 1) i (j + 1)
  | complete {m n : N} {β α : List (Symbol N)} {k i j l : Nat}
      (h : Item shape start w m β k i j) (hNext : β[k]? = some (.cat n))
      (hDone : Item shape start w n α α.length j l) : Item shape start w m β (k + 1) i l

/-- A phrase of category `n` is wanted after `j` terminals. -/
def Wanted (shape : N → List (List (Symbol N))) (start : N) (w : List Terminal) (n : N) (j : Nat) :
    Prop :=
  (n = start ∧ j = 0) ∨
    ∃ m β k i, Item shape start w m β k i j ∧ β[k]? = some (.cat n)

section Items

variable {shape : N → List (List (Symbol N))} {start : N} {w : List Terminal} {n : N}
  {α : List (Symbol N)} {k i j : Nat}

theorem Item.mem (h : Item shape start w n α k i j) : α ∈ shape n := by
  induction h with
  | start hα => exact hα
  | predict _ _ hα => exact hα
  | scan _ _ _ ih => exact ih
  | complete _ _ _ ih _ => exact ih

theorem Item.le_length (h : Item shape start w n α k i j) : k ≤ α.length := by
  cases h with
  | start => exact Nat.zero_le _
  | predict => exact Nat.zero_le _
  | scan _ hNext => exact (List.getElem?_eq_some_iff.mp hNext).1
  | complete _ hNext => exact (List.getElem?_eq_some_iff.mp hNext).1

/-- No alternative being empty, an item has read something exactly when its mark has moved. -/
theorem Item.span (hFilled : ∀ n, [] ∉ shape n) (h : Item shape start w n α k i j) :
    (k = 0 ∧ i = j) ∨ (0 < k ∧ i < j) := by
  induction h with
  | start => exact .inl ⟨rfl, rfl⟩
  | predict => exact .inl ⟨rfl, rfl⟩
  | scan _ _ _ ih => exact .inr ⟨Nat.succ_pos _, by omega⟩
  | @complete m n β α k i j l _ _ hDone ih ihDone =>
    have hPos : 0 < α.length := by
      rw [List.length_pos_iff]
      rintro rfl
      exact hFilled n hDone.mem
    exact .inr ⟨Nat.succ_pos _, by omega⟩

theorem Item.stop_le (h : Item shape start w n α k i j) : j ≤ w.length := by
  induction h with
  | start => exact Nat.zero_le _
  | predict _ _ _ ih => exact ih
  | scan _ _ hToken _ => exact (List.getElem?_eq_some_iff.mp hToken).1
  | complete _ _ _ _ ih => exact ih

/-- An item depends on the terminals before its end only. -/
theorem Item.congr (hFilled : ∀ n, [] ∉ shape n) {w' : List Terminal}
    (h : Item shape start w n α k i j) (hEq : ∀ p < j, w'[p]? = w[p]?) :
    Item shape start w' n α k i j := by
  induction h with
  | start hα => exact .start hα
  | predict _ hNext hα ih => exact .predict (ih hEq) hNext hα
  | scan _ hNext hToken ih =>
    refine .scan (ih fun p hp => hEq p (by omega)) hNext ?_
    rw [hEq _ (by omega), hToken]
  | complete _ hNext hDone ih ihDone =>
    have := hDone.span hFilled
    exact .complete (ih fun p hp => hEq p (by omega)) hNext (ihDone hEq)

theorem Item.of_wanted (h : Wanted shape start w n j) (hα : α ∈ shape n) :
    Item shape start w n α 0 j j := by
  rcases h with ⟨rfl, rfl⟩ | ⟨m, β, k, i, hItem, hNext⟩
  · exact .start hα
  · exact .predict hItem hNext hα

theorem Item.wanted (h : Item shape start w n α 0 i j) : Wanted shape start w n j := by
  cases h with
  | start => exact .inl ⟨rfl, rfl⟩
  | predict hItem hNext => exact .inr ⟨_, _, _, _, hItem, hNext⟩

end Items

-- ---------------------------------------------------------------------------------------------
-- Charts
-- ---------------------------------------------------------------------------------------------

/-- The chart holds exactly the items of the terminals `w`. -/
structure Represents (shape : N → List (List (Symbol N))) (start : N) (entries : List (Entry N))
    (chart : Chart) (w : List Terminal) : Prop where
  size : chart.size = w.length + 1
  sorted : ∀ j, Sorted (chart.getD j []) ∧ Below (chart.getD j []) (j + 1)
  has : ∀ i j b, Has (chart.getD j []) i b ↔
    ∃ e k, Slot entries b e k ∧ Item shape start w e.category e.symbols k i j

section Charts

variable {shape : N → List (List (Symbol N))} {L : Layout N} {entries : List (Entry N)}
  {start : N} {chart : Chart} {w : List Terminal}

theorem Represents.slots (h : Represents shape start entries chart w) (i j b : Nat) :
    chart.has i j b = true ↔
      ∃ e k, Slot entries b e k ∧ Item shape start w e.category e.symbols k i j := by
  rw [Chart.has, Chart.slots, Column.testBit_slotsFrom (h.sorted j).1, h.has]

theorem Represents.newest (h : Represents shape start entries chart w) :
    chart.newest = chart.getD w.length [] := by
  rw [Chart.newest, h.size, Nat.add_sub_cancel]

/-- The categories wanted at a position include those that their alternatives begin with. -/
theorem Wanted.reach (hL : LayoutFacts shape L entries) {m n : N} {j : Nat}
    (h : Wanted shape start w m j) (hReach : Relation.ReflTransGen (Corner entries) m n) :
    Wanted shape start w n j := by
  induction hReach with
  | refl => exact h
  | tail _ hCorner ih =>
    obtain ⟨e, he, rfl, hHead⟩ := hCorner
    rw [List.head?_eq_getElem?] at hHead
    exact .inr ⟨_, _, _, _, .of_wanted ih (hL.shape_of_mem e he), hHead⟩

/-- What begins where a category is wanted is under way there. -/
theorem item_of_begins (hL : LayoutFacts shape L entries) {n : N} {j b : Nat}
    (h : Wanted shape start w n j) (hb : (L.begins n).testBit b = true) :
    ∃ e k, Slot entries b e k ∧ Item shape start w e.category e.symbols k j j := by
  obtain ⟨m, e, hReach, hSlot, rfl⟩ := (hL.begins n b).mp hb
  exact ⟨e, 0, hSlot, .of_wanted (h.reach hL hReach) (hL.shape_of_mem e hSlot.mem)⟩

/-- A phrase of category `n` is wanted after `j` terminals by an item that has read something, or
from the start. -/
def WantedNow (shape : N → List (List (Symbol N))) (start : N) (w : List Terminal) (n : N)
    (j : Nat) : Prop :=
  (n = start ∧ j = 0) ∨
    ∃ m β k i, 0 < k ∧ Item shape start w m β k i j ∧ β[k]? = some (.cat n)

/-- What is begun goes back, through first symbols, to a category that is wanted from outside. -/
theorem Item.begun (hL : LayoutFacts shape L entries) {n : N} {α : List (Symbol N)} {i j : Nat}
    (h : Item shape start w n α 0 i j) :
    ∃ m, WantedNow shape start w m j ∧ Relation.ReflTransGen (Corner entries) m n := by
  generalize hk : 0 = k at h
  induction h with
  | start => exact ⟨start, .inl ⟨rfl, rfl⟩, .refl⟩
  | @predict m n β α k i j hItem hNext _ ih =>
    by_cases hk : k = 0
    · subst hk
      obtain ⟨r, hRoot, hReach⟩ := ih rfl
      obtain ⟨e, he, hCat, hSymbols⟩ := hL.exists_mem m β hItem.mem
      refine ⟨r, hRoot, hReach.tail ⟨e, he, hCat, ?_⟩⟩
      rw [hSymbols, List.head?_eq_getElem?, hNext]
    · exact ⟨n, .inr ⟨m, β, k, i, Nat.pos_of_ne_zero hk, hItem, hNext⟩, .refl⟩
  | scan => cases hk
  | complete => cases hk

/-- The chart before the first terminal. -/
theorem represents_start (hL : LayoutFacts shape L entries) :
    Represents shape start entries (Chart.start L start) [] := by
  have hColumn : ∀ j, (Chart.start L start).getD j [] =
      if j = 0 then [(0, L.begins start)] else [] := by
    intro j
    cases j <;> rfl
  refine ⟨rfl, fun j => ?_, fun i j b => ?_⟩
  · rw [hColumn]
    split
    · exact ⟨List.pairwise_singleton _ _, by simp [Below]⟩
    · exact ⟨List.Pairwise.nil, List.forall_mem_nil _⟩
  · rw [hColumn]
    constructor
    · intro h
      split at h
      · rename_i hj
        subst hj
        rw [Column.has_cons] at h
        rcases h with ⟨rfl, hb⟩ | h
        · exact item_of_begins hL (.inl ⟨rfl, rfl⟩) hb
        · exact absurd h (Column.not_has_nil i b)
      · exact absurd h (Column.not_has_nil i b)
    · rintro ⟨e, k, hSlot, hItem⟩
      obtain rfl : j = 0 := Nat.le_zero.mp hItem.stop_le
      have hSpan := hItem.span hL.filled
      obtain ⟨rfl, rfl⟩ : k = 0 ∧ i = 0 := by omega
      obtain ⟨m, hRoot, hReach⟩ := hItem.begun hL
      -- nothing has been read yet, so only the start is wanted from outside
      rcases hRoot with ⟨rfl, _⟩ | ⟨_, _, k, _, hk, hOther, _⟩
      · rw [if_pos rfl, Column.has_cons]
        exact .inl ⟨rfl, (hL.begins m b).mpr ⟨e.category, e, hReach, hSlot, rfl⟩⟩
      · have := hOther.span hL.filled
        omega

-- ---------------------------------------------------------------------------------------------
-- One more terminal
-- ---------------------------------------------------------------------------------------------

section Step

variable {t : Terminal} {done : Column}

/-- The column of the items that have moved over the last terminal or over a category that ended
with it: all but those that are only begun. -/
structure Moved (shape : N → List (List (Symbol N))) (start : N) (entries : List (Entry N))
    (w : List Terminal) (t : Terminal) (done : Column) : Prop where
  sorted : Sorted done
  below : Below done (w.length + 1)
  sound : ∀ i b, Has done i b →
    ∃ e k, Slot entries b e k ∧ Item shape start (w ++ [t]) e.category e.symbols k i (w.length + 1)
  complete : ∀ n α k i, Item shape start (w ++ [t]) n α k i (w.length + 1) → 0 < k →
    ∀ e ∈ entries, e.category = n → e.symbols = α → Has done i (e.base + k)

theorem getElem?_append_of_lt {w : List Terminal} {t : Terminal} {j : Nat} (hj : j ≤ w.length) :
    ∀ p < j, (w ++ [t])[p]? = w[p]? := by
  intro p hp
  exact List.getElem?_append_left (by omega)

/-- The items of a chart stay under way when the input goes on. -/
theorem Item.extend (hL : LayoutFacts shape L entries) {n : N} {α : List (Symbol N)} {k i j : Nat}
    (h : Item shape start w n α k i j) (t : Terminal) :
    Item shape start (w ++ [t]) n α k i j :=
  h.congr hL.filled (getElem?_append_of_lt h.stop_le)

/-- The items of a longer input that end before its last terminal. -/
theorem Item.restrict (hL : LayoutFacts shape L entries) {n : N} {α : List (Symbol N)}
    {k i j : Nat} (h : Item shape start (w ++ [t]) n α k i j) (hj : j ≤ w.length) :
    Item shape start w n α k i j :=
  h.congr hL.filled fun p hp => (getElem?_append_of_lt hj p hp).symm

/-- Begun slots are all that a column holds at its own position. -/
theorem Represents.begun (hL : LayoutFacts shape L entries)
    (h : Represents shape start entries chart w) (i a : Nat) (hHas : Has (chart.getD i []) i a) :
    ∃ e, Slot entries a e 0 := by
  obtain ⟨e, k, hSlot, hItem⟩ := (h.has i i a).mp hHas
  have hSpan := hItem.span hL.filled
  obtain rfl : k = 0 := by omega
  exact ⟨e, hSlot⟩

theorem moved_complete (hL : LayoutFacts shape L entries)
    (h : Represents shape start entries chart w) (t : Terminal) :
    Moved shape start entries w t
      (Column.complete L chart chart.size (chart.newest.advance (L.awaitsToken t))) := by
  have hNewest := h.sorted w.length
  rw [h.newest]
  have hAdvance : Sorted ((chart.getD w.length []).advance (L.awaitsToken t)) :=
    Column.sorted_advance hNewest.1
  have hBelow : Below ((chart.getD w.length []).advance (L.awaitsToken t)) (w.length + 1) :=
    Column.below_advance hNewest.2
  have hShape : Sorted (Column.complete L chart chart.size _) ∧ Below _ (w.length + 1) :=
    Column.sorted_complete h.sorted hAdvance hBelow
  refine ⟨hShape.1, hShape.2, ?_, ?_⟩
  · intro i b hHas
    refine Column.of_has_complete (P := fun i b => ∃ e k, Slot entries b e k ∧
      Item shape start (w ++ [t]) e.category e.symbols k i (w.length + 1)) ?_ ?_ hHas
    · -- a move over a category that has ended
      rintro i r hr a k b ⟨f, l, hSlot, hItem⟩ hEnds hMove
      obtain ⟨n, rfl⟩ := hL.exists_slotsOf hr
      obtain ⟨c, rfl, hOrigin, hAwaits⟩ := (Column.has_advance _ _ _ _).mp hMove
      obtain ⟨e, q, hSlot', hItem'⟩ := (h.has k i c).mp hOrigin
      obtain ⟨e', q', hAt, hNext⟩ := (hL.awaits n c).mp hAwaits
      obtain ⟨rfl, rfl⟩ := hL.unique hSlot' hAt
      obtain ⟨f', hEnd, rfl⟩ := (hL.ends n a).mp hEnds
      obtain ⟨rfl, rfl⟩ := hL.unique hSlot hEnd
      refine ⟨e, q + 1, ⟨hAt.mem, (List.getElem?_eq_some_iff.mp hNext).1, ?_⟩, ?_⟩
      · rw [hAt.eq, Nat.add_assoc]
      · exact .complete (hItem'.extend hL t) hNext hItem
    · -- a move over the terminal
      intro i b hMove
      obtain ⟨c, rfl, hOrigin, hAwaits⟩ := (Column.has_advance _ _ _ _).mp hMove
      obtain ⟨e, q, hSlot, hItem⟩ := (h.has i w.length c).mp hOrigin
      obtain ⟨e', q', hAt, hNext⟩ := (hL.awaitsToken t c).mp hAwaits
      obtain ⟨rfl, rfl⟩ := hL.unique hSlot hAt
      refine ⟨e, q + 1, ⟨hAt.mem, (List.getElem?_eq_some_iff.mp hNext).1, ?_⟩, ?_⟩
      · rw [hAt.eq, Nat.add_assoc]
      · exact .scan (hItem.extend hL t) hNext List.getElem?_concat_length
  · intro n α k i hItem
    generalize hj : w.length + 1 = j at hItem
    induction hItem with
    | start => omega
    | predict => intro hk; omega
    | @scan n α k i j t' hItem hNext hToken =>
      intro _ e he hCat hSymbols
      obtain rfl : w.length = j := by omega
      have hEq : t' = t := by simpa using hToken.symm
      subst hEq
      refine Column.has_complete_of_has ((Column.has_advance _ _ _ _).mpr
        ⟨e.base + k, rfl, ?_, ?_⟩)
      · have hOld := hItem.restrict hL (Nat.le_refl _)
        rw [h.has]
        subst hCat
        subst hSymbols
        exact ⟨e, k, ⟨he, hOld.le_length, rfl⟩, hOld⟩
      · rw [hL.awaitsToken]
        subst hSymbols
        exact ⟨e, k, ⟨he, hItem.le_length, rfl⟩, hNext⟩
    | @complete m n β α k i j l hItem hNext hDone _ ihDone =>
      intro _ e he hCat hSymbols
      obtain ⟨f, hf, hfCat, hfSymbols⟩ := hL.exists_mem n α hDone.mem
      have hPos : 0 < α.length := by
        rw [List.length_pos_iff]
        rintro rfl
        exact hL.filled n hDone.mem
      have hSpan := hDone.span hL.filled
      have hEnded := ihDone hj hPos f hf hfCat hfSymbols
      refine Column.complete_closed hL h.sorted (h.begun hL) hAdvance ?_ hEnded (n := n) ?_ ?_
      · rw [h.size]
        exact hBelow
      · rw [hL.ends]
        exact ⟨f, ⟨hf, Nat.le_refl _, by rw [hfSymbols]⟩, hfCat⟩
      · refine (Column.has_advance _ _ _ _).mpr ⟨e.base + k, rfl, ?_, ?_⟩
        · have hOld := hItem.restrict hL (by omega)
          rw [h.has]
          subst hCat
          subst hSymbols
          exact ⟨e, k, ⟨he, hOld.le_length, rfl⟩, hOld⟩
        · rw [hL.awaits]
          subst hSymbols
          exact ⟨e, k, ⟨he, hItem.le_length, rfl⟩, hNext⟩

/-- What is wanted at the new position is predicted there. -/
theorem testBit_predict_moved (hL : LayoutFacts shape L entries)
    (hDone : Moved shape start entries w t done) (b : Nat) :
    (Column.predict L done).testBit b = true ↔
      ∃ e, Slot entries b e 0 ∧
        Item shape start (w ++ [t]) e.category e.symbols 0 (w.length + 1) (w.length + 1) := by
  rw [Column.testBit_predict hL]
  constructor
  · rintro ⟨n, i, a, hHas, hAwaits, hb⟩
    obtain ⟨e, k, hSlot, hItem⟩ := hDone.sound i a hHas
    obtain ⟨e', k', hAt, hNext⟩ := (hL.awaits n a).mp hAwaits
    obtain ⟨rfl, rfl⟩ := hL.unique hSlot hAt
    have hWanted : Wanted shape start (w ++ [t]) n (w.length + 1) :=
      .inr ⟨_, _, _, _, hItem, hNext⟩
    obtain ⟨f, q, hFirst, hBegun⟩ := item_of_begins hL hWanted hb
    have hSpan := hBegun.span hL.filled
    obtain rfl : q = 0 := by omega
    exact ⟨f, hFirst, hBegun⟩
  · rintro ⟨e, hSlot, hItem⟩
    obtain ⟨m, hRoot, hReach⟩ := hItem.begun hL
    rcases hRoot with ⟨_, hZero⟩ | ⟨n, β, k, i, hk, hOuter, hNext⟩
    · omega
    · obtain ⟨f, hf, rfl, rfl⟩ := hL.exists_mem n β hOuter.mem
      refine ⟨m, i, f.base + k, hDone.complete _ _ k i hOuter hk f hf rfl rfl, ?_, ?_⟩
      · exact (hL.awaits m _).mpr ⟨f, k, ⟨hf, hOuter.le_length, rfl⟩, hNext⟩
      · exact (hL.begins m b).mpr ⟨e.category, e, hReach, hSlot, rfl⟩

/-- The whole column of the new position. -/
theorem has_column_iff (hL : LayoutFacts shape L entries)
    (hDone : Moved shape start entries w t done) (i b : Nat) :
    Has ((w.length + 1, Column.predict L done) :: done) i b ↔
      ∃ e k, Slot entries b e k ∧
        Item shape start (w ++ [t]) e.category e.symbols k i (w.length + 1) := by
  rw [Column.has_cons, testBit_predict_moved hL hDone]
  constructor
  · rintro (⟨rfl, e, hSlot, hItem⟩ | hHas)
    · exact ⟨e, 0, hSlot, hItem⟩
    · exact hDone.sound i b hHas
  · rintro ⟨e, k, hSlot, hItem⟩
    rcases hItem.span hL.filled with ⟨rfl, rfl⟩ | ⟨hk, _⟩
    · exact .inl ⟨rfl, e, hSlot, hItem⟩
    · rw [hSlot.eq]
      exact .inr (hDone.complete _ _ k i hItem hk e hSlot.mem rfl rfl)

theorem getD_push (chart : Chart) (c : Column) (j : Nat) :
    (chart.push c).getD j [] = if j = chart.size then c else chart.getD j [] := by
  simp only [Array.getD_eq_getD_getElem?, Array.getElem?_push]
  split <;> simp

/-- The column of a terminal that is not refused. -/
theorem next_eq_some {c : Column} (hNext : chart.next L t = some c) :
    c = (chart.size, Column.predict L
        (Column.complete L chart chart.size (chart.newest.advance (L.awaitsToken t)))) ::
      Column.complete L chart chart.size (chart.newest.advance (L.awaitsToken t)) := by
  unfold Chart.next at hNext
  split at hNext
  · cases hNext
  · cases hNext
    rfl

/-- One more terminal: the chart holds the items of the longer input. -/
theorem represents_next (hL : LayoutFacts shape L entries)
    (h : Represents shape start entries chart w) {c : Column}
    (hNext : chart.next L t = some c) :
    Represents shape start entries (chart.push c) (w ++ [t]) := by
  have hDone := moved_complete hL h t
  have hColumn := next_eq_some hNext
  rw [h.size] at hColumn hDone
  refine ⟨?_, fun j => ?_, fun i j b => ?_⟩
  · rw [Array.size_push, h.size, List.length_append, List.length_singleton]
  · rw [getD_push]
    split
    · rename_i hj
      rw [hColumn, hj, h.size]
      exact ⟨Column.sorted_cons.mpr ⟨hDone.below, hDone.sorted⟩,
        Column.below_cons.mpr ⟨Nat.lt_succ_self _, hDone.below.mono (Nat.le_succ _)⟩⟩
    · exact h.sorted j
  · rw [getD_push]
    split
    · rename_i hj
      rw [hColumn, hj, h.size]
      exact has_column_iff hL hDone i b
    · rename_i hj
      rw [h.size] at hj
      rw [h.has]
      constructor
      · rintro ⟨e, k, hSlot, hItem⟩
        exact ⟨e, k, hSlot, hItem.extend hL t⟩
      · rintro ⟨e, k, hSlot, hItem⟩
        have hStop := hItem.stop_le
        rw [List.length_append, List.length_singleton] at hStop
        exact ⟨e, k, hSlot, hItem.restrict hL (by omega)⟩

/-- A terminal is refused exactly when no item waits for it. -/
theorem next_eq_none_iff (hL : LayoutFacts shape L entries)
    (h : Represents shape start entries chart w) (t : Terminal) :
    chart.next L t = none ↔
      ¬ ∃ n α k i, Item shape start w n α k i w.length ∧ α[k]? = some (.tok t) := by
  have hEmpty : chart.next L t = none ↔ chart.newest.advance (L.awaitsToken t) = [] := by
    unfold Chart.next
    split
    · rename_i hNil
      exact ⟨fun _ => hNil, fun _ => rfl⟩
    · rename_i hNil
      exact ⟨nofun, fun h => absurd h hNil⟩
  rw [hEmpty, h.newest]
  constructor
  · rintro hNil ⟨n, α, k, i, hItem, hNext⟩
    obtain ⟨e, he, rfl, rfl⟩ := hL.exists_mem n α hItem.mem
    have hSlot : Slot entries (e.base + k) e k := ⟨he, hItem.le_length, rfl⟩
    have hMoved : Has ((chart.getD w.length []).advance (L.awaitsToken t)) i (e.base + k + 1) :=
      (Column.has_advance _ _ _ _).mpr ⟨_, rfl, (h.has _ _ _).mpr ⟨e, k, hSlot, hItem⟩,
        (hL.awaitsToken t _).mpr ⟨e, k, hSlot, hNext⟩⟩
    rw [hNil] at hMoved
    exact Column.not_has_nil _ _ hMoved
  · intro hNone
    rw [List.eq_nil_iff_forall_not_mem]
    rintro ⟨i, m⟩ hm
    obtain ⟨l, hl, hEq, hNe⟩ := Column.mem_advance.mp hm
    dsimp only at hl hEq hNe
    have hCommon : l &&& L.awaitsToken t ≠ 0 := by
      intro hZero
      rw [hZero, Nat.zero_shiftLeft] at hEq
      exact hNe hEq
    obtain ⟨a, ha, hAwaits⟩ := land_ne_zero_iff.mp hCommon
    obtain ⟨e, k, hSlot, hItem⟩ := (h.has i w.length a).mp ⟨l, hl, ha⟩
    obtain ⟨e', k', hAt, hNext⟩ := (hL.awaitsToken t a).mp hAwaits
    obtain ⟨rfl, rfl⟩ := hL.unique hSlot hAt
    exact hNone ⟨_, _, _, _, hItem, hNext⟩

end Step

end Charts

end ClientBoundary.Grammar
