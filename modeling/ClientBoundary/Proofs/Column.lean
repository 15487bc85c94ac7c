import ClientBoundary.Proofs.Layout

/-!
# Columns as sets

A column lists, for each position, the slots begun there. `Column.Has c i b` says that slot `b`,
begun at `i`, is in the column, and `Column.Sorted c` that its positions descend, so that a
position is listed once. The operations on columns are described through these two:

* `has_merge`, `has_advance`, `testBit_union`, `testBit_predict` — one equivalence each.
* `has_of_complete` and `complete_closed` — moving marks over the categories that have ended adds
  nothing but what such a move gives, and afterwards no such move is left. The second rests on the
  order of the categories: one that is an alternative on its own is treated before the category
  that it ends.
-/

namespace ClientBoundary.Grammar

namespace Column

/-- The slot `b`, begun at `i`, is under way in the column. -/
def Has (c : Column) (i b : Nat) : Prop := ∃ m, (i, m) ∈ c ∧ m.testBit b = true

/-- The positions of the column descend. -/
def Sorted (c : Column) : Prop := c.Pairwise fun x y => y.1 < x.1

/-- All positions of the column lie below a bound. -/
def Below (c : Column) (bound : Nat) : Prop := ∀ x ∈ c, x.1 < bound

@[simp] theorem not_has_nil (i b : Nat) : ¬ Has [] i b := by
  rintro ⟨m, hm, _⟩
  cases hm

@[simp] theorem has_cons (k : Nat) (m : Bits) (c : Column) (i b : Nat) :
    Has ((k, m) :: c) i b ↔ (i = k ∧ m.testBit b = true) ∨ Has c i b := by
  constructor
  · rintro ⟨l, hl, hb⟩
    rcases List.mem_cons.mp hl with h | h
    · cases h
      exact .inl ⟨rfl, hb⟩
    · exact .inr ⟨l, h, hb⟩
  · rintro (⟨rfl, hb⟩ | ⟨l, hl, hb⟩)
    · exact ⟨m, List.mem_cons_self, hb⟩
    · exact ⟨l, List.mem_cons_of_mem _ hl, hb⟩

theorem Has.lt {c : Column} {bound i b : Nat} (h : Has c i b) (hBelow : Below c bound) :
    i < bound := by
  obtain ⟨m, hm, _⟩ := h
  exact hBelow _ hm

theorem sorted_cons {k : Nat} {m : Bits} {c : Column} :
    Sorted ((k, m) :: c) ↔ Below c k ∧ Sorted c := List.pairwise_cons

theorem below_cons {k : Nat} {m : Bits} {c : Column} {bound : Nat} :
    Below ((k, m) :: c) bound ↔ k < bound ∧ Below c bound := by
  rw [Below, Below, List.forall_mem_cons]

theorem Below.mono {c : Column} {a b : Nat} (h : Below c a) (hLe : a ≤ b) : Below c b :=
  fun x hx => Nat.lt_of_lt_of_le (h x hx) hLe

/-- In a sorted column the slots of a position are found together. -/
theorem testBit_slotsFrom {c : Column} (hSorted : Sorted c) (i b : Nat) :
    (c.slotsFrom i).testBit b = true ↔ Has c i b := by
  induction c with
  | nil => simp [slotsFrom]
  | cons x c ih =>
    obtain ⟨k, m⟩ := x
    obtain ⟨hBelow, hSorted⟩ := sorted_cons.mp hSorted
    rw [has_cons]
    by_cases hk : k = i
    · subst hk
      have hFind : slotsFrom ((k, m) :: c) k = m := by simp [slotsFrom]
      rw [hFind]
      constructor
      · exact fun h => .inl ⟨rfl, h⟩
      · rintro (h | h)
        · exact h.2
        · exact absurd (h.lt hBelow) (Nat.lt_irrefl k)
    · have hFind : slotsFrom ((k, m) :: c) i = slotsFrom c i := by simp [slotsFrom, hk]
      rw [hFind, ih hSorted]
      constructor
      · exact .inr
      · rintro (h | h)
        · exact absurd h.1.symm hk
        · exact h

theorem testBit_union (c : Column) (b : Nat) : c.union.testBit b = true ↔ ∃ i, Has c i b := by
  rw [union, Grammar.testBit_union]
  constructor
  · rintro ⟨_, hMem, hb⟩
    obtain ⟨⟨i, m⟩, hm, rfl⟩ := List.mem_map.mp hMem
    exact ⟨i, m, hm, hb⟩
  · rintro ⟨i, m, hm, hb⟩
    exact ⟨m, List.mem_map_of_mem hm, hb⟩

-- ---------------------------------------------------------------------------------------------
-- Moving marks
-- ---------------------------------------------------------------------------------------------

theorem mem_advance {awaited : Bits} {c : Column} {x : Nat × Bits} :
    x ∈ advance awaited c ↔
      ∃ m, (x.1, m) ∈ c ∧ x.2 = (m &&& awaited) <<< 1 ∧ x.2 ≠ 0 := by
  rw [advance, List.mem_filterMap]
  constructor
  · rintro ⟨⟨i, m⟩, hm, h⟩
    dsimp only at h
    split at h
    · cases h
    · rename_i hNe
      cases h
      exact ⟨m, hm, rfl, hNe⟩
  · rintro ⟨m, hm, hx, hNe⟩
    refine ⟨(x.1, m), hm, ?_⟩
    dsimp only
    rw [← hx, if_neg hNe]

theorem testBit_shiftLeft_one (m : Bits) (b : Nat) :
    (m <<< 1).testBit b = true ↔ ∃ a, b = a + 1 ∧ m.testBit a = true := by
  rw [Nat.testBit_shiftLeft, Bool.and_eq_true, decide_eq_true_eq]
  constructor
  · rintro ⟨hb, h⟩
    exact ⟨b - 1, by omega, h⟩
  · rintro ⟨a, rfl, h⟩
    exact ⟨by omega, h⟩

/-- Marks are moved from the slots that wait. -/
theorem has_advance (awaited : Bits) (c : Column) (i b : Nat) :
    Has (advance awaited c) i b ↔
      ∃ a, b = a + 1 ∧ Has c i a ∧ awaited.testBit a = true := by
  constructor
  · rintro ⟨m, hm, hb⟩
    obtain ⟨l, hl, hx, _⟩ := mem_advance.mp hm
    dsimp only at hx
    rw [hx, testBit_shiftLeft_one] at hb
    obtain ⟨a, hab, ha⟩ := hb
    rw [Nat.testBit_and, Bool.and_eq_true] at ha
    exact ⟨a, hab, ⟨l, hl, ha.1⟩, ha.2⟩
  · rintro ⟨a, rfl, ⟨l, hl, ha⟩, hAwaited⟩
    have hBit : ((l &&& awaited) <<< 1).testBit (a + 1) = true := by
      rw [testBit_shiftLeft_one]
      exact ⟨a, rfl, by rw [Nat.testBit_and, ha, hAwaited, Bool.and_self]⟩
    refine ⟨(l &&& awaited) <<< 1, mem_advance.mpr ⟨l, hl, rfl, ?_⟩, hBit⟩
    intro hZero
    dsimp only at hZero
    rw [hZero, Nat.zero_testBit] at hBit
    cases hBit

theorem sorted_advance {awaited : Bits} {c : Column} (h : Sorted c) :
    Sorted (advance awaited c) := by
  rw [Sorted, advance, List.pairwise_filterMap]
  refine h.imp ?_
  rintro ⟨i, m⟩ ⟨k, l⟩ hLt x hx y hy
  dsimp only at hx hy hLt
  split at hx
  · cases hx
  · split at hy
    · cases hy
    · cases hx
      cases hy
      exact hLt

theorem below_advance {awaited : Bits} {c : Column} {bound : Nat} (h : Below c bound) :
    Below (advance awaited c) bound := by
  intro x hx
  obtain ⟨m, hm, _⟩ := mem_advance.mp hx
  exact h (x.1, m) hm

-- ---------------------------------------------------------------------------------------------
-- Merging
-- ---------------------------------------------------------------------------------------------

theorem has_mergeAt {k : Nat} {m : Bits} {rest : Column → Column} {c : Column}
    (hRest : ∀ d i b, Has (rest d) i b ↔ Has c i b ∨ Has d i b) (d : Column) (i b : Nat) :
    Has (mergeAt k m rest d) i b ↔ Has ((k, m) :: c) i b ∨ Has d i b := by
  induction d with
  | nil => rw [mergeAt, has_cons, has_cons, hRest, or_assoc]
  | cons x d ih =>
    obtain ⟨l, n⟩ := x
    rw [mergeAt]
    split
    · rename_i hEq
      subst hEq
      rw [has_cons, has_cons, has_cons, hRest, Nat.testBit_or, Bool.or_eq_true, and_or_left]
      tauto
    · split
      · rw [has_cons, hRest, has_cons, has_cons, or_assoc]
      · rw [has_cons, ih, has_cons, has_cons]
        tauto

/-- The union of two columns. -/
theorem has_merge (c d : Column) (i b : Nat) :
    Has (merge c d) i b ↔ Has c i b ∨ Has d i b := by
  induction c generalizing d i b with
  | nil => simp [merge]
  | cons x c ih => exact has_mergeAt ih d i b

theorem below_merge {c d : Column} {bound : Nat} (hc : Below c bound) (hd : Below d bound) :
    Below (merge c d) bound := by
  induction c generalizing d with
  | nil => exact hd
  | cons x c ih =>
    obtain ⟨k, m⟩ := x
    obtain ⟨hk, hc⟩ := below_cons.mp hc
    rw [merge]
    induction d with
    | nil => exact below_cons.mpr ⟨hk, ih hc hd⟩
    | cons y d ihd =>
      obtain ⟨l, n⟩ := y
      obtain ⟨hl, hd'⟩ := below_cons.mp hd
      rw [mergeAt]
      split
      · exact below_cons.mpr ⟨hk, ih hc hd'⟩
      · split
        · exact below_cons.mpr ⟨hk, ih hc hd⟩
        · exact below_cons.mpr ⟨hl, ihd hd'⟩

theorem sorted_merge {c d : Column} (hc : Sorted c) (hd : Sorted d) : Sorted (merge c d) := by
  induction c generalizing d with
  | nil => exact hd
  | cons x c ih =>
    obtain ⟨k, m⟩ := x
    obtain ⟨hk, hc'⟩ := sorted_cons.mp hc
    rw [merge]
    -- the rest of both columns lies below the position that comes first
    have hBelow : ∀ {d bound}, Below d bound → k < bound →
        Below (mergeAt k m (merge c) d) bound := fun hd hLt =>
      below_merge (c := (k, m) :: c) (below_cons.mpr ⟨hLt, hk.mono (Nat.le_of_lt hLt)⟩) hd
    induction d with
    | nil => exact sorted_cons.mpr ⟨below_merge hk (List.forall_mem_nil _), ih hc' hd⟩
    | cons y d ihd =>
      obtain ⟨l, n⟩ := y
      obtain ⟨hl, hd'⟩ := sorted_cons.mp hd
      rw [mergeAt]
      split
      · rename_i hEq
        subst hEq
        exact sorted_cons.mpr ⟨below_merge hk hl, ih hc' hd'⟩
      · split
        · rename_i hLt
          refine sorted_cons.mpr ⟨below_merge hk ?_, ih hc' hd⟩
          exact below_cons.mpr ⟨hLt, hl.mono (Nat.le_of_lt hLt)⟩
        · exact sorted_cons.mpr ⟨hBelow hl (by omega), ihd hd'⟩

-- ---------------------------------------------------------------------------------------------
-- Categories that have ended
-- ---------------------------------------------------------------------------------------------

variable {N : Type} {L : Layout N}

theorem has_addTo (i : Nat) (s : Bits × Column) (c : Column) (k b : Nat) :
    Has ((i, (addTo i s c).1) :: (addTo i s c).2) k b ↔
      Has ((i, s.1) :: s.2) k b ∨ Has c k b := by
  cases c with
  | nil => simp [addTo]
  | cons x c =>
    obtain ⟨l, m⟩ := x
    rw [addTo]
    split
    · rename_i hEq
      subst hEq
      simp only [has_cons, has_merge, Nat.testBit_or, Bool.or_eq_true]
      tauto
    · simp only [has_cons, has_merge]
      tauto

theorem sorted_addTo {i : Nat} {s : Bits × Column} {c : Column} (hs : Below s.2 i ∧ Sorted s.2)
    (hc : Sorted c) (hBelow : Below c (i + 1)) :
    Below (addTo i s c).2 i ∧ Sorted (addTo i s c).2 := by
  cases c with
  | nil => exact hs
  | cons x c =>
    obtain ⟨l, m⟩ := x
    obtain ⟨hl, hc'⟩ := sorted_cons.mp hc
    obtain ⟨hLt, _⟩ := below_cons.mp hBelow
    rw [addTo]
    split
    · rename_i hEq
      subst hEq
      exact ⟨below_merge hl hs.1, sorted_merge hc' hs.2⟩
    · have hLe : l < i := by omega
      have hBelow' : Below ((l, m) :: c) i := below_cons.mpr ⟨hLe, hl.mono (Nat.le_of_lt hLe)⟩
      exact ⟨below_merge hBelow' hs.1, sorted_merge hc hs.2⟩

/-- One round of `completeAt`: if the category of a row has ended here, marks are moved over it. -/
def completeStep (i : Nat) (origin : Column) (s : Bits × Column) (r : CategorySlots) :
    Bits × Column :=
  if s.1 &&& r.ends = 0 then s else addTo i s (advance r.awaits origin)

section CompleteAt

variable {i : Nat} {origin : Column}

theorem has_completeStep (s : Bits × Column) (r : CategorySlots) (k b : Nat) :
    Has ((i, (completeStep i origin s r).1) :: (completeStep i origin s r).2) k b ↔
      Has ((i, s.1) :: s.2) k b ∨ (s.1 &&& r.ends ≠ 0 ∧ Has (advance r.awaits origin) k b) := by
  rw [completeStep]
  split
  · rename_i hNone
    simp [hNone]
  · rename_i hEnded
    rw [has_addTo]
    simp [hEnded]

theorem sorted_completeFold (hOrigin : Sorted origin) (hBelow : Below origin (i + 1))
    (rs : List CategorySlots) {s : Bits × Column} (hs : Below s.2 i ∧ Sorted s.2) :
    Below (rs.foldl (completeStep i origin) s).2 i ∧
      Sorted (rs.foldl (completeStep i origin) s).2 := by
  induction rs generalizing s with
  | nil => exact hs
  | cons r rs ih =>
    rw [List.foldl_cons]
    apply ih
    rw [completeStep]
    split
    · exact hs
    · exact sorted_addTo hs (sorted_advance hOrigin) (below_advance hBelow)

/-- Nothing is lost. -/
theorem has_completeFold_of_has (rs : List CategorySlots) {s : Bits × Column} {k b : Nat}
    (h : Has ((i, s.1) :: s.2) k b) :
    Has ((i, (rs.foldl (completeStep i origin) s).1) ::
      (rs.foldl (completeStep i origin) s).2) k b := by
  induction rs generalizing s with
  | nil => exact h
  | cons r rs ih => exact ih ((has_completeStep s r k b).mpr (.inl h))

theorem testBit_addTo_fst {s : Bits × Column} {c : Column} {b : Nat}
    (h : (addTo i s c).1.testBit b = true) : s.1.testBit b = true ∨ Has c i b := by
  cases c with
  | nil => exact .inl h
  | cons x c =>
    obtain ⟨l, m⟩ := x
    rw [addTo] at h
    split at h
    · rename_i hEq
      rw [Nat.testBit_or, Bool.or_eq_true] at h
      exact h.imp_right fun hm => (has_cons ..).mpr (.inl ⟨hEq.symm, hm⟩)
    · exact .inl h

/-- Where the slots at the position itself come from. -/
theorem testBit_completeFold_fst {rs : List CategorySlots} {s : Bits × Column} {b : Nat}
    (h : (rs.foldl (completeStep i origin) s).1.testBit b = true) :
    s.1.testBit b = true ∨ ∃ r ∈ rs, Has (advance r.awaits origin) i b := by
  induction rs generalizing s with
  | nil => exact .inl h
  | cons r rs ih =>
    rcases ih h with hStep | ⟨q, hq, hAdded⟩
    · rw [completeStep] at hStep
      split at hStep
      · exact .inl hStep
      · exact (testBit_addTo_fst hStep).imp_right fun hAdded => ⟨r, List.mem_cons_self, hAdded⟩
    · exact .inr ⟨q, List.mem_cons_of_mem _ hq, hAdded⟩

/-- What is added comes from a move over a category that has ended. -/
theorem of_has_completeFold {P : Nat → Nat → Prop} {rs : List CategorySlots}
    (hMove : ∀ r ∈ rs, ∀ a k b, P i a → r.ends.testBit a = true →
      Has (advance r.awaits origin) k b → P k b)
    {s : Bits × Column} (hs : ∀ k b, Has ((i, s.1) :: s.2) k b → P k b) {k b : Nat}
    (h : Has ((i, (rs.foldl (completeStep i origin) s).1) ::
      (rs.foldl (completeStep i origin) s).2) k b) : P k b := by
  induction rs generalizing s with
  | nil => exact hs k b h
  | cons r rs ih =>
    refine ih (fun q hq => hMove q (List.mem_cons_of_mem _ hq))
      (s := completeStep i origin s r) (fun k b hk => ?_) h
    rcases (has_completeStep s r k b).mp hk with hk | ⟨hEnded, hk⟩
    · exact hs k b hk
    · obtain ⟨a, ha, hEnds⟩ := land_ne_zero_iff.mp hEnded
      exact hMove r List.mem_cons_self a k b (hs i a (by simp [ha])) hEnds hk

end CompleteAt

section Closed

variable {shape : N → List (List (Symbol N))} {entries : List (Entry N)}
  {i : Nat} {origin : Column}

/-- A slot that ends `n` and was added at the position itself came from a move over a category
that is an alternative of `n` on its own. -/
theorem index_lt_of_added (hL : LayoutFacts shape L entries)
    (hOrigin : ∀ a, Has origin i a → ∃ e, Slot entries a e 0) {m n : N} {b : Nat}
    (hAdded : Has (advance (L.slotsOf m).awaits origin) i b)
    (hEnds : (L.ends n).testBit b = true) : L.index m < L.index n := by
  obtain ⟨a, rfl, hHas, hAwaits⟩ := (has_advance _ _ _ _).mp hAdded
  obtain ⟨e, hSlot⟩ := hOrigin a hHas
  obtain ⟨f, k, hSlot', hSymbol⟩ := (hL.awaits m a).mp hAwaits
  obtain ⟨rfl, rfl⟩ := hL.unique hSlot hSlot'
  obtain ⟨g, hEnd, rfl⟩ := (hL.ends n _).mp hEnds
  have hNext : Slot entries (a + 1) e 1 :=
    ⟨hSlot.mem, (List.getElem?_eq_some_iff.mp hSymbol).1, by rw [hSlot.eq]⟩
  obtain ⟨rfl, hLength⟩ := hL.unique hNext hEnd
  refine hL.unit _ _ ?_
  obtain ⟨s, hs⟩ := List.length_eq_one_iff.mp hLength.symm
  have hHead : s = .cat m := by simpa [hs] using hSymbol
  rw [← hHead, ← hs]
  exact hL.shape_of_mem e hEnd.mem

/-- Once all categories have been treated in order, no move over one of them is left. -/
theorem completeFold_closed (hL : LayoutFacts shape L entries)
    (hOrigin : ∀ a, Has origin i a → ∃ e, Slot entries a e 0) {ns : List N}
    (hSorted : ns.Pairwise fun a b => L.index a < L.index b) {s : Bits × Column}
    {n : N} (hn : n ∈ ns) {a k b : Nat}
    (hEnded : ((ns.map L.slotsOf).foldl (completeStep i origin) s).1.testBit a = true)
    (hEnds : (L.ends n).testBit a = true)
    (hMove : Has (advance (L.slotsOf n).awaits origin) k b) :
    Has ((i, ((ns.map L.slotsOf).foldl (completeStep i origin) s).1) ::
      ((ns.map L.slotsOf).foldl (completeStep i origin) s).2) k b := by
  induction ns generalizing s with
  | nil => cases hn
  | cons m ns ih =>
    obtain ⟨hFirst, hSorted'⟩ := List.pairwise_cons.mp hSorted
    rcases List.mem_cons.mp hn with rfl | hn
    · -- the end of `n` was there when its turn came: no later category adds one
      have hThere : s.1.testBit a = true := by
        rcases testBit_completeFold_fst hEnded with h | ⟨r, hr, hAdded⟩
        · exact h
        · obtain ⟨m, hm, rfl⟩ := List.mem_map.mp hr
          have hLt := index_lt_of_added hL hOrigin hAdded hEnds
          rcases List.mem_cons.mp hm with rfl | hm
          · omega
          · have := hFirst m hm
            omega
      rw [List.map_cons, List.foldl_cons]
      apply has_completeFold_of_has
      rw [has_completeStep]
      exact .inr ⟨land_ne_zero_iff.mpr ⟨a, hThere, hEnds⟩, hMove⟩
    · exact ih hSorted' hn hEnded

end Closed

-- ---------------------------------------------------------------------------------------------
-- All positions
-- ---------------------------------------------------------------------------------------------

section Complete

variable {chart : Chart}

theorem sorted_complete (hChart : ∀ i, Sorted (chart.getD i []) ∧ Below (chart.getD i []) (i + 1))
    {bound : Nat} {c : Column} (hc : Sorted c) {top : Nat} (hTop : Below c top) :
    Sorted (complete L chart bound c) ∧ Below (complete L chart bound c) top := by
  induction bound generalizing c top with
  | zero => exact ⟨hc, hTop⟩
  | succ bound ih =>
    cases c with
    | nil => exact ⟨hc, hTop⟩
    | cons x older =>
      obtain ⟨i, here⟩ := x
      have hFold := sorted_completeFold (hChart i).1 (hChart i).2 L.rows (s := (here, older))
        (sorted_cons.mp hc)
      obtain ⟨hSorted, hBelow⟩ := ih hFold.2 hFold.1
      have hi := (below_cons.mp hTop).1
      exact ⟨sorted_cons.mpr ⟨hBelow, hSorted⟩,
        below_cons.mpr ⟨hi, hBelow.mono (Nat.le_of_lt hi)⟩⟩

theorem has_complete_of_has {bound : Nat} {c : Column} {k b : Nat} (h : Has c k b) :
    Has (complete L chart bound c) k b := by
  induction bound generalizing c with
  | zero => exact h
  | succ bound ih =>
    cases c with
    | nil => exact h
    | cons x older =>
      obtain ⟨i, here⟩ := x
      have hFold : Has ((i, (completeAt L i (chart.getD i []) here older).1) ::
          (completeAt L i (chart.getD i []) here older).2) k b :=
        has_completeFold_of_has L.rows h
      rw [has_cons] at hFold
      rw [complete, has_cons]
      exact hFold.imp_right ih

/-- What completing a column adds comes from a move over a category that has ended. -/
theorem of_has_complete {P : Nat → Nat → Prop}
    (hMove : ∀ i, ∀ r ∈ L.rows, ∀ a k b, P i a → r.ends.testBit a = true →
      Has (advance r.awaits (chart.getD i [])) k b → P k b)
    {bound : Nat} {c : Column} (hc : ∀ k b, Has c k b → P k b) {k b : Nat}
    (h : Has (complete L chart bound c) k b) : P k b := by
  induction bound generalizing c with
  | zero => exact hc k b h
  | succ bound ih =>
    cases c with
    | nil => exact hc k b h
    | cons x older =>
      obtain ⟨i, here⟩ := x
      rw [complete, has_cons] at h
      have hFold := fun k b => of_has_completeFold (hMove i) (s := (here, older)) hc
        (k := k) (b := b)
      rcases h with ⟨rfl, h⟩ | h
      · exact hFold k b ((has_cons ..).mpr (.inl ⟨rfl, h⟩))
      · exact ih (fun k b h => hFold k b ((has_cons ..).mpr (.inr h))) h

/-- A completed column leaves no move over a category that has ended. -/
theorem complete_closed {shape : N → List (List (Symbol N))} {entries : List (Entry N)}
    (hL : LayoutFacts shape L entries)
    (hChart : ∀ i, Sorted (chart.getD i []) ∧ Below (chart.getD i []) (i + 1))
    (hOrigin : ∀ i a, Has (chart.getD i []) i a → ∃ e, Slot entries a e 0)
    {bound : Nat} {c : Column} (hc : Sorted c) (hBound : Below c bound) {i a : Nat} {n : N}
    {k b : Nat} (hEnded : Has (complete L chart bound c) i a)
    (hEnds : (L.ends n).testBit a = true)
    (hMove : Has (advance (L.slotsOf n).awaits (chart.getD i [])) k b) :
    Has (complete L chart bound c) k b := by
  obtain ⟨categories, hRows, hMem, hOrder⟩ := hL.rows
  induction bound generalizing c with
  | zero =>
    obtain ⟨m, hm, _⟩ := hEnded
    exact absurd (hBound _ hm) (Nat.not_lt_zero _)
  | succ bound ih =>
    cases c with
    | nil => exact absurd hEnded (not_has_nil i a)
    | cons x older =>
      obtain ⟨p, here⟩ := x
      have hFold := sorted_completeFold (hChart p).1 (hChart p).2 L.rows (s := (here, older))
        (sorted_cons.mp hc)
      have hp := (below_cons.mp hBound).1
      rw [complete, has_cons] at hEnded ⊢
      rcases hEnded with ⟨rfl, hEnded⟩ | hEnded
      · have hAdded : Has ((i, (completeAt L i (chart.getD i []) here older).1) ::
            (completeAt L i (chart.getD i []) here older).2) k b := by
          rw [completeAt, hRows] at hEnded ⊢
          exact completeFold_closed hL (hOrigin i) hOrder (hMem n) hEnded hEnds hMove
        rw [has_cons] at hAdded
        exact hAdded.imp_right has_complete_of_has
      · exact .inr (ih hFold.2 (hFold.1.mono (by omega)) hEnded)

end Complete

/-- The slots that begin are those of the categories that are awaited. -/
theorem testBit_predict {shape : N → List (List (Symbol N))} {entries : List (Entry N)}
    (hL : LayoutFacts shape L entries) (c : Column) (b : Nat) :
    (predict L c).testBit b = true ↔
      ∃ n i a, Has c i a ∧ (L.slotsOf n).awaits.testBit a = true ∧
        (L.begins n).testBit b = true := by
  obtain ⟨categories, hRows, hMem, _⟩ := hL.rows
  have hFold : predict L c = L.rows.foldl (fun m r =>
      m ||| if c.union &&& r.awaits = 0 then 0 else r.begins) 0 := by
    rw [predict]
    congr 1
    funext m r
    split <;> simp
  rw [hFold, testBit_foldl_or, Nat.zero_testBit]
  constructor
  · rintro (h | ⟨r, hr, h⟩)
    · cases h
    · rw [hRows] at hr
      obtain ⟨n, _, rfl⟩ := List.mem_map.mp hr
      split at h
      · rw [Nat.zero_testBit] at h
        cases h
      · rename_i hAwaited
        obtain ⟨a, hUnion, ha⟩ := land_ne_zero_iff.mp hAwaited
        obtain ⟨i, hHas⟩ := (testBit_union c a).mp hUnion
        exact ⟨n, i, a, hHas, ha, h⟩
  · rintro ⟨n, i, a, hHas, ha, hb⟩
    refine .inr ⟨L.slotsOf n, hRows ▸ List.mem_map_of_mem (hMem n), ?_⟩
    rw [if_neg (land_ne_zero_iff.mpr ⟨a, (testBit_union c a).mpr ⟨i, hHas⟩, ha⟩)]
    exact hb

end Column

end ClientBoundary.Grammar
