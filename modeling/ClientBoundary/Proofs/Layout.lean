import ClientBoundary.Grammar.Chart
import Mathlib.Data.List.Nodup
import Mathlib.Logic.Relation

/-!
# What the sets of a layout hold

A layout numbers the slots of a grammar and keeps sets of slots as bits. Here each set is given its
meaning: `Slot entries b e k` says that `b` is the number of the entry `e` with the mark after `k`
symbols, and a number stands for one such pair only.

* `testBit_row_pack` — one set of pairs packed into a number, and its rows taken out again.
* `testBit_closure` — going through one number after the other gives the transitive closure.
* `Slot.unique` — the numbers of slots are told apart.
* `LayoutFacts` — the sets of a layout by their elements, for a grammar in which no alternative is
  empty and a category that is an alternative on its own is listed before the category it is an
  alternative of (`Orderly.facts`).
-/

namespace ClientBoundary.Grammar

variable {N : Type}

-- ---------------------------------------------------------------------------------------------
-- Bits
-- ---------------------------------------------------------------------------------------------

/-- Two sets share an element. -/
theorem land_ne_zero_iff {a b : Bits} :
    a &&& b ≠ 0 ↔ ∃ s, a.testBit s = true ∧ b.testBit s = true := by
  constructor
  · intro h
    by_contra hNone
    apply h
    apply Nat.eq_of_testBit_eq
    intro s
    rw [Nat.testBit_and, Nat.zero_testBit, Bool.and_eq_false_imp]
    intro ha
    by_contra hb
    exact hNone ⟨s, ha, by simpa using hb⟩
  · rintro ⟨s, ha, hb⟩ h
    have : (a &&& b).testBit s = true := by rw [Nat.testBit_and, ha, hb, Bool.and_self]
    rw [h, Nat.zero_testBit] at this
    cases this

theorem testBit_single (s b : Nat) : (1 <<< s : Bits).testBit b = true ↔ b = s := by
  rw [Nat.one_shiftLeft, Nat.testBit_two_pow, decide_eq_true_eq]
  exact eq_comm

/-- The union of sets over a list. -/
theorem testBit_foldl_or {α : Type} (f : α → Bits) (xs : List α) (m : Bits) (b : Nat) :
    (xs.foldl (fun m x => m ||| f x) m).testBit b = true ↔
      m.testBit b = true ∨ ∃ x ∈ xs, (f x).testBit b = true := by
  induction xs generalizing m with
  | nil => simp
  | cons x xs ih =>
    rw [List.foldl_cons, ih, Nat.testBit_or, Bool.or_eq_true, List.exists_mem_cons_iff, or_assoc]

theorem testBit_ofList (xs : List Nat) (b : Nat) :
    (Bits.ofList xs).testBit b = true ↔ b ∈ xs := by
  rw [Bits.ofList, testBit_foldl_or, Nat.zero_testBit]
  simp only [testBit_single, Bool.false_eq_true, false_or]
  exact ⟨fun ⟨x, hx, hb⟩ => hb ▸ hx, fun h => ⟨b, h, rfl⟩⟩

theorem testBit_union (ms : List Bits) (b : Nat) :
    (Bits.union ms).testBit b = true ↔ ∃ m ∈ ms, m.testBit b = true := by
  rw [Bits.union, testBit_foldl_or (fun m => m), Nat.zero_testBit]
  simp only [Bool.false_eq_true, false_or]

/-- The pairs of one row of a packed set. -/
theorem testBit_row_pack {width : Nat} {pairs : List (Nat × Nat)}
    (hWidth : ∀ p ∈ pairs, p.2 < width) (i j : Nat) :
    (Bits.row width (Bits.pack width pairs) i).testBit j = true ↔ (i, j) ∈ pairs := by
  rw [Bits.row, Nat.one_shiftLeft, Nat.testBit_mod_two_pow, Bool.and_eq_true, decide_eq_true_eq,
    Nat.testBit_shiftRight, Bits.pack, testBit_ofList, List.mem_map]
  constructor
  · rintro ⟨hj, ⟨a, b⟩, hMem, hEq⟩
    -- the two parts of a number are its quotient and its remainder
    have hb := hWidth _ hMem
    dsimp only at hEq hb
    have hPos : 0 < width := by omega
    have hRow : a = i := by
      have := congrArg (· / width) hEq
      simpa [Nat.mul_comm _ width, Nat.mul_add_div hPos, Nat.div_eq_of_lt hb,
        Nat.div_eq_of_lt hj] using this
    subst hRow
    obtain rfl : b = j := by omega
    exact hMem
  · intro hMem
    exact ⟨hWidth _ hMem, (i, j), hMem, rfl⟩

-- ---------------------------------------------------------------------------------------------
-- The transitive closure
-- ---------------------------------------------------------------------------------------------

/-- The relation whose rows are given. -/
def Related (rows : List Bits) (i j : Nat) : Prop := (rows.getD i 0).testBit j = true

/-- A way from `i` to `j` in a relation, all stops between them in a set. -/
inductive Via (R : Nat → Nat → Prop) (K : Nat → Prop) : Nat → Nat → Prop where
  | step {i j : Nat} (h : R i j) : Via R K i j
  | tail {i k j : Nat} (h : Via R K i k) (hStop : K k) (hLast : R k j) : Via R K i j

theorem Via.trans {R : Nat → Nat → Prop} {K : Nat → Prop} {i k j : Nat} (h : Via R K i k)
    (hStop : K k) (h' : Via R K k j) : Via R K i j := by
  induction h' with
  | step hLast => exact .tail h hStop hLast
  | tail _ hStop' hLast ih => exact .tail ih hStop' hLast

theorem Via.mono {R : Nat → Nat → Prop} {K K' : Nat → Prop} (hK : ∀ k, K k → K' k) {i j : Nat}
    (h : Via R K i j) : Via R K' i j := by
  induction h with
  | step h => exact .step h
  | tail _ hStop hLast ih => exact .tail ih (hK _ hStop) hLast

/-- One more stop `k`: a way that uses it goes to `k` and on from `k` without it. -/
theorem via_insert {R : Nat → Nat → Prop} {K : Nat → Prop} {k i j : Nat} :
    Via R (fun m => K m ∨ m = k) i j ↔ Via R K i j ∨ (Via R K i k ∧ Via R K k j) := by
  constructor
  · intro h
    induction h with
    | step h => exact .inl (.step h)
    | tail _ hStop hLast ih =>
      rcases hStop with hStop | rfl
      · rcases ih with ih | ⟨hTo, hFrom⟩
        · exact .inl (.tail ih hStop hLast)
        · exact .inr ⟨hTo, .tail hFrom hStop hLast⟩
      · rcases ih with ih | ⟨hTo, _⟩
        · exact .inr ⟨ih, .step hLast⟩
        · exact .inr ⟨hTo, .step hLast⟩
  · rintro (h | ⟨hTo, hFrom⟩)
    · exact h.mono fun _ => .inl
    · exact (hTo.mono fun _ => .inl).trans (.inr rfl) (hFrom.mono fun _ => .inl)

theorem related_through (rows : List Bits) (k i j : Nat) :
    Related (Bits.through rows k) i j ↔
      Related rows i j ∨ (Related rows i k ∧ Related rows k j) := by
  have hRow : (Bits.through rows k).getD i 0 =
      if (rows.getD i 0).testBit k then rows.getD i 0 ||| rows.getD k 0 else rows.getD i 0 := by
    unfold Bits.through
    simp only [List.getD_eq_getElem?_getD, List.getElem?_map]
    cases rows[i]? <;> simp
  rw [Related, hRow]
  split
  · rename_i hk
    rw [Nat.testBit_or, Bool.or_eq_true]
    exact or_congr_right ⟨fun h => ⟨hk, h⟩, And.right⟩
  · rename_i hk
    exact ⟨.inl, fun h => h.elim id fun h => absurd h.1 hk⟩

theorem related_foldl_through (rows : List Bits) (n i j : Nat) :
    Related ((List.range n).foldl Bits.through rows) i j ↔ Via (Related rows) (· < n) i j := by
  induction n generalizing i j with
  | zero =>
    constructor
    · exact .step
    · intro h
      cases h with
      | step h => exact h
      | tail _ hStop => exact absurd hStop (Nat.not_lt_zero _)
  | succ n ih =>
    have hStops : (fun m => m < n + 1) = fun m => m < n ∨ m = n := by
      funext m
      exact propext (by omega)
    rw [List.range_succ, List.foldl_append, List.foldl_cons, List.foldl_nil, related_through,
      ih, ih, ih, hStops, via_insert]

/-- The closure of a relation on the numbers of its rows: all ways in it. -/
theorem testBit_closure {rows : List Bits} (hBound : ∀ i j, Related rows i j → j < rows.length)
    (i j : Nat) :
    Related (Bits.closure rows) i j ↔ Relation.TransGen (Related rows) i j := by
  rw [Bits.closure, related_foldl_through]
  constructor
  · intro h
    induction h with
    | step h => exact .single h
    | tail _ _ hLast ih => exact ih.tail hLast
  · intro h
    induction h with
    | single h => exact .step h
    | tail hInit hLast ih =>
      refine .tail ih ?_ hLast
      cases hInit with
      | single h => exact hBound _ _ h
      | tail _ h => exact hBound _ _ h

-- ---------------------------------------------------------------------------------------------
-- Numbers of slots
-- ---------------------------------------------------------------------------------------------

/-- Entries that are numbered side by side from one number up to another. -/
inductive Numbered : List (Entry N) → Nat → Nat → Prop where
  | nil (base : Nat) : Numbered [] base base
  | cons (e : Entry N) {es : List (Entry N)} {stop : Nat}
      (hRest : Numbered es (e.last + 1) stop) : Numbered (e :: es) e.base stop

theorem Numbered.append {es fs : List (Entry N)} {a b c : Nat}
    (hE : Numbered es a b) (hF : Numbered fs b c) : Numbered (es ++ fs) a c := by
  induction hE with
  | nil base => exact hF
  | cons e _ ih => exact .cons e (ih hF)

theorem Numbered.bounds {es : List (Entry N)} {a b : Nat} (h : Numbered es a b) :
    a ≤ b ∧ ∀ e ∈ es, a ≤ e.base ∧ e.last < b := by
  induction h with
  | nil base => exact ⟨Nat.le_refl _, by simp⟩
  | @cons e es stop hRest ih =>
    have hLast : e.base ≤ e.last := Nat.le_add_right ..
    refine ⟨by omega, ?_⟩
    intro f hf
    rcases List.mem_cons.mp hf with rfl | hf
    · exact ⟨Nat.le_refl _, by omega⟩
    · have := ih.2 f hf
      exact ⟨by omega, this.2⟩

theorem numbered_numberAlternatives (n : N) (alternatives : List (List (Symbol N))) (base : Nat) :
    Numbered (numberAlternatives n alternatives base) base (slotsAfter alternatives base) := by
  induction alternatives generalizing base with
  | nil => exact .nil base
  | cons ss rest ih => exact .cons ⟨n, ss, base⟩ (ih _)

theorem numbered_groupsFrom (shape : N → List (List (Symbol N))) (ns : List N) (base : Nat) :
    ∃ stop, Numbered (groupsFrom shape ns base).flatten base stop := by
  induction ns generalizing base with
  | nil => exact ⟨base, .nil base⟩
  | cons n ns ih =>
    obtain ⟨stop, hRest⟩ := ih (slotsAfter (shape n) base)
    exact ⟨stop, (numbered_numberAlternatives n (shape n) base).append hRest⟩

/-- `b` is the number of the entry `e` with the mark after its first `k` symbols. -/
structure Slot (entries : List (Entry N)) (b : Nat) (e : Entry N) (k : Nat) : Prop where
  mem : e ∈ entries
  le : k ≤ e.symbols.length
  eq : b = e.base + k

/-- A number belongs to one slot only. -/
theorem Slot.unique {entries : List (Entry N)} {a c : Nat} (hN : Numbered entries a c)
    {b k l : Nat} {e f : Entry N} (hE : Slot entries b e k) (hF : Slot entries b f l) :
    e = f ∧ k = l := by
  have hEq : e.base + k = f.base + l := hE.eq.symm.trans hF.eq
  have hk := hE.le
  have hl := hF.le
  have hem := hE.mem
  have hfm := hF.mem
  clear hE hF
  induction hN with
  | nil => simp at hem
  | @cons g es stop hRest ih =>
    have hBounds := hRest.bounds.2
    -- an entry further on has all its slots beyond those of the first
    rcases List.mem_cons.mp hem with rfl | hem' <;> rcases List.mem_cons.mp hfm with rfl | hfm'
    · exact ⟨rfl, by omega⟩
    · have := (hBounds f hfm').1
      unfold Entry.last at this
      omega
    · have := (hBounds e hem').1
      unfold Entry.last at this
      omega
    · exact ih hem' hfm'

-- ---------------------------------------------------------------------------------------------
-- Entries and alternatives
-- ---------------------------------------------------------------------------------------------

theorem mem_numberAlternatives {n : N} {alternatives : List (List (Symbol N))} {base : Nat}
    {e : Entry N} (h : e ∈ numberAlternatives n alternatives base) :
    e.category = n ∧ e.symbols ∈ alternatives := by
  induction alternatives generalizing base with
  | nil => simp [numberAlternatives] at h
  | cons ss rest ih =>
    rw [numberAlternatives, List.mem_cons] at h
    rcases h with rfl | h
    · exact ⟨rfl, List.mem_cons_self ..⟩
    · exact ⟨(ih h).1, List.mem_cons_of_mem _ (ih h).2⟩

theorem map_symbols_numberAlternatives (n : N) (alternatives : List (List (Symbol N)))
    (base : Nat) : (numberAlternatives n alternatives base).map Entry.symbols = alternatives := by
  induction alternatives generalizing base with
  | nil => rfl
  | cons ss rest ih => rw [numberAlternatives, List.map_cons, ih]

theorem exists_mem_numberAlternatives (n : N) {alternatives : List (List (Symbol N))}
    {ss : List (Symbol N)} (h : ss ∈ alternatives) (base : Nat) :
    ∃ e ∈ numberAlternatives n alternatives base, e.symbols = ss := by
  rw [← map_symbols_numberAlternatives n alternatives base] at h
  exact List.mem_map.mp h

/-- The group of a category is its alternatives, numbered from some slot on. -/
theorem getElem?_groupsFrom (shape : N → List (List (Symbol N))) {ns : List N} {i : Nat} {n : N}
    (h : ns[i]? = some n) (base : Nat) :
    ∃ start, (groupsFrom shape ns base)[i]? = some (numberAlternatives n (shape n) start) := by
  induction ns generalizing i base with
  | nil => simp at h
  | cons m ns ih =>
    cases i with
    | zero =>
      cases h
      exact ⟨base, rfl⟩
    | succ i => exact ih h _

theorem length_groupsFrom (shape : N → List (List (Symbol N))) (ns : List N) (base : Nat) :
    (groupsFrom shape ns base).length = ns.length := by
  induction ns generalizing base with
  | nil => rfl
  | cons n ns ih => rw [groupsFrom, List.length_cons, List.length_cons, ih]

-- ---------------------------------------------------------------------------------------------
-- Slots that wait
-- ---------------------------------------------------------------------------------------------

theorem mem_awaiting {code : Symbol N → Nat} {e : Entry N} {c b : Nat} :
    (c, b) ∈ e.awaiting code ↔ ∃ k s, e.symbols[k]? = some s ∧ c = code s ∧ b = e.base + k := by
  rw [Entry.awaiting, List.mem_map]
  constructor
  · rintro ⟨⟨s, k⟩, hMem, hEq⟩
    cases hEq
    exact ⟨k, s, List.mem_zipIdx_iff_getElem?.mp hMem, rfl, rfl⟩
  · rintro ⟨k, s, hSymbol, rfl, rfl⟩
    exact ⟨(s, k), List.mem_zipIdx_iff_getElem?.mpr hSymbol, rfl⟩

theorem last_lt_width {entries : List (Entry N)} {e : Entry N} (he : e ∈ entries) :
    e.last < Layout.width entries := by
  have hMono : ∀ (es : List (Entry N)) (w : Nat),
      w ≤ es.foldl (fun w e => max w (e.last + 1)) w := by
    intro es
    induction es with
    | nil => exact fun w => Nat.le_refl w
    | cons e es ih => exact fun w => Nat.le_trans (Nat.le_max_left _ _) (ih _)
  have hAll : ∀ (es : List (Entry N)) (w : Nat), e ∈ es →
      e.last < es.foldl (fun w e => max w (e.last + 1)) w := by
    intro es
    induction es with
    | nil => exact fun _ h => absurd h (List.not_mem_nil)
    | cons f es ih =>
      intro w h
      rcases List.mem_cons.mp h with rfl | h
      · exact Nat.lt_of_lt_of_le (Nat.lt_of_lt_of_le (Nat.lt_succ_self _) (Nat.le_max_right w _))
          (hMono es _)
      · exact ih _ h
  exact hAll entries 0 he

/-- The slots that wait for a symbol, if the numbers of symbols are told apart. -/
theorem testBit_awaited {entries : List (Entry N)} {code : Symbol N → Nat}
    (hCode : ∀ s s', code s = code s' → s = s') (s : Symbol N) (b : Nat) :
    (Bits.row (Layout.width entries)
        (Bits.pack (Layout.width entries) (entries.flatMap (Entry.awaiting code)))
        (code s)).testBit b = true ↔
      ∃ e k, Slot entries b e k ∧ e.symbols[k]? = some s := by
  have hWidth : ∀ p ∈ entries.flatMap (Entry.awaiting code), p.2 < Layout.width entries := by
    rintro ⟨c, b⟩ hp
    obtain ⟨e, he, hp⟩ := List.mem_flatMap.mp hp
    obtain ⟨k, s, hSymbol, _, rfl⟩ := mem_awaiting.mp hp
    have hk := (List.getElem?_eq_some_iff.mp hSymbol).1
    have hLast := last_lt_width he
    unfold Entry.last at hLast
    dsimp only
    omega
  rw [testBit_row_pack hWidth, List.mem_flatMap]
  constructor
  · rintro ⟨e, he, hp⟩
    obtain ⟨k, s', hSymbol, hEq, rfl⟩ := mem_awaiting.mp hp
    obtain rfl := hCode s s' hEq
    have hk := (List.getElem?_eq_some_iff.mp hSymbol).1
    exact ⟨e, k, ⟨he, by omega, rfl⟩, hSymbol⟩
  · rintro ⟨e, k, hSlot, hSymbol⟩
    exact ⟨e, hSlot.mem, mem_awaiting.mpr ⟨k, s, hSymbol, rfl, hSlot.eq⟩⟩

theorem ctorIdx_lt_length (t : Terminal) : t.ctorIdx < Terminal.all.length := by
  cases t <;> decide

theorem all_getElem?_ctorIdx (t : Terminal) : Terminal.all[t.ctorIdx]? = some t := by
  cases t <;> rfl

theorem code_injective {index : N → Nat} (hIndex : ∀ m n, index m = index n → m = n)
    (s s' : Symbol N) (h : Layout.code index s = Layout.code index s') : s = s' := by
  cases s with
  | tok t =>
    cases s' with
    | tok t' =>
      have hEq : some t = some t' := by
        rw [← all_getElem?_ctorIdx t, ← all_getElem?_ctorIdx t']
        exact congrArg (Terminal.all[·]?) h
      exact congrArg Symbol.tok (Option.some.inj hEq)
    | cat n =>
      have := ctorIdx_lt_length t
      simp only [Layout.code] at h
      omega
  | cat m =>
    cases s' with
    | tok t =>
      have := ctorIdx_lt_length t
      simp only [Layout.code] at h
      omega
    | cat n => exact congrArg Symbol.cat (hIndex m n (Nat.add_left_cancel h))

-- ---------------------------------------------------------------------------------------------
-- Layouts
-- ---------------------------------------------------------------------------------------------

/-- What a grammar must be like for its layout to serve recognition: its categories are listed
and numbered in order, no alternative is empty, and a category that is an alternative on its own
comes before the category it is an alternative of. -/
structure Orderly (categories : List N) (index : N → Nat) (shape : N → List (List (Symbol N))) :
    Prop where
  mem : ∀ n, n ∈ categories
  numbered : categories.map index = List.range categories.length
  filled : ∀ n, [] ∉ shape n
  unit : ∀ n m, [.cat m] ∈ shape n → index m < index n

/-- An alternative of the category `m` begins with the category `n`. -/
def Corner (entries : List (Entry N)) (m n : N) : Prop :=
  ∃ e ∈ entries, e.category = m ∧ e.symbols.head? = some (.cat n)

/-- The meaning of the sets of a layout. -/
structure LayoutFacts (shape : N → List (List (Symbol N))) (L : Layout N)
    (entries : List (Entry N)) : Prop where
  rows : ∃ categories : List N, L.rows = categories.map L.slotsOf ∧ (∀ n, n ∈ categories) ∧
    categories.Pairwise fun a b => L.index a < L.index b
  filled : ∀ n, [] ∉ shape n
  unit : ∀ n m, [.cat m] ∈ shape n → L.index m < L.index n
  unique : ∀ {b k l e f}, Slot entries b e k → Slot entries b f l → e = f ∧ k = l
  shape_of_mem : ∀ e ∈ entries, e.symbols ∈ shape e.category
  exists_mem : ∀ n, ∀ ss ∈ shape n, ∃ e ∈ entries, e.category = n ∧ e.symbols = ss
  awaitsToken : ∀ t b, (L.awaitsToken t).testBit b = true ↔
    ∃ e k, Slot entries b e k ∧ e.symbols[k]? = some (.tok t)
  awaits : ∀ n b, (L.slotsOf n).awaits.testBit b = true ↔
    ∃ e k, Slot entries b e k ∧ e.symbols[k]? = some (.cat n)
  ends : ∀ n b, (L.ends n).testBit b = true ↔
    ∃ e, Slot entries b e e.symbols.length ∧ e.category = n
  begins : ∀ n b, (L.begins n).testBit b = true ↔
    ∃ m e, Relation.ReflTransGen (Corner entries) n m ∧ Slot entries b e 0 ∧ e.category = m
  bases : ∀ n, ∃ start, L.bases n = (numberAlternatives n (shape n) start).map Entry.base ∧
    ∀ e ∈ numberAlternatives n (shape n) start, e ∈ entries

theorem LayoutFacts.exists_slotsOf {shape : N → List (List (Symbol N))} {L : Layout N}
    {entries : List (Entry N)} (h : LayoutFacts shape L entries) {r : CategorySlots}
    (hr : r ∈ L.rows) : ∃ n, r = L.slotsOf n := by
  obtain ⟨categories, hRows, _⟩ := h.rows
  rw [hRows] at hr
  obtain ⟨n, _, rfl⟩ := List.mem_map.mp hr
  exact ⟨n, rfl⟩

namespace Orderly

variable {categories : List N} {index : N → Nat} {shape : N → List (List (Symbol N))}

theorem getElem?_index (h : Orderly categories index shape) (n : N) :
    categories[index n]? = some n := by
  obtain ⟨i, hi⟩ := List.getElem?_of_mem (h.mem n)
  have hIndex : (categories.map index)[i]? = some (index n) := by
    rw [List.getElem?_map, hi, Option.map_some]
  rw [h.numbered] at hIndex
  obtain ⟨hLt, hEq⟩ := List.getElem?_eq_some_iff.mp hIndex
  rw [List.getElem_range] at hEq
  rw [← hEq, hi]

theorem index_injective (h : Orderly categories index shape) (m n : N)
    (hEq : index m = index n) : m = n := by
  have hm := h.getElem?_index m
  rw [hEq, h.getElem?_index n] at hm
  exact (Option.some.inj hm).symm

theorem index_getElem (h : Orderly categories index shape) {i : Nat} (hi : i < categories.length) :
    index categories[i] = i := by
  have hEq : (categories.map index)[i]? = some i := by
    rw [h.numbered, List.getElem?_range hi]
  rw [List.getElem?_map, List.getElem?_eq_getElem hi] at hEq
  exact Option.some.inj hEq

theorem index_lt (h : Orderly categories index shape) (n : N) : index n < categories.length :=
  (List.getElem?_eq_some_iff.mp (h.getElem?_index n)).1

/-- The numbered alternatives of a category. -/
theorem group (h : Orderly categories index shape) (n : N) :
    ∃ start, (groupsFrom shape categories 0).getD (index n) [] =
      numberAlternatives n (shape n) start := by
  obtain ⟨start, hStart⟩ := getElem?_groupsFrom shape (h.getElem?_index n) 0
  exact ⟨start, by rw [List.getD_eq_getElem?_getD, hStart, Option.getD_some]⟩

/-- The entries of a category are those of its group. -/
theorem mem_group (h : Orderly categories index shape) (n : N) (e : Entry N) :
    e ∈ (groupsFrom shape categories 0).getD (index n) [] ↔
      e ∈ (groupsFrom shape categories 0).flatten ∧ e.category = n := by
  obtain ⟨start, hStart⟩ := getElem?_groupsFrom shape (h.getElem?_index n) 0
  rw [List.getD_eq_getElem?_getD, hStart, Option.getD_some]
  constructor
  · intro he
    exact ⟨List.mem_flatten_of_mem (List.mem_of_getElem? hStart) he,
      (mem_numberAlternatives he).1⟩
  · rintro ⟨he, rfl⟩
    obtain ⟨g, hg, he⟩ := List.mem_flatten.mp he
    obtain ⟨i, hi⟩ := List.getElem?_of_mem hg
    -- the group it lies in is that of a category, which is its own
    have hLt : i < categories.length := by
      rw [← length_groupsFrom shape categories 0]
      exact (List.getElem?_eq_some_iff.mp hi).1
    obtain ⟨first, hFirst⟩ := getElem?_groupsFrom shape (List.getElem?_eq_getElem hLt) 0
    rw [hFirst] at hi
    cases hi
    have hCategory := (mem_numberAlternatives he).1
    rw [hCategory, h.index_getElem hLt, hFirst] at hStart
    rw [hCategory]
    exact Option.some.inj hStart ▸ he

/-- The first slots of the categories whose numbers are in a set. -/
theorem testBit_beginning (h : Orderly categories index shape) (numbers : Bits) (b : Nat) :
    (Layout.beginning (groupsFrom shape categories 0) numbers).testBit b = true ↔
      ∃ m e, numbers.testBit (index m) = true ∧
        Slot (groupsFrom shape categories 0).flatten b e 0 ∧ e.category = m := by
  rw [Layout.beginning, testBit_union]
  constructor
  · rintro ⟨_, hMem, hb⟩
    obtain ⟨⟨g, i⟩, hg, rfl⟩ := List.mem_map.mp hMem
    dsimp only at hb
    split at hb
    · rename_i hNumber
      rw [testBit_ofList] at hb
      obtain ⟨e, he, rfl⟩ := List.mem_map.mp hb
      rw [List.mem_zipIdx_iff_getElem?] at hg
      have hFlat := List.mem_flatten_of_mem (List.mem_of_getElem? hg) he
      -- the number of the group is that of the category
      have hIndex : index e.category = i := by
        have hLt : i < categories.length := by
          rw [← length_groupsFrom shape categories 0]
          exact (List.getElem?_eq_some_iff.mp hg).1
        obtain ⟨start, hStart⟩ := getElem?_groupsFrom shape (List.getElem?_eq_getElem hLt) 0
        dsimp only at hg
        rw [hStart] at hg
        cases hg
        rw [(mem_numberAlternatives he).1, h.index_getElem hLt]
      exact ⟨e.category, e, by rw [hIndex]; exact hNumber, ⟨hFlat, Nat.zero_le _, rfl⟩, rfl⟩
    · rw [Nat.zero_testBit] at hb
      cases hb
  · rintro ⟨m, e, hNumber, hSlot, rfl⟩
    obtain ⟨start, hStart⟩ := getElem?_groupsFrom shape (h.getElem?_index e.category) 0
    refine ⟨_, List.mem_map.mpr ⟨(numberAlternatives e.category (shape e.category) start,
      index e.category), List.mem_zipIdx_iff_getElem?.mpr hStart, rfl⟩, ?_⟩
    dsimp only
    rw [if_pos hNumber, testBit_ofList, List.mem_map]
    refine ⟨e, ?_, hSlot.eq.symm⟩
    have hMem := (h.mem_group e.category e).mpr ⟨hSlot.mem, rfl⟩
    rwa [List.getD_eq_getElem?_getD, hStart, Option.getD_some] at hMem

theorem corner?_eq_some {e : Entry N} {n : N} :
    e.corner? = some n ↔ e.symbols.head? = some (.cat n) := by
  unfold Entry.corner?
  split
  · rename_i hSymbols
    simp [hSymbols]
  · rename_i hSymbols
    constructor
    · exact nofun
    · intro hHead
      obtain ⟨rest, hRest⟩ := List.head?_eq_some_iff.mp hHead
      exact absurd hRest (hSymbols n rest)

/-- The relation that the closure is taken of. -/
theorem related_corners (h : Orderly categories index shape) (i j : Nat) :
    Related (categories.map fun n => Bits.ofList (index n ::
        (((groupsFrom shape categories 0).getD (index n) []).filterMap Entry.corner?).map index))
      i j ↔
      ∃ m, i = index m ∧ (j = index m ∨
        ∃ n, Corner (groupsFrom shape categories 0).flatten m n ∧ j = index n) := by
  rw [Related, List.getD_eq_getElem?_getD, List.getElem?_map]
  constructor
  · intro hRelated
    cases hm : categories[i]? with
    | none =>
      rw [hm, Option.map_none, Option.getD_none, Nat.zero_testBit] at hRelated
      cases hRelated
    | some m =>
      obtain ⟨hLt, rfl⟩ := List.getElem?_eq_some_iff.mp hm
      rw [hm, Option.map_some, Option.getD_some, testBit_ofList, List.mem_cons] at hRelated
      refine ⟨categories[i], (h.index_getElem hLt).symm, hRelated.imp_right fun hMem => ?_⟩
      obtain ⟨n, hn, rfl⟩ := List.mem_map.mp hMem
      obtain ⟨e, he, hCorner⟩ := List.mem_filterMap.mp hn
      obtain ⟨hFlat, hCategory⟩ := (h.mem_group _ e).mp he
      exact ⟨n, ⟨e, hFlat, hCategory, corner?_eq_some.mp hCorner⟩, rfl⟩
  · rintro ⟨m, rfl, hm⟩
    rw [h.getElem?_index, Option.map_some, Option.getD_some, testBit_ofList, List.mem_cons]
    refine hm.imp_right ?_
    rintro ⟨n, ⟨e, he, rfl, hHead⟩, rfl⟩
    exact List.mem_map_of_mem (List.mem_filterMap.mpr
      ⟨e, (h.mem_group _ e).mpr ⟨he, rfl⟩, corner?_eq_some.mpr hHead⟩)

/-- The categories that may begin where a category begins. -/
theorem related_reached (h : Orderly categories index shape) (n m : N) :
    Related (Bits.closure (categories.map fun n => Bits.ofList (index n ::
        (((groupsFrom shape categories 0).getD (index n) []).filterMap Entry.corner?).map index)))
      (index n) (index m) ↔
      Relation.ReflTransGen (Corner (groupsFrom shape categories 0).flatten) n m := by
  rw [testBit_closure]
  · constructor
    · intro hWay
      generalize hj : index m = j at hWay
      induction hWay generalizing m with
      | single hStep =>
        obtain ⟨k, hk, hStep⟩ := (h.related_corners _ _).mp hStep
        obtain rfl := h.index_injective _ _ hk
        subst hj
        rcases hStep with hEq | ⟨l, hCorner, hEq⟩
        · exact h.index_injective _ _ hEq ▸ .refl
        · exact h.index_injective _ _ hEq ▸ .single hCorner
      | tail _ hStep ih =>
        obtain ⟨k, hk, hTo⟩ := (h.related_corners _ _).mp hStep
        have hWay := ih k hk.symm
        subst hj
        rcases hTo with hEq | ⟨l, hCorner, hEq⟩
        · exact h.index_injective _ _ hEq ▸ hWay
        · exact h.index_injective _ _ hEq ▸ hWay.tail hCorner
    · intro hWay
      induction hWay with
      | refl => exact .single ((h.related_corners _ _).mpr ⟨n, rfl, .inl rfl⟩)
      | tail _ hCorner ih =>
        exact ih.tail ((h.related_corners _ _).mpr ⟨_, rfl, .inr ⟨_, hCorner, rfl⟩⟩)
  · intro i j hRelated
    obtain ⟨k, _, hk⟩ := (h.related_corners _ _).mp hRelated
    rw [List.length_map]
    rcases hk with rfl | ⟨l, _, rfl⟩ <;> exact h.index_lt _

/-- The layout of an orderly grammar has the sets it should. -/
theorem facts (h : Orderly categories index shape) :
    LayoutFacts shape (Layout.of categories index shape)
      (groupsFrom shape categories 0).flatten := by
  obtain ⟨stop, hNumbered⟩ := numbered_groupsFrom shape categories 0
  have hSlots : ∀ n, (Layout.of categories index shape).slotsOf n = _ := fun n => by
    rw [Layout.slotsOf, Layout.of, Array.getD_eq_getD_getElem?, List.getElem?_toArray,
      List.getElem?_map, h.getElem?_index, Option.map_some, Option.getD_some]
  refine
    { rows := ⟨categories, ?_, h.mem, ?_⟩
      filled := h.filled
      unit := h.unit
      unique := Slot.unique hNumbered
      shape_of_mem := ?_
      exists_mem := ?_
      awaitsToken := ?_
      awaits := ?_
      ends := ?_
      begins := ?_
      bases := ?_ }
  · exact List.map_congr_left fun n _ => (hSlots n).symm
  · change categories.Pairwise fun a b => index a < index b
    rw [← List.pairwise_map, h.numbered]
    exact List.pairwise_lt_range
  · intro e he
    obtain ⟨start, hStart⟩ := h.group e.category
    have hMem := (h.mem_group e.category e).mpr ⟨he, rfl⟩
    rw [hStart] at hMem
    exact (mem_numberAlternatives hMem).2
  · intro n ss hss
    obtain ⟨start, hStart⟩ := h.group n
    obtain ⟨e, he, hSymbols⟩ := exists_mem_numberAlternatives n hss start
    rw [← hStart] at he
    obtain ⟨hFlat, hCategory⟩ := (h.mem_group n e).mp he
    exact ⟨e, hFlat, hCategory, hSymbols⟩
  · intro t b
    rw [Layout.awaitsToken, Layout.of, Array.getD_eq_getD_getElem?, List.getElem?_toArray,
      List.getElem?_map, all_getElem?_ctorIdx]
    exact testBit_awaited (code_injective h.index_injective) (.tok t) b
  · intro n b
    rw [hSlots]
    exact testBit_awaited (code_injective h.index_injective) (.cat n) b
  · intro n b
    rw [Layout.ends, hSlots, testBit_ofList, List.mem_map]
    constructor
    · rintro ⟨e, he, rfl⟩
      obtain ⟨hFlat, hCategory⟩ := (h.mem_group n e).mp he
      exact ⟨e, ⟨hFlat, Nat.le_refl _, rfl⟩, hCategory⟩
    · rintro ⟨e, hSlot, hCategory⟩
      exact ⟨e, (h.mem_group n e).mpr ⟨hSlot.mem, hCategory⟩, hSlot.eq.symm⟩
  · intro n b
    rw [Layout.begins, hSlots, h.testBit_beginning]
    exact exists_congr fun m => exists_congr fun e => and_congr_left fun _ =>
      h.related_reached n m
  · intro n
    obtain ⟨start, hStart⟩ := h.group n
    refine ⟨start, ?_, ?_⟩
    · rw [Layout.bases, hSlots]
      exact congrArg _ hStart
    · intro e he
      rw [← hStart] at he
      exact ((h.mem_group n e).mp he).1

end Orderly

end ClientBoundary.Grammar
