import ClientBoundary.Proofs.Chart

/-!
# Trees read off a chart

The preferred tree is found from the chart of a whole input: first an alternative that spans the
positions asked for, then, from right to left, where each of its symbols begins. Here it is shown
that what is found this way covers the tokens between the positions, no more and no less:

* `chain_starts` — the starts found for the symbols of an alternative lie side by side and fill the
  span of the alternative.
* `yield_tree` — the leaves of the tree between two positions are the tokens between them.
-/

namespace ClientBoundary.Grammar

open Column (Has)

variable {N : Type} {V : N → Type}

-- ---------------------------------------------------------------------------------------------
-- First and last tokens
-- ---------------------------------------------------------------------------------------------

mutual

theorem Tree.first?_eq {G : Grammar V} : {s : Symbol N} → (tree : Tree G s) →
    tree.first? = tree.yield.head?
  | _, .leaf _ _ _ => rfl
  | _, .node _ _ children => Forest.first?_eq children

theorem Forest.first?_eq {G : Grammar V} : {ss : List (Symbol N)} → (f : Forest G ss) →
    f.first? = f.yield.head?
  | _, .nil => rfl
  | _, .cons _ _ tree rest => by
    rw [Forest.first?, Forest.yield, Tree.first?_eq tree, Forest.first?_eq rest,
      List.head?_append]

end

mutual

theorem Tree.last?_eq {G : Grammar V} : {s : Symbol N} → (tree : Tree G s) →
    tree.last? = tree.yield.getLast?
  | _, .leaf _ _ _ => rfl
  | _, .node _ _ children => Forest.last?_eq children

theorem Forest.last?_eq {G : Grammar V} : {ss : List (Symbol N)} → (f : Forest G ss) →
    f.last? = f.yield.getLast?
  | _, .nil => rfl
  | _, .cons _ _ tree rest => by
    rw [Forest.last?, Forest.yield, Tree.last?_eq tree, Forest.last?_eq rest,
      List.getLast?_append]

end

mutual

/-- The number of nodes of a tree. -/
def Tree.nodes {G : Grammar V} : {s : Symbol N} → Tree G s → Nat
  | _, .leaf _ _ _ => 1
  | _, .node _ _ children => children.nodes + 1

/-- The number of nodes of a forest. -/
def Forest.nodes {G : Grammar V} : {ss : List (Symbol N)} → Forest G ss → Nat
  | _, .nil => 0
  | _, .cons _ _ tree rest => tree.nodes + rest.nodes

end

-- ---------------------------------------------------------------------------------------------
-- Phrases
-- ---------------------------------------------------------------------------------------------

section Phrases

variable {G : Grammar V}

mutual

/-- The tokens of the outermost phrases whose category is in `p`. -/
def Tree.phrases (p : N → Bool) : {s : Symbol N} → Tree G s → List (List Token)
  | _, .leaf _ _ _ => []
  | _, .node n _ children => if p n then [children.yield] else children.phrases p

/-- The tokens of the outermost phrases whose category is in `p`, of phrases side by side. -/
def Forest.phrases (p : N → Bool) : {ss : List (Symbol N)} → Forest G ss →
    List (List Token)
  | _, .nil => []
  | _, .cons _ _ tree rest => tree.phrases p ++ rest.phrases p

end

theorem Tree.phrases_of_mem {p : N → Bool} {n : N} (hMem : p n = true)
    (tree : Tree G (.cat n)) : tree.phrases p = [tree.yield] := by
  cases tree with
  | node _ i children => rw [Tree.phrases, if_pos hMem, Tree.yield]

mutual

theorem Tree.sublist_of_phrases {p : N → Bool} : {s : Symbol N} → (tree : Tree G s) →
    ∀ ts ∈ tree.phrases p, ts.Sublist tree.yield
  | _, .leaf _ _ _, ts, h => by cases h
  | _, .node n _ children, ts, h => by
    rw [Tree.phrases] at h
    split at h
    · rw [List.mem_singleton.mp h]
      exact List.Sublist.refl _
    · exact Forest.sublist_of_phrases children ts h

theorem Forest.sublist_of_phrases {p : N → Bool} : {ss : List (Symbol N)} →
    (f : Forest G ss) → ∀ ts ∈ f.phrases p, ts.Sublist f.yield
  | _, .nil, ts, h => by cases h
  | _, .cons _ _ tree rest, ts, h => by
    rw [Forest.phrases] at h
    rw [Forest.yield]
    rcases List.mem_append.mp h with h | h
    · exact (Tree.sublist_of_phrases tree ts h).trans (List.sublist_append_left _ _)
    · exact (Forest.sublist_of_phrases rest ts h).trans (List.sublist_append_right _ _)

end

end Phrases

-- ---------------------------------------------------------------------------------------------
-- Side by side
-- ---------------------------------------------------------------------------------------------

/-- Symbols side by side from `i` to `stop`, each with the position where it begins, the first of
them being number `k`; `P` says which symbol lies between which positions. -/
inductive Chain (P : Nat → Symbol N → Nat → Nat → Prop) :
    (k : Nat) → List (Symbol N) → (i : Nat) → List Nat → (stop : Nat) → Prop where
  | nil (k i : Nat) : Chain P k [] i [] i
  | cons {s : Symbol N} {ss : List (Symbol N)} {k i m stop : Nat} {starts : List Nat}
      (hFirst : P k s i m) (hRest : Chain P (k + 1) ss m starts stop) :
      Chain P k (s :: ss) i (i :: starts) stop

theorem Chain.headD {P : Nat → Symbol N → Nat → Nat → Prop} {ss : List (Symbol N)}
    {k i stop : Nat} {starts : List Nat} (h : Chain P k ss i starts stop) :
    starts.headD stop = i := by
  cases h <;> rfl

/-- What lies between two positions: one terminal, or a phrase that the chart knows. -/
def Between (shape : N → List (List (Symbol N))) (start : N) (w : List Terminal) :
    Symbol N → Nat → Nat → Prop
  | .tok t, i, j => j = i + 1 ∧ w[i]? = some t
  | .cat n, i, j => ∃ α, Item shape start w n α α.length i j

/-- Symbol number `k` of the alternative `α`, begun at `i`, lies between two positions, and it
could not begin any later. -/
def Latest (shape : N → List (List (Symbol N))) (start : N) (w : List Terminal) (n : N)
    (α : List (Symbol N)) (i k : Nat) (s : Symbol N) (j m : Nat) : Prop :=
  Between shape start w s j m ∧
    ∀ l, j < l → Item shape start w n α k i l → ¬ Between shape start w s l m

section Starts

variable {shape : N → List (List (Symbol N))} {L : Layout N} {entries : List (Entry N)}
  {start : N} {chart : Chart} {w : List Terminal}

theorem Between.lt (hL : LayoutFacts shape L entries) {s : Symbol N} {i j : Nat}
    (h : Between shape start w s i j) : i < j := by
  cases s with
  | tok t => exact h.1 ▸ Nat.lt_succ_self i
  | cat n =>
    obtain ⟨α, hItem⟩ := h
    have hPos : α.length ≠ 0 := by
      intro hZero
      rw [List.length_eq_zero_iff] at hZero
      subst hZero
      exact hL.filled n hItem.mem
    have := hItem.span hL.filled
    omega

theorem Chain.le (hL : LayoutFacts shape L entries) {n : N} {α ss : List (Symbol N)}
    {i k j stop : Nat} {starts : List Nat}
    (h : Chain (Latest shape start w n α i) k ss j starts stop) : j ≤ stop := by
  induction h with
  | nil => exact Nat.le_refl _
  | cons hFirst _ ih => exact Nat.le_trans (Nat.le_of_lt (hFirst.1.lt hL)) ih

/-- A phrase that the chart knows makes its column an entry that the category's ends meet. -/
theorem exists_mem_ends (hL : LayoutFacts shape L entries)
    (h : Represents shape start entries chart w) {n : N} {m stop : Nat}
    (hBetween : Between shape start w (.cat n) m stop) :
    ∃ bits, (m, bits) ∈ chart.getD stop [] ∧ bits &&& L.ends n ≠ 0 := by
  obtain ⟨α, hDone⟩ := hBetween
  obtain ⟨f, hf, rfl, rfl⟩ := hL.exists_mem n α hDone.mem
  have hEnd : Slot entries (f.base + f.symbols.length) f f.symbols.length :=
    ⟨hf, Nat.le_refl _, rfl⟩
  obtain ⟨bits, hMem, hBit⟩ := (h.has m stop _).mpr ⟨f, _, hEnd, hDone⟩
  exact ⟨bits, hMem, land_ne_zero_iff.mpr ⟨_, hBit, (hL.ends _ _).mpr ⟨f, hEnd, rfl⟩⟩⟩

theorem lastStart_eq_some (hL : LayoutFacts shape L entries)
    (h : Represents shape start entries chart w) {n : N} {i slot stop m : Nat}
    (hLast : chart.lastStart L n i slot stop = some m) :
    Between shape start w (.cat n) m stop ∧ chart.has i m slot = true := by
  obtain ⟨⟨p, bits⟩, hMem, hFound⟩ := List.exists_of_findSome?_eq_some hLast
  dsimp only at hFound
  split at hFound
  · rename_i hBoth
    cases hFound
    rw [Bool.and_eq_true, decide_eq_true_eq] at hBoth
    obtain ⟨hEnds, hHas⟩ := hBoth
    obtain ⟨b, hb, hEnd⟩ := land_ne_zero_iff.mp hEnds
    obtain ⟨e, k, hSlot, hItem⟩ := (h.has m stop b).mp ⟨bits, hMem, hb⟩
    obtain ⟨f, hLastSlot, rfl⟩ := (hL.ends n b).mp hEnd
    obtain ⟨rfl, rfl⟩ := hL.unique hSlot hLastSlot
    exact ⟨⟨_, hItem⟩, hHas⟩
  · cases hFound

/-- The start found is the last there is: the column lists later positions first. -/
theorem lastStart_last (hL : LayoutFacts shape L entries)
    (h : Represents shape start entries chart w) {n : N} {i slot stop m l : Nat}
    (hLast : chart.lastStart L n i slot stop = some m) (hLater : m < l)
    (hHas : chart.has i l slot = true) : ¬ Between shape start w (.cat n) l stop := by
  intro hBetween
  obtain ⟨bits, hMem, hEnds⟩ := exists_mem_ends hL h hBetween
  have hSorted := (h.sorted stop).1
  obtain ⟨front, ⟨p, found⟩, back, hColumn, hFound, hFront⟩ := List.findSome?_eq_some_iff.mp hLast
  obtain rfl : p = m := by
    dsimp only at hFound
    split at hFound
    · exact Option.some.inj hFound
    · cases hFound
  rw [hColumn] at hMem hSorted
  rcases List.mem_append.mp hMem with hMem | hMem
  · have hNone := hFront _ hMem
    simp [hEnds, hHas] at hNone
  · have hBelow := (List.pairwise_append.mp hSorted).2.1
    rcases List.mem_cons.mp hMem with hEq | hMem
    · cases hEq
      exact Nat.lt_irrefl _ hLater
    · exact Nat.lt_asymm hLater ((List.pairwise_cons.mp hBelow).1 _ hMem)

/-- The item before one whose mark stands after a terminal. -/
theorem Item.before_token {n : N} {α : List (Symbol N)} {k i j : Nat} {t : Terminal}
    (h : Item shape start w n α (k + 1) i j) (hSymbol : α[k]? = some (.tok t)) :
    ∃ l, j = l + 1 ∧ w[l]? = some t ∧ Item shape start w n α k i l := by
  cases h with
  | scan hItem hNext hToken =>
    rw [hSymbol] at hNext
    cases hNext
    exact ⟨_, rfl, hToken, hItem⟩
  | complete _ hNext =>
    rw [hSymbol] at hNext
    cases hNext

/-- The starts found for the symbols before a mark lie side by side from the start of the item
to the mark, each as late as it can. -/
theorem chain_starts (hL : LayoutFacts shape L entries)
    (h : Represents shape start entries chart w) {e : Entry N} (he : e ∈ entries) {i : Nat}
    {before after : List (Symbol N)} (hSymbols : e.symbols = before.reverse ++ after)
    {stop j : Nat} {found result : List Nat}
    (hItem : Item shape start w e.category e.symbols before.length i stop)
    (hFound : Chain (Latest shape start w e.category e.symbols i) before.length after stop found j)
    (hStarts : chart.starts L i before (e.base + before.length) stop found = some result) :
    Chain (Latest shape start w e.category e.symbols i) 0 e.symbols i result j := by
  induction before generalizing after stop found with
  | nil =>
    have hSpan := hItem.span hL.filled
    obtain rfl : i = stop := by
      rw [List.length_nil] at hSpan
      omega
    rw [Chart.starts] at hStarts
    cases hStarts
    have hSame : e.symbols = after := by simpa using hSymbols
    rwa [← hSame] at hFound
  | cons s before ih =>
    have hSymbol : e.symbols[before.length]? = some s := by simp [hSymbols]
    have hSplit : e.symbols = before.reverse ++ (s :: after) := by simp [hSymbols]
    have hSlot : e.base + (s :: before).length - 1 = e.base + before.length := by
      simp only [List.length_cons]
      omega
    cases s with
    | tok t =>
      obtain ⟨l, rfl, hToken, hBefore⟩ := hItem.before_token hSymbol
      rw [Chart.starts, hSlot] at hStarts
      refine ih hSplit hBefore (.cons ⟨⟨rfl, hToken⟩, fun l hLater _ hBetween => ?_⟩ hFound) hStarts
      have := hBetween.1
      omega
    | cat n =>
      rw [Chart.starts, hSlot] at hStarts
      split at hStarts
      · cases hStarts
      · rename_i m hLast
        obtain ⟨hBetween, hHas⟩ := lastStart_eq_some hL h hLast
        obtain ⟨f, k, hAt, hBefore⟩ := (h.slots i m _).mp hHas
        have hBound : before.length ≤ e.symbols.length := by simp [hSplit]
        obtain ⟨rfl, rfl⟩ := hL.unique hAt ⟨he, hBound, rfl⟩
        refine ih hSplit hBefore (.cons ⟨hBetween, fun l hLater hItem => ?_⟩ hFound) hStarts
        exact lastStart_last hL h hLast hLater ((h.slots i l _).mpr ⟨_, _, ⟨he, hBound, rfl⟩, hItem⟩)

end Starts

-- ---------------------------------------------------------------------------------------------
-- Trees
-- ---------------------------------------------------------------------------------------------

section Trees

variable {G : Grammar V} {L : Layout N} {entries : List (Entry N)} {start : N} {chart : Chart}
  {tokens : Array Token}

/-- The tokens from one position up to another. -/
abbrev tokensFromTo (tokens : Array Token) (i j : Nat) : List Token :=
  (tokens.toList.drop i).take (j - i)

theorem tokensFromTo_append {i m j : Nat} (him : i ≤ m) (hmj : m ≤ j) :
    tokensFromTo tokens i m ++ tokensFromTo tokens m j = tokensFromTo tokens i j := by
  have hDrop : tokens.toList.drop m = (tokens.toList.drop i).drop (m - i) := by
    rw [List.drop_drop]
    congr 1
    omega
  rw [tokensFromTo, tokensFromTo, tokensFromTo, hDrop, ← List.take_add]
  congr 1
  omega

/-- Each alternative of a category has its entry, and is looked up together with it. -/
theorem exists_entry (hL : LayoutFacts G.shape L entries) (n : N)
    (a : Fin (G.rule n).alternatives.length) :
    ∃ e ∈ entries, e.category = n ∧ e.symbols = ((G.rule n).alternatives.get a).symbols ∧
      ((List.finRange (G.rule n).alternatives.length).zip (L.bases n))[a.val]? =
        some (a, e.base) := by
  obtain ⟨first, hBases, hEntries⟩ := hL.bases n
  have hShape := congrArg (·[a.val]?) (map_symbols_numberAlternatives n (G.shape n) first)
  simp only [List.getElem?_map, shape, List.getElem?_eq_getElem a.isLt, Option.map_some] at hShape
  obtain ⟨e, hEntry, hSymbols⟩ := Option.map_eq_some_iff.mp hShape
  have hMem := List.mem_of_getElem? hEntry
  refine ⟨e, hEntries e hMem, (mem_numberAlternatives hMem).1, hSymbols, ?_⟩
  rw [hBases, List.getElem?_zip_eq_some, List.getElem?_map]
  refine ⟨by simp, ?_⟩
  rw [show shape G n = (G.rule n).alternatives.map (·.symbols) from rfl, hEntry]
  rfl

/-- The alternative chosen for a category spans the positions asked for. -/
theorem alternative?_eq_some (hL : LayoutFacts G.shape L entries)
    {w : List Terminal} (h : Represents G.shape start entries chart w) {n : N} {i j : Nat}
    {a : Fin (G.rule n).alternatives.length} {slot : Nat}
    (hAlt : Chart.alternative? G L chart n i j = some (a, slot)) :
    ∃ e ∈ entries, e.category = n ∧ e.symbols = ((G.rule n).alternatives.get a).symbols ∧
      slot = e.base + e.symbols.length ∧
      Item G.shape start w e.category e.symbols e.symbols.length i j := by
  obtain ⟨⟨a', base⟩, hMem, hFound⟩ := List.exists_of_findSome?_eq_some hAlt
  dsimp only at hFound
  split at hFound
  · rename_i hHas
    cases hFound
    obtain ⟨e, he, hCategory, hSymbols, hEntry⟩ := exists_entry hL n a
    obtain rfl : base = e.base := by
      obtain ⟨p, hp⟩ := List.getElem?_of_mem hMem
      obtain ⟨hLt, hIndex⟩ := List.getElem?_eq_some_iff.mp (List.getElem?_zip_eq_some.mp hp).1
      obtain rfl : p = a.val := by simpa using congrArg Fin.val hIndex
      rw [hp] at hEntry
      exact congrArg Prod.snd (Option.some.inj hEntry)
    refine ⟨e, he, hCategory, hSymbols, by rw [hSymbols], ?_⟩
    obtain ⟨f, k, hSlot, hItem⟩ := (h.slots i j _).mp hHas
    obtain ⟨rfl, rfl⟩ := hL.unique hSlot ⟨he, Nat.le_refl _, by rw [hSymbols]⟩
    exact hItem
  · cases hFound

/-- The alternative chosen for a category is the first that spans the positions. -/
theorem alternative?_first (hL : LayoutFacts G.shape L entries)
    {w : List Terminal} (h : Represents G.shape start entries chart w) {n : N} {i j : Nat}
    {a b : Fin (G.rule n).alternatives.length} {slot : Nat}
    (hAlt : Chart.alternative? G L chart n i j = some (a, slot)) (hBefore : b < a) :
    ¬ Item G.shape start w n ((G.rule n).alternatives.get b).symbols
      ((G.rule n).alternatives.get b).symbols.length i j := by
  intro hItem
  obtain ⟨e, he, rfl, hSymbols, hEntry⟩ := exists_entry hL n b
  obtain ⟨front, ⟨a', base⟩, back, hZip, hFound, hFront⟩ := List.findSome?_eq_some_iff.mp hAlt
  obtain rfl : a' = a := by
    dsimp only at hFound
    split at hFound
    · exact (Prod.mk.inj (Option.some.inj hFound)).1
    · cases hFound
  -- the alternatives are tried in order, so those before the chosen one stand in front
  have hLength : front.length = a'.val := by
    have hAt : (front ++ (a', base) :: back)[front.length]? = some (a', base) := by simp
    rw [← hZip] at hAt
    obtain ⟨_, hIndex⟩ := List.getElem?_eq_some_iff.mp (List.getElem?_zip_eq_some.mp hAt).1
    simpa using congrArg Fin.val hIndex
  rw [hZip, List.getElem?_append_left (by rw [hLength]; exact hBefore)] at hEntry
  have hNone := hFront _ (List.mem_of_getElem? hEntry)
  have hHas : chart.has i j (e.base + e.symbols.length) = true :=
    (h.slots i j _).mpr ⟨e, _, ⟨he, Nat.le_refl _, rfl⟩, hSymbols ▸ hItem⟩
  dsimp only at hNone
  rw [← hSymbols, hHas] at hNone
  cases hNone

/-- Trees side by side cover what lies between the ends. -/
theorem yield_forest (hL : LayoutFacts G.shape L entries) {w : List Terminal}
    {sub : (s : Symbol N) → Nat → Nat → Option (Tree G s)}
    (hSub : ∀ s i j (tree : Tree G s), Between G.shape start w s i j → sub s i j = some tree →
      tree.yield = tokensFromTo tokens i j)
    {n : N} {α ss : List (Symbol N)} {i k j stop : Nat} {starts : List Nat}
    (hChain : Chain (Latest G.shape start w n α i) k ss j starts stop) {f : Forest G ss}
    (hForest : Chart.forest G sub stop ss starts = some f) :
    f.yield = tokensFromTo tokens j stop := by
  induction hChain with
  | nil k j =>
    cases hForest
    simp [Forest.yield, tokensFromTo]
  | @cons s ss k j m stop starts hFirst hRest ih =>
    rw [Chart.forest, hRest.headD] at hForest
    split at hForest
    · rename_i tree rest hTree hTrees
      cases hForest
      rw [Forest.yield, hSub s j m tree hFirst.1 hTree, ih hTrees]
      exact tokensFromTo_append (Nat.le_of_lt (hFirst.1.lt hL)) (hRest.le hL)
    · cases hForest

theorem yield_leaf {depth : Nat} {t : Terminal} {i j : Nat} {tree : Tree G (.tok t)}
    (hTree : Chart.tree G L chart tokens depth (.tok t) i j = some tree) :
    tree.yield = tokensFromTo tokens i (i + 1) := by
  unfold Chart.tree at hTree
  split at hTree
  · rename_i token hToken
    split at hTree
    · cases hTree
      rw [← Array.getElem?_toList] at hToken
      obtain ⟨hLt, hEq⟩ := List.getElem?_eq_some_iff.mp hToken
      rw [Tree.yield, tokensFromTo, Nat.add_sub_cancel_left, List.drop_eq_getElem_cons hLt, hEq]
      rfl
    · cases hTree
  · cases hTree

/-- The leaves of the tree between two positions are the tokens between them. -/
theorem yield_tree (hL : LayoutFacts G.shape L entries) {w : List Terminal}
    (h : Represents G.shape start entries chart w) {depth : Nat} {s : Symbol N} {i j : Nat}
    {tree : Tree G s} (hToken : ∀ t, s = .tok t → j = i + 1)
    (hTree : Chart.tree G L chart tokens depth s i j = some tree) :
    tree.yield = tokensFromTo tokens i j := by
  induction depth generalizing s i j with
  | zero =>
    cases s with
    | tok t => exact hToken t rfl ▸ yield_leaf hTree
    | cat n => cases hTree
  | succ depth ih =>
    cases s with
    | tok t => exact hToken t rfl ▸ yield_leaf hTree
    | cat n =>
      rw [Chart.tree] at hTree
      split at hTree
      · cases hTree
      · rename_i a slot hAlt
        split at hTree
        · cases hTree
        · rename_i found hStarts
          split at hTree
          · cases hTree
          · rename_i f hForest
            cases hTree
            obtain ⟨e, he, rfl, hSymbols, rfl, hItem⟩ := alternative?_eq_some hL h hAlt
            rw [← List.length_reverse] at hItem
            rw [← hSymbols, ← List.length_reverse] at hStarts
            have hChain := chain_starts hL h he (List.append_nil _ ▸ (List.reverse_reverse _).symm)
              hItem (.nil _ j) hStarts
            rw [hSymbols] at hChain
            rw [Tree.yield]
            refine yield_forest hL (fun s i j tree hs hTree => ih (fun t ht => ?_) hTree) hChain hForest
            subst ht
            exact hs.1

end Trees

end ClientBoundary.Grammar
