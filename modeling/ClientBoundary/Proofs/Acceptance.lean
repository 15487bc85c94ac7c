import ClientBoundary.Proofs.ModuleTree

/-!
# What is derivable is accepted

`Derives` speaks of trees, recognition of charts. A tree leaves its traces in the chart: the mark of
an item moves over it, and each of its terminals is waited for when its turn comes
(`Item.over_tree`). So recognition goes through to the end on every derivable sequence of terminals,
and the tree that is then read off the chart exists: what is looked for at each step is there
(`starts_isSome`, `alternative?_isSome`), and the bound on the depth of the tree is never reached,
because a phrase that is as long as the one around it is of a smaller category (`tree_isSome`).

* `syntaxTree_of_derives` — tokens whose terminals are derivable have a tree.
-/

namespace ClientBoundary

namespace Grammar

variable {N : Type} {V : N → Type}

theorem drop_prefix_append {α : Type} {w xs ys : List α} {j : Nat} (h : xs ++ ys <+: w.drop j) :
    xs <+: w.drop j ∧ ys <+: w.drop (j + xs.length) := by
  obtain ⟨rest, hRest⟩ := h
  refine ⟨⟨ys ++ rest, by rw [← hRest, List.append_assoc]⟩, ⟨rest, ?_⟩⟩
  rw [← List.drop_drop, ← hRest, List.append_assoc, List.drop_left]

theorem getElem?_of_prefix_drop {α : Type} {w : List α} {a : α} {j : Nat} (h : [a] <+: w.drop j) :
    w[j]? = some a := by
  obtain ⟨rest, hRest⟩ := h
  have hHead : (w.drop j)[0]? = some a := by rw [← hRest]; rfl
  rwa [List.getElem?_drop, Nat.add_zero] at hHead

-- ---------------------------------------------------------------------------------------------
-- The traces of a tree
-- ---------------------------------------------------------------------------------------------

section Traces

variable {G : Grammar V} {start : N} {w : List Terminal}

/-- An item waits for the terminal at a position. -/
def Awaited (shape : N → List (List (Symbol N))) (start : N) (w : List Terminal) (p : Nat) : Prop :=
  ∃ n α k i t, Item shape start w n α k i p ∧ α[k]? = some (.tok t) ∧ w[p]? = some t

/-- Every terminal from `j` on for a length is waited for. -/
def AwaitedFrom (shape : N → List (List (Symbol N))) (start : N) (w : List Terminal)
    (j length : Nat) : Prop :=
  ∀ p, j ≤ p → p < j + length → Awaited shape start w p

mutual

/-- The mark of an item moves over a tree of the symbol that it waits for, and on the way each leaf
of the tree is waited for. -/
theorem Item.over_tree : {s : Symbol N} → (tree : Tree G s) → {m : N} → {β : List (Symbol N)} →
    {k i j : Nat} → Item G.shape start w m β k i j → β[k]? = some s →
    tree.yield.map Token.kind <+: w.drop j →
    AwaitedFrom G.shape start w j tree.yield.length ∧
      Item G.shape start w m β (k + 1) i (j + tree.yield.length)
  | _, .leaf t token h, m, β, k, i, j, hItem, hNext, hYield => by
    subst h
    have hToken := getElem?_of_prefix_drop hYield
    refine ⟨fun p hLe hLt => ?_, .scan hItem hNext hToken⟩
    rw [Tree.yield, List.length_singleton] at hLt
    obtain rfl : p = j := by omega
    exact ⟨m, β, k, i, _, hItem, hNext, hToken⟩
  | _, .node n a children, m, β, k, i, j, hItem, hNext, hYield => by
    have hShape : ((G.rule n).alternatives.get a).symbols ∈ G.shape n :=
      List.mem_map_of_mem (List.get_mem _ _)
    obtain ⟨hAwaited, hDone⟩ :=
      Item.over_forest children (.predict hItem hNext hShape) List.drop_zero hYield
    exact ⟨hAwaited, .complete hItem hNext hDone⟩

theorem Item.over_forest : {ss : List (Symbol N)} → (f : Forest G ss) → {n : N} →
    {α : List (Symbol N)} → {k i j : Nat} → Item G.shape start w n α k i j → α.drop k = ss →
    f.yield.map Token.kind <+: w.drop j →
    AwaitedFrom G.shape start w j f.yield.length ∧
      Item G.shape start w n α α.length i (j + f.yield.length)
  | _, .nil, n, α, k, i, j, hItem, hRest, _ => by
    have hLe := hItem.le_length
    have hGe := List.drop_eq_nil_iff.mp hRest
    obtain rfl : k = α.length := by omega
    refine ⟨fun p hLe hLt => ?_, hItem⟩
    rw [Forest.yield, List.length_nil] at hLt
    omega
  | _, .cons s ss tree rest, n, α, k, i, j, hItem, hRest, hYield => by
    have hNext : α[k]? = some s := by
      rw [← List.head?_drop, hRest]
      rfl
    have hTail : α.drop (k + 1) = ss := by
      rw [← List.tail_drop, hRest]
      rfl
    rw [Forest.yield, List.map_append] at hYield
    obtain ⟨hFirst, hLater⟩ := drop_prefix_append hYield
    rw [List.length_map] at hLater
    obtain ⟨hAwaited, hOver⟩ := Item.over_tree tree hItem hNext hFirst
    obtain ⟨hAwaited', hDone⟩ := Item.over_forest rest hOver hTail hLater
    rw [Forest.yield, List.length_append, ← Nat.add_assoc]
    refine ⟨fun p hLe hLt => ?_, hDone⟩
    by_cases hIn : p < j + tree.yield.length
    · exact hAwaited p hLe hIn
    · exact hAwaited' p (by omega) (by omega)

end

/-- What a derivation of the whole input leaves: every terminal is waited for, and in the end a
phrase of the start category spans the input. -/
theorem traces_of_derives (h : Derives G (.cat start) w) :
    AwaitedFrom G.shape start w 0 w.length ∧
      ∃ α, Item G.shape start w start α α.length 0 w.length := by
  obtain ⟨tree, hKinds⟩ := h
  cases tree with
  | node n a children =>
    have hShape : ((G.rule start).alternatives.get a).symbols ∈ G.shape start :=
      List.mem_map_of_mem (List.get_mem _ _)
    have hYield : children.yield.map Token.kind = w := hKinds
    have hLength : children.yield.length = w.length := by rw [← hYield, List.length_map]
    obtain ⟨hAwaited, hDone⟩ := Item.over_forest children (.start hShape) List.drop_zero
      (show children.yield.map Token.kind <+: w.drop 0 by rw [hYield]; exact List.prefix_rfl)
    rw [hLength, Nat.zero_add] at hDone
    rw [hLength] at hAwaited
    exact ⟨hAwaited, _, hDone⟩

theorem between_of_derives (h : Derives G (.cat start) w) :
    Between G.shape start w (.cat start) 0 w.length :=
  (traces_of_derives h).2

end Traces

-- ---------------------------------------------------------------------------------------------
-- The tree of a chart
-- ---------------------------------------------------------------------------------------------

section Trees

variable {G : Grammar V} {L : Layout N} {entries : List (Entry N)} {start : N} {chart : Chart}
  {w : List Terminal}

theorem lastStart_isSome (hL : LayoutFacts G.shape L entries)
    (h : Represents G.shape start entries chart w) {e : Entry N} (he : e ∈ entries) {n : N}
    {k i stop : Nat} (hItem : Item G.shape start w e.category e.symbols (k + 1) i stop)
    (hSymbol : e.symbols[k]? = some (.cat n)) :
    (chart.lastStart L n i (e.base + k) stop).isSome = true := by
  cases hItem with
  | scan _ hNext =>
    rw [hSymbol] at hNext
    cases hNext
  | @complete _ n' _ α _ _ m _ hBefore hNext hDone =>
    rw [hSymbol] at hNext
    cases hNext
    obtain ⟨bits, hMem, hEnds⟩ := exists_mem_ends hL h ⟨α, hDone⟩
    have hHas : chart.has i m (e.base + k) = true :=
      (h.slots i m _).mpr ⟨e, k, ⟨he, hBefore.le_length, rfl⟩, hBefore⟩
    rw [Chart.lastStart, List.findSome?_isSome_iff]
    exact ⟨(m, bits), hMem, by simp [hEnds, hHas]⟩

/-- The starts of the symbols before the mark of an item are found. -/
theorem starts_isSome (hL : LayoutFacts G.shape L entries)
    (h : Represents G.shape start entries chart w) {e : Entry N} (he : e ∈ entries) {i : Nat}
    {before after : List (Symbol N)} (hSymbols : e.symbols = before.reverse ++ after)
    {stop : Nat} (hItem : Item G.shape start w e.category e.symbols before.length i stop)
    (found : List Nat) :
    (chart.starts L i before (e.base + before.length) stop found).isSome = true := by
  induction before generalizing after stop found with
  | nil => rfl
  | cons s before ih =>
    have hSymbol : e.symbols[before.length]? = some s := by simp [hSymbols]
    have hSplit : e.symbols = before.reverse ++ (s :: after) := by simp [hSymbols]
    have hSlot : e.base + (s :: before).length - 1 = e.base + before.length := by
      simp only [List.length_cons]
      omega
    cases s with
    | tok t =>
      obtain ⟨l, rfl, hToken, hBefore⟩ := hItem.before_token hSymbol
      rw [Chart.starts, hSlot]
      exact ih hSplit hBefore _
    | cat n =>
      rw [Chart.starts, hSlot]
      obtain ⟨m, hLast⟩ := Option.isSome_iff_exists.mp (lastStart_isSome hL h he hItem hSymbol)
      have hHas := (lastStart_eq_some hL h hLast).2
      obtain ⟨f, k, hAt, hBefore⟩ := (h.slots i m _).mp hHas
      have hBound : before.length ≤ e.symbols.length := by simp [hSplit]
      obtain ⟨rfl, rfl⟩ := hL.unique hAt ⟨he, hBound, rfl⟩
      rw [hLast]
      exact ih hSplit hBefore _

/-- Where a phrase of a category lies, one of its alternatives is found. -/
theorem alternative?_isSome (hL : LayoutFacts G.shape L entries)
    (h : Represents G.shape start entries chart w) {n : N} {α : List (Symbol N)} {i j : Nat}
    (hItem : Item G.shape start w n α α.length i j) :
    (Chart.alternative? G L chart n i j).isSome = true := by
  obtain ⟨alternative, hMem, rfl⟩ := List.mem_map.mp hItem.mem
  obtain ⟨a, rfl⟩ := List.get_of_mem hMem
  obtain ⟨e, he, rfl, hSymbols, hEntry⟩ := exists_entry hL n a
  rw [← hSymbols] at hItem
  have hHas : chart.has i j (e.base + e.symbols.length) = true :=
    (h.slots i j _).mpr ⟨e, _, ⟨he, Nat.le_refl _, rfl⟩, hItem⟩
  rw [Chart.alternative?, List.findSome?_isSome_iff]
  refine ⟨(a, e.base), List.mem_of_getElem? hEntry, ?_⟩
  simp only [← hSymbols, hHas, if_true, Option.isSome_some]

/-- Trees are found for symbols side by side when one is found for each of them. A symbol that
fills the whole place is the only one. -/
theorem forest_isSome (hL : LayoutFacts G.shape L entries)
    {sub : (s : Symbol N) → Nat → Nat → Option (Tree G s)} {n : N} {α ss : List (Symbol N)}
    {i k j stop : Nat} {starts : List Nat}
    (hChain : Chain (Latest G.shape start w n α i) k ss j starts stop)
    (hSub : ∀ s a b, Between G.shape start w s a b → j ≤ a → b ≤ stop →
      (a = j → b = stop → ss = [s]) → (sub s a b).isSome = true) :
    (Chart.forest G sub stop ss starts).isSome = true := by
  induction hChain with
  | nil => rfl
  | @cons s ss k j m stop starts hFirst hRest ih =>
    have hLt := hFirst.1.lt hL
    have hLe := hRest.le hL
    obtain ⟨tree, hTree⟩ := Option.isSome_iff_exists.mp
      (hSub s j m hFirst.1 (Nat.le_refl _) hLe fun _ hEnd => by
        cases hRest with
        | nil => rfl
        | cons hNext hLast =>
          have := hNext.1.lt hL
          have := hLast.le hL
          omega)
    obtain ⟨rest, hTrees⟩ := Option.isSome_iff_exists.mp
      (ih fun s a b hBetween ha hb _ => hSub s a b hBetween (by omega) hb (by omega))
    rw [Chart.forest, hRest.headD, hTree, hTrees]
    rfl

/-- A phrase inside another needs less depth: it is shorter, or of a smaller category. -/
theorem depth_lt {width a b n m depth : Nat} (hIndex : m < width)
    (hInside : a < b ∨ a = b ∧ m < n) (hDepth : b * (width + 1) + n < depth + 1) :
    a * (width + 1) + m < depth := by
  rcases hInside with hLt | ⟨rfl, hLt⟩
  · have hMul : (a + 1) * (width + 1) ≤ b * (width + 1) := Nat.mul_le_mul_right _ hLt
    rw [Nat.succ_mul] at hMul
    omega
  · omega

theorem leaf_isSome {tokens : Array Token} {depth : Nat} {t : Terminal} {i j : Nat}
    (hToken : (tokens.toList.map Token.kind)[i]? = some t) :
    (Chart.tree G L chart tokens depth (.tok t) i j).isSome = true := by
  rw [List.getElem?_map, Option.map_eq_some_iff] at hToken
  obtain ⟨token, hAt, hKind⟩ := hToken
  rw [Array.getElem?_toList] at hAt
  unfold Chart.tree
  simp [hAt, hKind]

/-- The tree between two positions is found. -/
theorem tree_isSome (hL : LayoutFacts G.shape L entries) {tokens : Array Token}
    (h : Represents G.shape start entries chart (tokens.toList.map Token.kind)) {width : Nat}
    (hIndex : ∀ n, L.index n < width) {depth : Nat} {s : Symbol N} {i j : Nat}
    (hBetween : Between G.shape start (tokens.toList.map Token.kind) s i j)
    (hDepth : ∀ n, s = .cat n → (j - i) * (width + 1) + L.index n < depth) :
    (Chart.tree G L chart tokens depth s i j).isSome = true := by
  induction depth generalizing s i j with
  | zero =>
    cases s with
    | tok t => exact leaf_isSome hBetween.2
    | cat n => exact absurd (hDepth n rfl) (Nat.not_lt_zero _)
  | succ depth ih =>
    cases s with
    | tok t => exact leaf_isSome hBetween.2
    | cat n =>
      obtain ⟨α, hItem⟩ := hBetween
      obtain ⟨⟨a, slot⟩, hAlt⟩ := Option.isSome_iff_exists.mp (alternative?_isSome hL h hItem)
      obtain ⟨e, he, rfl, hSymbols, rfl, hWhole⟩ := alternative?_eq_some hL h hAlt
      rw [← List.length_reverse] at hWhole
      have hSplit : e.symbols = e.symbols.reverse.reverse ++ [] := by simp
      obtain ⟨found, hFound⟩ := Option.isSome_iff_exists.mp (starts_isSome hL h he hSplit hWhole [])
      have hChain := chain_starts hL h he hSplit hWhole (.nil _ j) hFound
      rw [List.length_reverse, hSymbols] at hFound
      rw [hSymbols] at hChain
      have hForest : (Chart.forest G (Chart.tree G L chart tokens depth) j
          ((G.rule e.category).alternatives.get a).symbols found).isSome = true := by
        refine forest_isSome hL hChain fun s b c hInner hb hc hOnly => ih hInner fun m hm => ?_
        subst hm
        have hLt := hInner.lt hL
        refine depth_lt (hIndex m) ?_ (hDepth e.category rfl)
        by_cases hFills : b = i ∧ c = j
        · refine .inr ⟨by rw [hFills.1, hFills.2], hL.unit _ _ ?_⟩
          rw [← hOnly hFills.1 hFills.2]
          exact List.mem_map_of_mem (List.get_mem _ _)
        · exact .inl (by omega)
      obtain ⟨f, hTrees⟩ := Option.isSome_iff_exists.mp hForest
      rw [Chart.tree, hAlt]
      simp only [hSymbols, hFound, hTrees, Option.isSome_some]

end Trees

end Grammar

open Grammar

-- ---------------------------------------------------------------------------------------------
-- Modules
-- ---------------------------------------------------------------------------------------------

/-- Recognition goes on to the end of tokens that are all waited for. -/
theorem recognize_of_awaited {chart : Chart} (before tokens : List Token)
    (h : Recognized chart (before.map Token.kind))
    (hAwaited : AwaitedFrom moduleGrammar.shape .items ((before ++ tokens).map Token.kind) 0
      (before ++ tokens).length) :
    ∃ final, Reader.recognize chart tokens = .ok final := by
  induction tokens generalizing chart before with
  | nil => exact ⟨chart, rfl⟩
  | cons t ts ih =>
    have hSome : chart.next moduleLayout t.kind ≠ none := by
      intro hNone
      refine (next_eq_none_iff moduleLayout_facts h t.kind).mp hNone ?_
      obtain ⟨n, α, k, i, t', hItem, hNext, hToken⟩ :=
        hAwaited before.length (Nat.zero_le _) (by simp)
      obtain rfl : t.kind = t' := by simpa using hToken
      refine ⟨n, α, k, i, ?_, hNext⟩
      rw [List.length_map]
      refine hItem.congr moduleLayout_facts.filled fun p hp => ?_
      rw [List.map_append, List.getElem?_append_left (by simpa using hp)]
    obtain ⟨column, hColumn⟩ := Option.ne_none_iff_exists'.mp hSome
    have hPush : Recognized (chart.push column) ((before ++ [t]).map Token.kind) := by
      rw [List.map_append]
      exact represents_next moduleLayout_facts h hColumn
    rw [← List.singleton_append, ← List.append_assoc] at hAwaited
    obtain ⟨final, hFinal⟩ := ih _ hPush hAwaited
    refine ⟨final, ?_⟩
    rw [Reader.recognize, hColumn]
    exact hFinal

/-- A chart accepts what a phrase of the start category spans. -/
theorem accepts_of_item {chart : Chart} {w : List Terminal} (h : Recognized chart w)
    {α : List (Symbol Category)}
    (hItem : Item moduleGrammar.shape .items w .items α α.length 0 w.length) :
    chart.accepts moduleLayout .items = true := by
  obtain ⟨e, he, hCategory, rfl⟩ := moduleLayout_facts.exists_mem .items α hItem.mem
  have hSlot : Slot moduleEntries (e.base + e.symbols.length) e e.symbols.length :=
    ⟨he, Nat.le_refl _, rfl⟩
  have hHas := (h.slots 0 w.length _).mpr ⟨e, _, hSlot, hCategory ▸ hItem⟩
  have hEnds := (moduleLayout_facts.ends .items _).mpr ⟨e, hSlot, hCategory⟩
  rw [Chart.accepts, h.size, Nat.add_sub_cancel, decide_eq_true_eq]
  exact land_ne_zero_iff.mpr ⟨_, hHas, hEnds⟩

/-- A tree is found for tokens whose terminals are derivable. -/
theorem itemsTree?_of_derives {tokens : List Token}
    (h : Derives moduleGrammar (.cat .items) (tokens.map Token.kind)) :
    ∃ chart tree, Reader.recognize Reader.start tokens = .ok chart ∧
      chart.accepts moduleLayout .items = true ∧ Reader.itemsTree? tokens chart = some tree := by
  obtain ⟨hAwaited, α, hItem⟩ := traces_of_derives h
  rw [List.length_map] at hAwaited
  obtain ⟨chart, hChart⟩ := recognize_of_awaited [] tokens recognized_start hAwaited
  have hRecognized : Recognized chart (tokens.map Token.kind) :=
    recognized_recognize recognized_start hChart
  have hIndex (n : Category) : moduleLayout.index n < Category.all.length :=
    moduleGrammar_orderly.index_lt n
  have hTree : (Reader.itemsTree? tokens chart).isSome = true := by
    refine tree_isSome moduleLayout_facts hRecognized hIndex
      ⟨α, by simpa using hItem⟩ fun n hn => ?_
    have := hIndex n
    rw [Nat.sub_zero, Nat.succ_mul]
    omega
  obtain ⟨tree, hTree⟩ := Option.isSome_iff_exists.mp hTree
  exact ⟨chart, tree, hChart, accepts_of_item hRecognized hItem, hTree⟩

theorem ne_nil_of_derives {tokens : List Token}
    (h : Derives moduleGrammar (.cat .items) (tokens.map Token.kind)) : tokens ≠ [] := by
  rintro rfl
  exact Nat.lt_irrefl 0 ((between_of_derives h).lt moduleLayout_facts)

/-- Tokens whose terminals are derivable have a tree. -/
theorem syntaxTree_of_derives (source : Text) {lexing : Lexing} (hLexed : lexing.failure = none)
    (h : Derives moduleGrammar (.cat .items) (lexing.statements.map Token.kind)) :
    ∃ tree, Reader.syntaxTree source lexing = .ok (some tree) := by
  obtain ⟨chart, tree, hRun, hAccepts, hTree⟩ := itemsTree?_of_derives h
  exact ⟨tree, syntaxTree_of_run source hLexed (ne_nil_of_derives h) hRun hAccepts hTree⟩

end ClientBoundary
