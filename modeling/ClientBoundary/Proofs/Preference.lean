import ClientBoundary.Proofs.Acceptance

/-!
# The preferred tree

The grammar is ambiguous, and the tree that is read off a chart is one of many. Which one it is can
be said without the chart. A tree is *preferred* when each of its nodes follows the first
alternative that fits where the node stands, and each symbol of an alternative begins as late as it
can, given what comes after it. "Fits" is said with `Item`, that is, with the tokens to the left and
inside of a phrase only.

* `preferred_tree` — the tree read off a chart is preferred.
* `Tree.preferred_unique` — there is no other preferred tree over the same tokens.
* `syntaxTree_eq_some_iff` — so matching the tokens of a source gives their preferred tree.
-/

namespace ClientBoundary

namespace Grammar

variable {N : Type} {V : N → Type} {G : Grammar V}

mutual

/-- A tree whose first token stands at position `i` of `w` is the preferred one for its tokens. -/
def Tree.Preferred (start : N) (w : List Terminal) : {s : Symbol N} → Tree G s → (i : Nat) → Prop
  | _, .leaf _ _ _, _ => True
  | _, .node n a children, i =>
    (∀ b < a, ¬ Item G.shape start w n ((G.rule n).alternatives.get b).symbols
      ((G.rule n).alternatives.get b).symbols.length i (i + children.yield.length)) ∧
    children.Preferred start w n ((G.rule n).alternatives.get a).symbols i 0 i

/-- The trees from position `j` on, of the symbols from number `k` on of the alternative `α` that
begins at `i`, are preferred, and so are their starts. -/
def Forest.Preferred (start : N) (w : List Terminal) :
    {ss : List (Symbol N)} → Forest G ss → (n : N) → (α : List (Symbol N)) → (i k j : Nat) → Prop
  | _, .nil, _, _, _, _, _ => True
  | _, .cons s _ tree rest, n, α, i, k, j =>
    (∀ l, j < l → Item G.shape start w n α k i l →
      ¬ Between G.shape start w s l (j + tree.yield.length)) ∧
    tree.Preferred start w j ∧ rest.Preferred start w n α i (k + 1) (j + tree.yield.length)

end

-- ---------------------------------------------------------------------------------------------
-- The tree of a chart
-- ---------------------------------------------------------------------------------------------

section Chart

variable {L : Layout N} {entries : List (Entry N)} {start : N} {chart : Chart}
  {tokens : Array Token} {w : List Terminal}

theorem Between.stop_le {shape : N → List (List (Symbol N))} {s : Symbol N} {i j : Nat}
    (h : Between shape start w s i j) : j ≤ w.length := by
  cases s with
  | tok t =>
    obtain ⟨rfl, hToken⟩ := h
    exact (List.getElem?_eq_some_iff.mp hToken).1
  | cat n =>
    obtain ⟨α, hItem⟩ := h
    exact hItem.stop_le

/-- The tree between two positions has as many leaves as there are tokens between them. -/
theorem length_yield_tree (hL : LayoutFacts G.shape L entries)
    (h : Represents G.shape start entries chart (tokens.toList.map Token.kind)) {depth : Nat}
    {s : Symbol N} {i j : Nat} {tree : Tree G s}
    (hBetween : Between G.shape start (tokens.toList.map Token.kind) s i j)
    (hTree : Chart.tree G L chart tokens depth s i j = some tree) :
    i + tree.yield.length = j := by
  have hLt := hBetween.lt hL
  have hStop := hBetween.stop_le
  rw [List.length_map] at hStop
  have hToken (t : Terminal) (ht : s = .tok t) : j = i + 1 := by
    subst ht
    exact hBetween.1
  rw [yield_tree hL h hToken hTree, tokensFromTo, List.length_take, List.length_drop]
  omega

/-- Preferred trees with starts that are as late as possible are preferred side by side. -/
theorem preferred_forest {sub : (s : Symbol N) → Nat → Nat → Option (Tree G s)}
    (hSub : ∀ s i j (tree : Tree G s), Between G.shape start w s i j → sub s i j = some tree →
      i + tree.yield.length = j ∧ tree.Preferred start w i)
    {n : N} {α ss : List (Symbol N)} {i k j stop : Nat} {starts : List Nat}
    (hChain : Chain (Latest G.shape start w n α i) k ss j starts stop) {f : Forest G ss}
    (hForest : Chart.forest G sub stop ss starts = some f) : f.Preferred start w n α i k j := by
  induction hChain with
  | nil =>
    cases hForest
    trivial
  | @cons s ss k j m stop starts hFirst hRest ih =>
    rw [Chart.forest, hRest.headD] at hForest
    split at hForest
    · rename_i tree rest hTree hTrees
      cases hForest
      obtain ⟨hLength, hPreferred⟩ := hSub s j m tree hFirst.1 hTree
      rw [Forest.Preferred, hLength]
      exact ⟨hFirst.2, hPreferred, ih hTrees⟩
    · cases hForest

/-- The tree read off a chart is preferred. -/
theorem preferred_tree (hL : LayoutFacts G.shape L entries)
    (h : Represents G.shape start entries chart (tokens.toList.map Token.kind)) {depth : Nat}
    {s : Symbol N} {i j : Nat} {tree : Tree G s}
    (hBetween : Between G.shape start (tokens.toList.map Token.kind) s i j)
    (hTree : Chart.tree G L chart tokens depth s i j = some tree) :
    tree.Preferred start (tokens.toList.map Token.kind) i := by
  have hLength := length_yield_tree hL h hBetween hTree
  induction depth generalizing s i j with
  | zero =>
    cases s with
    | tok t => cases tree; trivial
    | cat n => cases hTree
  | succ depth ih =>
    cases s with
    | tok t => cases tree; trivial
    | cat n =>
      rw [Chart.tree] at hTree
      split at hTree
      · cases hTree
      · rename_i a slot hAlt
        split at hTree
        · cases hTree
        · rename_i found hStarts
          split at hTree
          · cases hTree
          · rename_i f hForest
            cases hTree
            rw [Tree.yield] at hLength
            rw [Tree.Preferred, hLength]
            refine ⟨fun b hb => alternative?_first hL h hAlt hb, ?_⟩
            obtain ⟨e, he, rfl, hSymbols, rfl, hItem⟩ := alternative?_eq_some hL h hAlt
            rw [← List.length_reverse] at hItem
            rw [← hSymbols, ← List.length_reverse] at hStarts
            have hChain := chain_starts hL h he (List.append_nil _ ▸ (List.reverse_reverse _).symm)
              hItem (.nil _ j) hStarts
            rw [hSymbols] at hChain
            refine preferred_forest (fun s i j tree hPart hTree => ?_) hChain hForest
            have hPartLength := length_yield_tree hL h hPart hTree
            exact ⟨hPartLength, ih hPart hTree hPartLength⟩

end Chart

-- ---------------------------------------------------------------------------------------------
-- Uniqueness
-- ---------------------------------------------------------------------------------------------

section Unique

variable {start : N} {tokens : List Token}

/-- A tree of the symbol that an item waits for lies between its ends. -/
theorem Tree.between {w : List Terminal} {s : Symbol N} (tree : Tree G s) {m : N}
    {β : List (Symbol N)} {k i j : Nat} (hItem : Item G.shape start w m β k i j)
    (hNext : β[k]? = some s) (hYield : tree.yield.map Token.kind <+: w.drop j) :
    Between G.shape start w s j (j + tree.yield.length) := by
  cases tree with
  | leaf t token h =>
    subst h
    exact ⟨rfl, getElem?_of_prefix_drop hYield⟩
  | node n a children =>
    have hShape : ((G.rule n).alternatives.get a).symbols ∈ G.shape n :=
      List.mem_map_of_mem (List.get_mem _ _)
    exact ⟨_, (Item.over_forest children (.predict hItem hNext hShape) List.drop_zero hYield).2⟩

theorem map_kind_prefix_drop {ts : List Token} {j : Nat} (h : ts <+: tokens.drop j) :
    ts.map Token.kind <+: (tokens.map Token.kind).drop j := by
  rw [← List.map_drop]
  exact h.map _

mutual

/-- Two preferred trees over the same tokens are one. -/
theorem Tree.preferred_unique : {s : Symbol N} → (tree tree' : Tree G s) → {i : Nat} →
    (∀ n, s = .cat n → Wanted G.shape start (tokens.map Token.kind) n i) →
    tree.yield <+: tokens.drop i → tree'.yield = tree.yield →
    tree.Preferred start (tokens.map Token.kind) i →
    tree'.Preferred start (tokens.map Token.kind) i → tree = tree'
  | _, .leaf t token h, .leaf _ token' h', _, _, _, hYield, _, _ => by
    obtain rfl : token' = token := List.singleton_inj.mp hYield
    rfl
  | _, .node n a children, .node _ a' children', i, hWanted, hAt, hYield, hPref, hPref' => by
    rw [Tree.yield, Tree.yield] at hYield
    rw [Tree.yield] at hAt
    have hShape (b : Fin (G.rule n).alternatives.length) :
        Item G.shape start (tokens.map Token.kind) n ((G.rule n).alternatives.get b).symbols 0 i i :=
      .of_wanted (hWanted n rfl) (List.mem_map_of_mem (List.get_mem _ _))
    have hDone := (Item.over_forest children (hShape a) List.drop_zero
      (map_kind_prefix_drop hAt)).2
    have hDone' := (Item.over_forest children' (hShape a') List.drop_zero
      (map_kind_prefix_drop (hYield ▸ hAt))).2
    -- each node follows the first alternative that fits, and both alternatives fit
    obtain rfl : a' = a := by
      rcases Nat.lt_trichotomy a' a with hLt | hEq | hLt
      · exact absurd (hYield ▸ hDone') (hPref.1 a' hLt)
      · exact Fin.ext hEq
      · exact absurd (hYield ▸ hDone) (hPref'.1 a hLt)
    have hSame := Forest.preferred_unique children children' (hShape a') (hShape a') List.drop_zero
      hAt (hYield ▸ hAt) (by rw [hYield]) hPref.2 hPref'.2
    rw [hSame.2]

/-- Preferred trees of the same symbols, up to the same end, begin at one position. -/
theorem Forest.preferred_unique : {ss : List (Symbol N)} → (f f' : Forest G ss) → {n : N} →
    {α : List (Symbol N)} → {i k j j' : Nat} →
    Item G.shape start (tokens.map Token.kind) n α k i j →
    Item G.shape start (tokens.map Token.kind) n α k i j' → α.drop k = ss →
    f.yield <+: tokens.drop j → f'.yield <+: tokens.drop j' →
    j + f.yield.length = j' + f'.yield.length →
    f.Preferred start (tokens.map Token.kind) n α i k j →
    f'.Preferred start (tokens.map Token.kind) n α i k j' → j = j' ∧ f = f'
  | _, .nil, .nil, _, _, _, _, _, _, _, _, _, _, _, hStop, _, _ => ⟨hStop, rfl⟩
  | _, .cons s ss tree rest, .cons _ _ tree' rest', n, α, i, k, j, j', hItem, hItem', hSymbols,
      hAt, hAt', hStop, hPref, hPref' => by
    have hNext : α[k]? = some s := by
      rw [← List.head?_drop, hSymbols]
      rfl
    have hTail : α.drop (k + 1) = ss := by
      rw [← List.tail_drop, hSymbols]
      rfl
    obtain ⟨hLate, hTree, hRest⟩ := hPref
    obtain ⟨hLate', hTree', hRest'⟩ := hPref'
    rw [Forest.yield] at hAt hAt'
    obtain ⟨hFirst, hLater⟩ := drop_prefix_append hAt
    obtain ⟨hFirst', hLater'⟩ := drop_prefix_append hAt'
    have hKinds := map_kind_prefix_drop hFirst
    have hKinds' := map_kind_prefix_drop hFirst'
    simp only [Forest.yield, List.length_append] at hStop
    -- the symbols after this one come first, so this one ends at the same position in both
    obtain ⟨hEnd, hSame⟩ := Forest.preferred_unique rest rest'
      (Item.over_tree tree hItem hNext hKinds).2 (Item.over_tree tree' hItem' hNext hKinds').2
      hTail hLater hLater' (by omega) hRest hRest'
    -- and begins as late as it can in both
    obtain rfl : j = j' := by
      rcases Nat.lt_trichotomy j j' with hLt | hEq | hLt
      · exact absurd (hEnd ▸ tree'.between hItem' hNext hKinds') (hLate j' hLt hItem')
      · exact hEq
      · exact absurd (hEnd ▸ tree.between hItem hNext hKinds) (hLate' j hLt hItem)
    have hYield : tree'.yield = tree.yield :=
      (List.prefix_of_prefix_length_le hFirst' hFirst (by omega)).eq_of_length (by omega)
    have hWanted (m : N) (hs : s = .cat m) : Wanted G.shape start (tokens.map Token.kind) m j :=
      .inr ⟨n, α, k, i, hItem, hs ▸ hNext⟩
    rw [Tree.preferred_unique tree tree' hWanted hFirst hYield hTree hTree', hSame]
    exact ⟨rfl, rfl⟩

end

end Unique

end Grammar

open Grammar

/-- Matching the tokens of a source gives their preferred tree. -/
theorem syntaxTree_eq_some_iff {source : Text} {lexing : Lexing} {tree : ItemsTree} :
    Reader.syntaxTree source lexing = .ok (some tree) ↔
      lexing.failure = none ∧ tree.yield = lexing.statements ∧
        tree.Preferred .items (lexing.statements.map Token.kind) 0 := by
  -- some tree over the same tokens is found whenever there is one, and it is preferred
  have hFound (tree : ItemsTree) (hLexed : lexing.failure = none)
      (hYield : tree.yield = lexing.statements) :
      ∃ found, Reader.syntaxTree source lexing = .ok (some found) ∧
        found.yield = lexing.statements ∧
        found.Preferred .items (lexing.statements.map Token.kind) 0 := by
    have hDerives : Derives moduleGrammar (.cat .items) (lexing.statements.map Token.kind) :=
      ⟨tree, by rw [hYield]⟩
    obtain ⟨chart, found, hRun, hAccepts, hTree⟩ := itemsTree?_of_derives hDerives
    have hBetween := between_of_derives hDerives
    rw [List.length_map] at hBetween
    refine ⟨found, ?_, yield_itemsTree? hRun hTree, preferred_tree moduleLayout_facts
      (recognized_recognize recognized_start hRun) hBetween hTree⟩
    exact syntaxTree_of_run source hLexed (ne_nil_of_derives hDerives) hRun hAccepts hTree
  constructor
  · intro h
    obtain ⟨hLexed, hYield⟩ := syntaxTree_eq_ok h
    obtain ⟨found, hTree, -, hPreferred⟩ := hFound tree hLexed hYield
    rw [h] at hTree
    cases hTree
    exact ⟨hLexed, hYield, hPreferred⟩
  · rintro ⟨hLexed, hYield, hPreferred⟩
    obtain ⟨found, hTree, hFoundYield, hFoundPreferred⟩ := hFound tree hLexed hYield
    have hWanted (n : Category) (hn : Symbol.cat Category.items = .cat n) :
        Wanted moduleGrammar.shape .items (lexing.statements.map Token.kind) n 0 := by
      cases hn
      exact .inl ⟨rfl, rfl⟩
    rw [hTree, Tree.preferred_unique tree found hWanted
      (by rw [hYield]; exact List.prefix_rfl) (by rw [hYield, hFoundYield]) hPreferred
      hFoundPreferred]

end ClientBoundary
