import ClientBoundary.Proofs.ModuleTree

/-!
# Leftmost derivations

A tree is written down by the alternatives it chooses, from the top and from the left
(`Tree.choices`). Choices and leaves determine the tree: `ofChoices` builds it from them.

The chart looks at the kinds of tokens only, so the choices of the preferred tree are those of any
other tokens of the same kinds. `derivation?` takes them from tokens without text, which makes them a
matter of computation, and `syntaxTree_of_derivation` says that every source with tokens of these
kinds has the tree that is built from them.
-/

namespace ClientBoundary

namespace Grammar

variable {N : Type} {V : N → Type} {G : Grammar V}

-- ---------------------------------------------------------------------------------------------
-- Choices
-- ---------------------------------------------------------------------------------------------

mutual

/-- The alternatives that a tree chooses, each node before its children. -/
def Tree.choices : {s : Symbol N} → Tree G s → List Nat
  | _, .leaf .. => []
  | _, .node _ i children => i.val :: children.choices

/-- The alternatives that the trees of a forest choose, from left to right. -/
def Forest.choices : {ss : List (Symbol N)} → Forest G ss → List Nat
  | _, .nil => []
  | _, .cons _ _ tree rest => tree.choices ++ rest.choices

end

/-- Trees for a sequence of symbols, from a way to build the tree of one: the forest, and the
choices and tokens that are left. -/
def forestOfChoices (G : Grammar V)
    (sub : (s : Symbol N) → List Nat → List Token → Option (Tree G s × List Nat × List Token)) :
    (ss : List (Symbol N)) → List Nat → List Token → Option (Forest G ss × List Nat × List Token)
  | [], cs, ts => some (.nil, cs, ts)
  | s :: ss, cs, ts =>
    match sub s cs ts with
    | none => none
    | some (tree, cs, ts) =>
      match forestOfChoices G sub ss cs ts with
      | none => none
      | some (rest, cs, ts) => some (.cons s ss tree rest, cs, ts)

/-- The tree of a symbol that makes the given choices and has the given leaves, and the choices and
tokens that are left. `depth` bounds the nesting of the tree. -/
def ofChoices (G : Grammar V) : (depth : Nat) → (s : Symbol N) → List Nat → List Token →
    Option (Tree G s × List Nat × List Token)
  | _, .tok t, cs, token :: ts =>
    if h : token.kind = t then some (.leaf t token h, cs, ts) else none
  | depth + 1, .cat n, c :: cs, ts =>
    if h : c < (G.rule n).alternatives.length then
      match forestOfChoices G (ofChoices G depth) ((G.rule n).alternatives.get ⟨c, h⟩).symbols cs ts
        with
      | none => none
      | some (children, cs, ts) => some (.node n ⟨c, h⟩ children, cs, ts)
    else none
  | _, _, _, _ => none

mutual

/-- A tree is built again from its choices and its leaves. -/
theorem Tree.ofChoices_append : {s : Symbol N} → (tree : Tree G s) → (depth : Nat) →
    tree.choices.length ≤ depth → (cs : List Nat) → (ts : List Token) →
    ofChoices G depth s (tree.choices ++ cs) (tree.yield ++ ts) = some (tree, cs, ts)
  | _, .leaf t token h, depth, _, cs, ts => by
    cases depth with
    | zero => exact dif_pos h
    | succ depth => exact dif_pos h
  | _, .node n i children, depth, hDepth, cs, ts => by
    have hLength : children.choices.length + 1 ≤ depth := hDepth
    obtain ⟨depth, rfl⟩ : ∃ d, depth = d + 1 := ⟨depth - 1, by omega⟩
    have hForest := Forest.ofChoices_append children depth (by omega) cs ts
    rw [Tree.choices, Tree.yield, List.cons_append, ofChoices, dif_pos i.isLt, hForest]

theorem Forest.ofChoices_append : {ss : List (Symbol N)} → (f : Forest G ss) → (depth : Nat) →
    f.choices.length ≤ depth → (cs : List Nat) → (ts : List Token) →
    forestOfChoices G (ofChoices G depth) ss (f.choices ++ cs) (f.yield ++ ts) = some (f, cs, ts)
  | _, .nil, _, _, _, _ => rfl
  | _, .cons s ss tree rest, depth, hDepth, cs, ts => by
    have hLength : (tree.choices ++ rest.choices).length ≤ depth := hDepth
    rw [List.length_append] at hLength
    have hTree := Tree.ofChoices_append tree depth (by omega) (rest.choices ++ cs) (rest.yield ++ ts)
    have hRest := Forest.ofChoices_append rest depth (by omega) cs ts
    rw [Forest.choices, Forest.yield, List.append_assoc, List.append_assoc, forestOfChoices, hTree]
    show (match forestOfChoices G (ofChoices G depth) ss (rest.choices ++ cs) (rest.yield ++ ts) with
      | none => none
      | some (rest, cs, ts) => some (Forest.cons s ss tree rest, cs, ts)) = _
    rw [hRest]

end

-- ---------------------------------------------------------------------------------------------
-- Choices and kinds
-- ---------------------------------------------------------------------------------------------

/-- The choices of a sequence of symbols with given starts, from those of one. -/
def choicesOfForest (sub : Symbol N → Nat → Nat → Option (List Nat)) (stop : Nat) :
    List (Symbol N) → List Nat → Option (List Nat)
  | [], _ => some []
  | _ :: _, [] => none
  | s :: ss, i :: is =>
    match sub s i (is.headD stop), choicesOfForest sub stop ss is with
    | some cs, some ds => some (cs ++ ds)
    | _, _ => none

/-- The choices of the preferred tree, from the kinds of the tokens alone. -/
def chosen (G : Grammar V) (L : Layout N) (chart : Chart) (w : List Terminal) :
    (depth : Nat) → Symbol N → (i j : Nat) → Option (List Nat)
  | _, .tok t, i, _ => if w[i]? = some t then some [] else none
  | 0, .cat _, _, _ => none
  | depth + 1, .cat n, i, j =>
    match Chart.alternative? G L chart n i j with
    | none => none
    | some (a, slot) =>
      match chart.starts L i ((G.rule n).alternatives.get a).symbols.reverse slot j [] with
      | none => none
      | some found =>
        (choicesOfForest (chosen G L chart w depth) j ((G.rule n).alternatives.get a).symbols
          found).map (a.val :: ·)

theorem map_choices_forest (sub : (s : Symbol N) → Nat → Nat → Option (Tree G s)) (stop : Nat)
    (ss : List (Symbol N)) (is : List Nat) :
    (Chart.forest G sub stop ss is).map Forest.choices =
      choicesOfForest (fun s i j => (sub s i j).map Tree.choices) stop ss is := by
  induction ss generalizing is with
  | nil => rfl
  | cons s ss ih =>
    cases is with
    | nil => rfl
    | cons i is =>
      rw [Chart.forest, choicesOfForest, ← ih]
      cases sub s i (is.headD stop) with
      | none => rfl
      | some tree =>
        cases Chart.forest G sub stop ss is with
        | none => rfl
        | some f => rfl

/-- The preferred tree makes the choices that the kinds of the tokens say. -/
theorem map_choices_tree (L : Layout N) (chart : Chart) (tokens : Array Token) (depth : Nat)
    (s : Symbol N) (i j : Nat) :
    (Chart.tree G L chart tokens depth s i j).map Tree.choices =
      chosen G L chart (tokens.toList.map Token.kind) depth s i j := by
  have hLeaf : ∀ (depth : Nat) (t : Terminal) (i j : Nat),
      (Chart.tree G L chart tokens depth (.tok t) i j).map Tree.choices =
        if (tokens.toList.map Token.kind)[i]? = some t then some [] else none := by
    intro depth t i j
    rw [List.getElem?_map, Array.getElem?_toList, Chart.tree]
    cases tokens[i]? with
    | none => rfl
    | some token =>
      by_cases h : token.kind = t
      · simp [h, Tree.choices]
      · simp [h]
  induction depth generalizing s i j with
  | zero =>
    cases s with
    | tok t => exact hLeaf 0 t i j
    | cat n => rfl
  | succ depth ih =>
    cases s with
    | tok t => exact hLeaf (depth + 1) t i j
    | cat n =>
      have hSub : (fun s i j => (Chart.tree G L chart tokens depth s i j).map Tree.choices) =
          chosen G L chart (tokens.toList.map Token.kind) depth := by
        funext s i j
        exact ih s i j
      rw [Chart.tree, chosen]
      cases Chart.alternative? G L chart n i j with
      | none => rfl
      | some p =>
        obtain ⟨a, slot⟩ := p
        dsimp only
        cases chart.starts L i ((G.rule n).alternatives.get a).symbols.reverse slot j [] with
        | none => rfl
        | some found =>
          dsimp only
          rw [← hSub, ← map_choices_forest]
          cases Chart.forest G (Chart.tree G L chart tokens depth) j
            ((G.rule n).alternatives.get a).symbols found with
          | none => rfl
          | some f => rfl

end Grammar

-- ---------------------------------------------------------------------------------------------
-- The derivation of a source
-- ---------------------------------------------------------------------------------------------

namespace Reader

open Grammar (Chart)

/-- Match kinds of tokens against the grammar, after those that a chart was made from. -/
def recognizeKinds : Chart → List Terminal → Option Chart
  | chart, [] => some chart
  | chart, t :: w =>
    match chart.next moduleLayout t with
    | none => none
    | some column => recognizeKinds (chart.push column) w

/-- The leftmost derivation of the preferred tree of tokens with the given kinds, if they are a
whole list of items. -/
def derivation? (w : List Terminal) : Option (List Nat) :=
  match recognizeKinds start w with
  | none => none
  | some chart =>
    if chart.accepts moduleLayout .items then
      Grammar.chosen moduleGrammar moduleLayout chart w ((w.length + 1) * (Category.all.length + 1))
        (.cat .items) 0 w.length
    else none

theorem recognize_of_kinds {chart final : Chart} {tokens : List Token}
    (h : recognizeKinds chart (tokens.map Token.kind) = some final) :
    recognize chart tokens = .ok final := by
  induction tokens generalizing chart with
  | nil => exact congrArg Except.ok (Option.some.inj h)
  | cons t tokens ih =>
    rw [List.map_cons, recognizeKinds] at h
    rw [recognize]
    cases hNext : chart.next moduleLayout t.kind with
    | none =>
      rw [hNext] at h
      cases h
    | some column =>
      rw [hNext] at h
      exact ih h

/-- Tokens with a derivation have a tree, and it is the one that the derivation writes down. -/
theorem itemsTree?_of_derivation {tokens : List Token} {cs : List Nat}
    (h : derivation? (tokens.map Token.kind) = some cs) :
    ∃ chart tree, recognize start tokens = .ok chart ∧
      chart.accepts moduleLayout .items = true ∧ itemsTree? tokens chart = some tree ∧
      Grammar.ofChoices moduleGrammar cs.length (.cat .items) cs tokens = some (tree, [], []) := by
  unfold derivation? at h
  split at h
  · cases h
  · rename_i chart hKinds
    split at h
    · rename_i hAccepts
      have hRun := recognize_of_kinds hKinds
      have hChoices := Grammar.map_choices_tree (G := moduleGrammar) moduleLayout chart
        tokens.toArray ((tokens.length + 1) * (Category.all.length + 1)) (.cat .items) 0
        tokens.length
      rw [List.length_map] at h
      rw [List.toList_toArray, h] at hChoices
      obtain ⟨tree, hTree, rfl⟩ := Option.map_eq_some_iff.mp hChoices
      have hYield := yield_itemsTree? hRun hTree
      refine ⟨chart, tree, hRun, hAccepts, hTree, ?_⟩
      have hBuilt := tree.ofChoices_append tree.choices.length (Nat.le_refl _) [] []
      rw [List.append_nil, List.append_nil, hYield] at hBuilt
      exact hBuilt
    · cases h

end Reader

/-- A source whose tokens have a derivation is matched, with the tree of the derivation. -/
theorem syntaxTree_of_derivation (source : Text) {lexing : Lexing} {cs : List Nat}
    (hLexed : lexing.failure = none) (hSome : lexing.statements ≠ [])
    (h : Reader.derivation? (lexing.statements.map Token.kind) = some cs) :
    ∃ tree, Reader.syntaxTree source lexing = .ok (some tree) ∧
      Grammar.ofChoices moduleGrammar cs.length (.cat .items) cs lexing.statements =
        some (tree, [], []) := by
  obtain ⟨chart, tree, hRun, hAccepts, hTree, hBuilt⟩ := Reader.itemsTree?_of_derivation h
  exact ⟨tree, syntaxTree_of_run source hLexed hSome hRun hAccepts hTree, hBuilt⟩

/-- What is read from a source, given its tree and the items that are built from it. -/
theorem parseModule_of_tree {source : Text} {file : Option Text} {tree : Option ItemsTree}
    {items : List ModuleItem} (hTree : Reader.syntaxTree source (lex source) = .ok tree)
    (hItems : Reader.buildItems file tree = .ok items) :
    parseModule source file =
      .ok ⟨⟨items, Reader.moduleSpan source file⟩,
        (lex source).comments.foldl
          (Reader.attach ⟨items, Reader.moduleSpan source file⟩ file) {}⟩ := by
  simp only [parseModule, hTree, Except.mapError, hItems, bind, Except.bind]
  rfl

/-- Whether a source is read from a tree of some kind. -/
def readsFrom (source : Text) (p : ItemsTree → List ModuleItem → Bool) : Bool :=
  match Reader.syntaxTree source (lex source) with
  | .ok (some tree) =>
    match Reader.buildItems none (some tree) with
    | .ok items => p tree items
    | .error _ => false
  | _ => false

theorem exists_of_readsFrom {source : Text} {p : ItemsTree → List ModuleItem → Bool}
    (h : readsFrom source p = true) :
    ∃ parsed tree, parseModule source none = .ok parsed ∧
      Reader.syntaxTree source (lex source) = .ok (some tree) ∧
      p tree parsed.module.body = true := by
  unfold readsFrom at h
  split at h
  · rename_i tree hTree
    split at h
    · rename_i items hItems
      exact ⟨_, tree, parseModule_of_tree hTree hItems, hTree, h⟩
    · cases h
  · cases h

end ClientBoundary
