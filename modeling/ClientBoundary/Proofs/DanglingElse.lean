import ClientBoundary.Proofs.NodeRules
import ClientBoundary.Proofs.Preference

/-!
# Which `if` an `else` belongs to

The grammar leaves it open which of two nested `if`s an `else` belongs to. Of the trees of a source
the preferred one is taken, and there the *outermost* `if` gets the `else`: an `if` with an `else` is
read before one without, and the branch after `else` is as short as it can be.

* `exists_split` — a statement that ends with the branch of an `else` can be cut at that `else` into
  two statements; `exists_extension` — one that ends in an `if` without `else` can be continued.
* `Tree.Chosen` — a tree that is the preferred one where it stands, as all its subtrees are.
* `settled_of_chosen` — where an `else` stands in the statements of chosen trees.
-/

namespace ClientBoundary

open Grammar

-- ---------------------------------------------------------------------------------------------
-- Ends of statements
-- ---------------------------------------------------------------------------------------------

namespace Stmt

mutual

/-- The statement ends in an `if` without `else`, where branches after `else` and the bodies of loops
are followed. -/
def endsOpen : Stmt → Bool
  | .ifStmt _ _ alt _ => altEndsOpen alt
  | .whileStmt _ body _ => endsOpen body
  | _ => false

/-- The same for a branch after `else`; if there is none, an `if` ends here. -/
def altEndsOpen : Option Stmt → Bool
  | none => true
  | some alt => endsOpen alt

end

/-- The statement ends in an `if` with `else`, where the branches of `if`s without `else` and the
bodies of loops are followed. -/
def endsWithElse : Stmt → Bool
  | .ifStmt _ cons alt _ => alt.isSome || cons.endsWithElse
  | .whileStmt _ body _ => body.endsWithElse
  | _ => false

end Stmt

/-- An `else` belongs to the outermost `if` that it can belong to: where an `if` has none, no `else`
inside it could have been its own, and where it has one and another could have been given to an `if`
inside it, the branch after it holds no further `else` that could have been its own instead. -/
def Node.Settled : Node → Prop
  | .stmt (.ifStmt _ cons none _) => cons.endsWithElse = false
  | .stmt (.ifStmt _ cons (some alt) _) => cons.endsOpen = true → alt.endsWithElse = false
  | _ => True

theorem Node.settled_of_isPlain {n : Node} (h : n.isPlain = true) : n.Settled := by
  unfold Node.Settled
  split <;> trivial

-- ---------------------------------------------------------------------------------------------
-- Trees of statements
-- ---------------------------------------------------------------------------------------------

/-- The tree of a token. -/
abbrev TokenTree (t : Terminal) := Tree moduleGrammar (.tok t)

/-- What stands before the branch of an `if`, or before the body of a loop. -/
structure Condition (word : Terminal) where
  keyword : TokenTree word
  left : TokenTree .lpar
  test : ModuleTree .expr
  right : TokenTree .rpar

/-- The tokens of a condition. -/
def Condition.yield {word : Terminal} (c : Condition word) : List Token :=
  c.keyword.yield ++ (c.left.yield ++ (c.test.yield ++ c.right.yield))

/-- A condition followed by other symbols. -/
def Condition.before {word : Terminal} (c : Condition word) {ss : List (Symbol Category)}
    (f : Forest moduleGrammar ss) :
    Forest moduleGrammar (.tok word :: .tok .lpar :: .cat .expr :: .tok .rpar :: ss) :=
  .cons _ _ c.keyword (.cons _ _ c.left (.cons _ _ c.test (.cons _ _ c.right f)))

theorem Condition.yield_before {word : Terminal} (c : Condition word) {ss : List (Symbol Category)}
    (f : Forest moduleGrammar ss) : (c.before f).yield = c.yield ++ f.yield := by
  simp only [before, yield, Forest.yield, List.append_assoc]

/-- A statement followed by `else` and another one. -/
def elseForest (cons : ModuleTree .stmt) (word : TokenTree .kwElse) (alt : ModuleTree .stmt) :
    Forest moduleGrammar [.cat .stmt, .tok .kwElse, .cat .stmt] :=
  .cons _ _ cons (.cons _ _ word (.cons _ _ alt .nil))

theorem yield_elseForest (cons : ModuleTree .stmt) (word : TokenTree .kwElse)
    (alt : ModuleTree .stmt) :
    (elseForest cons word alt).yield = cons.yield ++ (word.yield ++ alt.yield) := by
  simp only [elseForest, Forest.yield, List.append_nil]

/-- An `if` with `else`. -/
def ifElseTree (c : Condition .kwIf) (cons : ModuleTree .stmt) (word : TokenTree .kwElse)
    (alt : ModuleTree .stmt) : ModuleTree .ifStmt :=
  .node Category.ifStmt ⟨0, by decide⟩ (c.before (elseForest cons word alt))

/-- An `if` without `else`. -/
def ifTree (c : Condition .kwIf) (cons : ModuleTree .stmt) : ModuleTree .ifStmt :=
  .node Category.ifStmt ⟨1, by decide⟩ (c.before (.cons _ _ cons .nil))

/-- A loop. -/
def whileTree (c : Condition .kwWhile) (body : ModuleTree .stmt) : ModuleTree .whileStmt :=
  .node Category.whileStmt ⟨0, by decide⟩ (c.before (.cons _ _ body .nil))

/-- An `if` as a statement. -/
def ofIf (tree : ModuleTree .ifStmt) : ModuleTree .stmt :=
  .node Category.stmt ⟨7, by decide⟩ (.cons _ _ tree .nil)

/-- A loop as a statement. -/
def ofWhile (tree : ModuleTree .whileStmt) : ModuleTree .stmt :=
  .node Category.stmt ⟨8, by decide⟩ (.cons _ _ tree .nil)

theorem yield_ofIf (tree : ModuleTree .ifStmt) : (ofIf tree).yield = tree.yield := yield_single tree

theorem yield_ofWhile (tree : ModuleTree .whileStmt) : (ofWhile tree).yield = tree.yield :=
  yield_single tree

theorem value_ofIf (file : Option Text) (tree : ModuleTree .ifStmt) :
    (ofIf tree).value file = tree.value file := rfl

theorem value_ofWhile (file : Option Text) (tree : ModuleTree .whileStmt) :
    (ofWhile tree).value file = tree.value file := rfl

theorem yield_ifElseTree (c : Condition .kwIf) (cons : ModuleTree .stmt) (word : TokenTree .kwElse)
    (alt : ModuleTree .stmt) :
    (ifElseTree c cons word alt).yield = c.yield ++ (cons.yield ++ (word.yield ++ alt.yield)) := by
  rw [← yield_elseForest]
  exact c.yield_before _

theorem yield_ifTree (c : Condition .kwIf) (cons : ModuleTree .stmt) :
    (ifTree c cons).yield = c.yield ++ cons.yield := by
  rw [← yield_single cons]
  exact c.yield_before _

theorem yield_whileTree (c : Condition .kwWhile) (body : ModuleTree .stmt) :
    (whileTree c body).yield = c.yield ++ body.yield := by
  rw [← yield_single body]
  exact c.yield_before _

/-- The two forms of an `if`. -/
theorem ifStmt_cases (tree : ModuleTree .ifStmt) :
    (∃ c cons word alt, tree = ifElseTree c cons word alt) ∨ ∃ c cons, tree = ifTree c cons := by
  cases tree with
  | node n i children =>
    match i, children with
    | ⟨0, _⟩, .cons _ _ keyword (.cons _ _ left (.cons _ _ test (.cons _ _ right
        (.cons _ _ cons (.cons _ _ word (.cons _ _ alt .nil)))))) =>
      exact .inl ⟨⟨keyword, left, test, right⟩, cons, word, alt, rfl⟩
    | ⟨1, _⟩, .cons _ _ keyword (.cons _ _ left (.cons _ _ test (.cons _ _ right
        (.cons _ _ cons .nil)))) =>
      exact .inr ⟨⟨keyword, left, test, right⟩, cons, rfl⟩

theorem whileStmt_cases (tree : ModuleTree .whileStmt) : ∃ c body, tree = whileTree c body := by
  cases tree with
  | node n i children =>
    match i, children with
    | ⟨0, _⟩, .cons _ _ keyword (.cons _ _ left (.cons _ _ test (.cons _ _ right
        (.cons _ _ body .nil)))) =>
      exact ⟨⟨keyword, left, test, right⟩, body, rfl⟩

/-- A statement that is neither an `if` nor a loop. -/
def Stmt.IsSimple (s : Stmt) : Prop := s.endsOpen = false ∧ s.endsWithElse = false

-- Whatever the parts of the other statements are, they are simple.
namespace ModuleGrammar

theorem simple_emptyStmt : Always emptyStmt fun _ => IfBuilt Stmt.IsSimple :=
  .seqLeft (.ofSpan fun _ => ⟨rfl, rfl⟩)

theorem simple_varDecl : Always varDecl fun _ => IfBuilt Stmt.IsSimple :=
  .seqLeft (.seq (.seq (.ofSpan fun _ _ _ => ifBuilt_of_bind fun _ => ⟨rfl, rfl⟩)))

theorem simple_fnDecl : Always fnDecl fun _ => IfBuilt Stmt.IsSimple :=
  .seq (.seq (.seq (.seq (.seqLeft (.seq (.ofSpan fun _ _ _ _ _ _ =>
    ifBuilt_of_bind fun _ => ⟨rfl, rfl⟩))))))

theorem simple_classDecl : Always classDecl fun _ => IfBuilt Stmt.IsSimple :=
  .seq (.seq (.seq (.seqLeft (.ofSpan fun _ _ _ _ => ifBuilt_of_bind fun _ => ⟨rfl, rfl⟩))))

theorem simple_returnStmt : Always returnStmt fun _ => IfBuilt Stmt.IsSimple :=
  .seqLeft (.seq (.seqLeft (.ofSpan fun _ _ => ifBuilt_of_bind fun _ => ⟨rfl, rfl⟩)))

theorem simple_throwStmt : Always throwStmt fun _ => IfBuilt Stmt.IsSimple :=
  .seqLeft (.seq (.seqLeft (.ofSpan fun _ _ => ifBuilt_of_bind fun _ => ⟨rfl, rfl⟩)))

theorem simple_exprStmt : Always exprStmt fun _ => IfBuilt Stmt.IsSimple :=
  .seqLeft (.seq (.ofSpan fun _ _ => ifBuilt_of_bind fun _ => ⟨rfl, rfl⟩))

end ModuleGrammar

open ModuleGrammar in
theorem stmt_cases (file : Option Text) (tree : ModuleTree .stmt) :
    (∃ t, tree = ofIf t) ∨ (∃ t, tree = ofWhile t) ∨ IfBuilt Stmt.IsSimple (tree.value file) := by
  cases tree with
  | node n i children =>
    match i, children with
    | ⟨0, _⟩, .cons _ _ t .nil =>
      have hBlock : IfBuilt Stmt.IsSimple (Stmt.blockStmt <$> (t.value file : Build Block)) :=
        ifBuilt_of_bind fun _ => ⟨rfl, rfl⟩
      exact .inr (.inr hBlock)
    | ⟨1, _⟩, .cons _ _ t .nil => exact .inr (.inr (ofRule .emptyStmt simple_emptyStmt file t))
    | ⟨2, _⟩, .cons _ _ t .nil => exact .inr (.inr (ofRule .varDecl simple_varDecl file t))
    | ⟨3, _⟩, .cons _ _ t .nil => exact .inr (.inr (ofRule .fnDecl simple_fnDecl file t))
    | ⟨4, _⟩, .cons _ _ t .nil => exact .inr (.inr (ofRule .classDecl simple_classDecl file t))
    | ⟨5, _⟩, .cons _ _ t .nil => exact .inr (.inr (ofRule .returnStmt simple_returnStmt file t))
    | ⟨6, _⟩, .cons _ _ t .nil => exact .inr (.inr (ofRule .throwStmt simple_throwStmt file t))
    | ⟨7, _⟩, .cons _ _ t .nil => exact .inl ⟨t, rfl⟩
    | ⟨8, _⟩, .cons _ _ t .nil => exact .inr (.inl ⟨t, rfl⟩)
    | ⟨9, _⟩, .cons _ _ t .nil => exact .inr (.inr (ofRule .exprStmt simple_exprStmt file t))

theorem Condition.nodes_before {word : Terminal} (c : Condition word) {ss : List (Symbol Category)}
    (f : Forest moduleGrammar ss) : f.nodes ≤ (c.before f).nodes := by
  simp only [before, Forest.nodes]
  omega

/-- Induction over the trees of statements, down to the statements that are neither an `if` nor a
loop. -/
theorem stmt_induction (file : Option Text) {P : ModuleTree .stmt → Prop}
    (hIfElse : ∀ c cons word alt, P cons → P alt → P (ofIf (ifElseTree c cons word alt)))
    (hIf : ∀ c cons, P cons → P (ofIf (ifTree c cons)))
    (hWhile : ∀ c body, P body → P (ofWhile (whileTree c body)))
    (hSimple : ∀ tree, IfBuilt Stmt.IsSimple (tree.value file) → P tree)
    (tree : ModuleTree .stmt) : P tree := by
  induction hNodes : tree.nodes using Nat.strongRecOn generalizing tree with
  | ind size ih =>
    subst hNodes
    have hOfIf : ∀ t : ModuleTree .ifStmt, t.nodes < (ofIf t).nodes :=
      fun t => Nat.lt_succ_of_le (Nat.le_add_right t.nodes _)
    have hOfWhile : ∀ t : ModuleTree .whileStmt, t.nodes < (ofWhile t).nodes :=
      fun t => Nat.lt_succ_of_le (Nat.le_add_right t.nodes _)
    rcases stmt_cases file tree with ⟨t, rfl⟩ | ⟨t, rfl⟩ | hPlain
    · rcases ifStmt_cases t with ⟨c, cons, word, alt, rfl⟩ | ⟨c, cons, rfl⟩
      · have hLe : (elseForest cons word alt).nodes < (ifElseTree c cons word alt).nodes :=
          Nat.lt_succ_of_le (c.nodes_before _)
        simp only [elseForest, Forest.nodes] at hLe
        have hLt := hOfIf (ifElseTree c cons word alt)
        exact hIfElse c cons word alt (ih _ (by omega) cons rfl) (ih _ (by omega) alt rfl)
      · have hLe : (Forest.cons _ _ cons .nil).nodes < (ifTree c cons).nodes :=
          Nat.lt_succ_of_le (c.nodes_before _)
        have hLt := hOfIf (ifTree c cons)
        rw [Forest.nodes] at hLe
        exact hIf c cons (ih _ (by omega) cons rfl)
    · obtain ⟨c, body, rfl⟩ := whileStmt_cases t
      have hLe : (Forest.cons _ _ body .nil).nodes < (whileTree c body).nodes :=
        Nat.lt_succ_of_le (c.nodes_before _)
      have hLt := hOfWhile (whileTree c body)
      rw [Forest.nodes] at hLe
      exact hWhile c body (ih _ (by omega) body rfl)
    · exact hSimple tree hPlain

-- ---------------------------------------------------------------------------------------------
-- Cutting and continuing statements
-- ---------------------------------------------------------------------------------------------

section Values

variable {A B C : Stmt → Prop} {file : Option Text}

theorem ifBuilt_ifElse {c : Condition .kwIf} {cons alt : ModuleTree .stmt}
    {word : TokenTree .kwElse} (hCons : IfBuilt B (cons.value file))
    (hAlt : IfBuilt C (alt.value file))
    (h : ∀ t x y s, B x → C y → A (.ifStmt t x (some y) s)) :
    IfBuilt A ((ifElseTree c cons word alt).value file) := by
  have hAlt : IfBuilt (fun o => ∃ y, o = some y ∧ C y)
      (ModuleGrammar.optional (some (alt.value file))) :=
    IfBuilt.bind hAlt fun y hy => ⟨y, rfl, hy⟩
  refine hAlt.bind fun o ho => ifBuilt_of_bind fun t => IfBuilt.bind hCons fun x hx => ?_
  obtain ⟨y, rfl, hy⟩ := ho
  exact h t x y _ hx hy

theorem ifBuilt_if {c : Condition .kwIf} {cons : ModuleTree .stmt}
    (hCons : IfBuilt B (cons.value file)) (h : ∀ t x s, B x → A (.ifStmt t x none s)) :
    IfBuilt A ((ifTree c cons).value file) := by
  have hAlt : IfBuilt (· = none) (ModuleGrammar.optional (none : Option (Build Stmt))) := rfl
  refine hAlt.bind fun o ho => ifBuilt_of_bind fun t => IfBuilt.bind hCons fun x hx => ?_
  exact ho ▸ h t x _ hx

theorem ifBuilt_while {c : Condition .kwWhile} {body : ModuleTree .stmt}
    (hBody : IfBuilt B (body.value file)) (h : ∀ t x s, B x → A (.whileStmt t x s)) :
    IfBuilt A ((whileTree c body).value file) :=
  ifBuilt_of_bind fun t => IfBuilt.bind hBody fun x hx => h t x _ hx

end Values

/-- The tokens are those of a statement, an `else` and another statement. -/
def IsCut (ts : List Token) : Prop :=
  ∃ (left : ModuleTree .stmt) (word : TokenTree .kwElse) (right : ModuleTree .stmt),
    ts = left.yield ++ (word.yield ++ right.yield)

/-- A statement that ends in an `if` with `else` can be cut at an `else`. -/
theorem exists_split (file : Option Text) (tree : ModuleTree .stmt) :
    IfBuilt (fun s => s.endsWithElse = true → IsCut tree.yield) (tree.value file) := by
  induction tree using stmt_induction file with
  | hIfElse c cons word alt _ _ =>
    -- what comes before this `else` is an `if` without it
    have hCut : IsCut (ofIf (ifElseTree c cons word alt)).yield := by
      refine ⟨ofIf (ifTree c cons), word, alt, ?_⟩
      rw [yield_ofIf, yield_ofIf, yield_ifElseTree, yield_ifTree, List.append_assoc]
    exact IfBuilt.of_forall fun _ _ => hCut
  | hIf c cons ih =>
    rw [value_ofIf]
    refine ifBuilt_if ih fun t x s hx hElse => ?_
    obtain ⟨left, word, right, hYield⟩ := hx hElse
    refine ⟨ofIf (ifTree c left), word, right, ?_⟩
    rw [yield_ofIf, yield_ofIf, yield_ifTree, yield_ifTree, hYield, List.append_assoc]
  | hWhile c body ih =>
    rw [value_ofWhile]
    refine ifBuilt_while ih fun t x s hx hElse => ?_
    obtain ⟨left, word, right, hYield⟩ := hx hElse
    refine ⟨ofWhile (whileTree c left), word, right, ?_⟩
    rw [yield_ofWhile, yield_ofWhile, yield_whileTree, yield_whileTree, hYield, List.append_assoc]
  | hSimple tree hPlain =>
    exact hPlain.imp fun s hs hElse => absurd (hElse.symm.trans hs.2) (by decide)

/-- The tokens of a statement that can be continued with any `else`. -/
def IsOpen (ts : List Token) : Prop :=
  ∀ (word : TokenTree .kwElse) (alt : ModuleTree .stmt), ∃ longer : ModuleTree .stmt,
    longer.yield = ts ++ (word.yield ++ alt.yield)

/-- A statement that ends in an `if` without `else` can be continued with one. -/
theorem exists_extension (file : Option Text) (tree : ModuleTree .stmt) :
    IfBuilt (fun s => s.endsOpen = true → IsOpen tree.yield) (tree.value file) := by
  induction tree using stmt_induction file with
  | hIfElse c cons word alt _ ih =>
    rw [value_ofIf]
    refine ifBuilt_ifElse (B := fun _ => True) (.of_forall fun _ => trivial) ih ?_
    intro t x y s _ hy hOpen word' alt'
    obtain ⟨longer, hYield⟩ := hy hOpen word' alt'
    refine ⟨ofIf (ifElseTree c cons word longer), ?_⟩
    simp only [yield_ofIf, yield_ifElseTree, hYield, List.append_assoc]
  | hIf c cons _ =>
    refine IfBuilt.of_forall fun _ _ word' alt' => ⟨ofIf (ifElseTree c cons word' alt'), ?_⟩
    simp only [yield_ofIf, yield_ifElseTree, yield_ifTree, List.append_assoc]
  | hWhile c body ih =>
    rw [value_ofWhile]
    refine ifBuilt_while ih fun t x s hx hOpen word' alt' => ?_
    obtain ⟨longer, hYield⟩ := hx hOpen word' alt'
    refine ⟨ofWhile (whileTree c longer), ?_⟩
    simp only [yield_ofWhile, yield_whileTree, hYield, List.append_assoc]
  | hSimple tree hPlain =>
    exact hPlain.imp fun s hs hOpen => absurd (hOpen.symm.trans hs.1) (by decide)

-- ---------------------------------------------------------------------------------------------
-- Chosen trees
-- ---------------------------------------------------------------------------------------------

namespace Grammar

variable {N : Type} {V : N → Type} {G : Grammar V} {start : N} {tokens : List Token}

/-- A tree is the preferred one at a place of the tokens where its category is wanted. -/
structure Tree.ChosenAt (start : N) (tokens : List Token) {s : Symbol N} (tree : Tree G s)
    (i : Nat) : Prop where
  wanted : ∀ n, s = .cat n → Wanted G.shape start (tokens.map Token.kind) n i
  stands : tree.yield <+: tokens.drop i
  preferred : tree.Preferred start (tokens.map Token.kind) i

/-- A tree is the preferred one where it stands. -/
def Tree.Chosen (start : N) (tokens : List Token) (s : Symbol N) (tree : Tree G s) : Prop :=
  ∃ i, tree.ChosenAt start tokens i

theorem Forest.each_chosen : {ss : List (Symbol N)} → (f : Forest G ss) → {n : N} →
    {α : List (Symbol N)} → {i k j : Nat} →
    Item G.shape start (tokens.map Token.kind) n α k i j → α.drop k = ss →
    f.yield <+: tokens.drop j → f.Preferred start (tokens.map Token.kind) n α i k j →
    f.Each (Tree.Chosen start tokens)
  | _, .nil, _, _, _, _, _, _, _, _, _ => trivial
  | _, .cons s ss tree rest, n, α, i, k, j, hItem, hSymbols, hAt, hPref => by
    have hNext : α[k]? = some s := by
      rw [← List.head?_drop, hSymbols]
      rfl
    have hTail : α.drop (k + 1) = ss := by
      rw [← List.tail_drop, hSymbols]
      rfl
    rw [Forest.yield] at hAt
    obtain ⟨hFirst, hLater⟩ := drop_prefix_append hAt
    have hOver := (Item.over_tree tree hItem hNext (map_kind_prefix_drop hFirst)).2
    refine ⟨⟨j, fun m hs => .inr ⟨n, α, k, i, hItem, hs ▸ hNext⟩, hFirst, hPref.2.1⟩, ?_⟩
    exact Forest.each_chosen rest hOver hTail hLater hPref.2.2

/-- The parts of a chosen tree are chosen. -/
theorem Tree.Chosen.children {n : N} {a : Fin (G.rule n).alternatives.length}
    {children : Forest G ((G.rule n).alternatives.get a).symbols}
    (h : Tree.Chosen start tokens (.cat n) (.node n a children)) :
    children.Each (Tree.Chosen start tokens) := by
  obtain ⟨i, hWanted, hStands, hPref⟩ := h
  have hItem := Item.of_wanted (hWanted n rfl) (List.mem_map_of_mem (List.get_mem _ a))
  exact Forest.each_chosen children hItem List.drop_zero hStands hPref.2

/-- The mark of an item moves over trees of the symbols that it waits for. -/
theorem Item.over_front {w : List Terminal} (rest : List (Symbol N)) :
    {ss : List (Symbol N)} → (f : Forest G ss) → {n : N} → {α : List (Symbol N)} → {k i j : Nat} →
    Item G.shape start w n α k i j → α.drop k = ss ++ rest → f.yield.map Token.kind <+: w.drop j →
    Item G.shape start w n α (k + ss.length) i (j + f.yield.length)
  | _, .nil, _, _, _, _, _, hItem, _, _ => hItem
  | _, .cons s ss tree f, n, α, k, i, j, hItem, hSymbols, hAt => by
    have hNext : α[k]? = some s := by
      rw [← List.head?_drop, hSymbols]
      rfl
    have hTail : α.drop (k + 1) = ss ++ rest := by
      rw [← List.tail_drop, hSymbols]
      rfl
    rw [Forest.yield, List.map_append] at hAt
    obtain ⟨hFirst, hLater⟩ := drop_prefix_append hAt
    rw [List.length_map] at hLater
    have hOver := Item.over_front rest f (Item.over_tree tree hItem hNext hFirst).2 hTail hLater
    rw [Forest.yield, List.length_append, ← Nat.add_assoc]
    rwa [List.length_cons, Nat.add_comm ss.length 1, ← Nat.add_assoc]

end Grammar

theorem length_yield_token {t : Terminal} (tree : TokenTree t) : tree.yield.length = 1 := by
  cases tree with
  | leaf _ token h => rfl

section Chosen

variable {tokens : List Token} {i : Nat} {c : Condition .kwIf} {cons alt : ModuleTree .stmt}
  {word : TokenTree .kwElse}

/-- Where an `if` is wanted, the one with `else` is. -/
theorem item_ifElse {t : ModuleTree .ifStmt} (h : t.ChosenAt .items tokens i) :
    Item moduleGrammar.shape .items (tokens.map Token.kind) .ifStmt
      [.tok .kwIf, .tok .lpar, .cat .expr, .tok .rpar, .cat .stmt, .tok .kwElse, .cat .stmt] 0 i i :=
  .of_wanted (h.wanted .ifStmt rfl)
    (List.mem_map_of_mem (List.get_mem (ModuleGrammar.rule .ifStmt).alternatives ⟨0, by decide⟩))

/-- The branch of an `if` without `else` cannot be cut at an `else`: the `if` would have it. -/
theorem not_isCut_of_if (h : (ifTree c cons).ChosenAt .items tokens i) : ¬ IsCut cons.yield := by
  rintro ⟨left, word, right, hCut⟩
  have hYield : (c.before (elseForest left word right)).yield = (ifTree c cons).yield := by
    rw [Condition.yield_before, yield_elseForest, yield_ifTree, hCut]
  have hStands := h.stands
  rw [← hYield] at hStands
  have hOver := (Item.over_forest (c.before (elseForest left word right)) (item_ifElse h)
    List.drop_zero (map_kind_prefix_drop hStands)).2
  rw [hYield] at hOver
  exact h.preferred.1 ⟨0, by decide⟩ (by decide) hOver

/-- Where the branch before `else` can be continued with a further `else`, the branch after it cannot
be cut at one: the cut would leave a shorter branch after the last `else`. -/
theorem not_isCut_of_ifElse (h : (ifElseTree c cons word alt).ChosenAt .items tokens i)
    (hOpen : IsOpen cons.yield) : ¬ IsCut alt.yield := by
  rintro ⟨left, word', right, hCut⟩
  obtain ⟨longer, hLonger⟩ := hOpen word left
  -- the same tokens with everything up to the later `else` before the branch
  let front := c.before (.cons _ _ longer (.cons _ _ word' .nil))
  have hFront : front.yield = c.yield ++ (longer.yield ++ word'.yield) := by
    rw [Condition.yield_before, Forest.yield, yield_single]
  have hYield : (ifElseTree c cons word alt).yield = front.yield ++ right.yield := by
    rw [yield_ifElseTree, hFront, hLonger, hCut]
    simp only [List.append_assoc]
  have hStands := h.stands
  rw [hYield] at hStands
  obtain ⟨hBefore, hAfter⟩ := drop_prefix_append hStands
  have hItem := Item.over_front [.cat .stmt] front (item_ifElse h) rfl
    (map_kind_prefix_drop hBefore)
  have hBetween := right.between hItem rfl (map_kind_prefix_drop hAfter)
  obtain ⟨-, -, -, -, -, -, -, -, -, -, -, -, hLate, -, -⟩ := h.preferred.2
  have hShort := congrArg List.length hFront
  have hWhole := congrArg List.length hYield
  rw [hLonger] at hShort
  simp only [yield_ifElseTree, Condition.yield, List.length_append, length_yield_token] at hShort hWhole
  refine hLate _ ?_ hItem (Eq.mp (congrArg _ ?_) hBetween)
  · simp only [length_yield_token]
    omega
  · simp only [length_yield_token]
    omega

end Chosen

/-- In the conditional statement of a chosen tree, an `else` belongs to the outermost `if`. -/
theorem settled_of_chosen {file : Option Text} {tokens : List Token} {tree : ModuleTree .ifStmt}
    (h : tree.Chosen .items tokens) : IfBuilt (fun s => (Node.stmt s).Settled) (tree.value file) := by
  obtain ⟨i, h⟩ := h
  rcases ifStmt_cases tree with ⟨c, cons, word, alt, rfl⟩ | ⟨c, cons, rfl⟩
  · refine ifBuilt_ifElse (exists_extension file cons) (exists_split file alt) ?_
    intro t x y s hx hy hOpen
    exact Bool.eq_false_iff.mpr fun hElse => not_isCut_of_ifElse h (hx hOpen) (hy hElse)
  · refine ifBuilt_if (exists_split file cons) fun t x s hx => ?_
    exact Bool.eq_false_iff.mpr fun hElse => not_isCut_of_if h (hx hElse)

end ClientBoundary
