import ClientBoundary.Module.Reader
import ClientBoundary.Proofs.Derivation
import ClientBoundary.Proofs.Lexemes

/-!
# The tree of a module

What is known of a source that has been read, from its text to the spans of its items:

* `moduleLayout_facts` — the grammar of modules is of the kind that charts are right for.
* `yield_itemsTree?` — the leaves of the tree of a module are the tokens of its source.
* `parseModule_eq_ok` — a source that is read, taken apart into the steps of reading.
* `phrases_of_value` — the items of a module lie side by side in its tokens, with terminators
  between them, and each has the span of its tokens.
-/

namespace ClientBoundary

open Grammar

-- ---------------------------------------------------------------------------------------------
-- The layout of the grammar
-- ---------------------------------------------------------------------------------------------

/-- Every alternative that is one category alone is a category with a smaller number. -/
def unitsBelow (n : Category) : Bool :=
  (moduleGrammar.shape n).all fun ss =>
    match ss with
    | [.cat m] => m.ctorIdx < n.ctorIdx
    | _ => true

theorem moduleGrammar_orderly : Orderly Category.all Category.ctorIdx moduleGrammar.shape where
  mem := Category.mem_all
  numbered := by decide +kernel
  filled n := by
    have hAll : ∀ n ∈ Category.all, [] ∉ moduleGrammar.shape n := by decide +kernel
    exact hAll n (Category.mem_all n)
  unit n m hUnit := by
    have hAll : ∀ n ∈ Category.all, unitsBelow n = true := by decide +kernel
    have hBelow := List.all_eq_true.mp (hAll n (Category.mem_all n)) _ hUnit
    exact of_decide_eq_true hBelow

/-- The numbered alternatives of the grammar. -/
abbrev moduleEntries : List (Entry Category) :=
  (groupsFrom moduleGrammar.shape Category.all 0).flatten

theorem moduleLayout_facts : LayoutFacts moduleGrammar.shape moduleLayout moduleEntries :=
  moduleGrammar_orderly.facts

-- ---------------------------------------------------------------------------------------------
-- Recognition
-- ---------------------------------------------------------------------------------------------

/-- The chart of a module holds exactly the items of its terminals. -/
abbrev Recognized (chart : Chart) (w : List Terminal) : Prop :=
  Represents moduleGrammar.shape .items moduleEntries chart w

/-- Matching goes on from what was matched before. -/
theorem recognized_recognize {chart final : Chart} {w : List Terminal} {tokens : List Token}
    (h : Recognized chart w) (hRun : Reader.recognize chart tokens = .ok final) :
    Recognized final (w ++ tokens.map Token.kind) := by
  induction tokens generalizing chart w with
  | nil =>
    cases hRun
    simpa using h
  | cons t tokens ih =>
    rw [Reader.recognize] at hRun
    split at hRun
    · cases hRun
    · rename_i column hNext
      have := ih (represents_next moduleLayout_facts h hNext) hRun
      simpa using this

theorem recognized_start : Recognized Reader.start [] := represents_start moduleLayout_facts

/-- The leaves of the tree of a module are its tokens. -/
theorem yield_itemsTree? {tokens : List Token} {chart : Chart} {tree : ItemsTree}
    (hRun : Reader.recognize Reader.start tokens = .ok chart)
    (hTree : Reader.itemsTree? tokens chart = some tree) : tree.yield = tokens := by
  have hChart := recognized_recognize recognized_start hRun
  have hYield := yield_tree moduleLayout_facts hChart (fun t ht => by cases ht) hTree
  simpa [tokensFromTo] using hYield

-- ---------------------------------------------------------------------------------------------
-- Reading
-- ---------------------------------------------------------------------------------------------

theorem Except.mapError_eq_ok {ε ε' α : Type} {f : ε → ε'} {x : Except ε α} {a : α}
    (h : x.mapError f = .ok a) : x = .ok a := by
  cases x with
  | error e => cases h
  | ok b =>
    cases h
    rfl

/-- The tokens of the tree of a module; no tree stands for no tokens. -/
def treeTokens : Option ItemsTree → List Token
  | none => []
  | some tree => tree.yield

theorem syntaxTree_eq_ok {source : Text} {lexing : Lexing} {tree : Option ItemsTree}
    (h : Reader.syntaxTree source lexing = .ok tree) :
    lexing.failure = none ∧ treeTokens tree = lexing.statements := by
  unfold Reader.syntaxTree at h
  cases hRun : Reader.recognize Reader.start lexing.statements with
  | error e =>
    simp only [hRun, bind, Except.bind] at h
    cases h
  | ok chart =>
    simp only [hRun, bind, Except.bind] at h
    split at h
    · cases h
    · rename_i hNone
      refine ⟨hNone, ?_⟩
      split at h
      · rename_i hEmpty
        cases h
        exact (List.isEmpty_iff.mp hEmpty).symm
      · split at h
        · split at h
          · rename_i tree hTree
            cases h
            exact yield_itemsTree? hRun hTree
          · cases h
        · cases h

/-- The tree of tokens that were matched and accepted. -/
theorem syntaxTree_of_run (source : Text) {lexing : Lexing} (hLexed : lexing.failure = none)
    (hSome : lexing.statements ≠ []) {chart : Chart} {tree : ItemsTree}
    (hRun : Reader.recognize Reader.start lexing.statements = .ok chart)
    (hAccepts : chart.accepts moduleLayout .items = true)
    (hTree : Reader.itemsTree? lexing.statements chart = some tree) :
    Reader.syntaxTree source lexing = .ok (some tree) := by
  have hNotEmpty : lexing.statements.isEmpty = false := List.isEmpty_eq_false_iff.mpr hSome
  simp only [Reader.syntaxTree, hRun, bind, Except.bind, hLexed, hNotEmpty, hAccepts, hTree]
  rfl

/-- What a source that is read has been through. -/
structure ReadFrom (source : Text) (file : Option Text) (parsed : ParsedModule)
    (tree : Option ItemsTree) : Prop where
  matched : Reader.syntaxTree source (lex source) = .ok tree
  lexed : (lex source).failure = none
  tokens : treeTokens tree = (lex source).statements
  built : Reader.buildItems file tree = .ok parsed.module.body
  span : parsed.module.span = Reader.moduleSpan source file
  comments : parsed.comments =
    (lex source).comments.foldl (Reader.attach parsed.module file) {}

theorem parseModule_eq_ok {source : Text} {file : Option Text} {parsed : ParsedModule}
    (h : parseModule source file = .ok parsed) : ∃ tree, ReadFrom source file parsed tree := by
  unfold parseModule at h
  cases hTree : (Reader.syntaxTree source (lex source)).mapError ReadError.syntaxError with
  | error e =>
    simp only [hTree, bind, Except.bind] at h
    cases h
  | ok tree =>
    cases hItems : (Reader.buildItems file tree).mapError Reader.ofBuildError with
    | error e =>
      simp only [hTree, hItems, bind, Except.bind] at h
      cases h
    | ok items =>
      simp only [hTree, hItems, bind, Except.bind, pure, Except.pure] at h
      cases h
      have hMatched := Except.mapError_eq_ok hTree
      obtain ⟨hLexed, hTokens⟩ := syntaxTree_eq_ok hMatched
      exact ⟨tree, hMatched, hLexed, hTokens, Except.mapError_eq_ok hItems, rfl, rfl⟩

/-- Whether a source is read as a module of some kind. -/
def readsAs (source : Text) (p : ParsedModule → Bool) : Bool :=
  match parseModule source none with
  | .ok parsed => p parsed
  | .error _ => false

theorem exists_of_readsAs {source : Text} {p : ParsedModule → Bool} (h : readsAs source p = true) :
    ∃ parsed, parseModule source none = .ok parsed ∧ p parsed = true := by
  unfold readsAs at h
  split at h
  · rename_i parsed hRead
    exact ⟨parsed, hRead, h⟩
  · cases h

-- ---------------------------------------------------------------------------------------------
-- First tokens
-- ---------------------------------------------------------------------------------------------

section First

variable {N : Type} {V : N → Type} {G : Grammar V}

/-- A terminal in `ok` or a category in `good`. -/
def startsIn (good : N → Bool) (ok : Terminal → Bool) : Symbol N → Bool
  | .tok t => ok t
  | .cat n => good n

/-- Every alternative of a category in `good` begins with a terminal in `ok` or a category in
`good`. -/
def BeginsIn (G : Grammar V) (good : N → Bool) (ok : Terminal → Bool) : Prop :=
  ∀ n, good n = true → ∀ ss ∈ G.shape n, ss.head?.any (startsIn good ok) = true

mutual

theorem Tree.exists_head {good : N → Bool} {ok : Terminal → Bool} (h : BeginsIn G good ok) :
    {s : Symbol N} → (tree : Tree G s) → startsIn good ok s = true →
    ∃ token, tree.yield.head? = some token ∧ ok token.kind = true
  | _, .leaf _ token hKind, hOk => ⟨token, rfl, by rw [hKind]; exact hOk⟩
  | _, .node n i children, hGood =>
    Forest.exists_head h children (h n hGood _ (List.mem_map_of_mem (List.get_mem _ i)))

theorem Forest.exists_head {good : N → Bool} {ok : Terminal → Bool} (h : BeginsIn G good ok) :
    {ss : List (Symbol N)} → (f : Forest G ss) → ss.head?.any (startsIn good ok) = true →
    ∃ token, f.yield.head? = some token ∧ ok token.kind = true
  | _, .cons _ _ tree _, hGood => by
    obtain ⟨token, hHead, hOk⟩ := Tree.exists_head h tree hGood
    exact ⟨token, by rw [Forest.yield, List.head?_append, hHead]; rfl, hOk⟩

end

end First

/-- The categories no phrase of which begins with a terminator or a closing brace. -/
def beginsWithCode : Category → Bool
  | .stmtEnd | .item | .items | .blockItem | .blockItems | .classItem | .classItems => false
  | _ => true

/-- Terminals other than the terminator and the closing brace. -/
def isCode (t : Terminal) : Bool := t ≠ .terminator && t ≠ .rbrace

theorem beginsIn_code : BeginsIn moduleGrammar beginsWithCode isCode := by
  have hAll : ∀ n ∈ Category.all, beginsWithCode n = true → ∀ ss ∈ moduleGrammar.shape n,
      ss.head?.any (startsIn beginsWithCode isCode) = true := by decide +kernel
  exact fun n => hAll n (Category.mem_all n)

-- ---------------------------------------------------------------------------------------------
-- Spans
-- ---------------------------------------------------------------------------------------------

/-- The span from the first to the last of some tokens. -/
def spanOf (file : Option Text) (ts : List Token) : Span :=
  match ts.head?, ts.getLast? with
  | some a, some b => Span.ofLocation (Place.locate a.start b.stop) file
  | _, _ => Span.dummy

section Always

variable {N : Type} {V : N → Type} {G : Grammar V} {α β : Type}

theorem Forest.span_eq {ss : List (Symbol N)} (f : Forest G ss) (file : Option Text) :
    f.span file = spanOf file f.yield := by
  rewrite [Forest.span, spanOf, Forest.first?_eq, Forest.last?_eq]
  rfl

/-- Whatever the parts of a phrase are, its value stands in a relation to its span. -/
def Always (r : Rule V α) (P : Span → α → Prop) : Prop :=
  ∀ a ∈ r.alternatives, ∀ s vs, P s (a.value s vs)

theorem Always.map {r : Rule V α} {f : α → β} {P : Span → β → Prop}
    (h : Always r fun s a => P s (f a)) : Always (f <$> r) P := by
  intro b hb s vs
  obtain ⟨a, ha, rfl⟩ := List.mem_map.mp hb
  exact h a ha s vs

theorem Always.seq {f : Rule V (α → β)} {r : Rule V α} {P : Span → β → Prop}
    (h : Always f fun s g => ∀ a, P s (g a)) : Always (f <*> r) P := by
  intro b hb s vs
  obtain ⟨a, ha, hb⟩ := List.mem_flatMap.mp hb
  obtain ⟨c, _, rfl⟩ := List.mem_map.mp hb
  exact h a ha s _ _

theorem Always.seqLeft {r : Rule V α} {q : Rule V β} {P : Span → α → Prop} (h : Always r P) :
    Always (r <* q) P :=
  .seq (.map fun a ha s vs _ => h a ha s vs)

theorem Always.ofSpan {f : Span → β} {P : Span → β → Prop} (h : ∀ s, P s (f s)) :
    Always (f <$> (Rule.span : Rule V Span)) P := by
  refine .map ?_
  intro a ha s vs
  obtain rfl := List.mem_singleton.mp ha
  exact h s

/-- What holds of all values of a rule holds of the values of its trees. -/
theorem Always.tree {n : N} {P : Span → V n → Prop} (h : Always (G.rule n) P)
    (file : Option Text) (tree : Tree G (.cat n)) :
    P (spanOf file tree.yield) (tree.value file) := by
  cases tree with
  | node n i children =>
    rw [Tree.yield, ← Forest.span_eq children file, Tree.value]
    exact h _ (List.get_mem _ i) _ _

end Always

/-- What is built, if anything is, has the given span. -/
def Spanned {α : Type} (span : α → Span) (s : Span) (v : Build α) : Prop :=
  ∀ a, v = .ok a → span a = s

theorem Spanned.pure {α : Type} {span : α → Span} {s : Span} {a : α} (h : span a = s) :
    Spanned span s (.ok a) := by
  intro b hb
  cases hb
  exact h

theorem Spanned.bind {α β : Type} {span : β → Span} {s : Span} {x : Build α} {k : α → Build β}
    (h : ∀ a, Spanned span s (k a)) : Spanned span s (x >>= k) := by
  cases x with
  | error e => exact nofun
  | ok a => exact h a

theorem Spanned.map {α β : Type} {span : α → Span} {span' : β → Span} {f : α → β} {s : Span}
    {v : Build α} (h : Spanned span s v) (hf : ∀ a, span' (f a) = span a) :
    Spanned span' s (f <$> v) := by
  cases v with
  | error e => exact nofun
  | ok a => exact .pure ((hf a).trans (h a rfl))

-- Each rule below puts its own span into what it builds, after building its parts.
namespace ModuleGrammar

theorem spanned_blockStmt : Always blockStmt (Spanned Block.span) :=
  .seqLeft (.seq (.seqLeft (.ofSpan fun _ _ => .bind fun _ => .pure rfl)))

theorem spanned_exprStmt : Always exprStmt (Spanned Stmt.span) :=
  .seqLeft (.seq (.ofSpan fun _ _ => .bind fun _ => .pure rfl))

theorem spanned_emptyStmt : Always emptyStmt (Spanned Stmt.span) :=
  .seqLeft (.ofSpan fun _ => .pure rfl)

theorem spanned_varDecl : Always varDecl (Spanned Stmt.span) :=
  .seqLeft (.seq (.seq (.ofSpan fun _ _ _ => .bind fun _ => .pure rfl)))

theorem spanned_fnDecl : Always fnDecl (Spanned Stmt.span) :=
  .seq (.seq (.seq (.seq (.seqLeft (.seq (.ofSpan fun _ _ _ _ _ _ => .bind fun _ => .pure rfl))))))

theorem spanned_classDecl : Always classDecl (Spanned Stmt.span) :=
  .seq (.seq (.seq (.seqLeft (.ofSpan fun _ _ _ _ => .bind fun _ => .pure rfl))))

theorem spanned_returnStmt : Always returnStmt (Spanned Stmt.span) :=
  .seqLeft (.seq (.seqLeft (.ofSpan fun _ _ => .bind fun _ => .pure rfl)))

theorem spanned_throwStmt : Always throwStmt (Spanned Stmt.span) :=
  .seqLeft (.seq (.seqLeft (.ofSpan fun _ _ => .bind fun _ => .pure rfl)))

theorem spanned_ifStmt : Always ifStmt (Spanned Stmt.span) :=
  .seq (.seq (.seqLeft (.seq (.seqLeft (.seqLeft (.ofSpan fun _ _ _ _ =>
    .bind fun _ => .bind fun _ => .bind fun _ => .pure rfl))))))

theorem spanned_whileStmt : Always whileStmt (Spanned Stmt.span) :=
  .seq (.seqLeft (.seq (.seqLeft (.seqLeft (.ofSpan fun _ _ _ =>
    .bind fun _ => .bind fun _ => .pure rfl)))))

theorem spanned_importDecl : Always importDecl (Spanned ModuleItem.span) :=
  .seqLeft (.seq (.seqLeft (.seq (.seqLeft (.ofSpan fun _ _ _ =>
    .bind fun _ => .bind fun _ => .pure rfl)))))

theorem spanned_importBare : Always importBare (Spanned ModuleItem.span) :=
  .seqLeft (.seq (.seqLeft (.ofSpan fun _ _ => .bind fun _ => .bind fun _ => .pure rfl)))

theorem spanned_exportDefaultDecl : Always exportDefaultDecl (Spanned ModuleItem.span) :=
  .seq (.seqLeft (.seqLeft (.ofSpan fun _ _ => .bind fun _ => .pure rfl)))

theorem spanned_exportDefaultExpr : Always exportDefaultExpr (Spanned ModuleItem.span) :=
  .seqLeft (.seq (.seqLeft (.seqLeft (.ofSpan fun _ _ => .bind fun _ => .pure rfl))))

theorem spanned_exportNamedDecl : Always exportNamedDecl (Spanned ModuleItem.span) :=
  .seq (.seqLeft (.ofSpan fun _ _ => .bind fun _ => .pure rfl))

theorem spanned_namedExport : Always namedExport (Spanned ModuleItem.span) :=
  .seqLeft (.seq (.seq (.seqLeft (.ofSpan fun _ _ _ =>
    .bind fun _ => .bind fun _ => .pure rfl))))

theorem spanned_exportAll : Always exportAll (Spanned ModuleItem.span) :=
  .seqLeft (.seq (.seqLeft (.seq (.seqLeft (.seqLeft (.ofSpan fun _ _ _ =>
    .bind fun _ => .bind fun _ => .pure rfl))))))

end ModuleGrammar

/-- A tree of the grammar of modules. -/
abbrev ModuleTree (n : Category) := Tree moduleGrammar (.cat n)

theorem yield_single {N : Type} {V : N → Type} {G : Grammar V} {s : Symbol N}
    (tree : Tree G s) : (Forest.cons s [] tree .nil).yield = tree.yield := by
  rw [Forest.yield, Forest.yield, List.append_nil]

/-- What a rule says of its values holds of the values of its trees. -/
theorem ofRule (n : Category) {P : Span → n.Value → Prop} (h : Always (ModuleGrammar.rule n) P)
    (file : Option Text) (tree : ModuleTree n) : P (spanOf file tree.yield) (tree.value file) :=
  Always.tree (G := moduleGrammar) h file tree

/-- A phrase that is one other phrase alone has its span. -/
theorem spanned_unit {n : Category} {α : Type} {span : α → Span} {file : Option Text}
    {tree : ModuleTree n} {ts : List Token} {v : Build α} (hYield : ts = tree.yield)
    (h : Spanned span (spanOf file tree.yield) v) : Spanned span (spanOf file ts) v :=
  hYield ▸ h

section Units

open ModuleGrammar

variable (file : Option Text)

/-- A statement has the span of its tokens. -/
theorem spanned_stmt (tree : ModuleTree .stmt) :
    Spanned Stmt.span (spanOf file tree.yield) (tree.value file) := by
  cases tree with
  | node n i children =>
    match i, children with
    | ⟨0, _⟩, .cons _ _ t .nil =>
      have hBlock := ofRule .blockStmt spanned_blockStmt file t
      exact spanned_unit (yield_single t) (hBlock.map fun _ => rfl)
    | ⟨1, _⟩, .cons _ _ t .nil =>
      exact spanned_unit (yield_single t) (ofRule .emptyStmt spanned_emptyStmt file t)
    | ⟨2, _⟩, .cons _ _ t .nil =>
      exact spanned_unit (yield_single t) (ofRule .varDecl spanned_varDecl file t)
    | ⟨3, _⟩, .cons _ _ t .nil =>
      exact spanned_unit (yield_single t) (ofRule .fnDecl spanned_fnDecl file t)
    | ⟨4, _⟩, .cons _ _ t .nil =>
      exact spanned_unit (yield_single t) (ofRule .classDecl spanned_classDecl file t)
    | ⟨5, _⟩, .cons _ _ t .nil =>
      exact spanned_unit (yield_single t) (ofRule .returnStmt spanned_returnStmt file t)
    | ⟨6, _⟩, .cons _ _ t .nil =>
      exact spanned_unit (yield_single t) (ofRule .throwStmt spanned_throwStmt file t)
    | ⟨7, _⟩, .cons _ _ t .nil =>
      exact spanned_unit (yield_single t) (ofRule .ifStmt spanned_ifStmt file t)
    | ⟨8, _⟩, .cons _ _ t .nil =>
      exact spanned_unit (yield_single t) (ofRule .whileStmt spanned_whileStmt file t)
    | ⟨9, _⟩, .cons _ _ t .nil =>
      exact spanned_unit (yield_single t) (ofRule .exprStmt spanned_exprStmt file t)

/-- A declaration at the top of a module has the span of its tokens. -/
theorem spanned_moduleDecl (tree : ModuleTree .moduleDecl) :
    Spanned ModuleItem.span (spanOf file tree.yield) (tree.value file) := by
  cases tree with
  | node n i children =>
    match i, children with
    | ⟨0, _⟩, .cons _ _ t .nil =>
      exact spanned_unit (yield_single t) (ofRule .importDecl spanned_importDecl file t)
    | ⟨1, _⟩, .cons _ _ t .nil =>
      exact spanned_unit (yield_single t) (ofRule .importBare spanned_importBare file t)
    | ⟨2, _⟩, .cons _ _ t .nil =>
      exact spanned_unit (yield_single t)
        (ofRule .exportDefaultDecl spanned_exportDefaultDecl file t)
    | ⟨3, _⟩, .cons _ _ t .nil =>
      exact spanned_unit (yield_single t)
        (ofRule .exportDefaultExpr spanned_exportDefaultExpr file t)
    | ⟨4, _⟩, .cons _ _ t .nil =>
      exact spanned_unit (yield_single t)
        (ofRule .exportNamedDecl spanned_exportNamedDecl file t)
    | ⟨5, _⟩, .cons _ _ t .nil =>
      exact spanned_unit (yield_single t)
        (ofRule .namedExport spanned_namedExport file t)
    | ⟨6, _⟩, .cons _ _ t .nil =>
      exact spanned_unit (yield_single t) (ofRule .exportAll spanned_exportAll file t)

end Units

-- ---------------------------------------------------------------------------------------------
-- Items side by side
-- ---------------------------------------------------------------------------------------------

/-- Some tokens and the items they stand for: a terminator on its own and none, or the tokens of
one item, which do not begin with a terminator or a closing brace. -/
inductive ItemPhrase (file : Option Text) : List Token → List ModuleItem → Prop where
  | blank (t : Token) (hKind : t.kind = .terminator) : ItemPhrase file [t] []
  | item (i : ModuleItem) (first : Token) (rest : List Token) (hKind : isCode first.kind = true)
      (hSpan : i.span = spanOf file (first :: rest)) : ItemPhrase file (first :: rest) [i]

theorem itemPhrase_single {file : Option Text} {n : Category} {tree : ModuleTree n}
    {ts : List Token} {v : Build ModuleItem} {items : List ModuleItem}
    (hYield : ts = tree.yield) (hBegins : beginsWithCode n = true)
    (hSpan : Spanned ModuleItem.span (spanOf file tree.yield) v)
    (hValue : ModuleGrammar.single v = .ok items) : ItemPhrase file ts items := by
  rw [hYield]
  cases v with
  | error e => cases hValue
  | ok i =>
    cases hValue
    obtain ⟨first, hHead, hKind⟩ := Tree.exists_head beginsIn_code tree hBegins
    obtain ⟨rest, hTokens⟩ := List.head?_eq_some_iff.mp hHead
    rw [hTokens] at hSpan ⊢
    exact .item i first rest hKind (hSpan i rfl)

/-- The phrase of one item. -/
theorem itemPhrase_of_value {file : Option Text} {tree : ModuleTree .item}
    {items : List ModuleItem} (hValue : tree.value file = .ok items) :
    ItemPhrase file tree.yield items := by
  cases tree with
  | node n i children =>
    match i, children with
    | ⟨0, _⟩, .cons _ _ t .nil =>
      have hSpan : Spanned ModuleItem.span _ (ModuleItem.stmt <$> (t.value file : Build Stmt)) :=
        (spanned_stmt file t).map fun _ => rfl
      exact itemPhrase_single (yield_single t) rfl hSpan hValue
    | ⟨1, _⟩, .cons _ _ t .nil =>
      exact itemPhrase_single (yield_single t) rfl (spanned_moduleDecl file t) hValue
    | ⟨2, _⟩, .cons _ _ (.leaf _ t hKind) .nil =>
      cases hValue
      exact .blank t hKind

/-- Tokens and the items they stand for, phrase by phrase. -/
inductive ItemPhrases (file : Option Text) : List Token → List ModuleItem → Prop where
  | nil : ItemPhrases file [] []
  | snoc {ts us : List Token} {is js : List ModuleItem} (hInit : ItemPhrases file ts is)
      (hLast : ItemPhrase file us js) : ItemPhrases file (ts ++ us) (is ++ js)

theorem ItemPhrases.of_eq {file : Option Text} {ws ts us : List Token} {is js : List ModuleItem}
    (hTokens : ws = ts ++ us) (hInit : ItemPhrases file ts is) (hLast : ItemPhrase file us js) :
    ItemPhrases file ws (is ++ js) :=
  hTokens ▸ .snoc hInit hLast

/-- The items of a module lie side by side in its tokens. -/
theorem phrases_of_value (file : Option Text) : (tree : ModuleTree .items) →
    ∀ items, tree.value file = .ok items → ItemPhrases file tree.yield items
  | .node _ ⟨0, _⟩ (.cons _ _ init (.cons _ _ last .nil)), items, hValue => by
    change ModuleGrammar.append (init.value file) (last.value file) = .ok items at hValue
    have hYield : (Forest.cons _ _ init (.cons _ _ last .nil)).yield = init.yield ++ last.yield := by
      rw [Forest.yield, yield_single]
    cases hInit : init.value file with
    | error e =>
      rw [hInit] at hValue
      cases hValue
    | ok is =>
      cases hLast : last.value file with
      | error e =>
        rw [hInit, hLast] at hValue
        cases hValue
      | ok js =>
        rw [hInit, hLast] at hValue
        cases hValue
        exact .of_eq hYield (phrases_of_value file init is hInit) (itemPhrase_of_value hLast)
  | .node _ ⟨1, _⟩ (.cons _ _ last .nil), items, hValue => by
    exact .of_eq (yield_single last) .nil (itemPhrase_of_value hValue)
termination_by tree => tree.nodes
decreasing_by exact Nat.lt_succ_of_le (Nat.le_add_right init.nodes _)

/-- An item lies between its first and its last token. -/
structure LiesBetween (i : ModuleItem) (first last : Token) : Prop where
  lo : i.span.lo = some (first.start.offset : Int)
  hi : i.span.hi = some (last.stop.offset : Int)
  filled : first.start.offset < last.stop.offset

theorem liesBetween_of_span {file : Option Text} {i : ModuleItem} {first : Token}
    {rest : List Token} (hOrder : InOrder (first :: rest)) (hKind : isCode first.kind = true)
    (hSpan : i.span = spanOf file (first :: rest)) :
    ∃ last ∈ first :: rest, LiesBetween i first last := by
  have hFilled : first.start.offset < first.stop.offset := by
    refine hOrder.filled first List.mem_cons_self ?_
    rw [isCode, Bool.and_eq_true, decide_eq_true_eq] at hKind
    exact hKind.1
  obtain ⟨last, hLast⟩ := Option.isSome_iff_exists.mp
    (List.getLast?_isSome.mpr (List.cons_ne_nil first rest))
  have hMem := List.mem_of_getLast? hLast
  refine ⟨last, hMem, ?_, ?_, ?_⟩
  · rw [hSpan, spanOf, List.head?_cons, hLast]
    rfl
  · rw [hSpan, spanOf, List.head?_cons, hLast]
    rfl
  · rcases List.mem_cons.mp hMem with rfl | hRest
    · exact hFilled
    · have := (List.pairwise_cons.mp hOrder.stops).1 last hRest
      omega

/-- Items from left to right, each with a place of its own. -/
structure LaidOut (items : List ModuleItem) : Prop where
  placed : ∀ i ∈ items, ∃ lo hi : Nat,
    i.span.lo = some (lo : Int) ∧ i.span.hi = some (hi : Int) ∧ lo < hi
  ordered : items.Pairwise fun a b =>
    ∀ hi lo : Int, a.span.hi = some hi → b.span.lo = some lo → hi ≤ lo

/-- The items of tokens in order are laid out from left to right. An item begins with a token
that begins where all before it have ended, so the items before it have ended there as well. -/
theorem laidOut_of_phrases {file : Option Text} {ts : List Token} {is : List ModuleItem}
    (h : ItemPhrases file ts is) (hOrder : InOrder ts) :
    LaidOut is ∧ ∀ i ∈ is, ∃ first ∈ ts, ∃ last ∈ ts, LiesBetween i first last := by
  induction h with
  | nil => exact ⟨⟨List.forall_mem_nil _, .nil⟩, List.forall_mem_nil _⟩
  | @snoc ts us is js _ hLast ih =>
    obtain ⟨hStops, hStops', _⟩ := List.pairwise_append.mp hOrder.stops
    obtain ⟨hStarts, hStarts', hCross⟩ := List.pairwise_append.mp hOrder.starts
    have hFilled := fun t ht => hOrder.filled t (List.mem_append_right ts ht)
    obtain ⟨hLaid, hBetween⟩ := ih
      ⟨hStops, hStarts, fun t ht => hOrder.filled t (List.mem_append_left us ht)⟩
    have hOld : ∀ i ∈ is, ∃ first ∈ ts ++ us, ∃ last ∈ ts ++ us, LiesBetween i first last := by
      intro i hi
      obtain ⟨first, hFirst, last, hLast, h⟩ := hBetween i hi
      exact ⟨first, List.mem_append_left _ hFirst, last, List.mem_append_left _ hLast, h⟩
    cases hLast with
    | blank t hKind =>
      rw [List.append_nil]
      exact ⟨hLaid, hOld⟩
    | item i first rest hKind hSpan =>
      obtain ⟨last, hMem, hNew⟩ := liesBetween_of_span ⟨hStops', hStarts', hFilled⟩ hKind hSpan
      refine ⟨⟨?_, List.pairwise_append.mpr ⟨hLaid.ordered, List.pairwise_singleton _ _, ?_⟩⟩, ?_⟩
      · intro j hj
        rcases List.mem_append.mp hj with hj | hj
        · exact hLaid.placed j hj
        · obtain rfl := List.mem_singleton.mp hj
          exact ⟨_, _, hNew.lo, hNew.hi, hNew.filled⟩
      · intro j hj k hk hi lo hHi hLo
        obtain rfl := List.mem_singleton.mp hk
        obtain ⟨_, _, end_, hEnd, hj'⟩ := hBetween j hj
        rw [isCode, Bool.and_eq_true, decide_eq_true_eq, decide_eq_true_eq] at hKind
        have := hCross end_ hEnd first List.mem_cons_self hKind.1 hKind.2
        rw [hj'.hi] at hHi
        rw [hNew.lo] at hLo
        cases hHi
        cases hLo
        omega
      · intro j hj
        rcases List.mem_append.mp hj with hj | hj
        · exact hOld j hj
        · obtain rfl := List.mem_singleton.mp hj
          exact ⟨first, List.mem_append_right _ List.mem_cons_self, last,
            List.mem_append_right _ hMem, hNew⟩

/-- The items of a source that is read are laid out from left to right. -/
theorem ReadFrom.laidOut {source : Text} {file : Option Text} {parsed : ParsedModule}
    {tree : Option ItemsTree} (h : ReadFrom source file parsed tree) :
    LaidOut parsed.module.body := by
  have hOrder := inOrder_statements source
  rw [← h.tokens] at hOrder
  cases tree with
  | none =>
    have hBody : [] = parsed.module.body := Except.ok.inj h.built
    rw [← hBody]
    exact ⟨List.forall_mem_nil _, .nil⟩
  | some tree => exact (laidOut_of_phrases (phrases_of_value file tree _ h.built) hOrder).1

end ClientBoundary
