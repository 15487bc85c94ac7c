import ClientBoundary.Proofs.NodeRules
import Mathlib.Data.List.Induction

/-!
# Where nodes stand

Every node of a module knows the piece of the source it was read from. A node has the span from the
first to the last token of its phrase, or that of the one node it stands for; tokens are in order,
and terminators that were inserted have places of their own that may not be: but no phrase that
makes a node begins with one, and they end where tokens end.

* `after_start` — counting places along a source gives offset, line and column.
* `Token.StandsIn` — tokens have their text at their place (`standsIn_statements`).
* `Node.Placed` — a node has a place in the source, its parts lie inside it, and a name or a literal
  reads as the text there.
* `nodes_placed` — all nodes of a module that is read are placed, and its items side by side.
-/

namespace ClientBoundary

open Grammar

-- ---------------------------------------------------------------------------------------------
-- Lines and columns
-- ---------------------------------------------------------------------------------------------

/-- The line of an offset of a source, counted from one; only line feeds end lines. -/
def lineAt (source : Text) (offset : Nat) : Nat :=
  (source.take offset).count (.char '\n') + 1

/-- The column of an offset of a source, counted from one. -/
def columnAt (source : Text) (offset : Nat) : Nat :=
  ((source.take offset).reverse.takeWhile (· ≠ .char '\n')).length + 1

/-- The place after a text has its length as its offset, and its line and column are those of the
end of the text. -/
theorem Place.after_start (t : Text) :
    Place.start.after t =
      ⟨t.length, t.count (.char '\n') + 1, (t.reverse.takeWhile (· ≠ .char '\n')).length + 1⟩ := by
  induction t using List.reverseRecOn with
  | nil => rfl
  | append_singleton t c ih =>
    rw [Place.after_append, ih]
    show Place.next _ c = _
    unfold Place.next
    by_cases hLine : c = .char '\n'
    · rw [if_pos hLine, hLine]
      simp
    · rw [if_neg hLine]
      simp [List.count_append, hLine]

-- ---------------------------------------------------------------------------------------------
-- Tokens
-- ---------------------------------------------------------------------------------------------

/-- The text of a source between two offsets. -/
def Text.between (source : Text) (lo hi : Nat) : Text := (source.take hi).drop lo

/-- A token has a place in a source, and its text stands there unless it was inserted. -/
structure Token.StandsIn (source : Text) (t : Token) : Prop where
  start : t.start = Place.start.after (source.take t.start.offset)
  ordered : t.start.offset ≤ t.stop.offset
  bounded : t.stop.offset ≤ source.length
  text : t.kind ≠ .terminator → source.between t.start.offset t.stop.offset = t.text

theorem Lexeme.CutFrom.between {source : Text} {l : Lexeme} (h : l.CutFrom source) :
    source.between l.start.offset l.stop.offset = l.text := by
  rw [Text.between, h.stop, List.drop_take, Nat.add_sub_cancel_left]
  exact h.text

theorem Lexeme.CutFrom.bounded {source : Text} {l : Lexeme} (h : l.CutFrom source)
    (hFilled : l.start.offset < l.stop.offset) : l.stop.offset ≤ source.length := by
  have hLength := congrArg List.length h.text
  rw [List.length_take, List.length_drop] at hLength
  have hStop := h.stop
  omega

/-- Lexemes side by side begin where counting along the source leads to. -/
theorem Tiling.start_eq {source : Text} {p : Place} {ls : List Lexeme} (h : Tiling p ls)
    (hCut : ∀ l ∈ ls, l.CutFrom source) (hStart : p = Place.start.after (source.take p.offset)) :
    ∀ l ∈ ls, l.start = Place.start.after (source.take l.start.offset) := by
  induction h with
  | nil => exact List.forall_mem_nil _
  | @cons l ls hText hStop _ ih =>
    obtain ⟨hHead, hRest⟩ := List.forall_mem_cons.mp hCut
    refine List.forall_mem_cons.mpr ⟨hStart, ih hRest ?_⟩
    calc l.stop = (Place.start.after (source.take l.start.offset)).after l.text := by
          rw [← hStart, hStop]
      _ = Place.start.after (source.take l.start.offset ++ l.text) :=
          (Place.after_append _ _ _).symm
      _ = Place.start.after (source.take l.stop.offset) := by
          rw [hHead.stop, List.take_add, hHead.text]

theorem standsIn_tokens (source : Text) : ∀ t ∈ (lex source).tokens, t.StandsIn source := by
  intro t ht
  obtain ⟨l, hMem, hToken⟩ := List.mem_filterMap.mp ht
  have hCuts : ∀ l ∈ (lex source).lexemes, l.CutFrom source := cutFrom_of_mem _ rfl
  have hStart := (tiling_lex source).start_eq hCuts rfl l hMem
  have hFilled := ((tiling_lex source).ordered.1 l hMem).2
  unfold Lexeme.token? at hToken
  split at hToken
  · cases hToken
    exact ⟨hStart, Nat.le_of_lt hFilled, (hCuts l hMem).bounded hFilled,
      fun _ => (hCuts l hMem).between⟩
  · cases hToken

theorem standsIn_statements {source : Text} (hLexed : (lex source).failure = none) :
    ∀ t ∈ (lex source).statements, t.StandsIn source := by
  rw [Lexing.statements_eq_put hLexed]
  refine Insertion.forall_put ?_ (standsIn_tokens source) nofun nofun
  exact fun t h => ⟨h.start, h.ordered, h.bounded, fun hKind => absurd rfl hKind⟩

-- ---------------------------------------------------------------------------------------------
-- Spans
-- ---------------------------------------------------------------------------------------------

/-- A span marks the stretch of a source from one offset to another, and its line and column are
those of the first. -/
structure Span.Marks (source : Text) (s : Span) (start stop : Nat) : Prop where
  lo : s.lo = some (start : Int)
  hi : s.hi = some (stop : Int)
  ordered : start ≤ stop
  bounded : stop ≤ source.length
  line : s.line = some (lineAt source start : Int)
  column : s.column = some (columnAt source start : Int)

/-- The tokens of a phrase, which begins with code. -/
structure Stretch (source : Text) (ts : List Token) (first last : Token) : Prop where
  head : ts.head? = some first
  last : ts.getLast? = some last
  code : isCode first.kind = true
  order : InOrder ts
  stand : ∀ t ∈ ts, t.StandsIn source

namespace Stretch

variable {source : Text} {ts us : List Token} {first last first' last' : Token}

theorem ne_terminator (h : isCode first.kind = true) : first.kind ≠ .terminator := by
  rw [isCode, Bool.and_eq_true, decide_eq_true_eq] at h
  exact h.1

theorem filled (h : Stretch source ts first last) : first.start.offset < last.stop.offset := by
  have hMem := List.mem_of_mem_head? h.head
  have hFirst := h.order.filled first hMem (ne_terminator h.code)
  have hLast := (h.order.stops_between h.head h.last hMem).2
  omega

theorem marks (h : Stretch source ts first last) (file : Option Text) :
    (spanOf file ts).Marks source first.start.offset last.stop.offset := by
  have hFirst := h.stand first (List.mem_of_mem_head? h.head)
  have hLast := h.stand last (List.mem_of_getLast? h.last)
  have hPlace := hFirst.start
  rw [Place.after_start] at hPlace
  rw [spanOf, h.head, h.last]
  refine ⟨rfl, rfl, Nat.le_of_lt h.filled, hLast.bounded, ?_, ?_⟩
  · exact congrArg (fun p : Place => some (p.line : Int)) hPlace
  · exact congrArg (fun p : Place => some (p.column : Int)) hPlace

/-- A stretch inside another one does not begin before it, because it begins with code, and does not
end after it. -/
theorem inside (h : Stretch source ts first last) (h' : Stretch source us first' last')
    (hSub : us <:+: ts) :
    first.start.offset ≤ first'.start.offset ∧ last'.stop.offset ≤ last.stop.offset := by
  have hFirst : first' ∈ ts := hSub.subset (List.mem_of_mem_head? h'.head)
  have hLast : last' ∈ ts := hSub.subset (List.mem_of_getLast? h'.last)
  refine ⟨?_, (h.order.stops_between h.head h.last hLast).2⟩
  obtain ⟨rest, rfl⟩ := List.head?_eq_some_iff.mp h.head
  rcases List.mem_cons.mp hFirst with rfl | hRest
  · exact Nat.le_refl _
  · have hCode := h'.code
    rw [isCode, Bool.and_eq_true, decide_eq_true_eq, decide_eq_true_eq] at hCode
    have := (List.pairwise_cons.mp h.order.starts).1 first' hRest hCode.1 hCode.2
    have := (h.stand first List.mem_cons_self).ordered
    omega

end Stretch

/-- The tokens of a phrase that begins with code. -/
theorem exists_stretch {source : Text} (hLexed : (lex source).failure = none) {c : Category}
    (tree : ModuleTree c) (hBegins : beginsWithCode c = true)
    (hYield : tree.yield <:+: (lex source).statements) :
    ∃ first last, Stretch source tree.yield first last := by
  obtain ⟨first, hHead, hCode⟩ := Tree.exists_head beginsIn_code tree hBegins
  obtain ⟨last, hLast⟩ := Option.isSome_iff_exists.mp
    (List.getLast?_isSome.mpr (List.ne_nil_of_mem (List.mem_of_mem_head? hHead)))
  exact ⟨first, last, hHead, hLast, hCode, (inOrder_statements source).sublist hYield.sublist,
    fun t ht => standsIn_statements hLexed t (hYield.subset ht)⟩

-- ---------------------------------------------------------------------------------------------
-- Nodes
-- ---------------------------------------------------------------------------------------------

/-- A node has a place in a source, its parts lie inside it, and a name or a literal reads as the
text there. -/
def Node.Placed (source : Text) (n : Node) : Prop :=
  ∃ lo hi, n.span.Marks source lo hi ∧ n.ReadsAs (source.between lo hi) ∧
    ∀ p ∈ n.parts, ∃ lo' hi', p.span.Marks source lo' hi' ∧ lo ≤ lo' ∧ hi' ≤ hi

/-- All nodes of a tree are placed, and its root has the span of some of the tokens. -/
structure Node.PlacedOn (source : Text) (file : Option Text) (ts : List Token) (n : Node) :
    Prop where
  all : n.All (Node.Placed source)
  span : ∃ us first last, us <:+: ts ∧ Stretch source us first last ∧ n.span = spanOf file us

theorem Node.PlacedOn.more {source : Text} {file : Option Text} {us ts : List Token} {n : Node}
    (hSub : us <:+: ts) (h : n.PlacedOn source file us) : n.PlacedOn source file ts := by
  obtain ⟨hAll, ws, first, last, hInfix, hStretch, hSpan⟩ := h
  exact ⟨hAll, ws, first, last, hInfix.trans hSub, hStretch, hSpan⟩

theorem Forest.yield_of_token {ss : List (Symbol Category)} (f : Forest moduleGrammar ss)
    {t : Terminal} (h : ss = [.tok t]) : ∃ token, f.yield = [token] := by
  subst h
  match f with
  | .cons _ _ (.leaf _ token _) .nil => exact ⟨token, rfl⟩

/-- Names and literals are one token. -/
theorem yield_of_isLiteral {c : Category} (hLiteral : c.isLiteral = true) (tree : ModuleTree c) :
    ∃ token, tree.yield = [token] := by
  have hAll : ∀ c ∈ Category.all, c.isLiteral = true →
      ∀ ss ∈ moduleGrammar.shape c, ∃ t ∈ Terminal.all, ss = [.tok t] := by decide +kernel
  cases tree with
  | node c i children =>
    obtain ⟨t, _, hSymbols⟩ := hAll c (Category.mem_all c) hLiteral _
      (List.mem_map_of_mem (List.get_mem _ i))
    exact Forest.yield_of_token children hSymbols

section Phrases

variable {source : Text} {file : Option Text} (hLexed : (lex source).failure = none)
include hLexed

/-- A node with the span of a phrase is placed when its parts are. -/
theorem placedOn_phrase {c : Category} (tree : ModuleTree c) (hBegins : beginsWithCode c = true)
    (hYield : tree.yield <:+: (lex source).statements) {n : Node}
    (hSpan : n.span = spanOf file tree.yield) (hReads : ∀ t, n.ReadsAs t)
    (hParts : ∀ p ∈ n.parts, Node.PlacedOn source file tree.yield p) :
    n.PlacedOn source file tree.yield := by
  obtain ⟨first, last, hStretch⟩ := exists_stretch hLexed tree hBegins hYield
  refine ⟨.mk ⟨_, _, hSpan ▸ hStretch.marks file, hReads _, ?_⟩ fun p hp => (hParts p hp).all,
    tree.yield, first, last, List.infix_rfl, hStretch, hSpan⟩
  intro p hp
  obtain ⟨us, first', last', hSub, hInner, hInnerSpan⟩ := (hParts p hp).span
  obtain ⟨hLo, hHi⟩ := hStretch.inside hInner hSub
  exact ⟨_, _, hInnerSpan ▸ hInner.marks file, hLo, hHi⟩

/-- A name or a literal is placed where its one token stands. -/
theorem placedOn_literal {c : Category} (tree : ModuleTree c) (hLiteral : c.isLiteral = true)
    (hYield : tree.yield <:+: (lex source).statements) {n : Node} {token : Token}
    (hToken : token ∈ tree.yield) (hSpan : n.span = spanOf file tree.yield) (hParts : n.parts = [])
    (hReads : n.ReadsAs token.text) : n.PlacedOn source file tree.yield := by
  have hBegins : beginsWithCode c = true := by
    cases c <;> first | rfl | cases hLiteral
  obtain ⟨first, last, hStretch⟩ := exists_stretch hLexed tree hBegins hYield
  obtain ⟨only, hOnly⟩ := yield_of_isLiteral hLiteral tree
  have hHead := hStretch.head
  have hLast := hStretch.last
  rw [hOnly] at hToken hHead hLast
  cases hHead
  cases hLast
  obtain rfl := List.mem_singleton.mp hToken
  have hText := (hStretch.stand token (hOnly ▸ List.mem_singleton_self _)).text
    (Stretch.ne_terminator hStretch.code)
  refine ⟨.of_leaf ⟨_, _, hSpan ▸ hStretch.marks file, hText ▸ hReads, ?_⟩ hParts,
    tree.yield, token, token, List.infix_rfl, hStretch, hSpan⟩
  rw [hParts]
  exact List.forall_mem_nil _

/-- The nodes of the values of all trees are placed. -/
theorem inherited_placedOn :
    Inherited file (lex source).statements (fun _ _ => True) (Node.PlacedOn source file) where
  more _ _ _ := Node.PlacedOn.more
  down _ _ children _ := children.each_of_forall fun _ _ => trivial
  closed c tree hYield :=
    { phrase := fun hBegins n hSpan hPlain _ hParts =>
        placedOn_phrase hLexed tree hBegins hYield hSpan (Node.readsAs_of_isPlain hPlain) hParts
      wrapper := fun n p hParts hSpan hPlain _ hPart => by
        obtain ⟨lo, hi, hMarks, -, -⟩ := hPart.all.here
        refine ⟨.mk ⟨lo, hi, hSpan ▸ hMarks, Node.readsAs_of_isPlain hPlain _, ?_⟩ ?_,
          hSpan ▸ hPart.span⟩
        · rw [hParts]
          exact List.forall_mem_singleton.mpr ⟨lo, hi, hMarks, Nat.le_refl _, Nat.le_refl _⟩
        · rw [hParts]
          exact List.forall_mem_singleton.mpr hPart.all
      literal := fun hLiteral n token hToken hSpan hParts hReads _ =>
        placedOn_literal hLexed tree hLiteral hYield hToken hSpan hParts hReads }
  branch tree _ hYield test cons alt _ _ hParts :=
    placedOn_phrase hLexed tree rfl hYield rfl (fun _ => trivial) hParts

end Phrases

-- ---------------------------------------------------------------------------------------------
-- Modules
-- ---------------------------------------------------------------------------------------------

/-- In a module that is read, every node has a place, inside that of the node it is a part of; names
and literals read as the text in their place; and the items of the module are not empty and stand one
after the other. -/
theorem nodes_placed {source : Text} {file : Option Text} {parsed : ParsedModule}
    (h : parseModule source file = .ok parsed) :
    (∀ n, Node.Within (.module parsed.module) n → n.Placed source) ∧
      (∀ i ∈ parsed.module.body, ∃ lo hi, i.span.Marks source lo hi ∧ lo < hi) ∧
      parsed.module.body.Pairwise fun a b =>
        ∀ lo hi lo' hi', a.span.Marks source lo hi → b.span.Marks source lo' hi' → hi ≤ lo' := by
  obtain ⟨tree, hRead⟩ := parseModule_eq_ok h
  have hItems : ∀ i ∈ parsed.module.body,
      (Node.item i).PlacedOn source file (lex source).statements :=
    hRead.each_item (inherited_placedOn hRead.lexed) fun _ _ => trivial
  have hMarks : parsed.module.span.Marks source 0 source.length := by
    rw [hRead.span]
    exact ⟨rfl, rfl, Nat.zero_le _, Nat.le_refl _, rfl, rfl⟩
  have hRoot : (Node.module parsed.module).All (Node.Placed source) := by
    refine .mk ⟨0, source.length, hMarks, trivial, List.forall_mem_map.mpr fun i hi => ?_⟩
      (List.forall_mem_map.mpr fun i hi => (hItems i hi).all)
    obtain ⟨lo, hi', hItem, -, -⟩ := (hItems i hi).all.here
    exact ⟨lo, hi', hItem, Nat.zero_le _, hItem.bounded⟩
  refine ⟨fun n => hRoot.of_within, fun i hi => ?_, hRead.laidOut.ordered.imp ?_⟩
  · obtain ⟨us, first, last, -, hStretch, hSpan⟩ := (hItems i hi).span
    exact ⟨_, _, (hSpan ▸ hStretch.marks file : (Node.item i).span.Marks ..), hStretch.filled⟩
  · intro a b hOrder lo hi lo' hi' ha hb
    exact Int.ofNat_le.mp (hOrder _ _ ha.hi hb.lo)

set_option maxRecDepth 100000 in
/-- Two items, the first ended by a line feed and the second by the end of the source. -/
theorem nodes_placed_over_three_lines :
    ∃ source parsed, source = Text.ofString "let a = 'x'\n\n f(2)" ∧
      parseModule source none = .ok parsed ∧
      parsed.module.body.map (fun i => (i.span.lo, i.span.hi, i.span.line, i.span.column)) =
        [(some 0, some 12, some 1, some 1), (some 14, some 18, some 3, some 2)] ∧
      (∀ n, Node.Within (.module parsed.module) n → n.Placed source) ∧
      (∀ i ∈ parsed.module.body, ∃ lo hi, i.span.Marks source lo hi ∧ lo < hi) ∧
      parsed.module.body.Pairwise fun a b =>
        ∀ lo hi lo' hi', a.span.Marks source lo hi → b.span.Marks source lo' hi' → hi ≤ lo' := by
  have hReads : readsAs "let a = 'x'\n\n f(2)" (fun parsed => decide
      (parsed.module.body.map (fun i => (i.span.lo, i.span.hi, i.span.line, i.span.column)) =
        [(some 0, some 12, some 1, some 1), (some 14, some 18, some 3, some 2)])) = true := by
    decide +kernel
  obtain ⟨parsed, hRead, hSpans⟩ := exists_of_readsAs hReads
  exact ⟨_, parsed, rfl, hRead, of_decide_eq_true hSpans, nodes_placed hRead⟩

end ClientBoundary
