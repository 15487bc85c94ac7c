import ClientBoundary.Proofs.FileReports
import ClientBoundary.Proofs.ModeStack
import ClientBoundary.Proofs.SyntaxErrors
import ClientBoundary.Proofs.TokenTexts

/-!
# Closing tags must match

The grammar takes any name in a closing tag. Whether it is the name of the element is found out when
the module is built, by comparing the two names as they are written. Here it is shown that nothing is
lost by comparing texts, and that no element is missed.

* `text_eq_iff_same` — names made of the words that can be read in a tag have the same text exactly when
  they are of the same kind and have the same parts.
* `Grammar.Tree.PartOf` — a phrase is part of another, at any depth.
* `closingName_mem_faults` — the faults of a tree that concern closing tags are those of the elements
  in it.
* `closing_tags_must_match` — a sentence whose literals all denote something is read exactly when all
  closing tags match, and otherwise the first token of a closing name that does not is reported.
-/

namespace ClientBoundary

open Grammar

-- ---------------------------------------------------------------------------------------------
-- Names and their texts
-- ---------------------------------------------------------------------------------------------

namespace Text

variable {c : CodePoint} {t : Text}

theorem splitOn_of_notMem (h : c ∉ t) : splitOn c t = [t] := by
  induction t with
  | nil => rfl
  | cons a t ih =>
    rw [List.mem_cons, not_or] at h
    rw [splitOn, if_neg (Ne.symm h.1), ih h.2]

theorem splitOn_append (h : c ∉ t) (rest : Text) :
    splitOn c (t ++ c :: rest) = t :: splitOn c rest := by
  induction t with
  | nil => exact if_pos rfl
  | cons a t ih =>
    rw [List.mem_cons, not_or] at h
    rw [List.cons_append, splitOn, if_neg (Ne.symm h.1), ih h.2]

/-- Pieces that were joined are found again, if the separator is in none of them. -/
theorem splitOn_join {ts : List Text} (hSome : ts ≠ []) (h : ∀ t ∈ ts, c ∉ t) :
    splitOn c (join [c] ts) = ts := by
  induction ts with
  | nil => exact absurd rfl hSome
  | cons t ts ih =>
    obtain ⟨hFirst, hRest⟩ := List.forall_mem_cons.mp h
    cases ts with
    | nil => exact splitOn_of_notMem hFirst
    | cons u us =>
      change splitOn c (t ++ [c] ++ join [c] (u :: us)) = _
      rw [List.append_assoc, List.singleton_append, splitOn_append hFirst,
        ih (List.cons_ne_nil u us) hRest]

theorem notMem_join {sep : Text} {ts : List Text} (hSep : c ∉ sep) (h : ∀ t ∈ ts, c ∉ t) :
    c ∉ join sep ts := by
  induction ts with
  | nil => exact List.not_mem_nil
  | cons t ts ih =>
    obtain ⟨hFirst, hRest⟩ := List.forall_mem_cons.mp h
    cases ts with
    | nil => exact hFirst
    | cons u us =>
      change c ∉ t ++ sep ++ join sep (u :: us)
      simp only [List.mem_append, not_or]
      exact ⟨⟨hFirst, hSep⟩, ih hRest⟩

end Text

/-- A word in the name of a tag has neither of the marks that stand between words. -/
def IsTagWord (w : Text) : Prop := .char '.' ∉ w ∧ .char ':' ∉ w

namespace JsxName

/-- The words of a name. -/
def words : JsxName → List Text
  | .member parts _ => parts
  | .namespaced ns name _ => [ns, name]

/-- Two names are of the same kind and have the same parts, wherever they stand. -/
def Same : JsxName → JsxName → Prop
  | .member parts _, .member parts' _ => parts = parts'
  | .namespaced ns name _, .namespaced ns' name' _ => ns = ns' ∧ name = name'
  | _, _ => False

/-- A name that can be written in a tag. -/
structure Writable (n : JsxName) : Prop where
  words_ne_nil : n.words ≠ []
  isTagWord : ∀ w ∈ n.words, IsTagWord w

variable {parts : List Text} {ns name : Text} {s : Span}

theorem splitOn_member (h : (member parts s).Writable) :
    Text.splitOn (.char '.') (member parts s).text = parts :=
  Text.splitOn_join h.words_ne_nil fun w hw => (h.isTagWord w hw).1

theorem splitOn_namespaced (h : (namespaced ns name s).Writable) :
    Text.splitOn (.char ':') (namespaced ns name s).text = [ns, name] :=
  Text.splitOn_join h.words_ne_nil fun w hw => (h.isTagWord w hw).2

/-- There is no colon in a name with dots. -/
theorem splitOn_colon_member (h : (member parts s).Writable) :
    Text.splitOn (.char ':') (member parts s).text = [(member parts s).text] :=
  Text.splitOn_of_notMem (Text.notMem_join (by decide) fun w hw => (h.isTagWord w hw).2)

/-- Comparing names by their texts is comparing them part by part. -/
theorem text_eq_iff_same {a b : JsxName} (ha : a.Writable) (hb : b.Writable) :
    a.text = b.text ↔ a.Same b := by
  constructor
  · intro h
    cases a with
    | member parts s =>
      cases b with
      | member parts' s' =>
        have hSplit := congrArg (Text.splitOn (.char '.')) h
        rwa [splitOn_member ha, splitOn_member hb] at hSplit
      | namespaced ns' name' s' =>
        have hSplit := congrArg (Text.splitOn (.char ':')) h
        rw [splitOn_colon_member ha, splitOn_namespaced hb] at hSplit
        cases hSplit
    | namespaced ns name s =>
      cases b with
      | member parts' s' =>
        have hSplit := congrArg (Text.splitOn (.char ':')) h
        rw [splitOn_namespaced ha, splitOn_colon_member hb] at hSplit
        cases hSplit
      | namespaced ns' name' s' =>
        have hSplit := congrArg (Text.splitOn (.char ':')) h
        rw [splitOn_namespaced ha, splitOn_namespaced hb] at hSplit
        cases hSplit
        exact ⟨rfl, rfl⟩
  · intro h
    cases a with
    | member parts s =>
      cases b with
      | member parts' s' => exact congrArg (Text.join ".") h
      | namespaced ns' name' s' => exact h.elim
    | namespaced ns name s =>
      cases b with
      | member parts' s' => exact h.elim
      | namespaced ns' name' s' =>
        obtain ⟨rfl, rfl⟩ := h
        rfl

end JsxName

-- ---------------------------------------------------------------------------------------------
-- Words in tags
-- ---------------------------------------------------------------------------------------------

theorem isTagWord_jsxName {t : Text} {n : Nat} (h : Pattern.jsxName t = some n) :
    IsTagWord (t.take n) := by
  unfold Pattern.jsxName at h
  split at h
  · rename_i c t
    split at h
    · rename_i hStart
      cases h
      have hRest := Pattern.all_take_run (fun d => d.isWord || d = .char '$' || d = .char '-') t
      rw [IsTagWord, List.take_succ_cons, List.mem_cons, List.mem_cons, not_or, not_or]
      refine ⟨⟨?_, fun hDot => ?_⟩, ?_, fun hColon => ?_⟩
      · rintro rfl
        cases hStart
      · exact absurd (hRest _ hDot) (by decide +kernel)
      · rintro rfl
        cases hStart
      · exact absurd (hRest _ hColon) (by decide +kernel)
    · cases h
  · cases h

namespace Lexer

theorem jsxName_of_tagStep {role : TagRole} {seen : Nat} {below : List Mode} {t : Text} :
    ∀ r, tagStep role seen below t = some r → r.1 = .token .jsxName →
      Pattern.jsxName t = some r.2.1 := by
  intro r h
  unfold tagStep at h
  dsimp only at h
  split at h
  · cases h
    exact fun hKind => by cases hKind
  split at h
  · cases h
    exact fun hKind => by cases hKind
  split at h
  · cases h
    exact fun hKind => by cases hKind
  split at h
  case h_8 =>
    revert r
    exact forall_orElse (forall_map fun n _ hKind => by cases hKind) (forall_map fun n hn _ => hn)
  all_goals
    cases h
    exact fun hKind => by cases hKind

/-- A word of a tag is read in a tag, by its pattern. -/
theorem jsxName_of_step {s s' : Lexer} {t : Text} {n : Nat}
    (h : s.step t = some (.token .jsxName, n, s')) : Pattern.jsxName t = some n := by
  obtain ⟨m, below, hModes, hAllows, -⟩ := allows_of_step h
  obtain ⟨r, hr, hEq⟩ := Option.map_eq_some_iff.mp h
  obtain ⟨hKind, rfl, -⟩ : r.1 = .token .jsxName ∧ r.2.1 = n ∧ _ := by simpa using hEq
  rw [hModes] at hr
  -- in code and among children no words of tags are read
  cases m with
  | code frame depth => cases frame <;> cases hAllows
  | tag role seen => exact jsxName_of_tagStep r hr hKind
  | children => cases hAllows

end Lexer

theorem isTagWord_tokens (source : Text) :
    ∀ t ∈ (lex source).tokens, t.kind = .jsxName → IsTagWord t.text := by
  intro t ht hKind
  obtain ⟨l, hMem, hToken⟩ := List.mem_filterMap.mp ht
  have hCut : l.CutFrom source := cutFrom_of_mem _ rfl l hMem
  obtain ⟨s, s', n, hStep, hText⟩ := hCut.taken
  unfold Lexeme.token? at hToken
  split at hToken
  · rename_i k hLexeme
    cases hToken
    obtain rfl : k = .jsxName := hKind
    rw [hLexeme] at hStep
    change IsTagWord l.text
    rw [hText]
    exact isTagWord_jsxName (Lexer.jsxName_of_step hStep)
  · cases hToken

/-- The words in the tags of a source have no dots and no colons. -/
theorem isTagWord_statements {source : Text} (hLexed : (lex source).failure = none) :
    ∀ t ∈ (lex source).statements, t.kind = .jsxName → IsTagWord t.text := by
  rw [Lexing.statements_eq_put hLexed]
  exact Insertion.forall_put (fun _ _ h => nomatch h) (isTagWord_tokens source) nofun nofun

-- ---------------------------------------------------------------------------------------------
-- Names in trees
-- ---------------------------------------------------------------------------------------------

/-- The words among tokens. -/
def tagWords (ts : List Token) : List Text :=
  (ts.filter fun t => t.kind = .jsxName).map Token.text

theorem tagWords_append (ts us : List Token) : tagWords (ts ++ us) = tagWords ts ++ tagWords us := by
  rw [tagWords, List.filter_append, List.map_append]
  rfl

theorem tagWords_rest (file : Option Text) : (tree : ModuleTree .jsxNameRest) →
    (tree.value file : List Text) = tagWords tree.yield
  | .node _ ⟨0, _⟩ (.cons _ _ init (.cons _ _ (.leaf _ dot hDot)
      (.cons _ _ (.leaf _ word hWord) .nil))) => by
    change (init.value file : List Text) ++ [word.text] = tagWords (init.yield ++ [dot, word])
    rw [tagWords_append, tagWords_rest file init]
    simp [tagWords, hDot, hWord]
  | .node _ ⟨1, _⟩ (.cons _ _ (.leaf _ dot hDot) (.cons _ _ (.leaf _ word hWord) .nil)) => by
    change [word.text] = tagWords [dot, word]
    simp [tagWords, hDot, hWord]
termination_by tree => tree.nodes
decreasing_by exact Nat.lt_succ_of_le (Nat.le_add_right init.nodes _)

/-- The words of a name are those of its tokens, and the first token is one of them. -/
theorem words_tagName (file : Option Text) (tree : ModuleTree .jsxName) :
    (tree.value file : TagName).name.words = tagWords tree.yield ∧
      tree.yield.head? = some (tree.value file : TagName).first ∧
      (tree.value file : TagName).first.kind = .jsxName := by
  cases tree with
  | node _ i children =>
    match i, children with
    | ⟨0, _⟩, .cons _ _ (.leaf _ word hWord) (.cons _ _ tail .nil) =>
      refine ⟨?_, rfl, hWord⟩
      change word.text :: (tail.value file : List Text) = tagWords ([word] ++ (tail.yield ++ []))
      rw [List.append_nil, tagWords_append, tagWords_rest file tail]
      simp [tagWords, hWord]
    | ⟨1, _⟩, .cons _ _ (.leaf _ word hWord) .nil =>
      refine ⟨?_, rfl, hWord⟩
      change [word.text] = tagWords [word]
      simp [tagWords, hWord]
    | ⟨2, _⟩, .cons _ _ (.leaf _ ns hNs) (.cons _ _ (.leaf _ colon hColon)
        (.cons _ _ (.leaf _ word hWord) .nil)) =>
      refine ⟨?_, rfl, hNs⟩
      change [ns.text, word.text] = tagWords [ns, colon, word]
      simp [tagWords, hNs, hColon, hWord]

theorem writable_tagName {file : Option Text} {tree : ModuleTree .jsxName}
    (h : ∀ t ∈ tree.yield, t.kind = .jsxName → IsTagWord t.text) :
    (tree.value file : TagName).name.Writable := by
  obtain ⟨hWords, hFirst, hKind⟩ := words_tagName file tree
  refine ⟨?_, ?_⟩
  · rw [hWords]
    refine List.ne_nil_of_mem (List.mem_map_of_mem (List.mem_filter.mpr ⟨List.mem_of_head? hFirst, ?_⟩))
    exact decide_eq_true hKind
  · rw [hWords]
    intro w hw
    obtain ⟨t, ht, rfl⟩ := List.mem_map.mp hw
    obtain ⟨hMem, hWord⟩ := List.mem_filter.mp ht
    exact h t hMem (of_decide_eq_true hWord)

namespace Grammar

section Parts

variable {N : Type} {V : N → Type} {G : Grammar V}

mutual

/-- A phrase is part of another, at any depth. -/
inductive Tree.PartOf {s : Symbol N} (part : Tree G s) : {s' : Symbol N} → Tree G s' → Prop where
  | self : Tree.PartOf part part
  | inner {n : N} {i : Fin (G.rule n).alternatives.length}
      {children : Forest G ((G.rule n).alternatives.get i).symbols}
      (h : Tree.PartOfForest part children) : Tree.PartOf part (.node n i children)

/-- A phrase is part of one of the phrases side by side. -/
inductive Tree.PartOfForest {s : Symbol N} (part : Tree G s) :
    {ss : List (Symbol N)} → Forest G ss → Prop where
  | here {s' : Symbol N} {ss : List (Symbol N)} {tree : Tree G s'} {rest : Forest G ss}
      (h : Tree.PartOf part tree) : Tree.PartOfForest part (.cons s' ss tree rest)
  | later {s' : Symbol N} {ss : List (Symbol N)} {tree : Tree G s'} {rest : Forest G ss}
      (h : Tree.PartOfForest part rest) : Tree.PartOfForest part (.cons s' ss tree rest)

end

mutual

theorem Tree.PartOf.yield_subset {s : Symbol N} {part : Tree G s} : {s' : Symbol N} →
    {tree : Tree G s'} → part.PartOf tree → part.yield ⊆ tree.yield
  | _, _, .self => List.Subset.refl _
  | _, .node _ _ _, .inner h => Tree.PartOfForest.yield_subset h

theorem Tree.PartOfForest.yield_subset {s : Symbol N} {part : Tree G s} :
    {ss : List (Symbol N)} → {f : Forest G ss} → part.PartOfForest f → part.yield ⊆ f.yield
  | _, .cons _ _ _ _, .here h => List.subset_append_of_subset_left _ h.yield_subset
  | _, .cons _ _ _ _, .later h => List.subset_append_of_subset_right _ h.yield_subset

end

end Parts

end Grammar

-- ---------------------------------------------------------------------------------------------
-- Elements
-- ---------------------------------------------------------------------------------------------

/-- The names in the opening and the closing tag of an element; one that is closed in itself has no
closing tag. -/
def tagNames? : ModuleTree .jsxElement → Option (ModuleTree .jsxName × ModuleTree .jsxName)
  | .node _ ⟨0, _⟩ _ => none
  | .node _ ⟨1, _⟩ (.cons _ _ opening (.cons _ _ _ (.cons _ _ closing _))) =>
    some (openingName opening, closingName closing)
  | .node _ ⟨2, _⟩ (.cons _ _ opening (.cons _ _ closing _)) =>
    some (openingName opening, closingName closing)

/-- An element of a tree, at any depth, has these names in its opening and its closing tag. -/
def Grammar.Tree.Pairs {s : Symbol Category} (tree : Tree moduleGrammar s)
    (opening closing : ModuleTree .jsxName) : Prop :=
  ∃ e : ModuleTree .jsxElement, e.PartOf tree ∧ tagNames? e = some (opening, closing)

/-- An element of one of the trees has these names in its opening and its closing tag. -/
def Grammar.Forest.Pairs {ss : List (Symbol Category)} (f : Forest moduleGrammar ss)
    (opening closing : ModuleTree .jsxName) : Prop :=
  ∃ e : ModuleTree .jsxElement, e.PartOfForest f ∧ tagNames? e = some (opening, closing)

section Pairs

variable {opening closing : ModuleTree .jsxName}

theorem not_pairs_leaf {t : Terminal} {token : Token} {h : token.kind = t} :
    ¬ (Tree.leaf t token h : Tree moduleGrammar (.tok t)).Pairs opening closing := by
  rintro ⟨e, hPart, -⟩
  cases hPart

theorem pairs_node {c : Category} (hc : c ≠ .jsxElement)
    {i : Fin (moduleGrammar.rule c).alternatives.length}
    {children : Forest moduleGrammar ((moduleGrammar.rule c).alternatives.get i).symbols} :
    (Grammar.Tree.node c i children).Pairs opening closing ↔ children.Pairs opening closing := by
  constructor
  · rintro ⟨e, hPart, hNames⟩
    cases hPart with
    | self => exact absurd rfl hc
    | inner h => exact ⟨e, h, hNames⟩
  · rintro ⟨e, hPart, hNames⟩
    exact ⟨e, .inner hPart, hNames⟩

theorem pairs_element {i : Fin (moduleGrammar.rule Category.jsxElement).alternatives.length}
    {children : Forest moduleGrammar
      ((moduleGrammar.rule Category.jsxElement).alternatives.get i).symbols} :
    (Grammar.Tree.node Category.jsxElement i children).Pairs opening closing ↔
      tagNames? (.node Category.jsxElement i children) = some (opening, closing) ∨
        children.Pairs opening closing := by
  constructor
  · rintro ⟨e, hPart, hNames⟩
    cases hPart with
    | self => exact .inl hNames
    | inner h => exact .inr ⟨e, h, hNames⟩
  · rintro (hNames | ⟨e, hPart, hNames⟩)
    · exact ⟨_, .self, hNames⟩
    · exact ⟨e, .inner hPart, hNames⟩

theorem not_pairs_nil : ¬ (Forest.nil : Forest moduleGrammar []).Pairs opening closing := by
  rintro ⟨e, hPart, -⟩
  cases hPart

theorem pairs_cons {s : Symbol Category} {ss : List (Symbol Category)} {tree : Tree moduleGrammar s}
    {rest : Forest moduleGrammar ss} :
    (Forest.cons s ss tree rest).Pairs opening closing ↔
      tree.Pairs opening closing ∨ rest.Pairs opening closing := by
  constructor
  · rintro ⟨e, hPart, hNames⟩
    cases hPart with
    | here h => exact .inl ⟨e, h, hNames⟩
    | later h => exact .inr ⟨e, h, hNames⟩
  · rintro (⟨e, hPart, hNames⟩ | ⟨e, hPart, hNames⟩)
    · exact ⟨e, .here hPart, hNames⟩
    · exact ⟨e, .later hPart, hNames⟩

end Pairs

-- ---------------------------------------------------------------------------------------------
-- The faults of elements
-- ---------------------------------------------------------------------------------------------

theorem exists_tagNames {o c : ModuleTree .jsxName}
    {P : ModuleTree .jsxName → ModuleTree .jsxName → Prop} :
    (∃ opening closing, some (o, c) = some (opening, closing) ∧ P opening closing) ↔ P o c := by
  simp

/-- The faults of an element are those of its parts, and that of its closing tag if it has one. -/
theorem mem_faults_element (i : Fin (moduleGrammar.rule Category.jsxElement).alternatives.length)
    (children : Forest moduleGrammar
      ((moduleGrammar.rule Category.jsxElement).alternatives.get i).symbols) {x : BuildError} :
    x ∈ (Grammar.Tree.node Category.jsxElement i children).faults ↔
      (∃ opening closing,
        tagNames? (.node Category.jsxElement i children) = some (opening, closing) ∧
          x ∈ closingFaults [opening.yield, closing.yield]) ∨ ∃ fs ∈ children.faults, x ∈ fs := by
  match i, children with
  | ⟨0, _⟩, .cons _ _ tag .nil =>
    change x ∈ tag.faults ++ [] ↔
      (∃ opening closing, none = some (opening, closing) ∧ _) ∨ ∃ fs ∈ [tag.faults], x ∈ fs
    simp
  | ⟨1, _⟩, .cons _ _ opening (.cons _ _ kids (.cons _ _ closing .nil)) =>
    change x ∈ opening.faults ++ (closingFaults (opening.phrases isTagName ++
        (kids.phrases isTagName ++ (closing.phrases isTagName ++ []))) ++
          (kids.faults ++ (closing.faults ++ []))) ↔
      (∃ o c, some (openingName opening, closingName closing) = some (o, c) ∧ _) ∨
        ∃ fs ∈ [opening.faults, kids.faults, closing.faults], x ∈ fs
    rw [List.append_nil, closingFaults_names, exists_tagNames]
    simp only [List.mem_append, List.exists_mem_cons_iff, List.not_mem_nil, false_and, exists_false]
    tauto
  | ⟨2, _⟩, .cons _ _ opening (.cons _ _ closing .nil) =>
    change x ∈ opening.faults ++ (closingFaults (opening.phrases isTagName ++
        (closing.phrases isTagName ++ [])) ++ (closing.faults ++ [])) ↔
      (∃ o c, some (openingName opening, closingName closing) = some (o, c) ∧ _) ∨
        ∃ fs ∈ [opening.faults, closing.faults], x ∈ fs
    rw [List.append_nil, ← List.nil_append (closing.phrases isTagName), closingFaults_names,
      exists_tagNames]
    simp only [List.mem_append, List.exists_mem_cons_iff, List.not_mem_nil, false_and, exists_false]
    tauto

mutual

/-- The faults of a tree that concern closing tags are those of the elements in it. -/
theorem closingName_mem_faults (token : Token) (text : Text) : {s : Symbol Category} →
    (tree : Tree moduleGrammar s) → (.closingName token text ∈ tree.faults ↔
      ∃ opening closing, tree.Pairs opening closing ∧
        .closingName token text ∈ closingFaults [opening.yield, closing.yield])
  | _, .leaf _ _ _ => by
    simp [Tree.faults, not_pairs_leaf]
  | _, .node c i children => by
    have hParts := closingName_mem_faults_forest token text children
    by_cases hc : c = .jsxElement
    · subst hc
      simp only [mem_faults_element, hParts, pairs_element, or_and_right, exists_or]
    · -- other phrases compare no names, so all faults are those of their parts
      simp only [pairs_node hc]
      rw [← hParts, Tree.faults, Category.inBuildOrder_of_ne hc _ [], List.mem_flatten]
      constructor
      · rintro ⟨fs, hMem, hFault⟩
        rcases Category.of_mem_inBuildOrder hMem with rfl | hPart
        · cases hFault
        · exact ⟨fs, hPart, hFault⟩
      · rintro ⟨fs, hPart, hFault⟩
        exact ⟨fs, Category.mem_inBuildOrder hPart, hFault⟩

theorem closingName_mem_faults_forest (token : Token) (text : Text) :
    {ss : List (Symbol Category)} → (f : Forest moduleGrammar ss) →
    ((∃ fs ∈ f.faults, .closingName token text ∈ fs) ↔
      ∃ opening closing, f.Pairs opening closing ∧
        .closingName token text ∈ closingFaults [opening.yield, closing.yield])
  | _, .nil => by simp [Forest.faults, not_pairs_nil]
  | _, .cons _ _ tree rest => by
    rw [Forest.faults, List.exists_mem_cons_iff, closingName_mem_faults_forest token text rest,
      closingName_mem_faults token text tree]
    simp only [pairs_cons, or_and_right, exists_or]

end

-- ---------------------------------------------------------------------------------------------
-- Names that are compared
-- ---------------------------------------------------------------------------------------------

/-- The names in two tags are not the same. -/
def Mismatched (file : Option Text) (opening closing : ModuleTree .jsxName) : Prop :=
  ¬ (closing.value file : TagName).name.Same (opening.value file : TagName).name

theorem tagNames_subset {e : ModuleTree .jsxElement} {opening closing : ModuleTree .jsxName}
    (h : tagNames? e = some (opening, closing)) :
    opening.yield ⊆ e.yield ∧ closing.yield ⊆ e.yield := by
  -- both names are among the outermost ones of the element
  have hMem : opening.yield ∈ e.phrases isTagName ∧ closing.yield ∈ e.phrases isTagName := by
    cases e with
    | node _ i children =>
      match i, children, h with
      | ⟨1, _⟩, .cons _ _ tag (.cons _ _ kids (.cons _ _ ending .nil)), h =>
        change some (openingName tag, closingName ending) = some (opening, closing) at h
        cases h
        obtain ⟨⟨more, hTag⟩, -⟩ := opening_tag none tag
        change _ ∈ tag.phrases isTagName ++ (kids.phrases isTagName ++ (ending.phrases isTagName ++ []))
          ∧ _ ∈ tag.phrases isTagName ++ (kids.phrases isTagName ++ (ending.phrases isTagName ++ []))
        simp [hTag, (closing_tag none ending).1]
      | ⟨2, _⟩, .cons _ _ tag (.cons _ _ ending .nil), h =>
        change some (openingName tag, closingName ending) = some (opening, closing) at h
        cases h
        obtain ⟨⟨more, hTag⟩, -⟩ := opening_tag none tag
        change _ ∈ tag.phrases isTagName ++ (ending.phrases isTagName ++ [])
          ∧ _ ∈ tag.phrases isTagName ++ (ending.phrases isTagName ++ [])
        simp [hTag, (closing_tag none ending).1]
  exact ⟨(e.sublist_of_phrases _ hMem.1).subset, (e.sublist_of_phrases _ hMem.2).subset⟩

/-- The fault of an element whose names are made of words is that they are not the same. -/
theorem mem_closingFaults (file : Option Text) {s : Symbol Category}
    {tree : Tree moduleGrammar s} {opening closing : ModuleTree .jsxName} {x : BuildError}
    (hWords : ∀ t ∈ tree.yield, t.kind = .jsxName → IsTagWord t.text)
    (hPair : tree.Pairs opening closing) :
    x ∈ closingFaults [opening.yield, closing.yield] ↔
      Mismatched file opening closing ∧ x = .closingName (closing.value file : TagName).first
          (opening.value file : TagName).name.text := by
  obtain ⟨e, hPart, hNames⟩ := hPair
  obtain ⟨hOpening, hClosing⟩ := tagNames_subset hNames
  have hWritable {name : ModuleTree .jsxName} (hName : name.yield ⊆ e.yield) :
      (name.value file : TagName).name.Writable :=
    writable_tagName fun t ht => hWords t (hPart.yield_subset (hName ht))
  rw [closingFaults_pair file, Mismatched,
    ← JsxName.text_eq_iff_same (hWritable hClosing) (hWritable hOpening)]
  split
  · rename_i hSame
    simp [hSame]
  · rename_i hOther
    simp [hOther]

/-- An element of the tree of a module, if it has one, has these names in its tags. -/
def PairsIn (tree : Option ItemsTree) (opening closing : ModuleTree .jsxName) : Prop :=
  ∃ items, tree = some items ∧ items.Pairs opening closing

theorem closingName_mem_sourceFaults {source : Text} {tree : Option ItemsTree} (file : Option Text)
    (hTree : Reader.syntaxTree source (lex source) = .ok tree) (token : Token) (text : Text) :
    .closingName token text ∈ sourceFaults source ↔
      ∃ opening closing, PairsIn tree opening closing ∧ Mismatched file opening closing ∧
        token = (closing.value file : TagName).first ∧
        text = (opening.value file : TagName).name.text := by
  obtain ⟨hLexed, hTokens⟩ := syntaxTree_eq_ok hTree
  have hWords := isTagWord_statements hLexed
  rw [sourceFaults, hTree]
  cases tree with
  | none => simp [PairsIn]
  | some tree =>
    change tree.yield = _ at hTokens
    rw [← hTokens] at hWords
    change _ ∈ tree.faults ↔ _
    rw [closingName_mem_faults]
    constructor
    · rintro ⟨opening, closing, hPair, hFault⟩
      obtain ⟨hMismatch, hEq⟩ := (mem_closingFaults file hWords hPair).mp hFault
      cases hEq
      exact ⟨opening, closing, ⟨tree, rfl, hPair⟩, hMismatch, rfl, rfl⟩
    · rintro ⟨opening, closing, ⟨_, hItems, hPair⟩, hMismatch, rfl, rfl⟩
      cases hItems
      exact ⟨opening, closing, hPair,
        (mem_closingFaults file hWords hPair).mpr ⟨hMismatch, rfl⟩⟩

-- ---------------------------------------------------------------------------------------------
-- Sources
-- ---------------------------------------------------------------------------------------------

theorem exists_syntaxTree {source : Text} (hLexed : (lex source).failure = none)
    (hSentence : Sentence ((lex source).statements.map Token.kind)) :
    ∃ tree, Reader.syntaxTree source (lex source) = .ok tree := by
  rcases syntaxTree_cases source (lex source) with
    ⟨_, _, hFirst, -⟩ | ⟨-, ⟨_, hPlace, -⟩ | ⟨-, -, hTree⟩ | ⟨-, hNot, -⟩⟩
  · exact absurd hSentence.viable hFirst.not_viable
  · rw [hLexed] at hPlace
    cases hPlace
  · exact hTree
  · exact absurd hSentence hNot

theorem exists_items_of_sourceFaults {source : Text} (h : sourceFaults source ≠ []) :
    ∃ items, Reader.syntaxTree source (lex source) = .ok (some items) ∧
      Sentence ((lex source).statements.map Token.kind) := by
  unfold sourceFaults at h
  split at h
  · rename_i items hItems
    have hKinds := congrArg (List.map Token.kind) (syntaxTree_eq_ok hItems).2
    exact ⟨items, hItems, sentence_iff.mpr (.inr ⟨items, hKinds⟩)⟩
  · exact absurd rfl h

/-- What becomes of a sentence whose literals all denote something: it is read if it has no faults,
and otherwise the first of them, which is a closing tag, is reported. -/
theorem parseModule_of_literals {source : Text} {tree : Option ItemsTree} (file : Option Text)
    (hTree : Reader.syntaxTree source (lex source) = .ok tree)
    (hLiterals : ∀ t ∈ (lex source).statements, t.fault = none) :
    (∃ parsed, parseModule source file = .ok parsed ∧ sourceFaults source = []) ∨
      ∃ token text, .closingName token text ∈ sourceFaults source ∧
        parseModule source file = .error (.syntaxError (.unexpectedToken token [text])) := by
  obtain hRead | ⟨e, hError, hFirst⟩ := parseModule_of_syntaxTree file hTree
  · exact .inl hRead
  · cases e with
    | literal e =>
      obtain ⟨t, ht, hFault⟩ := (literal_mem_sourceFaults hTree).mp (List.mem_of_head? hFirst)
      rw [hLiterals t ht] at hFault
      cases hFault
    | closingName token text => exact .inr ⟨token, text, List.mem_of_head? hFirst, hError⟩

/-- Closing tags must match. A sentence whose literals all denote something is refused, with an
unexpected token, exactly when some element at any depth has a closing name that is not of the same
kind and parts as its opening name. The token is then the first of the closing name of such an element,
and the opening name is what was expected. -/
theorem closing_tags_must_match {source : Text} (file : Option Text)
    (hLexed : (lex source).failure = none)
    (hSentence : Sentence ((lex source).statements.map Token.kind))
    (hLiterals : ∀ t ∈ (lex source).statements, t.fault = none) :
    ∃ tree, Reader.syntaxTree source (lex source) = .ok tree ∧
      ((∃ token expected, parseModule source file =
          .error (.syntaxError (.unexpectedToken token expected))) ↔
        ∃ opening closing, PairsIn tree opening closing ∧ Mismatched file opening closing) ∧
      (∀ token expected, parseModule source file =
          .error (.syntaxError (.unexpectedToken token expected)) →
        ∃ opening closing, PairsIn tree opening closing ∧ Mismatched file opening closing ∧
          closing.yield.head? = some token ∧ token.kind = .jsxName ∧
          expected = [(opening.value file : TagName).name.text]) ∧
      ((∃ parsed, parseModule source file = .ok parsed) ↔
        ∀ opening closing, PairsIn tree opening closing → ¬ Mismatched file opening closing) := by
  obtain ⟨tree, hTree⟩ := exists_syntaxTree hLexed hSentence
  have hFaults := closingName_mem_sourceFaults file hTree
  refine ⟨tree, hTree, ?_⟩
  obtain ⟨parsed, hRead, hNone⟩ | ⟨token, text, hFault, hError⟩ :=
    parseModule_of_literals file hTree hLiterals
  · -- without faults no element has one
    have hAll : ∀ opening closing, PairsIn tree opening closing → ¬ Mismatched file opening closing := by
      intro opening closing hPair hMismatch
      have hFault := (hFaults _ _).mpr ⟨opening, closing, hPair, hMismatch, rfl, rfl⟩
      rw [hNone] at hFault
      cases hFault
    rw [hRead]
    refine ⟨?_, ?_, iff_of_true ⟨parsed, rfl⟩ hAll⟩
    · exact iff_of_false (by simp) (by simpa using hAll)
    · intro token expected h
      cases h
  · obtain ⟨opening, closing, hPair, hMismatch, rfl, rfl⟩ := (hFaults token text).mp hFault
    obtain ⟨-, hFirst, hKind⟩ := words_tagName file closing
    rw [hError]
    refine ⟨iff_of_true ⟨_, _, rfl⟩ ⟨opening, closing, hPair, hMismatch⟩, ?_,
      iff_of_false (by simp) fun h => h opening closing hPair hMismatch⟩
    intro token expected h
    cases h
    exact ⟨opening, closing, hPair, hMismatch, hFirst, hKind, rfl⟩

set_option maxRecDepth 100000 in
/-- Of two elements, the inner one is closed under a name that only begins like its own. -/
theorem inner_closing_tag_must_match :
    (lex "<a><b.c></b></a>").failure = none ∧
      (∀ t ∈ (lex "<a><b.c></b></a>").statements, t.fault = none) ∧
      Sentence ((lex "<a><b.c></b></a>").statements.map Token.kind) ∧
      ∃ tree opening closing,
        Reader.syntaxTree "<a><b.c></b></a>" (lex "<a><b.c></b></a>") = .ok tree ∧
        PairsIn tree opening closing ∧ Mismatched none opening closing := by
  have hLexed : (lex "<a><b.c></b></a>").failure = none := by decide +kernel
  have hLiterals : ∀ t ∈ (lex "<a><b.c></b></a>").statements, t.fault = none := by decide +kernel
  have hFaults : sourceFaults "<a><b.c></b></a>" ≠ [] := by decide +kernel
  obtain ⟨items, hItems, hSentence⟩ := exists_items_of_sourceFaults hFaults
  obtain ⟨tree, hTree, hRefused, -, -⟩ := closing_tags_must_match none hLexed hSentence hLiterals
  obtain ⟨_, -, hNone⟩ | ⟨token, text, -, hError⟩ := parseModule_of_literals none hItems hLiterals
  · exact absurd hNone hFaults
  · obtain ⟨opening, closing, hPair⟩ := hRefused.mp ⟨token, [text], hError⟩
    exact ⟨hLexed, hLiterals, hSentence, tree, opening, closing, hTree, hPair⟩

end ClientBoundary
