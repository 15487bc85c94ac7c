import ClientBoundary.Module.File
import ClientBoundary.Proofs.BuildOrder
import ClientBoundary.Proofs.Leftmost

/-!
# What becomes of a file

A file that holds a text is dealt with when its module is given or what is wrong with it is
reported. That the text is no sentence is always reported. When it is one, the module is built from
its tree, and there are two kinds of faults on the way: a literal that denotes nothing, and an
element that is closed under another name. Building stops at the first, and only one of the second
kind is reported.

* `Tree.faults` — the faults of a tree in the order of building.
* `Tree.fault_value` — a tree has a value exactly when it has no faults, and the failure to build one
  is the first of them.
* `file_dealt_with_iff` — a file is dealt with unless the first fault is a literal.
-/

namespace ClientBoundary

open Grammar

-- ---------------------------------------------------------------------------------------------
-- The names of tags
-- ---------------------------------------------------------------------------------------------

/-- The name in a tag as it is written. -/
def nameText (ts : List Token) : Text :=
  ts.flatMap fun t => match t.kind with
    | .dot => "."
    | .colon => ":"
    | _ => t.text

/-- What is wrong with the closing tag of an element, from all names of tags in the element: the
first is the name it is opened with, the last the one it is closed with. -/
def closingFaults (names : List (List Token)) : List BuildError :=
  match names.head?, names.getLast? with
  | some opening, some (first :: rest) =>
    if nameText (first :: rest) = nameText opening then []
    else [.closingName first (nameText opening)]
  | _, _ => []

/-- The category of the names of tags. -/
def isTagName (c : Category) : Bool := c = .jsxName

theorem nameText_append (ts us : List Token) : nameText (ts ++ us) = nameText ts ++ nameText us :=
  List.flatMap_append

theorem nameText_leaf {t : Token} (hKind : t.kind = .jsxName) : nameText [t] = t.text := by
  simp [nameText, hKind]

theorem join_cons (sep t : Text) (ts : List Text) :
    Text.join sep (t :: ts) = t ++ ts.flatMap (sep ++ ·) := by
  induction ts generalizing t with
  | nil => exact (List.append_nil t).symm
  | cons u ts ih =>
    change t ++ sep ++ Text.join sep (u :: ts) = _
    rw [ih, List.flatMap_cons, List.append_assoc, List.append_assoc]

theorem nameText_rest (file : Option Text) : (tree : ModuleTree .jsxNameRest) →
    nameText tree.yield = (tree.value file : List Text).flatMap (Text.ofString "." ++ ·)
  | .node _ ⟨0, _⟩ (.cons _ _ init (.cons _ _ (.leaf _ dot hDot)
      (.cons _ _ (.leaf _ word hWord) .nil))) => by
    change nameText (init.yield ++ [dot, word]) =
      ((init.value file : List Text) ++ [word.text]).flatMap (Text.ofString "." ++ ·)
    rw [nameText_append, nameText_rest file init, List.flatMap_append]
    simp [nameText, hDot, hWord]
  | .node _ ⟨1, _⟩ (.cons _ _ (.leaf _ dot hDot) (.cons _ _ (.leaf _ word hWord) .nil)) => by
    change nameText [dot, word] = [word.text].flatMap (Text.ofString "." ++ ·)
    simp [nameText, hDot, hWord]
termination_by tree => tree.nodes
decreasing_by exact Nat.lt_succ_of_le (Nat.le_add_right init.nodes _)

/-- The value of the name in a tag has the text of its tokens and knows the first of them. -/
theorem nameText_tagName (file : Option Text) (tree : ModuleTree .jsxName) :
    ∃ rest, tree.yield = (tree.value file : TagName).first :: rest ∧
      (tree.value file : TagName).name.text = nameText tree.yield := by
  cases tree with
  | node _ i children =>
    match i, children with
    | ⟨0, _⟩, .cons _ _ (.leaf _ word hWord) (.cons _ _ tail .nil) =>
      refine ⟨tail.yield ++ [], rfl, ?_⟩
      change Text.join "." (word.text :: tail.value file) = nameText ([word] ++ (tail.yield ++ []))
      rw [List.append_nil, nameText_append, nameText_leaf hWord, nameText_rest file tail, join_cons]
    | ⟨1, _⟩, .cons _ _ (.leaf _ word hWord) .nil =>
      exact ⟨[], rfl, (nameText_leaf hWord).symm⟩
    | ⟨2, _⟩, .cons _ _ (.leaf _ ns hNs) (.cons _ _ (.leaf _ colon hColon)
        (.cons _ _ (.leaf _ word hWord) .nil)) =>
      refine ⟨[colon, word], rfl, ?_⟩
      change ns.text ++ ":" ++ word.text = nameText [ns, colon, word]
      simp [nameText, hNs, hColon, hWord]

/-- The name in an opening tag. -/
def openingName : ModuleTree .jsxOpening → ModuleTree .jsxName
  | .node _ ⟨0, _⟩ (.cons _ _ _ (.cons _ _ name _)) => name
  | .node _ ⟨1, _⟩ (.cons _ _ _ (.cons _ _ name _)) => name

/-- The name in a closing tag. -/
def closingName : ModuleTree .jsxClosing → ModuleTree .jsxName
  | .node _ ⟨0, _⟩ (.cons _ _ _ (.cons _ _ _ (.cons _ _ name _))) => name

/-- An opening tag begins with its name, and has it in its value. -/
theorem opening_tag (file : Option Text) (tree : ModuleTree .jsxOpening) :
    (∃ more, tree.phrases isTagName = (openingName tree).yield :: more) ∧
      ∀ tag, tree.value file = .ok tag →
        tag.name = ((openingName tree).value file : TagName).name := by
  cases tree with
  | node _ i children =>
    match i, children with
    | ⟨0, _⟩, .cons _ _ (.leaf _ _ _) (.cons _ _ name (.cons _ _ attrs
        (.cons _ _ (.leaf _ _ _) .nil))) =>
      refine ⟨⟨attrs.phrases isTagName ++ [], ?_⟩, ?_⟩
      · change name.phrases isTagName ++ _ = _
        rw [Tree.phrases_of_mem rfl]
        rfl
      · intro tag hTag
        change ModuleGrammar.makeTag (name.value file) (some (attrs.value file)) = .ok tag at hTag
        cases hAttrs : attrs.value file with
        | error e =>
          rw [hAttrs] at hTag
          cases hTag
        | ok as =>
          rw [hAttrs] at hTag
          cases hTag
          rfl
    | ⟨1, _⟩, .cons _ _ (.leaf _ _ _) (.cons _ _ name (.cons _ _ (.leaf _ _ _) .nil)) =>
      refine ⟨⟨[], ?_⟩, ?_⟩
      · change name.phrases isTagName ++ [] = _
        rw [Tree.phrases_of_mem rfl]
        rfl
      · intro tag hTag
        change ModuleGrammar.makeTag (name.value file) none = .ok tag at hTag
        cases hTag
        rfl

/-- A closing tag has no other name, and stands for it. -/
theorem closing_tag (file : Option Text) (tree : ModuleTree .jsxClosing) :
    tree.phrases isTagName = [(closingName tree).yield] ∧
      (tree.value file : TagName) = (closingName tree).value file := by
  cases tree with
  | node _ i children =>
    match i, children with
    | ⟨0, _⟩, .cons _ _ (.leaf _ _ _) (.cons _ _ (.leaf _ _ _) (.cons _ _ name
        (.cons _ _ (.leaf _ _ _) .nil))) =>
      refine ⟨?_, rfl⟩
      change name.phrases isTagName ++ [] = _
      rw [Tree.phrases_of_mem rfl]
      rfl

/-- Of all names in an element, those of its tags are compared. -/
theorem closingFaults_names (opening : ModuleTree .jsxOpening) (closing : ModuleTree .jsxClosing)
    (between : List (List Token)) :
    closingFaults (opening.phrases isTagName ++ (between ++ closing.phrases isTagName)) =
      closingFaults [(openingName opening).yield, (closingName closing).yield] := by
  obtain ⟨⟨more, hOpening⟩, -⟩ := opening_tag none opening
  rw [hOpening, (closing_tag none closing).1, closingFaults, ← List.append_assoc,
    List.getLast?_append]
  rfl

/-- The names are compared by the texts of their values. -/
theorem closingFaults_pair (file : Option Text) (opening closing : ModuleTree .jsxName) :
    closingFaults [opening.yield, closing.yield] =
      if (closing.value file : TagName).name.text = (opening.value file : TagName).name.text then []
      else [.closingName (closing.value file : TagName).first
        (opening.value file : TagName).name.text] := by
  obtain ⟨-, -, hOpening⟩ := nameText_tagName file opening
  obtain ⟨rest, hYield, hClosing⟩ := nameText_tagName file closing
  rw [hOpening, hClosing, hYield]
  rfl

-- ---------------------------------------------------------------------------------------------
-- The faults of a tree
-- ---------------------------------------------------------------------------------------------

mutual

/-- What keeps a tree from having a value, in the order in which it is found. -/
def Grammar.Tree.faults : {s : Symbol Category} → Tree moduleGrammar s → List BuildError
  | _, .leaf _ token _ => (token.fault.map BuildError.literal).toList
  | _, .node c _ children =>
    (c.inBuildOrder (closingFaults (children.phrases isTagName)) children.faults).flatten

/-- What keeps each of the trees of a forest from having a value. -/
def Grammar.Forest.faults : {ss : List (Symbol Category)} → Forest moduleGrammar ss →
    List (List BuildError)
  | _, .nil => []
  | _, .cons _ _ tree rest => tree.faults :: rest.faults

end

theorem findSome?_cons (o : Option BuildError) (os : List (Option BuildError)) :
    (o :: os).findSome? id = o.or (os.findSome? id) := by
  cases o <;> rfl

namespace ModuleGrammar

/-- An element fails as its opening tag does, or else because of its closing tag, or else as its
children do. -/
theorem errorOf_makeElement {s : Span} {opening : Build OpeningTag}
    {children : Option (Build (List JsxChild))} {closing : TagName} {wrong : List BuildError}
    (hWrong : ∀ tag, opening = .ok tag → wrong = if closing.name.text = tag.name.text then []
      else [.closingName closing.first tag.name.text]) :
    errorOf (makeElement s opening children closing) =
      [errorOf opening, wrong.head?, errorOf (orEmpty children)].findSome? id := by
  cases opening with
  | error e => rfl
  | ok tag =>
    rw [hWrong tag rfl]
    by_cases hName : closing.name.text = tag.name.text
    · simp only [makeElement, hName, if_true, bind, Except.bind]
      cases orEmpty children <;> rfl
    · simp only [makeElement, hName, if_false, bind, Except.bind]
      rfl

end ModuleGrammar

theorem closingFaults_of_tags {file : Option Text} (opening : ModuleTree .jsxOpening)
    (closing : ModuleTree .jsxClosing) (between : List (List Token)) {tag : OpeningTag}
    (hTag : opening.value file = .ok tag) :
    closingFaults (opening.phrases isTagName ++ (between ++ closing.phrases isTagName)) =
      if (closing.value file : TagName).name.text = tag.name.text then []
      else [.closingName (closing.value file : TagName).first tag.name.text] := by
  rw [closingFaults_names, closingFaults_pair file, (closing_tag file closing).2,
    (opening_tag file opening).2 tag hTag]

/-- An element has a value unless a part of it has none or it is closed under another name. -/
theorem fault_element (file : Option Text)
    (i : Fin (moduleGrammar.rule Category.jsxElement).alternatives.length)
    (children : Forest moduleGrammar
      ((moduleGrammar.rule Category.jsxElement).alternatives.get i).symbols)
    (hParts : ofParts symbolFault _ (children.values file) = children.faults.map List.head?) :
    let tree : ModuleTree .jsxElement := .node Category.jsxElement i children
    symbolFault (.cat .jsxElement) (tree.value file) = tree.faults.head? := by
  match i, children, hParts with
  | ⟨0, _⟩, .cons _ _ tag .nil, hParts =>
    change [errorOf (tag.value file)] = [tag.faults.head?] at hParts
    change errorOf (tag.value file >>= fun t => pure _) = (tag.faults ++ []).head?
    rw [ModuleGrammar.errorOf_bind_pure, List.append_nil]
    exact List.head_eq_of_cons_eq hParts
  | ⟨1, _⟩, .cons _ _ opening (.cons _ _ kids (.cons _ _ closing .nil)), hParts =>
    change [errorOf (opening.value file), errorOf (kids.value file), none] =
      [opening.faults.head?, kids.faults.head?, closing.faults.head?] at hParts
    simp only [List.cons.injEq, and_true] at hParts
    obtain ⟨hOpening, hKids, hClosing⟩ := hParts
    change errorOf (ModuleGrammar.makeElement _ (opening.value file) (some (kids.value file))
        (closing.value file)) =
      (opening.faults ++ (closingFaults (opening.phrases isTagName ++
        (kids.phrases isTagName ++ (closing.phrases isTagName ++ []))) ++
          (kids.faults ++ (closing.faults ++ [])))).head?
    rw [List.append_nil, ModuleGrammar.errorOf_makeElement fun _ =>
      closingFaults_of_tags opening closing (kids.phrases isTagName), hOpening]
    simp only [findSome?_cons, List.findSome?_nil, List.head?_append, ← hClosing]
    exact congrArg (fun o => Option.or _ (Option.or _ (Option.or o none))) hKids
  | ⟨2, _⟩, .cons _ _ opening (.cons _ _ closing .nil), hParts =>
    change [errorOf (opening.value file), none] =
      [opening.faults.head?, closing.faults.head?] at hParts
    simp only [List.cons.injEq, and_true] at hParts
    obtain ⟨hOpening, hClosing⟩ := hParts
    change errorOf (ModuleGrammar.makeElement _ (opening.value file) none (closing.value file)) =
      (opening.faults ++ (closingFaults (opening.phrases isTagName ++
        (closing.phrases isTagName ++ [])) ++ (closing.faults ++ []))).head?
    rw [List.append_nil, ModuleGrammar.errorOf_makeElement fun _ =>
      closingFaults_of_tags opening closing [], hOpening]
    simp only [findSome?_cons, List.findSome?_nil, List.head?_append, ← hClosing]
    rfl

mutual

/-- The failure to build a tree is its first fault. -/
theorem Grammar.Tree.fault_value (file : Option Text) : {s : Symbol Category} →
    (tree : Tree moduleGrammar s) → symbolFault s (tree.value file) = tree.faults.head?
  | _, .leaf t token h => by
    subst h
    exact (Option.head?_toList).symm
  | _, .node c i children => by
    have hParts := Forest.fault_values file children
    by_cases hc : c = .jsxElement
    · subst hc
      exact fault_element file i children hParts
    · have hFault := ModuleGrammar.fault_rule c hc (children.span file) _ (List.get_mem _ i)
        (children.values file)
      rw [hParts, Category.inBuildOrder_of_ne hc none (closingFaults
        (children.phrases isTagName)).head?, ← Category.map_inBuildOrder, List.findSome?_map]
        at hFault
      rw [Tree.faults, List.head?_flatten]
      exact hFault

theorem Grammar.Forest.fault_values (file : Option Text) : {ss : List (Symbol Category)} →
    (f : Forest moduleGrammar ss) →
    ofParts symbolFault ss (f.values file) = f.faults.map List.head?
  | _, .nil => rfl
  | _, .cons _ _ tree rest => by
    rw [Forest.values, ofParts, Forest.faults, List.map_cons, Tree.fault_value file tree,
      Forest.fault_values file rest]

end

theorem literal_notMem_closingFaults (names : List (List Token)) (e : LiteralError) :
    .literal e ∉ closingFaults names := by
  unfold closingFaults
  split
  · split
    · exact List.not_mem_nil
    · simp
  · exact List.not_mem_nil

mutual

/-- The literals among the faults of a tree are those of its tokens that denote nothing. -/
theorem Grammar.Tree.literal_mem_faults {e : LiteralError} : {s : Symbol Category} →
    (tree : Tree moduleGrammar s) → (.literal e ∈ tree.faults ↔ ∃ t ∈ tree.yield, t.fault = some e)
  | _, .leaf _ token _ => by
    simp [Tree.faults, Tree.yield]
  | _, .node c _ children => by
    rw [Tree.yield, ← Forest.literal_mem_faults children, Tree.faults, List.mem_flatten]
    constructor
    · rintro ⟨fs, hMem, hLiteral⟩
      rcases Category.of_mem_inBuildOrder hMem with rfl | hPart
      · exact absurd hLiteral (literal_notMem_closingFaults _ e)
      · exact ⟨fs, hPart, hLiteral⟩
    · rintro ⟨fs, hPart, hLiteral⟩
      exact ⟨fs, Category.mem_inBuildOrder hPart, hLiteral⟩

theorem Grammar.Forest.literal_mem_faults {e : LiteralError} : {ss : List (Symbol Category)} →
    (f : Forest moduleGrammar ss) →
    ((∃ fs ∈ f.faults, .literal e ∈ fs) ↔ ∃ t ∈ f.yield, t.fault = some e)
  | _, .nil => by simp [Forest.faults, Forest.yield]
  | _, .cons _ _ tree rest => by
    rw [Forest.faults, Forest.yield, List.exists_mem_cons_iff, Forest.literal_mem_faults rest,
      Tree.literal_mem_faults tree]
    simp only [List.mem_append, or_and_right, exists_or]

end

-- ---------------------------------------------------------------------------------------------
-- Files
-- ---------------------------------------------------------------------------------------------

/-- The faults of a source in the order of building, if it is a sentence. -/
def sourceFaults (source : Text) : List BuildError :=
  match Reader.syntaxTree source (lex source) with
  | .ok (some tree) => tree.faults
  | _ => []

theorem errorOf_buildItems {source : Text} {tree : Option ItemsTree} (file : Option Text)
    (hTree : Reader.syntaxTree source (lex source) = .ok tree) :
    errorOf (Reader.buildItems file tree) = (sourceFaults source).head? := by
  rw [sourceFaults, hTree]
  cases tree with
  | none => rfl
  | some tree => exact tree.fault_value file

/-- A sentence is read when it has no faults, and otherwise the first of them is the error. -/
theorem parseModule_of_syntaxTree {source : Text} {tree : Option ItemsTree} (file : Option Text)
    (hTree : Reader.syntaxTree source (lex source) = .ok tree) :
    (∃ parsed, parseModule source file = .ok parsed ∧ sourceFaults source = []) ∨
      ∃ e, parseModule source file = .error (Reader.ofBuildError e) ∧
        (sourceFaults source).head? = some e := by
  have hFailure := errorOf_buildItems file hTree
  cases hBuilt : Reader.buildItems file tree with
  | ok items =>
    have hRead : ∃ parsed, parseModule source file = .ok parsed := by
      rw [parseModule, hTree]
      simp only [Except.mapError, hBuilt, bind, Except.bind]
      exact ⟨_, rfl⟩
    rw [hBuilt] at hFailure
    exact .inl (hRead.imp fun _ h => ⟨h, List.head?_eq_none_iff.mp hFailure.symm⟩)
  | error e =>
    rw [hBuilt] at hFailure
    refine .inr ⟨e, ?_, hFailure.symm⟩
    rw [parseModule, hTree]
    simp only [Except.mapError, hBuilt, bind, Except.bind]

theorem parseModule_of_syntaxError {source : Text} {file : Option Text} {e : SyntaxError}
    (hTree : Reader.syntaxTree source (lex source) = .error e) :
    parseModule source file = .error (.syntaxError e) := by
  rw [parseModule, hTree]
  rfl

theorem literal_mem_sourceFaults {source : Text} {tree : Option ItemsTree} {e : LiteralError}
    (hTree : Reader.syntaxTree source (lex source) = .ok tree) :
    .literal e ∈ sourceFaults source ↔ ∃ t ∈ (lex source).statements, t.fault = some e := by
  rw [sourceFaults, hTree, ← (syntaxTree_eq_ok hTree).2]
  cases tree with
  | none => simp [treeTokens]
  | some tree => exact tree.literal_mem_faults

/-- A file is dealt with when its module is given, or else a report: an error that the parser found,
under the name of the file. -/
inductive DealtWith (file : Text) : Except FileFailure (Except Diagnostic ParsedModule) → Prop
  | module (parsed : ParsedModule) : DealtWith file (.ok (.ok parsed))
  | report (d : Diagnostic) (hError : d.isError = true) (hPhase : d.phase = some "parser")
      (hFile : d.span.file = some file) : DealtWith file (.ok (.error d))

/-- What becomes of a file with a text, and how the literals and faults of the text decide it. -/
inductive FileOutcome (file source : Text) : Except FileFailure (Except Diagnostic ParsedModule) → Prop
  | module (parsed : ParsedModule) (hNone : sourceFaults source = [])
      (hLiterals : ∀ t ∈ (lex source).statements, t.fault = none) :
      FileOutcome file source (.ok (.ok parsed))
  | report (e : SyntaxError) (hFirst : ∀ c, (sourceFaults source).head? ≠ some (.literal c)) :
      FileOutcome file source (.ok (.error (e.diagnostic file)))
  | failure (e : LiteralError) (hFirst : (sourceFaults source).head? = some (.literal e))
      (hLiteral : ∃ t ∈ (lex source).statements, t.fault = some e) :
      FileOutcome file source (.error (.literal e))

theorem fileOutcome_parseFile {bytes : ByteArray} {source : Text} (file : Text)
    (hText : Text.ofFile? bytes = some source) :
    FileOutcome file source (parseFile file bytes) := by
  simp only [parseFile, hText]
  cases hTree : Reader.syntaxTree source (lex source) with
  | error e =>
    rw [parseModule_of_syntaxError hTree]
    refine .report e ?_
    rw [sourceFaults, hTree]
    simp
  | ok tree =>
    obtain ⟨parsed, hRead, hNone⟩ | ⟨e, hRead, hFirst⟩ :=
      parseModule_of_syntaxTree (some file) hTree
    · rw [hRead]
      refine .module parsed hNone fun t ht => Option.eq_none_iff_forall_ne_some.mpr fun e hFault => ?_
      have hMem := (literal_mem_sourceFaults hTree).mpr ⟨t, ht, hFault⟩
      rw [hNone] at hMem
      cases hMem
    · rw [hRead]
      cases e with
      | literal c =>
        exact .failure c hFirst ((literal_mem_sourceFaults hTree).mp (List.mem_of_head? hFirst))
      | closingName closing opening =>
        refine .report (.unexpectedToken closing [opening]) ?_
        rw [hFirst]
        simp

/-- A file that holds a text is dealt with unless the first fault in the order of building is a
literal; so it is when all literals denote something, and its module is given only then. -/
theorem file_dealt_with_iff {bytes : ByteArray} {source : Text} (file : Text)
    (hText : Text.ofFile? bytes = some source) :
    (DealtWith file (parseFile file bytes) ↔
      ∀ e, (sourceFaults source).head? ≠ some (.literal e)) ∧
    ((∃ parsed, parseFile file bytes = .ok (.ok parsed)) →
      ∀ t ∈ (lex source).statements, t.fault = none) ∧
    ((∀ t ∈ (lex source).statements, t.fault = none) → DealtWith file (parseFile file bytes)) := by
  have hOutcome := fileOutcome_parseFile file hText
  generalize parseFile file bytes = result at hOutcome ⊢
  cases hOutcome with
  | module parsed hNone hLiterals =>
    have hDealt : DealtWith file (.ok (.ok parsed)) := .module parsed
    refine ⟨⟨fun _ e => ?_, fun _ => hDealt⟩, fun _ => hLiterals, fun _ => hDealt⟩
    rw [hNone]
    simp
  | report e hFirst =>
    have hReport : DealtWith file (.ok (.error (e.diagnostic file))) := .report _ rfl rfl rfl
    refine ⟨⟨fun _ => hFirst, fun _ => hReport⟩, ?_, fun _ => hReport⟩
    rintro ⟨parsed, h⟩
    cases h
  | failure e hFirst hLiteral =>
    obtain ⟨t, ht, hFault⟩ := hLiteral
    refine ⟨⟨fun h => (by cases h), fun h => absurd hFirst (h e)⟩, ?_, fun h => ?_⟩
    · rintro ⟨parsed, h⟩
      cases h
    · rw [h t ht] at hFault
      cases hFault

set_option maxRecDepth 100000 in
/-- An escape for the last code point is dealt with, one for the number after it makes a file
fail. -/
theorem file_with_escape_out_of_range :
    DealtWith "m" (parseFile "m" "\"\\u\x7b10FFFF\x7d\"".toUTF8) ∧
      ¬ DealtWith "m" (parseFile "m" "\"\\u\x7b110000\x7d\"".toUTF8) := by
  have hLast : Text.ofFile? "\"\\u\x7b10FFFF\x7d\"".toUTF8 =
      some (Text.ofString "\"\\u\x7b10FFFF\x7d\"") := by decide +kernel
  have hNext : Text.ofFile? "\"\\u\x7b110000\x7d\"".toUTF8 =
      some (Text.ofString "\"\\u\x7b110000\x7d\"") := by decide +kernel
  have hLiterals : ∀ t ∈ (lex (Text.ofString "\"\\u\x7b10FFFF\x7d\"")).statements,
      t.fault = none := by decide +kernel
  have hFirst : (sourceFaults (Text.ofString "\"\\u\x7b110000\x7d\"")).head? =
      some (.literal .escapeOutOfRange) := by decide +kernel
  exact ⟨(file_dealt_with_iff "m" hLast).2.2 hLiterals,
    fun h => (file_dealt_with_iff "m" hNext).1.mp h _ hFirst⟩

end ClientBoundary
