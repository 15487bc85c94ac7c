import ClientBoundary.Proofs.PropertyTokens

/-!
# Words as names of properties

After a dot every word of the language may stand as the name of a property, and in the grammar all
of them are alike there: what stands after a dot is the name of a property and nothing else
(`item_after_dot`), so one word can take the place of another (`interchange_propIdent`), and the
value of the tree changes in that one name (`Tree.value_renamed`).

* `replaceable_of_unnoticed` — a word can take the place of the name of a property where it makes no
  difference to the tokens around it.
-/

namespace ClientBoundary

open Grammar

-- ---------------------------------------------------------------------------------------------
-- What stands after a dot
-- ---------------------------------------------------------------------------------------------

/-- Whether each dot in an alternative is followed by the name of a property, or by that of an
element. -/
def dotsLead (α : List (Symbol Category)) : Bool :=
  (List.range α.length).all fun k => α[k]? ≠ some (.tok .dot) ||
    α[k + 1]? = some (.cat .propIdent) || α[k + 1]? = some (.tok .jsxName)

theorem next_of_dot {n : Category} {α : List (Symbol Category)} (hMem : α ∈ moduleGrammar.shape n)
    {k : Nat} (hDot : α[k]? = some (.tok .dot)) :
    α[k + 1]? = some (.cat .propIdent) ∨ α[k + 1]? = some (.tok .jsxName) := by
  have hAll : Category.all.all (fun n => (moduleGrammar.shape n).all dotsLead) = true := by
    decide +kernel
  have hLead := List.all_eq_true.mp (List.all_eq_true.mp hAll n (Category.mem_all n)) α hMem
  have hAt := List.all_eq_true.mp hLead k
    (List.mem_range.mpr (List.getElem?_eq_some_iff.mp hDot).1)
  simpa [hDot] using hAt

theorem shape_propIdent : moduleGrammar.shape .propIdent =
    ModuleGrammar.propIdentTerminals.map fun u => [.tok u] := by decide +kernel

theorem ends_propIdent : ∀ α ∈ moduleGrammar.shape .propIdent, ∃ u, α = [.tok u] := by
  intro α hMem
  rw [shape_propIdent] at hMem
  obtain ⟨u, -, rfl⟩ := List.mem_map.mp hMem
  exact ⟨u, rfl⟩

theorem cat_notMem_propIdent {α : List (Symbol Category)} (hMem : α ∈ moduleGrammar.shape .propIdent)
    {k : Nat} {n : Category} : α[k]? ≠ some (.cat n) := by
  obtain ⟨u, rfl⟩ := ends_propIdent α hMem
  intro hCat
  have hSome := List.mem_of_getElem? hCat
  simp at hSome

section Items

variable {w : List Terminal} {n : Category} {α : List (Symbol Category)} {k i j p : Nat}

/-- An item that has just passed something, and that a dot, waits for the name of a property or for
that of an element: no phrase ends with a dot. -/
theorem waits_after_dot (h : Item moduleGrammar.shape .items w n α k i j) (hj : j = p + 1)
    (hDot : w[p]? = some .dot) :
    k = 0 ∨ α[k]? = some (.cat .propIdent) ∨ α[k]? = some (.tok .jsxName) := by
  induction h with
  | start => exact .inl rfl
  | predict => exact .inl rfl
  | scan hItem hNext hToken _ =>
    obtain rfl := Nat.succ.inj hj
    rw [hDot] at hToken
    cases hToken
    exact .inr (next_of_dot hItem.mem hNext)
  | @complete m n β α k i j l hItem hNext hDone _ ihDone =>
    rcases ihDone hj with hNil | hSome
    · rw [List.length_eq_zero_iff] at hNil
      exact absurd (hNil ▸ hDone.mem) (moduleLayout_facts.filled n)
    · rw [List.getElem?_eq_none (Nat.le_refl _)] at hSome
      rcases hSome with hSome | hSome <;> cases hSome

theorem next_after_dot (h : Item moduleGrammar.shape .items w n α (k + 1) i j) (hj : j = p + 1)
    (hDot : w[p]? = some .dot) {x : Symbol Category} (hNext : α[k + 1]? = some x) :
    x = .cat .propIdent ∨ x = .tok .jsxName := by
  have hWaits := (waits_after_dot h hj hDot).resolve_left (Nat.succ_ne_zero k)
  rw [hNext] at hWaits
  exact hWaits.imp Option.some.inj Option.some.inj

/-- After a dot an item waits for the name of a property or for that of an element, or it is the
beginning of the name of a property. -/
theorem item_after_dot (h : Item moduleGrammar.shape .items w n α k i j) (hj : j = p + 1)
    (hDot : w[p]? = some .dot) {x : Symbol Category} (hNext : α[k]? = some x) :
    x = .cat .propIdent ∨ x = .tok .jsxName ∨ (n = .propIdent ∧ i = j) := by
  induction h generalizing x with
  | start => omega
  | @predict m n β α k i j hItem hWait _ ih =>
    rcases ih hj hWait with hx | hx | ⟨rfl, -⟩
    · cases hx
      exact .inr (.inr ⟨rfl, rfl⟩)
    · cases hx
    · exact absurd hWait (cat_notMem_propIdent hItem.mem)
  | scan hItem hPassed hToken _ =>
    exact (next_after_dot (.scan hItem hPassed hToken) hj hDot hNext).imp_right .inl
  | complete hItem hPassed hDone _ _ =>
    exact (next_after_dot (.complete hItem hPassed hDone) hj hDot hNext).imp_right .inl

end Items

-- ---------------------------------------------------------------------------------------------
-- One word for another
-- ---------------------------------------------------------------------------------------------

section Exchange

variable {w : List Terminal} {p : Nat} {s t : Terminal}

theorem admits_propIdent (ht : t ∈ ModuleGrammar.propIdentTerminals) :
    [.tok t] ∈ moduleGrammar.shape .propIdent := by
  rw [shape_propIdent]
  exact List.mem_map_of_mem ht

/-- After a dot a word is a direct part of the name of a property only. -/
theorem word_after_dot (hDot : w[p]? = some .dot) (ht : t ∈ ModuleGrammar.propIdentTerminals)
    {n : Category} {α : List (Symbol Category)} {k i : Nat}
    (h : Item moduleGrammar.shape .items w n α k i (p + 1)) (hNext : α[k]? = some (.tok t)) :
    n = .propIdent ∧ i = p + 1 := by
  rcases item_after_dot h rfl hDot hNext with hx | hx | hHere
  · cases hx
  · cases hx
    exact absurd ht (by decide)
  · exact hHere

/-- After a dot no other phrase begins than the name of a property. -/
theorem phrase_after_dot (hDot : w[p]? = some .dot) {m n : Category} {β : List (Symbol Category)}
    {k i : Nat} (h : Item moduleGrammar.shape .items w m β k i (p + 1))
    (hNext : β[k]? = some (.cat n)) : n = .propIdent := by
  rcases item_after_dot h rfl hDot hNext with hx | hx | ⟨rfl, -⟩
  · cases hx
    rfl
  · cases hx
  · exact absurd hNext (cat_notMem_propIdent h.mem)

/-- After a dot all words are interchangeable. -/
theorem interchange_propIdent (hDot : w[p]? = some .dot)
    (hs : s ∈ ModuleGrammar.propIdentTerminals) (ht : t ∈ ModuleGrammar.propIdentTerminals) :
    Interchange moduleGrammar .items w (p + 1) .propIdent s t where
  filled := moduleLayout_facts.filled
  ends := ends_propIdent
  admits := admits_propIdent ht
  alone hItem hNext := by
    obtain ⟨rfl, -⟩ := word_after_dot hDot ht hItem hNext
    obtain ⟨u, rfl⟩ := ends_propIdent _ hItem.mem
    have hMem := List.mem_of_getElem? hNext
    rw [List.mem_singleton.mp hMem]
  derives hItem hNext _ := by
    obtain rfl := phrase_after_dot hDot hItem hNext
    exact derives_of_unit (admits_propIdent hs) (derives_tok.mpr rfl)

end Exchange

-- ---------------------------------------------------------------------------------------------
-- The name of a property in a tree
-- ---------------------------------------------------------------------------------------------

section Hosts

variable {tokens : List Token} {p : Nat} {name : Token}

mutual

/-- What begins after a dot, where there is a word, is the name of a property. -/
theorem Tree.hosts_after_dot (hDot : (tokens.map Token.kind)[p]? = some .dot)
    (hName : tokens[p + 1]? = some name) (hWord : name.kind ∈ ModuleGrammar.propIdentTerminals) :
    {x : Symbol Category} → (tree : Tree moduleGrammar x) → {n : Category} →
    {α : List (Symbol Category)} → {k i j : Nat} →
    Item moduleGrammar.shape .items (tokens.map Token.kind) n α k i j → α[k]? = some x →
    ¬ (n = .propIdent ∧ i = p + 1) → tree.yield <+: tokens.drop j →
    tree.Hosts .propIdent (p + 1) j
  | _, .leaf _ token h, n, α, k, i, j, hItem, hNext, hOutside, hAt => by
    rintro rfl
    have hToken := getElem?_of_prefix_drop hAt
    rw [hName] at hToken
    cases hToken
    subst h
    exact hOutside (word_after_dot hDot hWord hItem hNext)
  | _, .node m a children, n, α, k, i, j, hItem, hNext, _, hAt => by
    by_cases hj : j = p + 1
    · subst hj
      exact .inl ⟨phrase_after_dot hDot hItem hNext, rfl⟩
    · exact .inr ⟨hj, Forest.hosts_after_dot hDot hName hWord children
        (.predict hItem hNext (mem_shape m a)) List.drop_zero (fun h => hj h.2) hAt⟩

theorem Forest.hosts_after_dot (hDot : (tokens.map Token.kind)[p]? = some .dot)
    (hName : tokens[p + 1]? = some name) (hWord : name.kind ∈ ModuleGrammar.propIdentTerminals) :
    {xs : List (Symbol Category)} → (f : Forest moduleGrammar xs) → {n : Category} →
    {α : List (Symbol Category)} → {k i j : Nat} →
    Item moduleGrammar.shape .items (tokens.map Token.kind) n α k i j → α.drop k = xs →
    ¬ (n = .propIdent ∧ i = p + 1) → f.yield <+: tokens.drop j → f.Hosts .propIdent (p + 1) j
  | _, .nil, _, _, _, _, _, _, _, _, _ => trivial
  | _, .cons x xs tree rest, n, α, k, i, j, hItem, hSymbols, hOutside, hAt => by
    have hNext : α[k]? = some x := by
      rw [← List.head?_drop, hSymbols]
      rfl
    have hTail : α.drop (k + 1) = xs := by
      rw [← List.tail_drop, hSymbols]
      rfl
    rw [Forest.yield] at hAt
    obtain ⟨hFirst, hLater⟩ := drop_prefix_append hAt
    have hOver := (Item.over_tree tree hItem hNext (map_kind_prefix_drop hFirst)).2
    exact ⟨Tree.hosts_after_dot hDot hName hWord tree hItem hNext hOutside hFirst,
      Forest.hosts_after_dot hDot hName hWord rest hOver hTail hOutside hLater⟩

end

theorem ItemsTree.hosts_after_dot (tree : ItemsTree) (hYield : tree.yield = tokens)
    (hDot : (tokens.map Token.kind)[p]? = some .dot) (hName : tokens[p + 1]? = some name)
    (hWord : name.kind ∈ ModuleGrammar.propIdentTerminals) :
    tree.Hosts .propIdent (p + 1) 0 := by
  cases tree with
  | node _ a children =>
    refine .inr ⟨nofun, Forest.hosts_after_dot hDot hName hWord children (.start (mem_shape _ a))
      List.drop_zero nofun ?_⟩
    rw [← hYield]
    exact List.prefix_rfl

end Hosts

-- ---------------------------------------------------------------------------------------------
-- The name of a property in a value
-- ---------------------------------------------------------------------------------------------

open Erasure (spans calling)

/-- The name of an identifier when the one at the offset `lo` is called `w`. -/
def renamed (lo : Nat) (w : Text) (i : Ident) : Text :=
  if i.span.lo = some (lo : Int) then w else i.sym

theorem alternative_propIdent {alternative : Alternative Category.Value Ident}
    (hMem : alternative ∈ (ModuleGrammar.rule .propIdent).alternatives) :
    ∃ u ∈ ModuleGrammar.propIdentTerminals,
      alternative = ⟨[.tok u], fun s vs => ⟨vs.1.text, s⟩⟩ := by
  obtain ⟨first, hFirst, hMem⟩ := List.mem_flatMap.mp hMem
  obtain ⟨second, hSecond, rfl⟩ := List.mem_map.mp hMem
  obtain rfl := List.mem_singleton.mp hFirst
  obtain ⟨u, hu, hSecond⟩ := List.mem_flatMap.mp hSecond
  obtain rfl := List.mem_singleton.mp hSecond
  exact ⟨u, hu, rfl⟩

/-- The name of a property is made of one word. -/
theorem exists_word (tree : Tree moduleGrammar (.cat .propIdent)) (file : Option Text) :
    ∃ token, tree.yield = [token] ∧ token.kind ∈ ModuleGrammar.propIdentTerminals ∧
      tree.value file = ⟨token.text, spanOf file [token]⟩ ∧
      tree.bareValue = ⟨token.text, {}⟩ := by
  cases tree with
  | node _ a children =>
    rw [Tree.yield, Tree.value, Tree.bareValue, Forest.span_eq]
    obtain ⟨u, hu, hAlternative⟩ := alternative_propIdent (List.get_mem _ a)
    revert children
    rw [show (moduleGrammar.rule .propIdent).alternatives.get a = _ from hAlternative]
    intro children
    cases children with
    | cons _ _ tree rest =>
      cases tree with
      | leaf _ token hKind =>
        cases rest
        exact ⟨token, rfl, hKind ▸ hu, rfl, rfl⟩

theorem bareValue_of_word (a : Fin (moduleGrammar.rule .propIdent).alternatives.length)
    (f twin : Forest moduleGrammar ((moduleGrammar.rule .propIdent).alternatives.get a).symbols)
    {p j : Nat} {new : Token} (hAlike : f.Alike .propIdent p new j twin) :
    twin.bareValues = f.bareValues := by
  obtain ⟨u, -, hAlternative⟩ := alternative_propIdent (List.get_mem _ a)
  revert f twin
  rw [show (moduleGrammar.rule .propIdent).alternatives.get a = _ from hAlternative]
  intro f twin hAlike
  cases f with
  | cons _ _ tree rest =>
    cases tree
    cases rest
    cases twin with
    | cons _ _ tree' rest' =>
      cases rest'
      exact congrArg (·, ()) hAlike.1

/-- Among the words of the tokens, the one at the offset `lo` is that at position `p`. -/
def StandsAt (tokens : List Token) (lo p : Nat) : Prop :=
  ∀ i token, tokens[i]? = some token → token.kind ∈ ModuleGrammar.propIdentTerminals →
    (token.start.offset = lo ↔ i = p)

section Values

variable {tokens : List Token} {p lo : Nat} {new : Token} {file : Option Text}

/-- The name of a property is changed at the offset, and nowhere else. -/
theorem renamed_propIdent (hPlace : StandsAt tokens lo p)
    (tree : Tree moduleGrammar (.cat .propIdent)) {i : Nat} (hAt : tree.yield <+: tokens.drop i)
    (w : Text) (file : Option Text) :
    (i = p → renamed lo w (tree.value file) = w) ∧
      (i ≠ p → renamed lo w (tree.value file) = (tree.value file).sym) := by
  obtain ⟨token, hYield, hKind, hValue, -⟩ := exists_word tree file
  rw [hYield] at hAt
  have hIff := hPlace i token (getElem?_of_prefix_drop hAt) hKind
  have hSpan : (spanOf file [token]).lo = some (token.start.offset : Int) := rfl
  rw [hValue, renamed]
  dsimp only
  rw [hSpan]
  refine ⟨fun hi => if_pos ?_, fun hi => if_neg ?_⟩
  · rw [hIff.mpr hi]
  · intro hSame
    exact hi (hIff.mp (Int.ofNat.inj (Option.some.inj hSame)))

theorem erase_congr {c : Category} (hName : c ≠ .propIdent) (r : Erasure) (f g : Ident → Text) :
    c.erase r f = c.erase r g := by
  cases c <;> first | rfl | exact absurd rfl hName

/-- The phrases that keep the names of properties have one part each. -/
theorem exists_part {n : Category} (hKeeps : n = .propName ∨ n = .exportName)
    {α : List (Symbol Category)} (hMem : α ∈ moduleGrammar.shape n) : ∃ c, α = [.cat c] := by
  have hAll : ∀ n ∈ [Category.propName, .exportName], ∀ α ∈ moduleGrammar.shape n,
      ∃ c ∈ Category.all, α = [.cat c] := by decide +kernel
  obtain ⟨c, -, hOne⟩ := hAll n (by simpa using hKeeps) α hMem
  exact ⟨c, hOne⟩

/-- Where no property is renamed, it does not matter whether a phrase keeps the names of
properties. -/
theorem eraseValues_part (hPlace : StandsAt tokens lo p) (w : Text) {c : Category}
    {xs : List (Symbol Category)} (hSymbols : xs = [.cat c]) (f : Forest moduleGrammar xs)
    {i : Nat} (hi : i ≠ p) (hAt : f.yield <+: tokens.drop i) (r : Erasure) :
    eraseValues (Category.erase r Ident.sym) xs (f.values file) =
      eraseValues (Category.erase r (renamed lo w)) xs (f.values file) := by
  subst hSymbols
  cases f with
  | cons _ _ tree rest =>
    cases rest
    rw [Forest.yield, Forest.yield, List.append_nil] at hAt
    refine Prod.ext ?_ rfl
    by_cases hName : c = .propIdent
    · subst hName
      have hSame := (renamed_propIdent hPlace tree hAt w file).2 hi
      exact congrArg (fun t : Text => (⟨t, {}⟩ : Ident)) hSame.symm
    · exact congrFun (erase_congr hName r _ _) _

theorem eraseValues_partName (hPlace : StandsAt tokens lo p) (w : Text) {n : Category}
    {a : Fin (moduleGrammar.rule n).alternatives.length}
    (f : Forest moduleGrammar ((moduleGrammar.rule n).alternatives.get a).symbols)
    {i : Nat} (hi : i ≠ p) (hAt : f.yield <+: tokens.drop i) :
    eraseValues (Category.erase (calling (renamed lo w)) (n.partName (calling (renamed lo w)))) _
        (f.values file) =
      eraseValues (Category.erase (calling (renamed lo w)) (renamed lo w)) _ (f.values file) := by
  by_cases hKeeps : n = .propName ∨ n = .exportName
  · obtain ⟨c, hSymbols⟩ := exists_part hKeeps (mem_shape n a)
    have hName : n.partName (calling (renamed lo w)) = Ident.sym := by
      rcases hKeeps with rfl | rfl <;> rfl
    rw [hName]
    exact eraseValues_part hPlace w hSymbols f hi hAt _
  · have hName : n.partName (calling (renamed lo w)) = renamed lo w := by
      unfold Category.partName
      split
      · exact absurd (.inl rfl) hKeeps
      · exact absurd (.inr rfl) hKeeps
      · rfl
    rw [hName]

theorem renamed_word (hPlace : StandsAt tokens lo p)
    (tree twin : Tree moduleGrammar (.cat .propIdent)) {i : Nat} (hAt : tree.yield <+: tokens.drop i)
    (hAlike : tree.Alike .propIdent p new i twin) :
    (⟨renamed lo new.text (tree.value file), {}⟩ : Ident) = twin.bareValue := by
  obtain ⟨hHere, hElsewhere⟩ := renamed_propIdent hPlace tree hAt new.text file
  obtain ⟨word, hWord, -, -, hBare⟩ := exists_word twin file
  cases tree with
  | node _ a children =>
    rcases hAlike with ⟨-, hi, hNew⟩ | ⟨hi, children', rfl, hAlike⟩
    · rw [hWord] at hNew
      rw [hHere hi, hBare, List.singleton_inj.mp hNew]
    · obtain ⟨token, -, -, hValue, hBare'⟩ := exists_word (.node _ a children) file
      rw [hElsewhere hi, hValue, Tree.bareValue, bareValue_of_word a children children' hAlike]
      exact hBare'.symm

mutual

/-- The value of a tree with another word as the name of one property is the old value with that
name changed. -/
theorem Tree.value_renamed (hPlace : StandsAt tokens lo p) : {x : Symbol Category} →
    (tree twin : Tree moduleGrammar x) → {i : Nat} → tree.yield <+: tokens.drop i →
    tree.Alike .propIdent p new i twin →
    eraseSymbol (Category.erase (calling (renamed lo new.text)) (renamed lo new.text)) x
      (tree.value file) = twin.bareValue
  | _, .leaf _ _ _, _, _, _, hAlike => hAlike.symm
  | _, .node n a children, twin, i, hAt, hAlike => by
    by_cases hName : n = .propIdent
    · subst hName
      exact renamed_word hPlace _ twin hAt hAlike
    · rcases hAlike with ⟨hn, -, -⟩ | ⟨hi, children', rfl, hAlike⟩
      · exact absurd hn hName
      · have hParts := Forest.values_renamed hPlace children children' hAt hAlike
        rw [Tree.bareValue, ← hParts, ← eraseValues_partName hPlace new.text children hi hAt]
        exact ModuleGrammar.erases_rule hName _ _ (List.get_mem _ a) _

theorem Forest.values_renamed (hPlace : StandsAt tokens lo p) : {xs : List (Symbol Category)} →
    (f twin : Forest moduleGrammar xs) → {j : Nat} → f.yield <+: tokens.drop j →
    f.Alike .propIdent p new j twin →
    eraseValues (Category.erase (calling (renamed lo new.text)) (renamed lo new.text)) xs
      (f.values file) = twin.bareValues
  | _, .nil, .nil, _, _, _ => rfl
  | _, .cons _ _ tree rest, .cons _ _ tree' rest', j, hAt, hAlike => by
    rw [Forest.yield] at hAt
    obtain ⟨hFirst, hLater⟩ := drop_prefix_append hAt
    rw [Forest.values, Forest.bareValues, eraseValues,
      Tree.value_renamed hPlace tree tree' hFirst hAlike.1,
      Forest.values_renamed hPlace rest rest' hLater hAlike.2]

end

end Values

-- ---------------------------------------------------------------------------------------------
-- Sources
-- ---------------------------------------------------------------------------------------------

/-- A word of the tokens that the grammar is matched against is told from the others by its
offset. -/
theorem InOrder.standsAt {tokens : List Token} (h : InOrder tokens) {p : Nat} {name : Token}
    (hName : tokens[p]? = some name) (hWord : name.kind ∈ ModuleGrammar.propIdentTerminals) :
    StandsAt tokens name.start.offset p := by
  intro i token hToken hKind
  obtain ⟨hi, rfl⟩ := List.getElem?_eq_some_iff.mp hToken
  obtain ⟨hp, rfl⟩ := List.getElem?_eq_some_iff.mp hName
  have hStarts := List.pairwise_iff_getElem.mp h.starts
  obtain ⟨-, hBrace, hTerminator⟩ := Insertion.ne_of_word hWord
  obtain ⟨-, hBrace', hTerminator'⟩ := Insertion.ne_of_word hKind
  have hFilled := h.filled _ (List.getElem_mem hp) hTerminator
  have hFilled' := h.filled _ (List.getElem_mem hi) hTerminator'
  constructor
  · intro hSame
    rcases Nat.lt_trichotomy i p with hLt | hEq | hLt
    · have hBefore := hStarts i p hi hp hLt hTerminator hBrace
      omega
    · exact hEq
    · have hAfter := hStarts p i hp hi hLt hTerminator' hBrace'
      omega
  · rintro rfl
    rfl

theorem exists_of_bare {before after tokens : List Token} {new : Token}
    (h : tokens.map Token.bare = (before ++ new :: after).map Token.bare) :
    ∃ token, tokens[before.length]? = some token ∧ token.bare = new.bare := by
  have hAt := congrArg (·[before.length]?) h
  simp only [List.getElem?_map, List.getElem?_append_right (Nat.le_refl _), Nat.sub_self,
    List.getElem?_cons_zero, Option.map_some] at hAt
  exact Option.map_eq_some_iff.mp hAt

/-- The word `w` can take the place of the name `p`: where the source is read, so is the one with the
word, and as the same module up to spans and the name of that property. -/
def Replaceable (pre p post w : Text) : Prop :=
  ∀ file parsed, parseModule (pre ++ p ++ post) file = .ok parsed →
    ∃ parsed', parseModule (pre ++ w ++ post) file = .ok parsed' ∧
      spans.body parsed'.module = (calling (renamed pre.length w)).body parsed.module

/-- A word that makes no difference to the tokens around it can take the place of the name of a
property. -/
theorem replaceable_of_unnoticed {pre p post w : Text} (site : PropertySite pre p post)
    (hw : Pattern.IsWord w) (hSame : Unnoticed (Terminal.ofWord w) site) :
    Replaceable pre p post w := by
  intro file parsed hRead
  obtain ⟨tree, hFrom⟩ := parseModule_eq_ok hRead
  obtain ⟨hLexed, word, hKind, hText, hBare⟩ :=
    (site.exchanged_iff_unnoticed hw hFrom.lexed).mpr hSame
  have hStatements : (lex (pre ++ p ++ post)).statements =
      (site.before ++ [site.dot]) ++ site.name :: site.after := by
    rw [site.statements, List.append_assoc]
    rfl
  have hBare' : (lex (pre ++ w ++ post)).statements.map Token.bare =
      ((site.before ++ [site.dot]) ++ word :: site.after).map Token.bare := by
    rw [hBare, List.append_assoc]
    rfl
  have hLength : (site.before ++ [site.dot]).length = site.before.length + 1 := by simp
  have hName : (lex (pre ++ p ++ post)).statements[site.before.length + 1]? = some site.name := by
    rw [hStatements, ← hLength]
    simp
  have hDot : ((lex (pre ++ p ++ post)).statements.map Token.kind)[site.before.length]? =
      some .dot := by
    rw [site.statements]
    simp [site.dot_kind]
  have hWord : site.name.kind ∈ ModuleGrammar.propIdentTerminals := by
    rw [site.name_kind]
    decide
  have hExchanged := exchanged_of_bare site.name hBare'
  rw [← hStatements, hLength, hKind] at hExchanged
  obtain ⟨new, hNew, hSameWord⟩ := exists_of_bare hBare'
  rw [hLength] at hNew
  have hNewText : new.text = w := (congrArg Token.text hSameWord).trans hText
  cases tree with
  | none =>
    have hNil := hFrom.tokens
    rw [hStatements] at hNil
    simp [treeTokens] at hNil
  | some tree =>
    have hYield : tree.yield = (lex (pre ++ p ++ post)).statements := hFrom.tokens
    obtain ⟨twin, hTwin, hAlike⟩ := syntaxTree_twin (pre ++ w ++ post)
      (interchange_propIdent hDot hWord (Terminal.ofWord_mem w)) hFrom.matched hLexed hExchanged
      hNew (ItemsTree.hosts_after_dot tree hYield hDot hName hWord)
    have hPlace := (inOrder_statements (pre ++ p ++ post)).standsAt hName hWord
    rw [site.name_start] at hPlace
    have hValue : built (List.map (calling (renamed pre.length new.text)).item) (tree.value file) =
        twin.bareValue :=
      Tree.value_renamed hPlace tree twin (by rw [hYield]; exact List.prefix_rfl) hAlike
    have hBuilt : tree.value file = .ok parsed.module.body := hFrom.built
    rw [hNewText, hBuilt] at hValue
    obtain ⟨items, hItems, hErased⟩ := exists_items hValue.symm
    exact ⟨_, parseModule_of_tree hTwin hItems, hErased⟩

/-- The property in `a.p(b)`. -/
def calledProperty : PropertySite "a." "p" "(b)" where
  before := [⟨.name, "a", ⟨0, 1, 1⟩, ⟨1, 1, 2⟩⟩]
  dot := ⟨.dot, ".", ⟨1, 1, 2⟩, ⟨2, 1, 3⟩⟩
  name := ⟨.name, "p", ⟨2, 1, 3⟩, ⟨3, 1, 4⟩⟩
  after := [⟨.lpar, "(", ⟨3, 1, 4⟩, ⟨4, 1, 5⟩⟩, ⟨.name, "b", ⟨4, 1, 5⟩, ⟨5, 1, 6⟩⟩,
    ⟨.rpar, ")", ⟨5, 1, 6⟩, ⟨6, 1, 7⟩⟩, ⟨.terminator, [], ⟨5, 1, 6⟩, ⟨6, 1, 7⟩⟩]
  statements := by decide +kernel
  dot_kind := rfl
  name_kind := rfl
  name_text := rfl
  name_start := rfl

/-- The word `default` cannot end a statement, but where a call follows it can take the place of the
name of a property. -/
theorem default_replaceable_before_call :
    Unnoticed (Terminal.ofWord "default") calledProperty ∧
      ∃ parsed parsed', parseModule "a.p(b)" none = .ok parsed ∧
        parseModule "a.default(b)" none = .ok parsed' ∧
        spans.body parsed'.module = (calling (renamed 2 "default")).body parsed.module := by
  have hSame : Unnoticed (Terminal.ofWord "default") calledProperty :=
    { next := fun t ht => .inr (by cases ht; exact ⟨nofun, nofun⟩)
      ending := .inr (by decide)
      line := .inl (by decide)
      brace := .inr (by decide) }
  have hWord : Pattern.IsWord "default" := by decide
  have hReads : readsAs "a.p(b)" (fun _ => true) = true := by decide +kernel
  obtain ⟨parsed, hRead, -⟩ := exists_of_readsAs hReads
  obtain ⟨parsed', hParsed, hErased⟩ :=
    replaceable_of_unnoticed calledProperty hWord hSame none parsed hRead
  exact ⟨hSame, parsed, parsed', hRead, hParsed, hErased⟩

end ClientBoundary
