import ClientBoundary.Proofs.BareValue
import ClientBoundary.Proofs.Interchange

/-!
# Phrases by their words

Up to places, a phrase is known by its words, which are the kinds and texts of its tokens, and by the
value that is built from them. `Phrase G n ws v` says that the words `ws` are a phrase of the category
`n` with the value `v`.

* `Forms` — a rule has a phrase of a certain kind, and `forms_seq`, `forms_map`, … what that comes to
  for a rule that is put together.
* `phrase_iff` — the phrases of a category are those of its rule.
* `separated_iff`, `forms_bracketed` — lists are elements with commas between them.
* `Elements.value` — the value of a list is read off its words element by element.
-/

namespace ClientBoundary

/-- A word: the kind and the text of a token. -/
abbrev Word := Terminal × Text

/-- The word that a token is. -/
def Token.word (t : Token) : Word := (t.kind, t.text)

/-- A token that is the given word, at no place. -/
def Word.bare (w : Word) : Token := ⟨w.1, w.2, Place.start, Place.start⟩

namespace Grammar

variable {N : Type} {V : N → Type} {α β : Type}

/-- The words are a phrase of the category with the given value. -/
def Phrase (G : Grammar V) (n : N) (ws : List Word) (v : V n) : Prop :=
  ∃ tree : Tree G (.cat n), tree.yield.map Token.word = ws ∧ tree.bareValue = v

/-- The words and the value of some phrase of the rule are in the relation `Q`. -/
def Forms (G : Grammar V) (r : Rule V α) (Q : List Word → α → Prop) : Prop :=
  ∃ a ∈ r.alternatives, ∃ f : Forest G a.symbols, Q (f.yield.map Token.word) (a.value {} f.bareValues)

-- ---------------------------------------------------------------------------------------------
-- Forests side by side
-- ---------------------------------------------------------------------------------------------

section Forests

variable {G : Grammar V}

theorem Forest.exists_split : (xs : List (Symbol N)) → {ys : List (Symbol N)} →
    (f : Forest G (xs ++ ys)) → ∃ (g : Forest G xs) (h : Forest G ys), f.yield = g.yield ++ h.yield ∧
      Values.left xs f.bareValues = g.bareValues ∧ Values.right xs f.bareValues = h.bareValues
  | [], _, f => ⟨.nil, f, rfl, rfl, rfl⟩
  | _ :: xs, _, .cons _ _ tree rest => by
    obtain ⟨g, h, hYield, hLeft, hRight⟩ := Forest.exists_split xs rest
    refine ⟨.cons _ _ tree g, h, ?_, Prod.ext rfl hLeft, hRight⟩
    rw [Forest.yield, Forest.yield, hYield, List.append_assoc]

theorem Forest.exists_append : {xs ys : List (Symbol N)} → (g : Forest G xs) → (h : Forest G ys) →
    ∃ f : Forest G (xs ++ ys), f.yield = g.yield ++ h.yield ∧
      Values.left xs f.bareValues = g.bareValues ∧ Values.right xs f.bareValues = h.bareValues
  | _, _, .nil, h => ⟨h, rfl, rfl, rfl⟩
  | _, _, .cons _ _ tree rest, h => by
    obtain ⟨f, hYield, hLeft, hRight⟩ := Forest.exists_append rest h
    refine ⟨.cons _ _ tree f, ?_, Prod.ext rfl hLeft, hRight⟩
    rw [Forest.yield, Forest.yield, hYield, List.append_assoc]

end Forests

-- ---------------------------------------------------------------------------------------------
-- Rules that are put together
-- ---------------------------------------------------------------------------------------------

section Rules

variable {G : Grammar V}

@[simp] theorem forms_map {r : Rule V α} {f : α → β} {Q : List Word → β → Prop} :
    Forms G (f <$> r) Q ↔ Forms G r fun ws a => Q ws (f a) := by
  constructor
  · rintro ⟨b, hb, forest, hQ⟩
    obtain ⟨a, ha, rfl⟩ := List.mem_map.mp hb
    exact ⟨a, ha, forest, hQ⟩
  · rintro ⟨a, ha, forest, hQ⟩
    exact ⟨_, List.mem_map_of_mem ha, forest, hQ⟩

@[simp] theorem forms_seq {f : Rule V (α → β)} {r : Rule V α} {Q : List Word → β → Prop} :
    Forms G (f <*> r) Q ↔
      Forms G f fun us g => Forms G r fun vs a => Q (us ++ vs) (g a) := by
  constructor
  · rintro ⟨c, hc, forest, hQ⟩
    obtain ⟨a, ha, hc⟩ := List.mem_flatMap.mp hc
    obtain ⟨b, hb, rfl⟩ := List.mem_map.mp hc
    obtain ⟨left, right, hYield, hLeft, hRight⟩ := Forest.exists_split a.symbols forest
    refine ⟨a, ha, left, b, hb, right, ?_⟩
    show Q (left.yield.map Token.word ++ right.yield.map Token.word) _
    rw [← List.map_append, ← hYield, ← hLeft, ← hRight]
    exact hQ
  · rintro ⟨a, ha, left, b, hb, right, hQ⟩
    change Q (left.yield.map Token.word ++ right.yield.map Token.word) _ at hQ
    obtain ⟨forest, hYield, hLeft, hRight⟩ := Forest.exists_append left right
    refine ⟨Rule.apply a b, List.mem_flatMap.mpr ⟨a, ha, List.mem_map_of_mem hb⟩, forest, ?_⟩
    rw [← List.map_append, ← hYield, ← hLeft, ← hRight] at hQ
    exact hQ

@[simp] theorem forms_seqLeft {r : Rule V α} {q : Rule V β} {Q : List Word → α → Prop} :
    Forms G (r <* q) Q ↔ Forms G r fun us a => Forms G q fun vs _ => Q (us ++ vs) a :=
  forms_seq.trans forms_map

@[simp] theorem forms_seqRight {r : Rule V α} {q : Rule V β} {Q : List Word → β → Prop} :
    Forms G (r *> q) Q ↔ Forms G r fun us _ => Forms G q fun vs b => Q (us ++ vs) b :=
  forms_seq.trans forms_map

@[simp] theorem forms_orElse {r q : Rule V α} {Q : List Word → α → Prop} :
    Forms G (r <|> q) Q ↔ Forms G r Q ∨ Forms G q Q := by
  constructor
  · rintro ⟨a, ha, forest, hQ⟩
    rcases List.mem_append.mp ha with ha | ha
    · exact .inl ⟨a, ha, forest, hQ⟩
    · exact .inr ⟨a, ha, forest, hQ⟩
  · rintro (⟨a, ha, forest, hQ⟩ | ⟨a, ha, forest, hQ⟩)
    · exact ⟨a, List.mem_append_left _ ha, forest, hQ⟩
    · exact ⟨a, List.mem_append_right _ ha, forest, hQ⟩

@[simp] theorem forms_tok {t : Terminal} {Q : List Word → Token → Prop} :
    Forms G (Rule.tok t : Rule V Token) Q ↔ ∃ x, Q [(t, x)] (Word.bare (t, x)) := by
  constructor
  · rintro ⟨a, ha, forest, hQ⟩
    obtain rfl := List.mem_singleton.mp ha
    match forest with
    | .cons _ _ (.leaf _ token hKind) .nil =>
      subst hKind
      exact ⟨token.text, hQ⟩
  · rintro ⟨x, hQ⟩
    exact ⟨_, List.mem_singleton_self _, .cons _ _ (.leaf t (Word.bare (t, x)) rfl) .nil, hQ⟩

@[simp] theorem forms_cat {n : N} {Q : List Word → V n → Prop} :
    Forms G (Rule.cat n) Q ↔ ∃ ws v, Phrase G n ws v ∧ Q ws v := by
  constructor
  · rintro ⟨a, ha, forest, hQ⟩
    obtain rfl := List.mem_singleton.mp ha
    match forest with
    | .cons _ _ tree .nil =>
      rw [Forest.yield, Forest.yield, List.append_nil] at hQ
      exact ⟨_, _, ⟨tree, rfl, rfl⟩, hQ⟩
  · rintro ⟨ws, v, ⟨tree, rfl, rfl⟩, hQ⟩
    refine ⟨_, List.mem_singleton_self _, .cons _ _ tree .nil, ?_⟩
    rw [Forest.yield, Forest.yield, List.append_nil]
    exact hQ

@[simp] theorem forms_span {Q : List Word → Span → Prop} :
    Forms G (Rule.span : Rule V Span) Q ↔ Q [] {} := by
  constructor
  · rintro ⟨a, ha, forest, hQ⟩
    obtain rfl := List.mem_singleton.mp ha
    match forest with
    | .nil => exact hQ
  · exact fun hQ => ⟨_, List.mem_singleton_self _, .nil, hQ⟩

@[simp] theorem forms_opt {r : Rule V α} {Q : List Word → Option α → Prop} :
    Forms G (Rule.opt r) Q ↔ (Forms G r fun ws a => Q ws (some a)) ∨ Q [] none := by
  have hNone : Forms G (⟨[⟨[], fun _ _ => none⟩]⟩ : Rule V (Option α)) Q ↔ Q [] none := by
    constructor
    · rintro ⟨a, ha, forest, hQ⟩
      obtain rfl := List.mem_singleton.mp ha
      match forest with
      | .nil => exact hQ
    · exact fun hQ => ⟨_, List.mem_singleton_self _, .nil, hQ⟩
  rw [← hNone, ← forms_map (f := some)]
  exact forms_orElse (q := ⟨[⟨[], fun _ _ => none⟩]⟩)

end Rules

/-- The phrases of a category are those of its rule. -/
theorem phrase_iff {G : Grammar V} {n : N} {ws : List Word} {v : V n} :
    Phrase G n ws v ↔ Forms G (G.rule n) fun us a => us = ws ∧ a = v := by
  constructor
  · rintro ⟨tree, rfl, rfl⟩
    match tree with
    | .node _ i children => exact ⟨_, List.get_mem _ i, children, rfl, rfl⟩
  · rintro ⟨a, ha, forest, rfl, rfl⟩
    obtain ⟨i, rfl⟩ := List.mem_iff_get.mp ha
    exact ⟨.node n i forest, rfl, rfl⟩

end Grammar

-- ---------------------------------------------------------------------------------------------
-- Modules
-- ---------------------------------------------------------------------------------------------

open Grammar

/-- The words are a phrase of the grammar of modules. -/
abbrev IsPhrase (n : Category) (ws : List Word) (v : n.Value) : Prop := Phrase moduleGrammar n ws v

theorem IsPhrase.ne_nil {n : Category} {ws : List Word} {v : n.Value} (h : IsPhrase n ws v) :
    ws ≠ [] := by
  obtain ⟨tree, rfl, -⟩ := h
  have hPos := Tree.yield_pos moduleLayout_facts.filled tree
  simpa using List.length_pos_iff.mp hPos

theorem IsPhrase.exists_head {good : Category → Bool} {ok : Terminal → Bool}
    (hBegins : BeginsIn moduleGrammar good ok) {n : Category} (hn : good n = true) {ws : List Word}
    {v : n.Value} (h : IsPhrase n ws v) : ∃ w rest, ws = w :: rest ∧ ok w.1 = true := by
  obtain ⟨tree, rfl, -⟩ := h
  obtain ⟨token, hHead, hOk⟩ := Tree.exists_head hBegins tree hn
  obtain ⟨rest, hYield⟩ := List.head?_eq_some_iff.mp hHead
  exact ⟨token.word, rest.map Token.word, by rw [hYield, List.map_cons], hOk⟩

namespace ModuleGrammar

variable {α : Type}

@[simp] theorem forms_oneOf {ts : List Terminal} {Q : List Word → Token → Prop} :
    Forms moduleGrammar (oneOf ts) Q ↔ ∃ t ∈ ts, ∃ x, Q [(t, x)] (Word.bare (t, x)) := by
  constructor
  · rintro ⟨a, ha, forest, hQ⟩
    obtain ⟨t, ht, ha⟩ := List.mem_flatMap.mp ha
    exact ⟨t, ht, forms_tok.mp ⟨a, ha, forest, hQ⟩⟩
  · rintro ⟨t, ht, hQ⟩
    obtain ⟨a, ha, forest, hQ⟩ := forms_tok.mpr hQ
    exact ⟨a, List.mem_flatMap.mpr ⟨t, ht, ha⟩, forest, hQ⟩

theorem forms_commaList {list : R (Build (List α))} {element : R (Build α)}
    {Q : List Word → Build (List α) → Prop} :
    Forms moduleGrammar (commaList list element) Q ↔
      (Forms moduleGrammar list fun us xs => ∃ c, Forms moduleGrammar element fun vs x =>
        Q (us ++ [(.comma, c)] ++ vs) (snoc xs x)) ∨
      Forms moduleGrammar element fun vs x => Q vs (single x) := by
  unfold commaList tok
  simp only [forms_orElse, forms_seq, forms_seqLeft, forms_map, forms_tok]

end ModuleGrammar

-- ---------------------------------------------------------------------------------------------
-- Lists
-- ---------------------------------------------------------------------------------------------

section Lists

open ModuleGrammar

variable {α : Type} {E : List Word → Build α → Prop}

/-- Elements of the kind `E` with commas between them, and the list of their values. -/
inductive Separated (E : List Word → Build α → Prop) : List Word → Build (List α) → Prop where
  | one {ws : List Word} {x : Build α} (h : E ws x) : Separated E ws (single x)
  | more {us vs : List Word} {xs : Build (List α)} {x : Build α} (c : Text)
      (hInit : Separated E us xs) (hLast : E vs x) :
      Separated E (us ++ (.comma, c) :: vs) (snoc xs x)

/-- What may stand in brackets: nothing, or elements with commas between them and perhaps one more
comma at the end. -/
inductive Elements (E : List Word → Build α → Prop) : List Word → Build (List α) → Prop where
  | none : Elements E [] (.ok [])
  | some {ws : List Word} {v : Build (List α)} (h : Separated E ws v) : Elements E ws v
  | trailing {ws : List Word} {v : Build (List α)} (h : Separated E ws v) (c : Text) :
      Elements E (ws ++ [(.comma, c)]) v

/-- The phrases of a category of lists are lists of its elements. `P` are the phrases of the category,
and `hP` is what its rule says. -/
theorem separated_iff {P : List Word → Build (List α) → Prop}
    (hP : ∀ ws v, P ws v ↔
      (∃ us xs, P us xs ∧ ∃ c vs x, E vs x ∧ us ++ [(.comma, c)] ++ vs = ws ∧ snoc xs x = v) ∨
        ∃ us x, E us x ∧ us = ws ∧ single x = v) {ws : List Word} {v : Build (List α)} :
    P ws v ↔ Separated E ws v := by
  constructor
  · -- a list with one more element is longer than the list without it
    intro h
    induction hn : ws.length using Nat.strongRecOn generalizing ws v with
    | _ n ih =>
      subst hn
      rcases (hP ws v).mp h with ⟨us, xs, hInit, c, vs, x, hLast, rfl, rfl⟩ | ⟨us, x, hOne, rfl, rfl⟩
      · rw [List.append_assoc, List.singleton_append] at ih ⊢
        refine .more c (ih us.length ?_ hInit rfl) hLast
        rw [List.length_append, List.length_cons]
        omega
      · exact .one hOne
  · intro h
    induction h with
    | one hOne => exact (hP _ _).mpr (.inr ⟨_, _, hOne, rfl, rfl⟩)
    | more c _ hLast ih =>
      refine (hP _ _).mpr (.inl ⟨_, _, ih, c, _, _, hLast, ?_, rfl⟩)
      rw [List.append_assoc, List.singleton_append]

theorem forms_bracketed {left right : Terminal} {list : R (Build (List α))}
    (hList : ∀ Q, Forms moduleGrammar list Q ↔ ∃ us v, Separated E us v ∧ Q us v)
    {Q : List Word → Build (List α) → Prop} :
    Forms moduleGrammar (bracketed left right list) Q ↔
      ∃ a us v b, Elements E us v ∧ Q ((left, a) :: (us ++ [(right, b)])) v := by
  unfold bracketed tok
  simp only [forms_opt, forms_seqLeft, forms_seqRight, forms_map, forms_tok, hList]
  constructor
  · rintro ⟨a, ⟨us, v, h, ⟨c, b, hQ⟩ | ⟨b, hQ⟩⟩ | ⟨b, hQ⟩⟩
    · exact ⟨a, _, v, b, .trailing h c, hQ⟩
    · rw [List.append_nil] at hQ
      exact ⟨a, us, v, b, .some h, hQ⟩
    · exact ⟨a, [], _, b, .none, hQ⟩
  · rintro ⟨a, us, v, b, hElements, hQ⟩
    cases hElements with
    | none => exact ⟨a, .inr ⟨b, hQ⟩⟩
    | some h =>
      refine ⟨a, .inl ⟨us, v, h, .inr ⟨b, ?_⟩⟩⟩
      rw [List.append_nil]
      exact hQ
    | trailing h c => exact ⟨a, .inl ⟨_, v, h, .inl ⟨c, b, hQ⟩⟩⟩

/-- What elements with commas between them say, one by one. -/
def elementsOf (one : List Word → Build α) (ws : List Word) : Build (List α) :=
  ((ws.splitOnP (·.1 = .comma)).filter (!·.isEmpty)).mapM one

theorem elementsOf_append_comma (one : List Word → Build α) (us vs : List Word) (c : Text) :
    elementsOf one (us ++ (.comma, c) :: vs) = append (elementsOf one us) (elementsOf one vs) := by
  rw [elementsOf, List.splitOnP_append_cons us vs (by simp), List.filter_append, List.mapM_append]
  rfl

theorem elementsOf_single (one : List Word → Build α) {ws : List Word} (hSome : ws ≠ [])
    (hComma : ∀ w ∈ ws, w.1 ≠ .comma) : elementsOf one ws = single (one ws) := by
  have hSplit : ws.splitOnP (·.1 = .comma) = [ws] :=
    List.splitOnP_eq_singleton fun w hw => by simpa using hComma w hw
  have hFilter : [ws].filter (!·.isEmpty) = [ws] := by
    simp [hSome]
  rw [elementsOf, hSplit, hFilter, List.mapM_cons]
  rfl

theorem snoc_eq_append (xs : Build (List α)) (x : Build α) : snoc xs x = append xs (single x) := by
  cases xs with
  | error e => rfl
  | ok xs => cases x <;> rfl

/-- The value of a list is read off its words element by element. -/
theorem Separated.value {one : List Word → Build α}
    (hE : ∀ ws x, E ws x → x = one ws ∧ ws ≠ [] ∧ ∀ w ∈ ws, w.1 ≠ .comma) {ws : List Word}
    {v : Build (List α)} (h : Separated E ws v) : v = elementsOf one ws := by
  induction h with
  | one hOne =>
    obtain ⟨rfl, hSome, hComma⟩ := hE _ _ hOne
    rw [elementsOf_single one hSome hComma]
  | more c _ hLast ih =>
    obtain ⟨rfl, hSome, hComma⟩ := hE _ _ hLast
    rw [elementsOf_append_comma, elementsOf_single one hSome hComma, ← ih, snoc_eq_append]

theorem Elements.value {one : List Word → Build α}
    (hE : ∀ ws x, E ws x → x = one ws ∧ ws ≠ [] ∧ ∀ w ∈ ws, w.1 ≠ .comma) {ws : List Word}
    {v : Build (List α)} (h : Elements E ws v) : v = elementsOf one ws := by
  cases h with
  | none => rfl
  | some h => exact h.value hE
  | trailing h c =>
    have hNone : elementsOf one [] = .ok [] := rfl
    rw [elementsOf_append_comma, hNone, ← h.value hE]
    cases v with
    | error e => rfl
    | ok xs => exact congrArg Except.ok (List.append_nil xs).symm

/-- Every word of a list is a comma or a word of an element. -/
theorem Separated.forall_mem {K : Word → Prop} (hComma : ∀ c, K (.comma, c))
    (hE : ∀ ws x, E ws x → ∀ w ∈ ws, K w) {ws : List Word} {v : Build (List α)}
    (h : Separated E ws v) : ∀ w ∈ ws, K w := by
  induction h with
  | one hOne => exact hE _ _ hOne
  | more c _ hLast ih =>
    intro w hw
    rcases List.mem_append.mp hw with hw | hw
    · exact ih w hw
    · rcases List.mem_cons.mp hw with rfl | hw
      · exact hComma c
      · exact hE _ _ hLast w hw

theorem Elements.forall_mem {K : Word → Prop} (hComma : ∀ c, K (.comma, c))
    (hE : ∀ ws x, E ws x → ∀ w ∈ ws, K w) {ws : List Word} {v : Build (List α)}
    (h : Elements E ws v) : ∀ w ∈ ws, K w := by
  cases h with
  | none => exact List.forall_mem_nil _
  | some h => exact h.forall_mem hComma hE
  | trailing h c =>
    intro w hw
    rcases List.mem_append.mp hw with hw | hw
    · exact h.forall_mem hComma hE w hw
    · obtain rfl := List.mem_singleton.mp hw
      exact hComma c

end Lists

end ClientBoundary
