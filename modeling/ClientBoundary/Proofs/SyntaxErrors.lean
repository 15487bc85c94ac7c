import ClientBoundary.Proofs.Acceptance
import ClientBoundary.Proofs.Sentences

/-!
# Where a source stops being a module

A sequence of terminals is `Viable` when it begins some sentence. Reading stops at the first token
that leaves the viable sequences, and names all terminals that would not have left them. Both come
from one fact about items: an item at the end of what was read is a promise that it can be gone on
with (`Item.goes_on`). Every category derives something, so the rest of the phrase can be filled in,
and so can the rest of the phrases around it (`Item.context`).

* `syntaxTree_ok_iff_sentence` — reading gets past the syntax exactly on the sentences.
* `syntax_errors_are_exact` — the three errors of syntax, and what they report.
-/

namespace ClientBoundary

namespace Grammar

variable {N : Type} {V : N → Type} {G : Grammar V} {start : N} {w : List Terminal} {n : N}
  {α : List (Symbol N)} {k i j : Nat}

-- ---------------------------------------------------------------------------------------------
-- Categories that derive something
-- ---------------------------------------------------------------------------------------------

/-- Every category of the grammar derives something. -/
def Productive (G : Grammar V) : Prop := ∀ n, ∃ w, Derives G (.cat n) w

theorem derivesAll_of_cats (ss : List (Symbol N))
    (h : ∀ n, .cat n ∈ ss → ∃ w, Derives G (.cat n) w) : ∃ w, DerivesAll G ss w := by
  induction ss with
  | nil => exact ⟨[], derivesAll_nil.mpr rfl⟩
  | cons s ss ih =>
    obtain ⟨v, hv⟩ := ih fun n hn => h n (List.mem_cons_of_mem s hn)
    obtain ⟨u, hu⟩ : ∃ u, Derives G s u := by
      cases s with
      | tok t => exact ⟨[t], derives_tok.mpr rfl⟩
      | cat m => exact h m List.mem_cons_self
    exact ⟨u ++ v, derivesAll_cons.mpr ⟨u, v, rfl, hu, hv⟩⟩

section Growing

variable [DecidableEq N]

/-- Some alternative of a category has terminals and known categories only. -/
def grows (shape : N → List (List (Symbol N))) (known : List N) (n : N) : Bool :=
  (shape n).any fun ss => ss.all fun
    | .tok _ => true
    | .cat m => known.contains m

/-- The known categories after one look at all categories. -/
def growOver (shape : N → List (List (Symbol N))) (categories known : List N) : List N :=
  categories.foldl (fun known n => if grows shape known n then n :: known else known) known

theorem derives_of_growOver (categories : List N) {known : List N}
    (hKnown : ∀ n ∈ known, ∃ w, Derives G (.cat n) w) :
    ∀ n ∈ growOver G.shape categories known, ∃ w, Derives G (.cat n) w := by
  induction categories generalizing known with
  | nil => exact hKnown
  | cons n categories ih =>
    rw [growOver, List.foldl_cons]
    refine ih ?_
    split
    · rename_i hGrows
      obtain ⟨ss, hss, hAll⟩ := List.any_eq_true.mp hGrows
      obtain ⟨w, hw⟩ := derivesAll_of_cats (G := G) ss fun m hm =>
        hKnown m (List.contains_iff_mem.mp (List.all_eq_true.mp hAll _ hm))
      exact List.forall_mem_cons.mpr ⟨⟨w, derives_cat.mpr ⟨ss, hss, hw⟩⟩, hKnown⟩
    · exact hKnown

end Growing

-- ---------------------------------------------------------------------------------------------
-- What items promise
-- ---------------------------------------------------------------------------------------------

/-- The symbols before the mark derive what was read since the item began. -/
theorem Item.derives (h : Item G.shape start w n α k i j) :
    ∃ u, w.take j = w.take i ++ u ∧ DerivesAll G (α.take k) u := by
  induction h with
  | start => exact ⟨[], by simp, derivesAll_nil.mpr rfl⟩
  | predict => exact ⟨[], by simp, derivesAll_nil.mpr rfl⟩
  | @scan n α k i j t _ hNext hToken ih =>
    obtain ⟨u, hTake, hu⟩ := ih
    refine ⟨u ++ [t], ?_, ?_⟩
    · rw [List.take_add_one, hToken, hTake, Option.toList_some, List.append_assoc]
    · rw [List.take_add_one, hNext, Option.toList_some]
      exact hu.append (derivesAll_single.mpr (derives_tok.mpr rfl))
  | @complete m n β α k i j l _ hNext hDone ih ihDone =>
    obtain ⟨u, hTake, hu⟩ := ih
    obtain ⟨v, hTake', hv⟩ := ihDone
    refine ⟨u ++ v, ?_, ?_⟩
    · rw [hTake', hTake, List.append_assoc]
    · rw [List.take_add_one, hNext, Option.toList_some]
      rw [List.take_length] at hv
      exact hu.append (derivesAll_single.mpr (derives_cat.mpr ⟨α, hDone.mem, hv⟩))

/-- Whatever the category of an item derives may stand where the item began: some ending makes the
whole derivable. -/
theorem Item.context (hG : Productive G) (h : Item G.shape start w n α k i j) :
    ∃ tail, ∀ v, Derives G (.cat n) v → Derives G (.cat start) (w.take i ++ v ++ tail) := by
  induction h with
  | start => exact ⟨[], fun v hv => by simpa using hv⟩
  | @predict m n β α k i j hItem hNext _ ih =>
    obtain ⟨tail, hTail⟩ := ih
    obtain ⟨u, hTake, hu⟩ := hItem.derives
    obtain ⟨rest, hRest⟩ := derivesAll_of_cats (β.drop (k + 1)) fun n _ => hG n
    refine ⟨rest ++ tail, fun v hv => ?_⟩
    obtain ⟨hLt, hAt⟩ := List.getElem?_eq_some_iff.mp hNext
    have hSplit : β = β.take k ++ .cat n :: β.drop (k + 1) := by
      rw [← hAt, ← List.drop_eq_getElem_cons hLt, List.take_append_drop]
    have hWhole : DerivesAll G β (u ++ (v ++ rest)) := by
      rw [hSplit]
      exact hu.append (derivesAll_cons.mpr ⟨v, rest, rfl, hv, hRest⟩)
    have hStart := hTail _ (derives_cat.mpr ⟨β, hItem.mem, hWhole⟩)
    rw [hTake]
    simpa only [List.append_assoc] using hStart
  | scan _ _ _ ih => exact ih
  | complete _ _ _ ih _ => exact ih

/-- What was read up to an item can be gone on with. -/
theorem Item.goes_on (hG : Productive G) (h : Item G.shape start w n α k i j) :
    ∃ v, Derives G (.cat start) (w.take j ++ v) := by
  obtain ⟨u, hTake, hu⟩ := h.derives
  obtain ⟨tail, hTail⟩ := h.context hG
  obtain ⟨rest, hRest⟩ := derivesAll_of_cats (α.drop k) fun n _ => hG n
  have hWhole : DerivesAll G α (u ++ rest) := by
    rw [← List.take_append_drop k α]
    exact hu.append hRest
  refine ⟨rest ++ tail, ?_⟩
  have hStart := hTail _ (derives_cat.mpr ⟨α, h.mem, hWhole⟩)
  rw [hTake]
  simpa only [List.append_assoc] using hStart

/-- An item waits for a terminal exactly when the terminal can come next. -/
theorem exists_item_iff (hG : Productive G) (hFilled : ∀ n, [] ∉ G.shape n) {t : Terminal} :
    (∃ n α k i, Item G.shape start w n α k i w.length ∧ α[k]? = some (.tok t)) ↔
      ∃ v, Derives G (.cat start) (w ++ [t] ++ v) := by
  have hSame : ∀ v, ∀ p < w.length, (w ++ [t] ++ v)[p]? = w[p]? := by
    intro v p hp
    rw [List.append_assoc, List.getElem?_append_left hp]
  constructor
  · rintro ⟨n, α, k, i, hItem, hNext⟩
    have hLonger : Item G.shape start (w ++ [t]) n α k i w.length :=
      hItem.congr hFilled fun p hp => by simpa using hSame [] p hp
    obtain ⟨v, hv⟩ := (Item.scan hLonger hNext (by simp)).goes_on hG
    refine ⟨v, ?_⟩
    rwa [List.take_of_length_le (by simp)] at hv
  · rintro ⟨v, hv⟩
    obtain ⟨hAwaited, -⟩ := traces_of_derives hv
    obtain ⟨n, α, k, i, t', hItem, hNext, hToken⟩ :=
      hAwaited w.length (Nat.zero_le _) (by simp only [List.length_append, List.length_cons]; omega)
    obtain rfl : t = t' := by simpa using hToken
    exact ⟨n, α, k, i, hItem.congr hFilled fun p hp => (hSame v p hp).symm, hNext⟩

/-- The terminals that a chart names as coming next are those that some item waits for. -/
theorem mem_expected_iff {shape : N → List (List (Symbol N))} {L : Layout N}
    {entries : List (Entry N)} {chart : Chart} (hL : LayoutFacts shape L entries)
    (h : Represents shape start entries chart w) {t : Terminal} :
    t ∈ chart.expected L ↔
      ∃ n α k i, Item shape start w n α k i w.length ∧ α[k]? = some (.tok t) := by
  rw [Chart.expected, List.mem_filter, decide_eq_true_eq, land_ne_zero_iff, h.newest]
  constructor
  · rintro ⟨-, b, hHas, hAwaits⟩
    obtain ⟨i, hHas⟩ := (Column.testBit_union _ b).mp hHas
    obtain ⟨e, k, hSlot, hItem⟩ := (h.has i w.length b).mp hHas
    obtain ⟨e', k', hAt, hNext⟩ := (hL.awaitsToken t b).mp hAwaits
    obtain ⟨rfl, rfl⟩ := hL.unique hSlot hAt
    exact ⟨_, _, _, _, hItem, hNext⟩
  · rintro ⟨n, α, k, i, hItem, hNext⟩
    obtain ⟨e, he, rfl, rfl⟩ := hL.exists_mem n α hItem.mem
    have hSlot : Slot entries (e.base + k) e k := ⟨he, hItem.le_length, rfl⟩
    refine ⟨Terminal.mem_all t, e.base + k, ?_, (hL.awaitsToken t _).mpr ⟨e, k, hSlot, hNext⟩⟩
    exact (Column.testBit_union _ _).mpr ⟨i, (h.has _ _ _).mpr ⟨e, k, hSlot, hItem⟩⟩

end Grammar

open Grammar

-- ---------------------------------------------------------------------------------------------
-- Viable sequences of terminals
-- ---------------------------------------------------------------------------------------------

/-- Some sentence begins with these terminals. -/
def Viable (w : List Terminal) : Prop := ∃ v, Sentence (w ++ v)

theorem viable_nil : Viable [] := ⟨[], sentence_iff.mpr (.inl rfl)⟩

theorem Viable.of_append {u v : List Terminal} (h : Viable (u ++ v)) : Viable u := by
  obtain ⟨rest, hRest⟩ := h
  exact ⟨v ++ rest, by rwa [← List.append_assoc]⟩

theorem Sentence.viable {w : List Terminal} (h : Sentence w) : Viable w :=
  ⟨[], by rwa [List.append_nil]⟩

theorem viable_append_iff {w : List Terminal} {t : Terminal} :
    Viable (w ++ [t]) ↔ ∃ v, Derives moduleGrammar (.cat .items) (w ++ [t] ++ v) := by
  constructor
  · rintro ⟨v, hv⟩
    rcases sentence_iff.mp hv with hNil | hDerives
    · simp at hNil
    · exact ⟨v, hDerives⟩
  · rintro ⟨v, hv⟩
    exact ⟨v, sentence_iff.mpr (.inr hv)⟩

set_option maxRecDepth 100000 in
/-- Every category of modules derives something. Few need a category that is listed later, so two
looks over all categories find this out. -/
theorem moduleGrammar_productive : Productive moduleGrammar := by
  intro n
  have hAll : ∀ n ∈ Category.all, n ∈ growOver moduleGrammar.shape Category.all
      (growOver moduleGrammar.shape Category.all []) := by
    decide +kernel
  have hOnce := derives_of_growOver (G := moduleGrammar) Category.all (List.forall_mem_nil _)
  exact derives_of_growOver Category.all hOnce n (hAll n (Category.mem_all n))

section Charts

variable {chart : Chart} {w : List Terminal}

theorem next_eq_none_iff_not_viable (h : Recognized chart w) (t : Terminal) :
    chart.next moduleLayout t = none ↔ ¬ Viable (w ++ [t]) := by
  rw [next_eq_none_iff moduleLayout_facts h, viable_append_iff,
    exists_item_iff moduleGrammar_productive moduleLayout_facts.filled]

theorem mem_expected_iff_viable (h : Recognized chart w) (t : Terminal) :
    t ∈ chart.expected moduleLayout ↔ Viable (w ++ [t]) := by
  rw [mem_expected_iff moduleLayout_facts h, viable_append_iff,
    exists_item_iff moduleGrammar_productive moduleLayout_facts.filled]

open scoped Classical in
/-- The names of the terminals that can come next. -/
noncomputable def nextNames (w : List Terminal) : List Text :=
  (Terminal.all.filter fun t => Viable (w ++ [t])).map fun t => Text.ofString t.label

theorem expectedNames_eq (h : Recognized chart w) : Reader.expectedNames chart = nextNames w := by
  classical
  rw [Reader.expectedNames, nextNames]
  congr 1
  rw [Chart.expected]
  refine List.filter_congr fun t _ => ?_
  have hMem := mem_expected_iff_viable h t
  rw [Chart.expected, List.mem_filter, and_iff_right (Terminal.mem_all t), decide_eq_true_eq] at hMem
  exact decide_eq_decide.mpr hMem

end Charts

/-- No two terminals have one name. -/
theorem label_injective {a b : Terminal} (h : Text.ofString a.label = Text.ofString b.label) :
    a = b := by
  have hNodup : (Terminal.all.map Terminal.label).Nodup := by decide +kernel
  have hChar : Function.Injective CodePoint.char := fun c d hcd => by cases hcd; rfl
  have hLabel : a.label = b.label := String.toList_injective (List.map_injective_iff.mpr hChar h)
  exact List.inj_on_of_nodup_map hNodup (Terminal.mem_all a) (Terminal.mem_all b) hLabel

theorem mem_nextNames {w : List Terminal} {t : Terminal} :
    Text.ofString t.label ∈ nextNames w ↔ Viable (w ++ [t]) := by
  classical
  rw [nextNames, List.mem_map]
  constructor
  · rintro ⟨a, ha, hLabel⟩
    obtain rfl := label_injective hLabel
    exact of_decide_eq_true (List.mem_filter.mp ha).2
  · intro h
    exact ⟨t, List.mem_filter.mpr ⟨Terminal.mem_all t, decide_eq_true h⟩, rfl⟩

-- ---------------------------------------------------------------------------------------------
-- Reading
-- ---------------------------------------------------------------------------------------------

/-- `t` is the first token that cannot follow what stands before it. -/
structure FirstImpossible (tokens before : List Token) (t : Token) : Prop where
  split : ∃ after, tokens = before ++ t :: after
  viable : Viable (before.map Token.kind)
  impossible : ¬ Viable (before.map Token.kind ++ [t.kind])

/-- There is one first impossible token at most. -/
theorem FirstImpossible.unique {tokens before before' : List Token} {t t' : Token}
    (h : FirstImpossible tokens before t) (h' : FirstImpossible tokens before' t') :
    before = before' ∧ t = t' := by
  obtain ⟨after, rfl⟩ := h.split
  obtain ⟨after', hEq⟩ := h'.split
  -- if one split is longer, it has the impossible token of the other in what is viable
  rcases List.append_eq_append_iff.mp hEq with ⟨c, rfl, hc⟩ | ⟨c, rfl, hc⟩
  · cases c with
    | nil =>
      rw [List.nil_append] at hc
      exact ⟨(List.append_nil _).symm, (List.cons.inj hc).1⟩
    | cons d c =>
      obtain ⟨rfl, -⟩ := List.cons.inj hc
      refine absurd (Viable.of_append (v := c.map Token.kind) ?_) h.impossible
      simpa using h'.viable
  · cases c with
    | nil =>
      rw [List.nil_append] at hc
      exact ⟨List.append_nil _, (List.cons.inj hc).1.symm⟩
    | cons d c =>
      obtain ⟨rfl, -⟩ := List.cons.inj hc
      refine absurd (Viable.of_append (v := c.map Token.kind) ?_) h'.impossible
      simpa using h.viable

/-- Matching goes through on what is viable, and otherwise reports the first impossible token. -/
theorem recognize_cases {chart : Chart} (before tokens : List Token)
    (h : Recognized chart (before.map Token.kind)) (hViable : Viable (before.map Token.kind)) :
    (∃ final, Reader.recognize chart tokens = .ok final ∧
      Recognized final ((before ++ tokens).map Token.kind) ∧
      Viable ((before ++ tokens).map Token.kind)) ∨
    ∃ read t, FirstImpossible (before ++ tokens) read t ∧
      Reader.recognize chart tokens =
        .error (.unexpectedToken t (nextNames (read.map Token.kind))) := by
  induction tokens generalizing chart before with
  | nil => exact .inl ⟨chart, rfl, by simpa using h, by simpa using hViable⟩
  | cons t tokens ih =>
    cases hNext : chart.next moduleLayout t.kind with
    | none =>
      have hImpossible := (next_eq_none_iff_not_viable h t.kind).mp hNext
      refine .inr ⟨before, t, ⟨⟨tokens, rfl⟩, hViable, hImpossible⟩, ?_⟩
      rw [Reader.recognize, hNext, expectedNames_eq h]
    | some column =>
      have hPush : Recognized (chart.push column) ((before ++ [t]).map Token.kind) := by
        rw [List.map_append]
        exact represents_next moduleLayout_facts h hNext
      have hMore : Viable ((before ++ [t]).map Token.kind) := by
        rw [List.map_append]
        by_contra hNot
        rw [(next_eq_none_iff_not_viable h t.kind).mpr hNot] at hNext
        cases hNext
      have hRun : Reader.recognize chart (t :: tokens) =
          Reader.recognize (chart.push column) tokens := by
        rw [Reader.recognize, hNext]
      have hRest := ih _ hPush hMore
      rwa [List.append_assoc, List.singleton_append, ← hRun] at hRest

/-- What matching the tokens of a source comes to. -/
theorem syntaxTree_cases (source : Text) (lexing : Lexing) :
    (∃ read t, FirstImpossible lexing.statements read t ∧ Reader.syntaxTree source lexing =
        .error (.unexpectedToken t (nextNames (read.map Token.kind)))) ∨
    (Viable (lexing.statements.map Token.kind) ∧
      ((∃ place, lexing.failure = some place ∧
          Reader.syntaxTree source lexing = .error (.unexpectedCharacter place source)) ∨
        (lexing.failure = none ∧ Sentence (lexing.statements.map Token.kind) ∧
          ∃ tree, Reader.syntaxTree source lexing = .ok tree) ∨
        (lexing.failure = none ∧ ¬ Sentence (lexing.statements.map Token.kind) ∧
          Reader.syntaxTree source lexing =
            .error (.unexpectedEnd (nextNames (lexing.statements.map Token.kind)))))) := by
  rcases recognize_cases [] lexing.statements recognized_start viable_nil with
    ⟨chart, hRun, hChart, hViable⟩ | ⟨read, t, hFirst, hRun⟩
  · refine .inr ⟨hViable, ?_⟩
    rw [List.nil_append] at hChart
    cases hFailure : lexing.failure with
    | some place =>
      refine .inl ⟨place, rfl, ?_⟩
      simp only [Reader.syntaxTree, hRun, hFailure, bind, Except.bind]
    | none =>
      refine .inr ?_
      by_cases hSentence : Sentence (lexing.statements.map Token.kind)
      · refine .inl ⟨rfl, hSentence, ?_⟩
        rcases sentence_iff.mp hSentence with hNil | hDerives
        · have hEmpty := List.map_eq_nil_iff.mp hNil
          refine ⟨none, ?_⟩
          simp only [Reader.syntaxTree, hRun, hFailure, bind, Except.bind]
          rw [hEmpty]
          rfl
        · obtain ⟨tree, hTree⟩ := syntaxTree_of_derives source hFailure hDerives
          exact ⟨some tree, hTree⟩
      · refine .inr ⟨rfl, hSentence, ?_⟩
        cases hTree : Reader.syntaxTree source lexing with
        | ok tree =>
          -- a tree would derive its tokens
          obtain ⟨-, hTokens⟩ := syntaxTree_eq_ok hTree
          refine absurd (sentence_iff.mpr ?_) hSentence
          cases tree with
          | none => exact .inl (by rw [← hTokens]; rfl)
          | some tree => exact .inr ⟨tree, by rw [← hTokens]; rfl⟩
        | error e =>
          simp only [Reader.syntaxTree, hRun, hFailure, bind, Except.bind] at hTree
          rw [← expectedNames_eq hChart]
          split at hTree
          · cases hTree
          · split at hTree
            · split at hTree <;> cases hTree
              rfl
            · cases hTree
              rfl
  · refine .inl ⟨read, t, by simpa using hFirst, ?_⟩
    simp only [Reader.syntaxTree, hRun, bind, Except.bind]

theorem FirstImpossible.not_viable {tokens before : List Token} {t : Token}
    (h : FirstImpossible tokens before t) : ¬ Viable (tokens.map Token.kind) := by
  intro hViable
  obtain ⟨after, rfl⟩ := h.split
  refine h.impossible (Viable.of_append (v := after.map Token.kind) ?_)
  simpa using hViable

/-- Reading a source gets past its syntax exactly when the source is scanned to its end and its
terminals, with the ends of statements inserted, are a sentence of the language. -/
theorem syntaxTree_ok_iff_sentence (source : Text) :
    (∃ tree, Reader.syntaxTree source (lex source) = .ok tree) ↔
      (lex source).failure = none ∧ Sentence ((lex source).statements.map Token.kind) := by
  rcases syntaxTree_cases source (lex source) with
    ⟨read, t, hFirst, hTree⟩ | ⟨-, ⟨place, hPlace, hTree⟩ | ⟨hNone, hSentence, hTree⟩ |
      ⟨-, hNot, hTree⟩⟩
  · have hNot : ¬ Sentence ((lex source).statements.map Token.kind) := fun hSentence =>
      hFirst.not_viable hSentence.viable
    simp [hTree, hNot]
  · simp [hTree, hPlace]
  · exact ⟨fun _ => ⟨hNone, hSentence⟩, fun _ => hTree⟩
  · simp [hTree, hNot]

theorem unexpectedToken_iff {source : Text} {lexing : Lexing} {t : Token} {expected : List Text} :
    Reader.syntaxTree source lexing = .error (.unexpectedToken t expected) ↔
      ∃ before, FirstImpossible lexing.statements before t ∧
        expected = nextNames (before.map Token.kind) := by
  rcases syntaxTree_cases source lexing with
    ⟨read, t', hFirst, hTree⟩ | ⟨hViable, hTree⟩
  · rw [hTree]
    constructor
    · intro h
      cases h
      exact ⟨read, hFirst, rfl⟩
    · rintro ⟨before, hFirst', rfl⟩
      obtain ⟨rfl, rfl⟩ := hFirst.unique hFirst'
      rfl
  · constructor
    · intro h
      rcases hTree with ⟨place, -, hTree⟩ | ⟨-, -, tree, hTree⟩ | ⟨-, -, hTree⟩ <;>
        · rw [hTree] at h
          cases h
    · rintro ⟨before, hFirst, -⟩
      exact absurd hViable hFirst.not_viable

theorem unexpectedEnd_iff {source : Text} {lexing : Lexing} {expected : List Text} :
    Reader.syntaxTree source lexing = .error (.unexpectedEnd expected) ↔
      lexing.failure = none ∧ Viable (lexing.statements.map Token.kind) ∧
        ¬ Sentence (lexing.statements.map Token.kind) ∧
        expected = nextNames (lexing.statements.map Token.kind) := by
  rcases syntaxTree_cases source lexing with
    ⟨read, t, hFirst, hTree⟩ | ⟨hViable, ⟨place, hPlace, hTree⟩ | ⟨-, hSentence, tree, hTree⟩ |
      ⟨hNone, hNot, hTree⟩⟩
  · simp [hTree, hFirst.not_viable]
  · simp [hTree, hPlace]
  · simp [hTree, hSentence]
  · simp [hTree, hNone, hViable, hNot, eq_comm]

theorem unexpectedCharacter_iff {source text : Text} {lexing : Lexing} {place : Place} :
    Reader.syntaxTree source lexing = .error (.unexpectedCharacter place text) ↔
      lexing.failure = some place ∧ text = source ∧
        Viable (lexing.statements.map Token.kind) := by
  rcases syntaxTree_cases source lexing with
    ⟨read, t, hFirst, hTree⟩ | ⟨hViable, ⟨place', hPlace, hTree⟩ | ⟨hNone, -, tree, hTree⟩ |
      ⟨hNone, -, hTree⟩⟩
  · simp [hTree, hFirst.not_viable]
  · simp [hTree, hPlace, hViable, eq_comm]
  · simp [hTree, hNone]
  · simp [hTree, hNone]

/-- Reading a source stops with an error of syntax, before anything is built. -/
def StopsWith (source : Text) (file : Option Text) (e : SyntaxError) : Prop :=
  Reader.syntaxTree source (lex source) = .error e ∧
    parseModule source file = .error (.syntaxError e)

theorem stopsWith_iff {source : Text} {file : Option Text} {e : SyntaxError} :
    StopsWith source file e ↔ Reader.syntaxTree source (lex source) = .error e := by
  refine ⟨And.left, fun h => ⟨h, ?_⟩⟩
  simp only [parseModule, h, Except.mapError, bind, Except.bind]

/-- The errors of syntax are exact. A token is reported exactly when it is the first that leaves the
beginnings of sentences, with the names of all terminals that would not have; the end of the source
is reported exactly when the source begins a sentence and is none; and a character is reported
exactly when no token begins there and the tokens before it begin a sentence. -/
theorem syntax_errors_are_exact (source : Text) (file : Option Text) :
    (∀ t expected, StopsWith source file (.unexpectedToken t expected) ↔
      ∃ before, FirstImpossible (lex source).statements before t ∧
        expected = nextNames (before.map Token.kind)) ∧
    (∀ expected, StopsWith source file (.unexpectedEnd expected) ↔
      (lex source).failure = none ∧ Viable ((lex source).statements.map Token.kind) ∧
        ¬ Sentence ((lex source).statements.map Token.kind) ∧
        expected = nextNames ((lex source).statements.map Token.kind)) ∧
    (∀ place text, StopsWith source file (.unexpectedCharacter place text) ↔
      (lex source).failure = some place ∧ text = source ∧
        Viable ((lex source).statements.map Token.kind)) ∧
    (∀ w t, Text.ofString t.label ∈ nextNames w ↔ Viable (w ++ [t])) := by
  refine ⟨fun t expected => ?_, fun expected => ?_, fun place text => ?_, fun w t => mem_nextNames⟩
  · rw [stopsWith_iff, unexpectedToken_iff]
  · rw [stopsWith_iff, unexpectedEnd_iff]
  · rw [stopsWith_iff, unexpectedCharacter_iff]

end ClientBoundary
