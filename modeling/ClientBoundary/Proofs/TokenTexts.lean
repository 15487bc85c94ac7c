import ClientBoundary.Proofs.ItemComments
import ClientBoundary.Proofs.PatternLocality
import ClientBoundary.Proofs.PrintedComments

/-!
# The texts of tokens

What the kind of a token says about its text. An operator is written in one of its fixed spellings,
the chunks of a template stand between the marks that open and end them, and a string in a tag
stands between two quotes of one kind.

* `ChunkText` — a text in which a backtick, and a `$` before a brace, is preceded by an odd number
  of backslashes; this is what a chunk of a template holds (`take_templateChunk`).
* `admits_statements` — the tokens that the grammar is matched against have texts that their kinds
  admit.
-/

namespace ClientBoundary

-- ---------------------------------------------------------------------------------------------
-- Chunks of templates
-- ---------------------------------------------------------------------------------------------

/-- How many backslashes a text ends with. -/
def Text.backslashes (t : Text) : Nat := (t.reverse.takeWhile (· = .char '\\')).length

/-- A text begins with a mark that ends a chunk: a backtick, or a `$` and a brace. -/
def Text.BeginsMark (t : Text) : Prop :=
  t.head? = some (.char '\x60') ∨
    (t.head? = some (.char '$') ∧ t.tail.head? = some (.char '\x7b'))

/-- Each mark in a text that could end a chunk has an odd number of backslashes before it, so that
the last of them escapes it. -/
def ChunkText (q : Text) : Prop :=
  ∀ before rest, q = before ++ rest → rest.BeginsMark → before.backslashes % 2 = 1

theorem backslashes_cons (c : CodePoint) (t : Text) :
    Text.backslashes (c :: t) = t.backslashes +
      if t.backslashes = t.length ∧ c = .char '\\' then 1 else 0 := by
  unfold Text.backslashes
  rw [List.reverse_cons, List.takeWhile_append, List.length_reverse]
  by_cases hAll : (t.reverse.takeWhile (· = .char '\\')).length = t.length
  · by_cases hc : c = .char '\\'
    · simp [hAll, hc]
    · simp [hAll, hc]
  · simp [hAll]

/-- A backslash and the code point after it do not change what the backslashes further on mean. -/
theorem backslashes_escape (c : CodePoint) (t : Text) :
    Text.backslashes (.char '\\' :: c :: t) % 2 = t.backslashes % 2 := by
  have hLe : t.backslashes ≤ t.length := by
    unfold Text.backslashes
    have := List.IsPrefix.length_le (List.takeWhile_prefix (l := t.reverse) (· = .char '\\'))
    rwa [List.length_reverse] at this
  rw [backslashes_cons, backslashes_cons, List.length_cons]
  by_cases hBoth : t.backslashes = t.length ∧ c = .char '\\'
  · rw [if_pos hBoth, if_pos ⟨by omega, rfl⟩]
    omega
  · rw [if_neg hBoth, if_neg (by omega)]
    rfl

theorem chunkText_nil : ChunkText [] := by
  intro before rest hSplit hMark
  obtain ⟨-, rfl⟩ := List.append_eq_nil_iff.mp hSplit.symm
  simp [Text.BeginsMark] at hMark

theorem chunkText_cons {c : CodePoint} {q : Text} (hSlash : c ≠ .char '\\')
    (hMark : ¬ Text.BeginsMark (c :: q)) (h : ChunkText q) : ChunkText (c :: q) := by
  intro before rest hSplit hBegins
  cases before with
  | nil =>
    rw [List.nil_append] at hSplit
    exact absurd (hSplit ▸ hBegins) hMark
  | cons b before =>
    obtain ⟨rfl, hRest⟩ := List.cons.inj hSplit
    rw [backslashes_cons, if_neg fun hBoth => hSlash hBoth.2]
    exact h before rest hRest hBegins

theorem chunkText_escape (c : CodePoint) {q : Text} (h : ChunkText q) :
    ChunkText (.char '\\' :: c :: q) := by
  intro before rest hSplit hBegins
  match before, hSplit with
  | [], hSplit =>
    rw [List.nil_append] at hSplit
    rw [← hSplit] at hBegins
    simp [Text.BeginsMark] at hBegins
  | [b], hSplit =>
    obtain ⟨rfl, -⟩ := List.cons.inj hSplit
    rfl
  | b :: b' :: before, hSplit =>
    simp only [List.cons_append, List.cons.injEq] at hSplit
    obtain ⟨rfl, rfl, hRest⟩ := hSplit
    rw [backslashes_escape]
    exact h before rest hRest hBegins

/-- The mark that ends a chunk of a template. -/
def Pattern.ChunkEnd.mark : Pattern.ChunkEnd → Text
  | .closed => "\x60"
  | .opened => "$\x7b"

theorem take_templateChunk {t : Text} {r : Pattern.ChunkEnd × Nat}
    (h : Pattern.templateChunk t = some r) :
    ∃ body, ChunkText body ∧ t.take r.2 = body ++ r.1.mark := by
  fun_induction Pattern.templateChunk t generalizing r with
  | case1 => cases h
  | case2 =>
    cases h
    exact ⟨[], chunkText_nil, rfl⟩
  | case3 =>
    cases h
    exact ⟨[], chunkText_nil, rfl⟩
  | case4 => cases h
  | case5 c t ih =>
    obtain ⟨r', hr', rfl⟩ := Option.map_eq_some_iff.mp h
    obtain ⟨body, hBody, hTake⟩ := ih hr'
    refine ⟨.char '\\' :: c :: body, chunkText_escape c hBody, ?_⟩
    rw [List.take_succ_cons, List.take_succ_cons, hTake]
    rfl
  | case6 c t hTick hDollar hEnd hSlash ih =>
    obtain ⟨r', hr', rfl⟩ := Option.map_eq_some_iff.mp h
    obtain ⟨body, hBody, hTake⟩ := ih hr'
    refine ⟨c :: body, chunkText_cons ?_ ?_ hBody, ?_⟩
    · rintro rfl
      cases t with
      | nil => exact hEnd rfl rfl
      | cons d t => exact hSlash d t rfl rfl
    · rintro (hBegins | ⟨hFirst, hSecond⟩)
      · exact hTick (Option.some.inj hBegins)
      · -- the brace after the `$` would stand in the source as well
        obtain ⟨tail, rfl⟩ := List.head?_eq_some_iff.mp hSecond
        obtain ⟨t', ht⟩ : ∃ t', t = .char '\x7b' :: t' := by
          cases t with
          | nil => simp at hTake
          | cons d t' =>
            cases hLen : r'.2 with
            | zero => simp [hLen] at hTake
            | succ n =>
              rw [hLen, List.take_succ_cons, List.cons_append] at hTake
              exact ⟨t', by rw [(List.cons.inj hTake).1]⟩
        exact hDollar t' (Option.some.inj hFirst) ht
    · rw [List.take_succ_cons, hTake]
      rfl

-- ---------------------------------------------------------------------------------------------
-- What a kind says about the text
-- ---------------------------------------------------------------------------------------------

/-- The spellings of a terminal that has fixed ones. -/
def Terminal.fixedTexts (k : Terminal) : List Text :=
  ((Terminal.spellings ++ Terminal.words).filter (·.2 = k)).map fun s => Text.ofString s.1

/-- The binary operators. -/
def Terminal.isBinary : Terminal → Bool
  | .orOp | .nullish | .andOp | .pipe | .caret | .amp | .eqOp | .relOp | .kwIn | .kwInstanceof
  | .shiftOp | .addOp | .star | .mulOp => true
  | _ => false

/-- A chunk between the code point that opens it and the mark that ends it. -/
def Text.IsChunk (t : Text) (opening : Char) (last : Pattern.ChunkEnd) : Prop :=
  ∃ body, ChunkText body ∧ t = .char opening :: (body ++ last.mark)

/-- What a token of a kind may be written as, as far as the tree of a module depends on it. -/
def Terminal.Admits (k : Terminal) (text : Text) : Prop :=
  match k with
  | .template => text.IsChunk '\x60' .closed
  | .tplHead => text.IsChunk '\x60' .opened
  | .tplMiddle => text.IsChunk '\x7d' .opened
  | .tplTail => text.IsChunk '\x7d' .closed
  | .jsxString => ∃ quote body, text = .char quote :: (body ++ [.char quote])
  | k => k.isBinary = true → text ∈ k.fixedTexts

namespace Lexer

/-- What the kind of a lexeme says about its text. -/
def Admitted (text : Text) : LexemeKind → Prop
  | .token k => k.Admits text
  | _ => True

theorem take_jsxStringRest {quote : Char} {t : Text} {n : Nat}
    (h : Pattern.jsxStringRest quote t = some n) :
    ∃ body, t.take n = body ++ [.char quote] := by
  fun_induction Pattern.jsxStringRest quote t generalizing n with
  | case1 => cases h
  | case2 t =>
    cases h
    exact ⟨[], rfl⟩
  | case3 c t hc ih =>
    obtain ⟨m, hm, rfl⟩ := Option.map_eq_some_iff.mp h
    obtain ⟨body, hBody⟩ := ih hm
    exact ⟨c :: body, by rw [List.take_succ_cons, hBody]; rfl⟩

theorem admits_jsxString {t : Text} {n : Nat} (h : Pattern.jsxString t = some n) :
    Terminal.jsxString.Admits (t.take n) := by
  unfold Pattern.jsxString at h
  split at h
  all_goals first | cases h | skip
  all_goals
    obtain ⟨m, hm, rfl⟩ := Option.map_eq_some_iff.mp h
    obtain ⟨body, hBody⟩ := take_jsxStringRest hm
    exact ⟨_, body, by rw [List.take_succ_cons, hBody]⟩

theorem admits_ofWord (w : Text) : (Terminal.ofWord w).Admits w := by
  unfold Terminal.ofWord
  split
  · rename_i p hFind
    have hWord : Text.ofString p.1 = w := by simpa using List.find?_some hFind
    have hMem := List.mem_of_find?_eq_some hFind
    have hFixed : w ∈ p.2.fixedTexts := by
      refine List.mem_map.mpr ⟨p, List.mem_filter.mpr ⟨List.mem_append_right _ hMem, ?_⟩, hWord⟩
      exact decide_eq_true rfl
    have hKinds : ∀ p ∈ Terminal.words, p.2 ≠ .template ∧ p.2 ≠ .tplHead ∧ p.2 ≠ .tplMiddle ∧
        p.2 ≠ .tplTail ∧ p.2 ≠ .jsxString := by decide
    have := hKinds p hMem
    unfold Terminal.Admits
    split <;> simp_all
  · exact nofun

theorem admits_spelling {t : Text} {r : Terminal × Nat} (h : Pattern.spelling t = some r) :
    r.1.Admits (t.take r.2) := by
  obtain ⟨s, hFind, rfl⟩ := Option.map_eq_some_iff.mp h
  have hStarts : Text.ofString s.1 <+: t := Pattern.startsWith_iff.mp
    (List.find?_some (p := fun a : String × Terminal => t.startsWith (Text.ofString a.1)) hFind)
  have hLength : s.1.length = (Text.ofString s.1).length := by
    rw [Text.ofString, List.length_map, String.length_toList]
  rw [hLength, ← List.prefix_iff_eq_take.mp hStarts]
  have hMem := List.mem_of_find?_eq_some hFind
  have hFixed : Text.ofString s.1 ∈ s.2.fixedTexts :=
    List.mem_map.mpr ⟨s, List.mem_filter.mpr ⟨List.mem_append_left _ hMem, decide_eq_true rfl⟩, rfl⟩
  have hKinds : ∀ p ∈ Terminal.spellings, p.2 ≠ .template ∧ p.2 ≠ .tplHead ∧ p.2 ≠ .tplMiddle ∧
      p.2 ≠ .tplTail ∧ p.2 ≠ .jsxString := by decide
  have := hKinds s hMem
  unfold Terminal.Admits
  split <;> simp_all

theorem admitted_scanCode (t : Text) : ∀ r, scanCode t = some r → Admitted (t.take r.2) r.1 := by
  refine forall_orElse (forall_map fun n _ => nofun) ?_
  refine forall_orElse (forall_map fun n _ => nofun) ?_
  refine forall_orElse (forall_map fun n _ => admits_ofWord _) ?_
  refine forall_orElse (forall_map fun n _ => trivial) ?_
  refine forall_orElse (forall_map fun n _ => trivial) ?_
  refine forall_orElse (forall_map fun n _ => trivial) ?_
  exact forall_map fun r h => admits_spelling h

theorem admitted_plainStep (frame : CodeFrame) (depth : Int) (below : List Mode) (t : Text) :
    ∀ r, plainStep frame depth below t = some r → Admitted (t.take r.2.1) r.1 :=
  forall_map (admitted_scanCode t)

theorem admitted_templateStep (closed opened : Terminal) (opening : Char) (below : List Mode)
    (rest : Text) (hClosed : ∀ t : Text, t.IsChunk opening .closed → closed.Admits t)
    (hOpened : ∀ t : Text, t.IsChunk opening .opened → opened.Admits t) :
    ∀ r, templateStep closed opened below rest = some r →
      Admitted ((.char opening :: rest : Text).take r.2.1) r.1 := by
  refine forall_map ?_
  rintro ⟨_ | _, n⟩ h
  · obtain ⟨body, hBody, hTake⟩ := take_templateChunk h
    exact hClosed _ ⟨body, hBody, by rw [List.take_succ_cons, hTake]⟩
  · obtain ⟨body, hBody, hTake⟩ := take_templateChunk h
    exact hOpened _ ⟨body, hBody, by rw [List.take_succ_cons, hTake]⟩

theorem admitted_regexOrPlain (isRegex : Bool) (frame : CodeFrame) (depth : Int)
    (below : List Mode) (t : Text) (r : LexemeKind × Nat × List Mode)
    (h : (if isRegex then (Pattern.regex t).map fun n =>
        (LexemeKind.token .regex, n, Mode.code frame depth :: below)
      else plainStep frame depth below t) = some r) : Admitted (t.take r.2.1) r.1 := by
  split at h
  · obtain ⟨n, hn, rfl⟩ := Option.map_eq_some_iff.mp h
    exact nofun
  · exact admitted_plainStep _ _ _ _ r h

theorem admitted_codeStep (s : Lexer) (frame : CodeFrame) (depth : Int) (below : List Mode)
    (t : Text) : ∀ r, s.codeStep frame depth below t = some r → Admitted (t.take r.2.1) r.1 := by
  intro r h
  unfold codeStep at h
  split at h
  · exact admitted_regexOrPlain _ _ _ _ _ r h
  · split at h
    · cases h
      exact nofun
    · exact admitted_plainStep _ _ _ _ r h
  · exact admitted_templateStep .template .tplHead '\x60' _ _ (fun _ h => h) (fun _ h => h) r h
  · split at h
    · exact admitted_plainStep _ _ _ _ r h
    · split at h
      · cases h
        exact nofun
      · exact admitted_plainStep _ _ _ _ r h
    · split at h
      · exact admitted_templateStep .tplTail .tplMiddle '\x7d' _ _ (fun _ h => h) (fun _ h => h) r h
      · exact admitted_plainStep _ _ _ _ r h
  · exact admitted_plainStep _ _ _ _ r h

theorem admitted_tagStep (role : TagRole) (seen : Nat) (below : List Mode) (t : Text) :
    ∀ r, tagStep role seen below t = some r → Admitted (t.take r.2.1) r.1 := by
  intro r h
  unfold tagStep at h
  dsimp only at h
  split at h
  · cases h
    trivial
  split at h
  · cases h
    trivial
  split at h
  · cases h
    trivial
  split at h
  case h_8 =>
    revert r
    exact forall_orElse (forall_map fun n h => admits_jsxString h) (forall_map fun n _ => nofun)
  all_goals
    cases h
    exact nofun

theorem admitted_childrenStep (below : List Mode) (t : Text) :
    ∀ r, childrenStep below t = some r → Admitted (t.take r.2.1) r.1 := by
  intro r h
  unfold childrenStep at h
  split at h
  · cases h
    exact nofun
  · cases h
    exact nofun
  · revert r
    exact forall_map fun n _ => nofun

theorem admitted_of_step {s s' : Lexer} {t : Text} {kind : LexemeKind} {n : Nat}
    (h : s.step t = some (kind, n, s')) : Admitted (t.take n) kind := by
  obtain ⟨r, hr, hEq⟩ := Option.map_eq_some_iff.mp h
  cases hEq
  split at hr
  · cases hr
  · exact admitted_codeStep _ _ _ _ _ r hr
  · exact admitted_tagStep _ _ _ _ r hr
  · exact admitted_childrenStep _ _ r hr

end Lexer

/-- The text of every token of a source is one that its kind admits. -/
theorem admits_tokens (source : Text) : ∀ t ∈ (lex source).tokens, t.kind.Admits t.text := by
  intro t ht
  obtain ⟨l, hMem, hToken⟩ := List.mem_filterMap.mp ht
  have hCut : l.CutFrom source := cutFrom_of_mem _ rfl l hMem
  obtain ⟨s, s', n, hStep, hText⟩ := hCut.taken
  have hAdmitted := Lexer.admitted_of_step hStep
  rw [← hText] at hAdmitted
  unfold Lexeme.token? at hToken
  split at hToken
  · rename_i k hKind
    rw [hKind] at hAdmitted
    cases hToken
    exact hAdmitted
  · cases hToken

theorem admits_statements {source : Text} (hLexed : (lex source).failure = none) :
    ∀ t ∈ (lex source).statements, t.kind.Admits t.text := by
  rw [Lexing.statements_eq_put hLexed]
  exact Insertion.forall_put (fun _ _ h => nomatch h) (admits_tokens source) nofun nofun

end ClientBoundary
