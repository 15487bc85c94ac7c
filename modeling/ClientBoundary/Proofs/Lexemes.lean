import ClientBoundary.Token.Terminators
import Mathlib.Data.List.Basic

/-!
# Lexemes and tokens in order

The lexemes of a source lie side by side from its start on, and none is empty (`tiling_lex`); this
needs of the patterns no more than that each match takes at least one code point. The tokens of a
source are therefore in order, and so are the tokens that the grammar is matched against, up to the
places of the inserted terminators (`inOrder_statements`): a terminator before a brace has the
place of that brace, and the one at the end has the place of the last token.
-/

namespace ClientBoundary

-- ---------------------------------------------------------------------------------------------
-- Matches
-- ---------------------------------------------------------------------------------------------

namespace Pattern

theorem pos_of_longer {k n : Nat} {m : Option Nat} (hk : 0 < k) (h : longer k m = some n) :
    0 < n := by
  obtain ⟨l, _, rfl⟩ := Option.map_eq_some_iff.mp h
  omega

theorem pos_of_nonempty {k n : Nat} (h : nonempty k = some n) : 0 < n := by
  unfold nonempty at h
  split at h
  · cases h
  · cases h
    omega

/-- A run goes as far as its condition holds. -/
theorem head_drop_run (q : CodePoint → Bool) (t : Text) :
    ∀ c ∈ (t.drop (run q t)).head?, q c = false := by
  induction t with
  | nil => exact fun c hc => by cases hc
  | cons d t ih =>
    rw [run]
    split
    · exact ih
    · rename_i hd
      intro c hc
      cases hc
      exact Bool.eq_false_iff.mpr hd

theorem all_take_run (q : CodePoint → Bool) (t : Text) : ∀ c ∈ t.take (run q t), q c = true := by
  induction t with
  | nil => exact List.forall_mem_nil _
  | cons d t ih =>
    rw [run]
    split
    · rename_i hd
      exact List.forall_mem_cons.mpr ⟨hd, ih⟩
    · exact List.forall_mem_nil _

theorem forall_take_nonempty {p : CodePoint → Bool} {t : Text} {n : Nat}
    (h : nonempty (run p t) = some n) : ∀ c ∈ t.take n, p c = true := by
  unfold nonempty at h
  split at h
  · cases h
  · cases h
    exact all_take_run p t

theorem pos_of_mantissa {t : Text} {n : Nat} (h : mantissa t = some n) : 0 < n := by
  unfold mantissa at h
  split at h
  · split at h
    · exact pos_of_longer Nat.one_pos h
    · cases h
  · rename_i hRun
    split at h
    · cases h
      omega
    · cases h
      exact Nat.pos_of_ne_zero hRun

theorem pos_of_number {t : Text} {n : Nat} (h : number t = some n) : 0 < n := by
  rcases Option.or_eq_some_iff.mp h with h | ⟨_, h⟩
  · unfold hexNumber at h
    split at h
    · split at h
      · exact pos_of_longer Nat.two_pos h
      · cases h
    · cases h
  · obtain ⟨m, hm, rfl⟩ := Option.map_eq_some_iff.mp h
    exact Nat.add_pos_left (pos_of_mantissa hm) _

theorem pos_of_string {t : Text} {n : Nat} (h : string t = some n) : 0 < n := by
  unfold string at h
  split at h
  · exact pos_of_longer Nat.one_pos h
  · exact pos_of_longer Nat.one_pos h
  · cases h

theorem pos_of_name {t : Text} {n : Nat} (h : name t = some n) : 0 < n := by
  unfold name at h
  split at h
  · split at h
    · cases h
      exact Nat.succ_pos _
    · cases h
  · cases h

theorem blockRest_cons {c : CodePoint} {t : Text}
    (h : ¬ (c = .char '*' ∧ t.head? = some (.char '/'))) :
    blockRest (c :: t) = longer 1 (blockRest t) := by
  rw [blockRest]
  rintro t' rfl rfl
  exact h ⟨rfl, rfl⟩

theorem pos_of_blockRest {t : Text} {n : Nat} (h : blockRest t = some n) : 0 < n := by
  unfold blockRest at h
  split at h
  · cases h
  · cases h
    exact Nat.two_pos
  · exact pos_of_longer Nat.one_pos h

theorem pos_of_blockComment {t : Text} {n : Nat} (h : blockComment t = some n) : 0 < n := by
  unfold blockComment at h
  split at h
  · exact pos_of_longer Nat.two_pos h
  · cases h

theorem pos_of_lineComment {t : Text} {n : Nat} (h : lineComment t = some n) : 0 < n := by
  unfold lineComment at h
  split at h
  · cases h
    omega
  · cases h

theorem pos_of_spelling {t : Text} {r : Terminal × Nat} (h : spelling t = some r) : 0 < r.2 := by
  obtain ⟨s, hs, rfl⟩ := Option.map_eq_some_iff.mp h
  have hAll : ∀ s ∈ Terminal.spellings, 0 < s.1.length := by decide
  exact hAll s (List.mem_of_find?_eq_some hs)

theorem pos_of_regex {t : Text} {n : Nat} (h : regex t = some n) : 0 < n := by
  unfold regex at h
  split at h
  · split at h
    · cases h
    · cases h
    · cases h
      omega
  · cases h

theorem pos_of_jsxString {t : Text} {n : Nat} (h : jsxString t = some n) : 0 < n := by
  unfold jsxString at h
  split at h
  · exact pos_of_longer Nat.one_pos h
  · exact pos_of_longer Nat.one_pos h
  · cases h

theorem pos_of_jsxName {t : Text} {n : Nat} (h : jsxName t = some n) : 0 < n := by
  unfold jsxName at h
  split at h
  · split at h
    · cases h
      exact Nat.succ_pos _
    · cases h
  · cases h

theorem exists_of_lineComment {t : Text} {n : Nat} (h : lineComment t = some n) :
    ∃ t', t = .char '/' :: .char '/' :: t' := by
  unfold lineComment at h
  split at h
  · exact ⟨_, rfl⟩
  · cases h

theorem exists_of_blockComment {t : Text} {n : Nat} (h : blockComment t = some n) :
    ∃ t', t = .char '/' :: .char '*' :: t' := by
  unfold blockComment at h
  split at h
  · exact ⟨_, rfl⟩
  · cases h

/-- A line comment ends at a line feed or at the end of the text. -/
theorem head_drop_lineComment {t : Text} {n : Nat} (h : lineComment t = some n) :
    ∀ c ∈ (t.drop n).head?, c = .char '\n' := by
  obtain ⟨t', rfl⟩ := exists_of_lineComment h
  cases h
  intro c hc
  simpa using head_drop_run (· ≠ .char '\n') t' c hc

end Pattern

/-- A line comment holds no line feed. -/
theorem take_lineComment {t : Text} {n : Nat} (h : Pattern.lineComment t = some n) :
    ∃ inner, t.take n = Text.ofString "//" ++ inner ∧ .char '\n' ∉ inner := by
  obtain ⟨rest, rfl⟩ := Pattern.exists_of_lineComment h
  cases h
  refine ⟨rest.take (Pattern.run (· ≠ .char '\n') rest), ?_, ?_⟩
  · rw [List.take_succ_cons, List.take_succ_cons]
    rfl
  · intro hMem
    have hNot := Pattern.all_take_run (· ≠ .char '\n') rest _ hMem
    simp at hNot

/-- The mark that ends a block comment stands at the end of the text and nowhere before. -/
def FirstEnd (text : Text) : Prop :=
  ∀ before after, text = before ++ Text.ofString "*/" ++ after → after = []

theorem firstEnd_mark : FirstEnd (Text.ofString "*/") := by
  intro before after h
  have hLength := congrArg List.length h
  rw [List.length_append, List.length_append] at hLength
  exact List.eq_nil_of_length_eq_zero (by omega)

theorem FirstEnd.cons {c : CodePoint} {text : Text} (h : FirstEnd text)
    (hNot : ¬ (c = .char '*' ∧ text.head? = some (.char '/'))) : FirstEnd (c :: text) := by
  intro before after hSplit
  cases before with
  | nil =>
    obtain ⟨hStar, hRest⟩ := List.cons.inj hSplit
    exact absurd ⟨hStar, by rw [hRest]; rfl⟩ hNot
  | cons d before => exact h before after (List.cons.inj hSplit).2

theorem take_blockRest {t : Text} {n : Nat} (h : Pattern.blockRest t = some n) :
    ∃ inner, t.take n = inner ++ Text.ofString "*/" ∧ FirstEnd (inner ++ Text.ofString "*/") := by
  induction t generalizing n with
  | nil => cases h
  | cons c t ih =>
    by_cases hEnd : c = .char '*' ∧ t.head? = some (.char '/')
    · obtain ⟨rfl, hHead⟩ := hEnd
      obtain ⟨t, rfl⟩ := List.head?_eq_some_iff.mp hHead
      cases h
      exact ⟨[], rfl, firstEnd_mark⟩
    · rw [Pattern.blockRest_cons hEnd] at h
      obtain ⟨m, hm, rfl⟩ := Option.map_eq_some_iff.mp h
      obtain ⟨inner, hInner, hFirst⟩ := ih hm
      refine ⟨c :: inner, by rw [List.take_succ_cons, hInner, List.cons_append], hFirst.cons ?_⟩
      rintro ⟨hStar, hSlash⟩
      refine hEnd ⟨hStar, ?_⟩
      rwa [← hInner, List.head?_take, if_neg (Nat.ne_of_gt (Pattern.pos_of_blockRest hm))] at hSlash

/-- A block comment ends at the first end mark. -/
theorem take_blockComment {t : Text} {n : Nat} (h : Pattern.blockComment t = some n) :
    ∃ inner, t.take n = Text.ofString "/*" ++ inner ++ Text.ofString "*/" ∧
      FirstEnd (inner ++ Text.ofString "*/") := by
  unfold Pattern.blockComment at h
  split at h
  · obtain ⟨m, hm, rfl⟩ := Option.map_eq_some_iff.mp h
    obtain ⟨inner, hInner, hFirst⟩ := take_blockRest hm
    exact ⟨inner, by rw [List.take_succ_cons, List.take_succ_cons, hInner]; rfl, hFirst⟩
  · cases h

namespace Lexer

theorem forall_orElse {α : Type} {P : α → Prop} {a b : Option α} (ha : ∀ r, a = some r → P r)
    (hb : ∀ r, b = some r → P r) (r : α) (h : (a <|> b) = some r) : P r := by
  cases a with
  | none => exact hb r h
  | some x => exact ha r h

theorem forall_map {α β : Type} {P : β → Prop} {f : α → β} {a : Option α}
    (ha : ∀ x, a = some x → P (f x)) (r : β) (h : a.map f = some r) : P r := by
  obtain ⟨x, hx, rfl⟩ := Option.map_eq_some_iff.mp h
  exact ha x hx

/-- The blanks of code are white space. -/
theorem isBlank_of_isCodeBlank {c : CodePoint}
    (h : CodePoint.isChar (fun c => c = ' ' || c = '\t' || c = '\x0c' || c = '\r') c = true) :
    c.isBlank = true := by
  cases c with
  | surrogate i => cases h
  | char c =>
    simp only [CodePoint.isChar, Bool.or_eq_true, decide_eq_true_eq] at h
    rcases h with ((rfl | rfl) | rfl) | rfl <;> rfl

/-- What is taken off a text: at least one code point, a comment by the pattern of its form, and
between tokens otherwise white space alone. -/
structure Matched (t : Text) (kind : LexemeKind) (n : Nat) : Prop where
  pos : 0 < n
  line : kind = .lineComment → Pattern.lineComment t = some n
  block : kind = .blockComment → Pattern.blockComment t = some n
  blank : kind = .blank → ∀ c ∈ t.take n, c.isBlank = true

theorem Matched.token {t : Text} {a : Terminal} {n : Nat} (h : 0 < n) : Matched t (.token a) n :=
  ⟨h, nofun, nofun, nofun⟩

theorem Matched.ofBlank {t : Text} {n : Nat} (h : Pattern.blank t = some n) :
    Matched t .blank n where
  pos := Pattern.pos_of_nonempty h
  line := nofun
  block := nofun
  blank _ c hc := isBlank_of_isCodeBlank (Pattern.forall_take_nonempty h c hc)

theorem Matched.ofJsxBlank {t : Text} {n : Nat} (h : Pattern.jsxBlank t = some n) :
    Matched t .blank n where
  pos := Pattern.pos_of_nonempty h
  line := nofun
  block := nofun
  blank _ := Pattern.forall_take_nonempty h

theorem Matched.ofLine {t : Text} {n : Nat} (h : Pattern.lineComment t = some n) :
    Matched t .lineComment n :=
  ⟨Pattern.pos_of_lineComment h, fun _ => h, nofun, nofun⟩

theorem Matched.ofBlock {t : Text} {n : Nat} (h : Pattern.blockComment t = some n) :
    Matched t .blockComment n :=
  ⟨Pattern.pos_of_blockComment h, nofun, fun _ => h, nofun⟩

theorem matched_scanCode (t : Text) : ∀ r, scanCode t = some r → Matched t r.1 r.2 := by
  refine forall_orElse (forall_map fun n h => .token (Pattern.pos_of_number h)) ?_
  refine forall_orElse (forall_map fun n h => .token (Pattern.pos_of_string h)) ?_
  refine forall_orElse (forall_map fun n h => .token (Pattern.pos_of_name h)) ?_
  refine forall_orElse (forall_map fun n => .ofBlock) ?_
  refine forall_orElse (forall_map fun n => .ofLine) ?_
  refine forall_orElse (forall_map fun n => .ofBlank) ?_
  exact forall_map fun r h => .token (Pattern.pos_of_spelling h)

theorem matched_plainStep (frame : CodeFrame) (depth : Int) (below : List Mode) (t : Text) :
    ∀ r, plainStep frame depth below t = some r → Matched t r.1 r.2.1 :=
  forall_map (matched_scanCode t)

theorem matched_templateStep (t : Text) (closed opened : Terminal) (below : List Mode)
    (rest : Text) : ∀ r, templateStep closed opened below rest = some r → Matched t r.1 r.2.1 := by
  refine forall_map ?_
  rintro ⟨_ | _, n⟩ _ <;> exact .token (Nat.succ_pos n)

theorem matched_regexOrPlain (isRegex : Bool) (frame : CodeFrame) (depth : Int)
    (below : List Mode) (t : Text) (r : LexemeKind × Nat × List Mode)
    (h : (if isRegex then (Pattern.regex t).map fun n =>
        (LexemeKind.token .regex, n, Mode.code frame depth :: below)
      else plainStep frame depth below t) = some r) : Matched t r.1 r.2.1 := by
  split at h
  · obtain ⟨n, hn, rfl⟩ := Option.map_eq_some_iff.mp h
    exact .token (Pattern.pos_of_regex hn)
  · exact matched_plainStep _ _ _ _ r h

theorem matched_codeStep (s : Lexer) (frame : CodeFrame) (depth : Int) (below : List Mode)
    (t : Text) : ∀ r, s.codeStep frame depth below t = some r → Matched t r.1 r.2.1 := by
  intro r h
  unfold codeStep at h
  split at h
  · exact matched_regexOrPlain _ _ _ _ _ r h
  · split at h
    · cases h
      exact .token Nat.one_pos
    · exact matched_plainStep _ _ _ _ r h
  · exact matched_templateStep _ _ _ _ _ r h
  · split at h
    · exact matched_plainStep _ _ _ _ r h
    · split at h
      · cases h
        exact .token Nat.one_pos
      · exact matched_plainStep _ _ _ _ r h
    · split at h
      · exact matched_templateStep _ _ _ _ _ r h
      · exact matched_plainStep _ _ _ _ r h
  · exact matched_plainStep _ _ _ _ r h

theorem matched_tagStep (role : TagRole) (seen : Nat) (below : List Mode) (t : Text) :
    ∀ r, tagStep role seen below t = some r → Matched t r.1 r.2.1 := by
  intro r h
  unfold tagStep at h
  dsimp only at h
  split at h
  · rename_i hBlank
    cases h
    exact .ofJsxBlank hBlank
  split at h
  · rename_i hComment
    cases h
    exact .ofLine hComment
  split at h
  · rename_i hComment
    cases h
    exact .ofBlock hComment
  split at h
  case h_8 =>
    revert r
    exact forall_orElse (forall_map fun n h => .token (Pattern.pos_of_jsxString h))
      (forall_map fun n h => .token (Pattern.pos_of_jsxName h))
  all_goals
    cases h
    exact .token Nat.one_pos

theorem matched_childrenStep (below : List Mode) (t : Text) :
    ∀ r, childrenStep below t = some r → Matched t r.1 r.2.1 := by
  intro r h
  unfold childrenStep at h
  split at h
  · cases h
    exact .token Nat.one_pos
  · cases h
    exact .token Nat.one_pos
  · revert r
    exact forall_map fun n h => .token (Pattern.pos_of_nonempty h)

/-- Every lexeme takes at least one code point, and a comment has the form of one. -/
theorem matched_of_step {s s' : Lexer} {t : Text} {kind : LexemeKind} {n : Nat}
    (h : s.step t = some (kind, n, s')) : Matched t kind n := by
  obtain ⟨r, hr, hEq⟩ := Option.map_eq_some_iff.mp h
  cases hEq
  split at hr
  · cases hr
  · exact matched_codeStep _ _ _ _ _ r hr
  · exact matched_tagStep _ _ _ _ r hr
  · exact matched_childrenStep _ _ r hr

theorem pos_of_step {s s' : Lexer} {t : Text} {kind : LexemeKind} {n : Nat}
    (h : s.step t = some (kind, n, s')) : 0 < n := (matched_of_step h).pos

end Lexer

-- ---------------------------------------------------------------------------------------------
-- Side by side
-- ---------------------------------------------------------------------------------------------

theorem Place.after_append (p : Place) (t u : Text) : p.after (t ++ u) = (p.after t).after u :=
  List.foldl_append

@[simp] theorem Place.offset_after (p : Place) (t : Text) :
    (p.after t).offset = p.offset + t.length := by
  induction t generalizing p with
  | nil => rfl
  | cons c t ih =>
    have hNext : (p.next c).offset = p.offset + 1 := by
      unfold Place.next
      split <;> rfl
    rw [Place.after, List.foldl_cons, ← Place.after, ih, hNext, List.length_cons]
    omega

/-- Lexemes side by side from a place on, none of them empty. -/
inductive Tiling : Place → List Lexeme → Prop where
  | nil (p : Place) : Tiling p []
  | cons {l : Lexeme} {ls : List Lexeme} (hText : l.text ≠ [])
      (hStop : l.stop = l.start.after l.text) (hRest : Tiling l.stop ls) : Tiling l.start (l :: ls)

theorem tiling_lexFrom (steps : Nat) (s : Lexer) (p : Place) (t : Text) :
    Tiling p (lexFrom steps s p t).lexemes := by
  induction steps generalizing s p t with
  | zero => exact .nil p
  | succ steps ih =>
    rw [lexFrom]
    split
    · exact .nil p
    · rename_i hText
      split
      · exact .nil p
      · rename_i kind n s' hStep
        have hPos := Lexer.pos_of_step hStep
        have hTake : t.take n ≠ [] := by
          rw [Ne, List.take_eq_nil_iff]
          rintro (hZero | hNil)
          · omega
          · exact hText (by rw [hNil]; rfl)
        exact @Tiling.cons ⟨kind, t.take n, p, p.after (t.take n)⟩ _ hTake rfl (ih _ _ _)

/-- The lexemes of a source lie side by side from its start on. -/
theorem tiling_lex (source : Text) : Tiling Place.start (lex source).lexemes :=
  tiling_lexFrom _ _ _ _

/-- Side by side means one after the other. -/
theorem Tiling.ordered {p : Place} {ls : List Lexeme} (h : Tiling p ls) :
    (∀ l ∈ ls, p.offset ≤ l.start.offset ∧ l.start.offset < l.stop.offset) ∧
      ls.Pairwise fun a b => a.stop.offset ≤ b.start.offset := by
  induction h with
  | nil => exact ⟨List.forall_mem_nil _, .nil⟩
  | @cons l ls hText hStop _ ih =>
    have hLength := List.length_pos_iff.mpr hText
    have hOffset : l.stop.offset = l.start.offset + l.text.length := by
      rw [hStop, Place.offset_after]
    refine ⟨List.forall_mem_cons.mpr ⟨⟨Nat.le_refl _, by omega⟩, ?_⟩,
      List.pairwise_cons.mpr ⟨fun b hb => (ih.1 b hb).1, ih.2⟩⟩
    intro b hb
    have := ih.1 b hb
    omega

-- ---------------------------------------------------------------------------------------------
-- Inserted terminators
-- ---------------------------------------------------------------------------------------------

/-- Tokens of a source, one after the other from an offset on. -/
structure Sequential (bound : Nat) (ts : List Token) : Prop where
  from_bound : ∀ t ∈ ts, bound ≤ t.start.offset
  filled : ∀ t ∈ ts, t.start.offset < t.stop.offset
  ordered : ts.Pairwise fun a b => a.stop.offset ≤ b.start.offset

/-- The tokens that the grammar is matched against: they end one after the other, and one that is
neither a terminator nor a closing brace begins where all before it have ended. -/
structure InOrder (ts : List Token) : Prop where
  stops : ts.Pairwise fun a b => a.stop.offset ≤ b.stop.offset
  starts : ts.Pairwise fun a b => b.kind ≠ .terminator → b.kind ≠ .rbrace →
    a.stop.offset ≤ b.start.offset
  filled : ∀ t ∈ ts, t.kind ≠ .terminator → t.start.offset < t.stop.offset

/-- All of the tokens end at or after an offset, and those that are neither terminators nor
closing braces begin there as well. -/
def Beyond (bound : Nat) (ts : List Token) : Prop :=
  ∀ t ∈ ts, bound ≤ t.stop.offset ∧
    (t.kind ≠ .terminator → t.kind ≠ .rbrace → bound ≤ t.start.offset)

/-- The token that a lexeme is has the text and the place of the lexeme. -/
theorem Lexeme.token?_eq_some {l : Lexeme} {t : Token} (h : l.token? = some t) :
    t.text = l.text ∧ t.start = l.start ∧ t.stop = l.stop := by
  unfold Lexeme.token? at h
  split at h
  · cases h
    exact ⟨rfl, rfl, rfl⟩
  · cases h

theorem sequential_tokens (source : Text) : Sequential 0 (lex source).tokens := by
  obtain ⟨hEach, hOrdered⟩ := (tiling_lex source).ordered
  refine ⟨fun _ _ => Nat.zero_le _, ?_, ?_⟩
  · intro t ht
    obtain ⟨l, hl, hToken⟩ := List.mem_filterMap.mp ht
    obtain ⟨-, hStart, hStop⟩ := Lexeme.token?_eq_some hToken
    rw [hStart, hStop]
    exact (hEach l hl).2
  · rw [Lexing.tokens, List.pairwise_filterMap]
    refine hOrdered.imp ?_
    intro a b hab t ht u hu
    obtain ⟨-, -, hStop⟩ := Lexeme.token?_eq_some ht
    obtain ⟨-, hStart, -⟩ := Lexeme.token?_eq_some hu
    rw [hStop, hStart]
    exact hab

theorem Sequential.tail {bound : Nat} {t : Token} {ts : List Token}
    (h : Sequential bound (t :: ts)) : Sequential t.stop.offset ts where
  from_bound := (List.pairwise_cons.mp h.ordered).1
  filled u hu := h.filled u (List.mem_cons_of_mem _ hu)
  ordered := (List.pairwise_cons.mp h.ordered).2

/-- Two runs of tokens in order, the second beyond the first. -/
theorem InOrder.append (bound : Nat) {xs ys : List Token} (hx : InOrder xs) (hy : InOrder ys)
    (hEnds : ∀ x ∈ xs, x.stop.offset ≤ bound) (hBeyond : Beyond bound ys) :
    InOrder (xs ++ ys) where
  stops := List.pairwise_append.mpr ⟨hx.stops, hy.stops, fun x hxm y hym =>
    Nat.le_trans (hEnds x hxm) (hBeyond y hym).1⟩
  starts := List.pairwise_append.mpr ⟨hx.starts, hy.starts, fun x hxm y hym hT hB =>
    Nat.le_trans (hEnds x hxm) ((hBeyond y hym).2 hT hB)⟩
  filled t ht := (List.mem_append.mp ht).elim (hx.filled t) (hy.filled t)

theorem inOrder_toList {o : Option Token}
    (h : ∀ x ∈ o, x.kind ≠ .terminator → x.start.offset < x.stop.offset) :
    InOrder o.toList := by
  cases o with
  | none => exact ⟨.nil, .nil, List.forall_mem_nil _⟩
  | some x => exact ⟨List.pairwise_singleton _ _, List.pairwise_singleton _ _, by simpa using h⟩

namespace Insertion

/-- What taking one token can do. A line feed is at most remembered. Any other token is put out,
after a terminator for the line feed that was waiting and one for the brace that the token is,
each of which may be missing. -/
theorem step_cases (s : Insertion) (t : Token) :
    ((s.step t).1 = [] ∧ t.kind = .newline ∧
      ((s.step t).2 = s ∨ (s.step t).2 = { s with pending := some t })) ∨
    (∃ settled closed : Option Token,
      (s.step t).1 = settled.toList ++ closed.toList ++ [t] ∧
      (∀ x ∈ settled, ∃ nl, s.pending = some nl ∧ x = terminatorAt nl) ∧
      (∀ x ∈ closed, t.kind = .rbrace ∧ x = terminatorAt t) ∧
      (s.step t).2.pending = none ∧ (s.step t).2.lastToken = some t) := by
  unfold step
  split
  · rename_i hNewline
    refine .inl ?_
    split
    · exact ⟨rfl, hNewline, .inr rfl⟩
    · exact ⟨rfl, hNewline, .inl rfl⟩
  · refine .inr ⟨s.settle t.kind, _, rfl, ?_, ?_, rfl, rfl⟩
    · intro x hx
      unfold settle at hx
      split at hx
      · rename_i nl hPending
        split at hx
        · cases hx
          exact ⟨nl, hPending, rfl⟩
        · cases hx
      · cases hx
    · intro x hx
      unfold close at hx
      split at hx
      · split at hx
        · rename_i hBoth
          cases hx
          rw [Bool.and_eq_true, decide_eq_true_eq] at hBoth
          exact ⟨hBoth.1, rfl⟩
        · cases hx
      · cases hx

/-- The line feed that is waiting ends beyond all that was put out and before all that comes. -/
def Waiting (s : Insertion) (bound : Nat) (ts : List Token) : Prop :=
  ∀ nl, s.pending = some nl →
    bound ≤ nl.stop.offset ∧ ∀ t ∈ ts, nl.stop.offset ≤ t.start.offset

/-- What one token puts out is in order, and ends with the token. -/
theorem inOrder_emitted {s : Insertion} {bound : Nat} {t : Token} {ts : List Token}
    {settled closed : Option Token} (hSeq : Sequential bound (t :: ts))
    (hWaiting : s.Waiting bound (t :: ts))
    (hSettled : ∀ x ∈ settled, ∃ nl, s.pending = some nl ∧ x = terminatorAt nl)
    (hClosed : ∀ x ∈ closed, t.kind = .rbrace ∧ x = terminatorAt t) :
    InOrder (settled.toList ++ closed.toList ++ [t]) ∧
      Beyond bound (settled.toList ++ closed.toList ++ [t]) ∧
      ∀ x ∈ settled.toList ++ closed.toList ++ [t], x.stop.offset ≤ t.stop.offset := by
  have hBound := hSeq.from_bound t List.mem_cons_self
  have hFilled := hSeq.filled t List.mem_cons_self
  have hFirst : ∀ x ∈ settled, x.kind = .terminator ∧ bound ≤ x.stop.offset ∧
      x.stop.offset ≤ t.start.offset := by
    intro x hx
    obtain ⟨nl, hPending, rfl⟩ := hSettled x hx
    exact ⟨rfl, (hWaiting nl hPending).1, (hWaiting nl hPending).2 t List.mem_cons_self⟩
  have hSecond : ∀ x ∈ closed, x.kind = .terminator ∧ t.kind = .rbrace ∧
      x.stop.offset = t.stop.offset := by
    intro x hx
    obtain ⟨hBrace, rfl⟩ := hClosed x hx
    exact ⟨rfl, hBrace, rfl⟩
  have hSettledOrder : InOrder settled.toList :=
    inOrder_toList fun x hx hKind => absurd (hFirst x hx).1 hKind
  have hTokenOrder : InOrder (some t).toList := inOrder_toList (by simpa using fun _ => hFilled)
  refine ⟨?_, ?_, ?_⟩
  · cases closed with
    | none =>
      rw [Option.toList_none, List.append_nil]
      refine hSettledOrder.append t.start.offset hTokenOrder ?_ ?_
      · intro x hx
        exact (hFirst x (Option.mem_toList.mp hx)).2.2
      · simpa [Beyond] using Nat.le_of_lt hFilled
    | some c =>
      obtain ⟨hKind, hBrace, hStop⟩ := hSecond c rfl
      have hBoth : InOrder (settled.toList ++ (some c).toList) := by
        refine hSettledOrder.append t.start.offset
          (inOrder_toList (by simpa using fun h => absurd hKind h)) ?_ ?_
        · intro x hx
          exact (hFirst x (Option.mem_toList.mp hx)).2.2
        · simpa [Beyond, hKind, hStop] using Nat.le_of_lt hFilled
      refine hBoth.append t.stop.offset hTokenOrder ?_ ?_
      · intro x hx
        rcases List.mem_append.mp hx with hx | hx
        · have := (hFirst x (Option.mem_toList.mp hx)).2.2
          omega
        · exact Nat.le_of_eq (hSecond x (Option.mem_toList.mp hx)).2.2
      · simp [Beyond, hBrace]
  · intro x hx
    simp only [List.mem_append, Option.mem_toList, List.mem_singleton] at hx
    rcases hx with (hx | hx) | rfl
    · have := hFirst x hx
      exact ⟨this.2.1, fun h => absurd this.1 h⟩
    · have := hSecond x hx
      exact ⟨by omega, fun h => absurd this.1 h⟩
    · exact ⟨by omega, fun _ _ => hBound⟩
  · intro x hx
    simp only [List.mem_append, Option.mem_toList, List.mem_singleton] at hx
    rcases hx with (hx | hx) | rfl
    · have := hFirst x hx
      omega
    · have := hSecond x hx
      omega
    · exact Nat.le_refl _

/-- The tokens put out for a whole input are in order, and the last token of the source ends with
them. -/
theorem inOrder_run {ts : List Token} {s : Insertion} {bound : Nat} (hSeq : Sequential bound ts)
    (hWaiting : s.Waiting bound ts)
    (hLast : ∀ t, s.lastToken = some t → bound ≤ t.stop.offset) :
    InOrder (s.run ts).1 ∧ Beyond bound (s.run ts).1 ∧
      ∀ t, (s.run ts).2.lastToken = some t →
        bound ≤ t.stop.offset ∧ ∀ x ∈ (s.run ts).1, x.stop.offset ≤ t.stop.offset := by
  induction ts generalizing s bound with
  | nil =>
    exact ⟨⟨.nil, .nil, List.forall_mem_nil _⟩, List.forall_mem_nil _,
      fun t ht => ⟨hLast t ht, List.forall_mem_nil _⟩⟩
  | cons t ts ih =>
    have hBound := hSeq.from_bound t List.mem_cons_self
    have hFilled := hSeq.filled t List.mem_cons_self
    have hRun : s.run (t :: ts) =
        ((s.step t).1 ++ ((s.step t).2.run ts).1, ((s.step t).2.run ts).2) := rfl
    rw [hRun]
    rcases step_cases s t with ⟨hOut, _, hState⟩ | ⟨settled, closed, hOut, hSettled, hClosed,
      hPending, hLastToken⟩
    · -- a line feed: nothing is put out, so the bound stays
      rw [hOut, List.nil_append]
      have hSeq' : Sequential bound ts :=
        ⟨fun u hu => hSeq.from_bound u (List.mem_cons_of_mem _ hu), hSeq.tail.filled,
          hSeq.tail.ordered⟩
      rcases hState with hState | hState
      · rw [hState]
        exact ih hSeq' (fun nl hnl => ⟨(hWaiting nl hnl).1, fun u hu =>
          (hWaiting nl hnl).2 u (List.mem_cons_of_mem _ hu)⟩) hLast
      · rw [hState]
        refine ih hSeq' (fun nl hnl => ?_) hLast
        cases hnl
        exact ⟨by omega, hSeq.tail.from_bound⟩
    · obtain ⟨hOrder, hBeyond, hEnds⟩ := inOrder_emitted hSeq hWaiting hSettled hClosed
      rw [hOut]
      obtain ⟨hOrder', hBeyond', hLast'⟩ := ih (s := (s.step t).2) hSeq.tail
        (fun nl hnl => by rw [hPending] at hnl; cases hnl)
        (fun u hu => by rw [hLastToken] at hu; cases hu; exact Nat.le_refl _)
      refine ⟨hOrder.append _ hOrder' hEnds hBeyond', ?_, ?_⟩
      · intro x hx
        rcases List.mem_append.mp hx with hx | hx
        · exact hBeyond x hx
        · have := hBeyond' x hx
          exact ⟨by omega, fun hT hB => by have := this.2 hT hB; omega⟩
      · intro u hu
        have hu' := hLast' u hu
        refine ⟨by omega, fun x hx => ?_⟩
        rcases List.mem_append.mp hx with hx | hx
        · have := hEnds x hx
          omega
        · exact hu'.2 x hx

end Insertion

theorem inOrder_insertTerminators {ts : List Token} (h : Sequential 0 ts) :
    InOrder (insertTerminators ts) := by
  obtain ⟨hOrder, _, hLast⟩ := Insertion.inOrder_run (s := {}) h (fun nl hnl => by cases hnl)
    (fun t ht => by cases ht)
  unfold insertTerminators
  generalize Insertion.run {} ts = r at hOrder hLast ⊢
  obtain ⟨out, final⟩ := r
  dsimp only at hOrder hLast ⊢
  have hFinish : ∀ x ∈ final.finish, x.kind = .terminator ∧
      ∀ y ∈ out, y.stop.offset ≤ x.stop.offset := by
    intro x hx
    unfold Insertion.finish at hx
    split at hx
    · rename_i t ht
      split at hx
      · cases hx
        exact ⟨rfl, (hLast t ht).2⟩
      · cases hx
    · cases hx
  cases hEnd : final.finish with
  | none => simpa using hOrder
  | some x =>
    obtain ⟨hKind, hEnds⟩ := hFinish x hEnd
    exact hOrder.append _ (inOrder_toList (by simpa using fun h => absurd hKind h)) hEnds
      (by simp [Beyond, hKind])

/-- The tokens that the grammar is matched against are in order. -/
theorem inOrder_statements (source : Text) : InOrder (lex source).statements := by
  have hSeq := sequential_tokens source
  unfold Lexing.statements
  split
  · exact inOrder_insertTerminators hSeq
  · exact (Insertion.inOrder_run (s := {}) hSeq (fun nl hnl => by cases hnl)
      (fun t ht => by cases ht)).1

end ClientBoundary
