import ClientBoundary.Proofs.OptionalSemicolon
import ClientBoundary.Proofs.WordLocality

/-!
# A word exchanged after a dot

The name of a property stands after a dot, with nothing but blanks, line feeds and comments between
the two. When another word is put in its place, the pieces before it stay what they are
(`Lexer.step_exchange`), and so do those after it, unless the word changes what a slash or a `<`
means (`Spelled.exchange`).
-/

namespace ClientBoundary

open Pattern (IsWord Fenced)

-- ---------------------------------------------------------------------------------------------
-- Lexemes of code
-- ---------------------------------------------------------------------------------------------

namespace Lexer

/-- The kinds of lexemes in code that the mode or the terminal before has a say in. -/
def isModal : LexemeKind → Bool
  | .token .regex | .token .jsxOpen | .token .template | .token .tplHead | .token .tplMiddle
  | .token .tplTail | .token .jsxRbrace => true
  | _ => false

/-- What may stand between a dot and the name of a property, the dot included. -/
def isGap : LexemeKind → Bool
  | .token .dot | .token .newline | .blank | .lineComment | .blockComment => true
  | _ => false

theorem isModal_of_isGap {kind : LexemeKind} (h : isGap kind = true) : isModal kind = false := by
  cases kind with
  | token t => cases t <;> first | rfl | cases h
  | blank => rfl
  | lineComment => rfl
  | blockComment => rfl

/-- The lexeme is one of the shapes of code. -/
structure Scanned (t : Text) (modes : List Mode) (r : LexemeKind × Nat × List Mode) : Prop where
  shape : scanCode t = some (r.1, r.2.1)
  code : ∃ frame depth below, modes = .code frame depth :: below ∧
    r.2.2 = .code frame (depth + braceStep r.1) :: below

theorem scanned_plainStep {frame : CodeFrame} {depth : Int} {below : List Mode} {t : Text} :
    ∀ r, plainStep frame depth below t = some r → Scanned t (.code frame depth :: below) r :=
  forall_map fun _ h => ⟨h, frame, depth, below, rfl, rfl⟩

theorem isModal_templateStep {closed opened : Terminal} {below : List Mode} {rest : Text}
    (hClosed : isModal (.token closed) = true) (hOpened : isModal (.token opened) = true) :
    ∀ r, templateStep closed opened below rest = some r → isModal r.1 = true := by
  refine forall_map ?_
  rintro ⟨_ | _, n⟩ _
  · exact hClosed
  · exact hOpened

theorem scanned_regexOrPlain {isRegex : Bool} {frame : CodeFrame} {depth : Int}
    {below : List Mode} {t : Text} {r : LexemeKind × Nat × List Mode}
    (h : (if isRegex then (Pattern.regex t).map fun n =>
        (LexemeKind.token .regex, n, Mode.code frame depth :: below)
      else plainStep frame depth below t) = some r) (hKind : isModal r.1 = false) :
    Scanned t (.code frame depth :: below) r := by
  split at h
  · obtain ⟨n, _, rfl⟩ := Option.map_eq_some_iff.mp h
    cases hKind
  · exact scanned_plainStep r h

theorem scanned_codeStep {s : Lexer} {frame : CodeFrame} {depth : Int} {below : List Mode}
    {t : Text} {r : LexemeKind × Nat × List Mode} (h : s.codeStep frame depth below t = some r)
    (hKind : isModal r.1 = false) : Scanned t (.code frame depth :: below) r := by
  have hNot {p : Prop} (hModal : isModal r.1 = true) : p := by
    rw [hKind] at hModal
    cases hModal
  unfold codeStep at h
  split at h
  · exact scanned_regexOrPlain h hKind
  · split at h
    · cases h
      exact hNot rfl
    · exact scanned_plainStep r h
  · exact hNot (isModal_templateStep rfl rfl r h)
  · split at h
    · exact scanned_plainStep r h
    · split at h
      · cases h
        exact hNot rfl
      · exact scanned_plainStep r h
    · split at h
      · exact hNot (isModal_templateStep rfl rfl r h)
      · exact scanned_plainStep r h
  · exact scanned_plainStep r h

/-- What may be a gap in a tag leads on in the tag, and names are read in code only. -/
theorem gap_tagStep (role : TagRole) (seen : Nat) (below : List Mode) (t : Text) :
    ∀ r, tagStep role seen below t = some r →
      (r.1 ≠ .token .name ∧ r.1 ≠ .token .terminator) ∧
        (isGap r.1 = true → ∃ seen', r.2.2 = .tag role seen' :: below) := by
  intro r h
  unfold tagStep at h
  dsimp only at h
  split at h
  · cases h
    exact ⟨⟨nofun, nofun⟩, fun _ => ⟨seen, rfl⟩⟩
  split at h
  · cases h
    exact ⟨⟨nofun, nofun⟩, fun _ => ⟨seen, rfl⟩⟩
  split at h
  · cases h
    exact ⟨⟨nofun, nofun⟩, fun _ => ⟨seen, rfl⟩⟩
  split at h
  case h_8 =>
    revert r
    exact forall_orElse (forall_map fun n _ => ⟨⟨nofun, nofun⟩, nofun⟩)
      (forall_map fun n _ => ⟨⟨nofun, nofun⟩, nofun⟩)
  case h_6 =>
    cases h
    exact ⟨⟨nofun, nofun⟩, fun _ => ⟨seen + 1, rfl⟩⟩
  all_goals
    cases h
    exact ⟨⟨nofun, nofun⟩, nofun⟩

theorem gap_childrenStep (below : List Mode) (t : Text) :
    ∀ r, childrenStep below t = some r →
      (r.1 ≠ .token .name ∧ r.1 ≠ .token .terminator) ∧ isGap r.1 = false := by
  intro r h
  unfold childrenStep at h
  split at h
  · cases h
    exact ⟨⟨nofun, nofun⟩, rfl⟩
  · cases h
    exact ⟨⟨nofun, nofun⟩, rfl⟩
  · revert r
    exact forall_map fun n _ => ⟨⟨nofun, nofun⟩, rfl⟩

/-- A name, and a gap that leads on to code, are read in code by their shape. -/
theorem scanned_of_step {s s' : Lexer} {t : Text} {kind : LexemeKind} {n : Nat}
    (h : s.step t = some (kind, n, s'))
    (hKind : kind = .token .name ∨
      (isGap kind = true ∧ ∃ frame depth below, s'.modes = .code frame depth :: below)) :
    Scanned t s.modes (kind, n, s'.modes) := by
  obtain ⟨⟨kind', n', modes'⟩, hr, hEq⟩ := Option.map_eq_some_iff.mp h
  cases hEq
  obtain ⟨modes, last⟩ := s
  cases modes with
  | nil => cases hr
  | cons mode below =>
    cases mode with
    | code frame depth =>
      refine scanned_codeStep hr ?_
      rcases hKind with rfl | ⟨hGap, -⟩
      · rfl
      · exact isModal_of_isGap hGap
    | tag role seen =>
      obtain ⟨⟨hName, -⟩, hTag⟩ := gap_tagStep role seen below t _ hr
      rcases hKind with rfl | ⟨hGap, frame, depth, rest, hCode⟩
      · exact absurd rfl hName
      · obtain ⟨seen', hModes⟩ := hTag hGap
        cases hCode.symm.trans hModes
    | children =>
      obtain ⟨⟨hName, -⟩, hNot⟩ := gap_childrenStep below t _ hr
      rcases hKind with rfl | ⟨hGap, -⟩
      · exact absurd rfl hName
      · rw [show isGap kind' = false from hNot] at hGap
        cases hGap

end Lexer

namespace Pattern

theorem isNamePart_of_isNameStart {c : CodePoint} (h : isNameStart c = true) :
    isNamePart c = true := by
  cases c with
  | surrogate i => cases h
  | char c =>
    have hStart : (isLetter c || c = '_' || c = '$') = true := h
    show (isLetter c || c = '_' || c = '$' || _) = true
    rw [hStart, Bool.true_or]

/-- What is matched as a name is a word, and the word ends there. -/
theorem isWord_of_name {t : Text} {n : Nat} (h : name t = some n) :
    IsWord (t.take n) ∧ ∀ c ∈ (t.drop n).head?, isNamePart c = false := by
  cases t with
  | nil => cases h
  | cons c t =>
    rw [name] at h
    split at h
    · rename_i hc
      cases h
      rw [List.take_succ_cons, List.drop_succ_cons]
      refine ⟨⟨⟨c, _, rfl, hc⟩, ?_⟩, head_drop_run _ t⟩
      exact List.forall_mem_cons.mpr ⟨isNamePart_of_isNameStart hc, all_take_run _ t⟩
    · cases h

theorem run_all {q : CodePoint → Bool} {u r : Text} (hu : ∀ c ∈ u, q c = true)
    (hr : ∀ c ∈ r.head?, q c = false) : run q (u ++ r) = u.length := by
  rw [run_append hr]
  induction u with
  | nil => rfl
  | cons c u ih =>
    rw [run, if_pos (hu c List.mem_cons_self), ih fun d hd => hu d (List.mem_cons_of_mem _ hd)]
    rfl

/-- A word before something else is matched as a name. -/
theorem name_word {w r : Text} (hw : IsWord w) (hr : ∀ c ∈ r.head?, isNamePart c = false) :
    name (w ++ r) = some w.length := by
  obtain ⟨⟨c, t, rfl, hc⟩, hParts⟩ := hw
  rw [List.cons_append, name, if_pos hc,
    run_all (fun d hd => hParts d (List.mem_cons_of_mem _ hd)) hr]
  rfl

/-- No number begins as a word does. -/
theorem number_word {x : Text} (hx : BeginsWord x) : number x = none := by
  obtain ⟨c, t, rfl, hc⟩ := hx
  have hHex : hexNumber (c :: t) = none := by
    unfold hexNumber
    split
    · rename_i heq
      exact absurd (List.cons.inj heq).1 (ne_of_isNameStart hc rfl)
    · rfl
  have hMantissa : mantissa (c :: t) = none := by
    have hRun : run CodePoint.isDigit (c :: t) = 0 := by
      rw [run, isDigit_of_isNameStart hc]
      rfl
    unfold mantissa
    rw [hRun]
    split
    · split
      · rename_i heq
        exact absurd (List.cons.inj heq).1 (ne_of_isNameStart hc rfl)
      · rfl
    · rename_i hZero
      exact absurd rfl hZero
  rw [number, hHex, decimalNumber, hMantissa]
  rfl

end Pattern

namespace Lexer

theorem name_of_scanCode (t : Text) :
    ∀ r, scanCode t = some r → r.1 = .token .name → Pattern.name t = some r.2 := by
  refine forall_orElse (forall_map fun _ _ => nofun) ?_
  refine forall_orElse (forall_map fun _ _ => nofun) ?_
  refine forall_orElse (forall_map fun _ h _ => h) ?_
  refine forall_orElse (forall_map fun _ _ => nofun) ?_
  refine forall_orElse (forall_map fun _ _ => nofun) ?_
  refine forall_orElse (forall_map fun _ _ => nofun) ?_
  refine forall_map fun r h hName => ?_
  have hAll : ∀ s ∈ Terminal.spellings, s.2 ≠ .name := by decide
  obtain ⟨s, hFind, rfl⟩ := Option.map_eq_some_iff.mp h
  exact absurd (LexemeKind.token.inj hName) (hAll s (List.mem_of_find?_eq_some hFind))

theorem ofWord_mem_words (w : Text) : Terminal.ofWord w ∈ .name :: Terminal.words.map (·.2) := by
  unfold Terminal.ofWord
  split
  · rename_i s hFind
    exact List.mem_cons_of_mem _ (List.mem_map_of_mem (List.mem_of_find?_eq_some hFind))
  · exact List.mem_cons_self

theorem ofWord_notMem {ks : List Terminal} (h : ∀ k ∈ .name :: Terminal.words.map (·.2), k ∉ ks)
    (w : Text) : Terminal.ofWord w ∉ ks := h _ (ofWord_mem_words w)

/-- The terminals of the tokens in code that are read by their shape alone. -/
def shapeTerminals : List Terminal :=
  .number :: .string :: (.name :: Terminal.words.map (·.2)) ++ Terminal.spellings.map (·.2)

theorem mem_shapeTerminals (t : Text) :
    ∀ r, scanCode t = some r → ∀ k, r.1 = .token k → k ∈ shapeTerminals := by
  refine forall_orElse (forall_map fun _ _ k hk => by cases hk; decide) ?_
  refine forall_orElse (forall_map fun _ _ k hk => by cases hk; decide) ?_
  refine forall_orElse (forall_map fun n _ k hk => ?_) ?_
  · obtain rfl := LexemeKind.token.inj hk
    exact List.mem_append_left _ (.tail _ (.tail _ (ofWord_mem_words _)))
  refine forall_orElse (forall_map fun _ _ => nofun) ?_
  refine forall_orElse (forall_map fun _ _ => nofun) ?_
  refine forall_orElse (forall_map fun _ _ => nofun) ?_
  refine forall_map fun r h k hk => ?_
  obtain ⟨s, hFind, rfl⟩ := Option.map_eq_some_iff.mp h
  obtain rfl := LexemeKind.token.inj hk
  exact List.mem_append_right _ (List.mem_map_of_mem (List.mem_of_find?_eq_some hFind))

/-- Terminators are not written. -/
theorem step_ne_terminator {s s' : Lexer} {t : Text} {k : Terminal} {n : Nat}
    (h : s.step t = some (.token k, n, s')) : k ≠ .terminator := by
  obtain ⟨⟨kind, n', modes'⟩, hr, hEq⟩ := Option.map_eq_some_iff.mp h
  cases hEq
  rintro rfl
  obtain ⟨modes, last⟩ := s
  cases modes with
  | nil => cases hr
  | cons mode below =>
    cases mode with
    | code frame depth =>
      exact absurd (mem_shapeTerminals t _ (scanned_codeStep hr rfl).shape _ rfl) (by decide)
    | tag role seen => exact (gap_tagStep role seen below t _ hr).1.2 rfl
    | children => exact (gap_childrenStep below t _ hr).1.2 rfl

theorem isGap_ofWord (w : Text) : ¬ isGap (.token (Terminal.ofWord w)) = true := by
  have hAll : ∀ k, isGap (.token k) = true → k ∈ [.dot, .newline] := by
    intro k hk
    cases k <;> first | decide | cases hk
  exact fun hGap => ofWord_notMem (by decide) w (hAll _ hGap)

theorem fenced_blank {t : Text} {n : Nat} (h : Pattern.blank t = some n) :
    Fenced (t.take n) := by
  have hPos := Pattern.pos_of_nonempty h
  obtain rfl := Pattern.eq_of_nonempty h
  have hAll := Pattern.all_take_run
    (CodePoint.isChar fun c => c = ' ' || c = '\t' || c = '\x0c' || c = '\r') t
  have hLe := Pattern.run_le
    (CodePoint.isChar fun c => c = ' ' || c = '\t' || c = '\x0c' || c = '\r') t
  generalize Pattern.run _ t = n at hPos hAll hLe
  have hSome : t.take n ≠ [] := by
    rw [Ne, ← List.length_eq_zero_iff, List.length_take]
    omega
  refine ⟨(t.take n).getLast hSome, ?_, List.getLast?_eq_some_getLast hSome⟩
  have hLast := hAll _ (List.getLast_mem hSome)
  generalize (t.take n).getLast hSome = c at hLast
  cases c with
  | surrogate i => cases hLast
  | char c =>
    simp only [CodePoint.isChar, Bool.or_eq_true, decide_eq_true_eq] at hLast
    rcases hLast with ((rfl | rfl) | rfl) | rfl <;> decide

/-- The spellings of a dot and of a line feed. -/
theorem spelling_of_gap {s : String × Terminal} (hs : s ∈ Terminal.spellings)
    (hGap : isGap (.token s.2) = true) : s.1 = "." ∨ s.1 = "\n" := by
  have hAll : ∀ s ∈ Terminal.spellings, isGap (.token s.2) = true → s.1 = "." ∨ s.1 = "\n" := by
    decide
  exact hAll s hs hGap

theorem fenced_spelling {t : Text} {r : Terminal × Nat} (h : Pattern.spelling t = some r)
    (hGap : isGap (.token r.1) = true) : Fenced (t.take r.2) := by
  obtain ⟨s, hFind, rfl⟩ := Option.map_eq_some_iff.mp h
  have hStarts : Text.ofString s.1 <+: t := Pattern.startsWith_iff.mp
    (List.find?_some (p := fun a : String × Terminal => t.startsWith (Text.ofString a.1)) hFind)
  have hLength : s.1.length = (Text.ofString s.1).length := by
    rw [Text.ofString, List.length_map, String.length_toList]
  rw [hLength, ← List.prefix_iff_eq_take.mp hStarts]
  rcases spelling_of_gap (List.mem_of_find?_eq_some hFind) hGap with hs | hs <;> rw [hs]
  · exact ⟨.char '.', by decide, rfl⟩
  · exact ⟨.char '\n', by decide, rfl⟩

/-- A dot, a line feed, blanks and a block comment end with a mark that fences off what comes
after. -/
theorem fenced_of_scanCode (t : Text) :
    ∀ r, scanCode t = some r → isGap r.1 = true → r.1 ≠ .lineComment → Fenced (t.take r.2) := by
  refine forall_orElse (forall_map fun _ _ => nofun) ?_
  refine forall_orElse (forall_map fun _ _ => nofun) ?_
  refine forall_orElse (forall_map fun n _ hGap _ => absurd hGap (isGap_ofWord _)) ?_
  refine forall_orElse (forall_map fun n h _ _ => ?_) ?_
  · obtain ⟨inner, hInner, -⟩ := take_blockComment h
    refine ⟨.char '/', by decide, ?_⟩
    rw [hInner, List.getLast?_append_of_ne_nil _ (by decide)]
    rfl
  refine forall_orElse (forall_map fun _ _ _ hLine => absurd rfl hLine) ?_
  refine forall_orElse (forall_map fun n h _ _ => fenced_blank h) ?_
  exact forall_map fun r h hGap _ => fenced_spelling h hGap

theorem scanCode_word {w r : Text} (hw : IsWord w)
    (hr : ∀ c ∈ r.head?, Pattern.isNamePart c = false) :
    scanCode (w ++ r) = some (.token (Terminal.ofWord w), w.length) := by
  have hNumber := Pattern.number_word (hw.begins r)
  have hString : Pattern.string (w ++ r) = none := by
    obtain ⟨c, t, rfl, hc⟩ := hw.start
    exact Pattern.inQuotes_string.other (Pattern.ne_of_isNameStart hc rfl)
      (Pattern.ne_of_isNameStart hc rfl) _
  rw [scanCode, hNumber, hString, Pattern.name_word hw hr, Option.map_some, List.take_left]
  rfl

/-- In code a word is a token, and it stays in code. -/
theorem step_of_isWord {frame : CodeFrame} {depth : Int} {below : List Mode}
    {last : Option Terminal} {w r : Text} (hw : IsWord w)
    (hr : ∀ c ∈ r.head?, Pattern.isNamePart c = false) :
    step ⟨.code frame depth :: below, last⟩ (w ++ r) =
      some (.token (Terminal.ofWord w), w.length,
        ⟨.code frame depth :: below, some (Terminal.ofWord w)⟩) := by
  have hKind : Terminal.ofWord w ∉ [.lbrace, .rbrace, .newline] :=
    ofWord_notMem (by decide) w
  have hBrace : braceStep (.token (Terminal.ofWord w)) = 0 := by
    unfold braceStep
    split <;> simp_all
  have hScan := scanCode_word hw hr
  have hCode : codeStep ⟨.code frame depth :: below, last⟩ frame depth below (w ++ r) =
      plainStep frame depth below (w ++ r) := by
    obtain ⟨c, t, rfl, hc⟩ := hw.start
    exact codeStep_other _ _ _ _ (Pattern.ne_of_isNameStart hc rfl)
      (Pattern.ne_of_isNameStart hc rfl) (Pattern.ne_of_isNameStart hc rfl)
      (Pattern.ne_of_isNameStart hc rfl) _
  have hWord := remember_word (k := Terminal.ofWord w) (by simp_all) last
  simp only [step, hCode, plainStep, hScan, Option.map_some, hBrace, Int.add_zero, hWord]

/-- Gaps are read in the same way after all terminals. -/
theorem neutral_of_gap (t : Text) :
    ∀ r, scanCode t = some r → isGap r.1 = true → Neutral t := by
  refine forall_orElse (forall_map fun _ _ => nofun) ?_
  refine forall_orElse (forall_map fun _ _ => nofun) ?_
  refine forall_orElse (forall_map fun n _ hGap => absurd hGap (isGap_ofWord _)) ?_
  refine forall_orElse (forall_map fun n h _ => ?_) ?_
  · obtain ⟨t', rfl⟩ := Pattern.exists_of_blockComment h
    refine ⟨fun _ heq => ?_, nofun⟩
    cases heq
    rfl
  refine forall_orElse (forall_map fun n h _ => ?_) ?_
  · obtain ⟨t', rfl⟩ := Pattern.exists_of_lineComment h
    refine ⟨fun _ heq => ?_, nofun⟩
    cases heq
    rfl
  refine forall_orElse (forall_map fun n h _ => ⟨?_, ?_⟩) ?_
  · rintro t' rfl
    cases h
  · rintro t' rfl
    cases h
  refine forall_map fun r h hGap => ?_
  obtain ⟨s, hFind, rfl⟩ := Option.map_eq_some_iff.mp h
  have hStarts : Text.ofString s.1 <+: t := Pattern.startsWith_iff.mp
    (List.find?_some (p := fun a : String × Terminal => t.startsWith (Text.ofString a.1)) hFind)
  obtain ⟨rest, rfl⟩ := hStarts
  rcases spelling_of_gap (List.mem_of_find?_eq_some hFind) hGap with hs | hs <;> rw [hs]
  · exact ⟨nofun, nofun⟩
  · exact ⟨nofun, nofun⟩

/-- Whether a text after a name begins in the same way after another word: the word ends an
expression as a name does, or there is neither a slash nor a `<` that could begin one. -/
def SameAfter (k : Terminal) (t : Text) : Prop := endsExpression k = true ∨ Neutral t

theorem step_after_name {k : Terminal} {modes : List Mode} {t : Text} {kind : LexemeKind} {n : Nat}
    {s' : Lexer} (h : step ⟨modes, some .name⟩ t = some (kind, n, s'))
    (hWord : ∀ k', kind = .token k' → k' ≠ .newline → SameAfter k t) :
    step ⟨modes, some k⟩ t = some (kind, n, ⟨s'.modes, remember (some k) kind⟩) := by
  refine step_last h fun frame depth below hr => ?_
  by_cases hEnds : endsExpression k = true
  · have hSame : expectsExpression ⟨modes, some k⟩ = expectsExpression ⟨modes, some .name⟩ :=
      congrArg (!·) hEnds
    rw [codeStep_congr hSame]
    exact hr
  · suffices hNeutral : Neutral t by
      rw [codeStep_of_neutral hNeutral ⟨modes, some .name⟩]
      exact hr
    by_cases hGap : isGap kind = true
    · exact neutral_of_gap t _ (scanned_codeStep hr (isModal_of_isGap hGap)).shape hGap
    · obtain ⟨k', rfl, hLine⟩ : ∃ k', kind = .token k' ∧ k' ≠ .newline := by
        cases kind with
        | token k' =>
          refine ⟨k', rfl, ?_⟩
          rintro rfl
          exact hGap rfl
        | blank => exact absurd rfl hGap
        | lineComment => exact absurd rfl hGap
        | blockComment => exact absurd rfl hGap
      exact (hWord k' rfl hLine).resolve_left hEnds

/-- Where no expression may begin, no regular expression and no element does. -/
theorem kind_of_codeStep {s : Lexer} {frame : CodeFrame} {depth : Int} {below : List Mode}
    {t : Text} {r : LexemeKind × Nat × List Mode} (hExpects : s.expectsExpression = false)
    (h : s.codeStep frame depth below t = some r) :
    r.1 ≠ .token .regex ∧ r.1 ≠ .token .jsxOpen := by
  have hPlain (h : plainStep frame depth below t = some r) :
      r.1 ≠ .token .regex ∧ r.1 ≠ .token .jsxOpen := by
    have hMem := mem_shapeTerminals t _ (scanned_plainStep r h).shape
    exact ⟨fun hk => absurd (hMem _ hk) (by decide), fun hk => absurd (hMem _ hk) (by decide)⟩
  have hTemplate {closed opened : Terminal} {below : List Mode} {rest : Text}
      (hClosed : closed ∉ [.regex, .jsxOpen]) (hOpened : opened ∉ [.regex, .jsxOpen])
      (h : templateStep closed opened below rest = some r) :
      r.1 ≠ .token .regex ∧ r.1 ≠ .token .jsxOpen := by
    obtain ⟨⟨_ | _, n⟩, -, rfl⟩ := Option.map_eq_some_iff.mp h <;> simp_all
  unfold codeStep at h
  simp only [hExpects, Bool.false_and, Bool.false_eq_true, if_false] at h
  split at h
  · exact hPlain h
  · exact hPlain h
  · exact hTemplate (by decide) (by decide) h
  · split at h
    · exact hPlain h
    · split at h
      · cases h
        exact ⟨nofun, nofun⟩
      · exact hPlain h
    · split at h
      · exact hTemplate (by decide) (by decide) h
      · exact hPlain h
  · exact hPlain h

end Lexer

-- ---------------------------------------------------------------------------------------------
-- Pieces
-- ---------------------------------------------------------------------------------------------

/-- The state before a piece. -/
theorem Spelled.exists_before {s final : Lexer} {front back : List Piece}
    (h : Spelled s (front ++ back) final) : ∃ s', Spelled s' back final := by
  induction front generalizing s with
  | nil => exact ⟨s, h⟩
  | cons piece front ih =>
    cases h with
    | take _ _ _ hRest => exact ih hRest

/-- Pieces are cut at a place of the text in one way only. -/
theorem Spelled.append_inj {s final : Lexer} {front front' back back' : List Piece}
    (h : Spelled s (front ++ back) final) (hSame : front ++ back = front' ++ back')
    (hLength : (spell front).length = (spell front').length) : front = front' ∧ back = back' := by
  have hNil {s : Lexer} {front mid back : List Piece} (h : Spelled s (front ++ (mid ++ back)) final)
      (hLength : (spell front).length = (spell (front ++ mid)).length) : mid = [] := by
    obtain ⟨s', hMid⟩ := h.exists_before
    rw [spell_append, List.length_append] at hLength
    exact hMid.eq_nil_of_spell (List.length_eq_zero_iff.mp (by omega))
  rcases List.append_eq_append_iff.mp hSame with ⟨mid, rfl, rfl⟩ | ⟨mid, rfl, rfl⟩
  · rw [hNil h hLength]
    exact ⟨(List.append_nil _).symm, rfl⟩
  · rw [List.append_assoc] at h
    rw [hNil h hLength.symm]
    exact ⟨List.append_nil _, rfl⟩

/-- A name among the pieces is read in code. It is a word, and it ends where the next piece
begins. -/
theorem Spelled.name {s final : Lexer} {p : Text} {back : List Piece}
    (h : Spelled s ((.token .name, p) :: back) final) :
    ∃ frame depth below, s.modes = .code frame depth :: below ∧ IsWord p ∧
      (∀ c ∈ (spell back).head?, Pattern.isNamePart c = false) ∧
      Spelled ⟨.code frame depth :: below, some .name⟩ back final := by
  cases h with
  | @take _ s' _ _ n _ _ hStep hText _ hRest =>
    obtain ⟨hShape, frame, depth, below, hModes, hModes'⟩ := Lexer.scanned_of_step hStep (.inl rfl)
    have hName := Pattern.isWord_of_name (Lexer.name_of_scanCode _ _ hShape rfl)
    rw [hText, drop_of_take hText] at hName
    have hState : s' = ⟨.code frame depth :: below, some .name⟩ := by
      have hSame : s'.modes = .code frame (depth + 0) :: below := hModes'
      rw [Int.add_zero] at hSame
      rw [← hSame, ← Lexer.remember_word (k := .name) nofun s.last, ← Lexer.last_step hStep]
    exact ⟨frame, depth, below, hModes, hName.1, hName.2, hState ▸ hRest⟩

/-- What stands right before a name, after a dot, ends with a mark that fences the name off. -/
theorem Spelled.fenced {s final : Lexer} {front back : List Piece} {p : Text}
    (h : Spelled s (front ++ (.token .name, p) :: back) final) (hSome : front ≠ [])
    (hGap : ∀ piece ∈ front.getLast?, Lexer.isGap piece.1 = true) : Fenced (spell front) := by
  induction front generalizing s with
  | nil => exact absurd rfl hSome
  | cons piece front ih =>
    rw [List.cons_append] at h
    cases h with
    | @take _ s' _ kind n text _ hStep hText _ hRest =>
      cases front with
      | cons next front =>
        have hFenced := ih hRest (List.cons_ne_nil _ _) fun piece hPiece =>
          hGap piece (by rwa [List.getLast?_cons_cons])
        obtain ⟨g, hg, hLast⟩ := hFenced
        refine ⟨g, hg, ?_⟩
        rw [spell_cons, List.getLast?_append, hLast]
        rfl
      | nil =>
        have hKind : Lexer.isGap kind = true := hGap _ rfl
        obtain ⟨frame, depth, below, hCode, hWord, -⟩ := Spelled.name hRest
        have hShape := (Lexer.scanned_of_step hStep (.inr ⟨hKind, frame, depth, below, hCode⟩)).shape
        have hLine : kind ≠ .lineComment := by
          -- a comment to the end of the line does not end before a word
          rintro rfl
          have hEnd := Pattern.head_drop_lineComment ((Lexer.matched_of_step hStep).line rfl)
          rw [drop_of_take hText] at hEnd
          obtain ⟨c, t, rfl, hc⟩ := hWord.start
          exact Pattern.ne_of_isNameStart hc rfl (hEnd c rfl)
        have hFenced := Lexer.fenced_of_scanCode _ _ hShape hKind hLine
        rw [hText] at hFenced
        rw [spell_cons]
        exact (List.append_nil text).symm ▸ hFenced

/-- Another word in the place of a name after a dot makes no difference to a piece before it. -/
theorem Spelled.head_exchange {s s' final : Lexer} {kind : LexemeKind} {n : Nat} {text p w : Text}
    {front back : List Piece} (hw : IsWord w)
    (hStep : s.step (text ++ spell (front ++ (.token .name, p) :: back)) = some (kind, n, s'))
    (hText : (text ++ spell (front ++ (.token .name, p) :: back)).take n = text)
    (hNonempty : text ≠ []) (hRest : Spelled s' (front ++ (.token .name, p) :: back) final)
    (hGap : ∀ piece ∈ ((kind, text) :: front).getLast?, Lexer.isGap piece.1 = true) :
    s.step (text ++ (spell front ++ (w ++ spell back))) = some (kind, text.length, s') := by
  have hFenced := Spelled.fenced (.take hStep hText hNonempty hRest) (List.cons_ne_nil _ front) hGap
  obtain ⟨s₀, hName⟩ := hRest.exists_before
  obtain ⟨_, _, _, -, hp, -⟩ := hName.name
  rw [spell_cons] at hFenced
  rw [spell_append, spell_cons, ← List.append_assoc] at hStep hText
  have hLength : n = text.length := by
    obtain ⟨c, t, rfl, -⟩ := hp.start
    have hTake := congrArg List.length hText
    rw [List.length_take, List.length_append, List.length_append, List.length_append,
      List.length_cons] at hTake
    omega
  have hKind : n = (text ++ spell front).length → kind ≠ .token .number ∧ kind ≠ .token .regex := by
    intro hEnd
    have hNil : front = [] := by
      refine hRest.eq_nil_of_spell (List.length_eq_zero_iff.mp ?_)
      rw [List.length_append] at hEnd
      omega
    subst hNil
    have hLast : Lexer.isGap kind = true := hGap _ rfl
    refine ⟨?_, ?_⟩ <;> rintro rfl <;> cases hLast
  have hStep' := Lexer.step_exchange hFenced hp hw hStep (by rw [List.length_append]; omega) hKind
  rwa [List.append_assoc, hLength] at hStep'

theorem forall_getLast?_of_cons {α : Type} {P : α → Prop} {x : α} {xs : List α}
    (h : ∀ y ∈ (x :: xs).getLast?, P y) : ∀ y ∈ xs.getLast?, P y := by
  cases xs with
  | nil => nofun
  | cons z xs => rwa [List.getLast?_cons_cons] at h

/-- Another word may be put in the place of a name after a dot: the lexer takes all other pieces as
before. -/
theorem Spelled.exchange {s final : Lexer} {front back : List Piece} {p w : Text} (hw : IsWord w)
    (h : Spelled s (front ++ (.token .name, p) :: back) final)
    (hGap : ∀ piece ∈ front.getLast?, Lexer.isGap piece.1 = true)
    (hNext : ∀ k t, FirstWord back k t → Lexer.SameAfter (Terminal.ofWord w) t) :
    ∃ final', Spelled s (front ++ (.token (Terminal.ofWord w), w) :: back) final' := by
  induction front generalizing s with
  | nil =>
    obtain ⟨frame, depth, below, hModes, -, hEnd, hBack⟩ := Spelled.name h
    obtain ⟨modes, last⟩ := s
    cases hModes
    obtain ⟨final', hSpelled⟩ := hBack.relast
      (P := fun _ text => Lexer.SameAfter (Terminal.ofWord w) text)
      (fun _ _ _ _ _ => Lexer.step_after_name (k := Terminal.ofWord w)) hNext
    exact ⟨final', .cons (Lexer.step_of_isWord hw hEnd) hSpelled⟩
  | cons piece front ih =>
    rw [List.cons_append] at h
    cases h with
    | @take _ s' _ kind n text _ hStep hText hNonempty hRest =>
      obtain ⟨final', hSpelled⟩ := ih hRest (forall_getLast?_of_cons hGap)
      have hStep' := Spelled.head_exchange hw hStep hText hNonempty hRest hGap
      rw [← spell_cons, ← spell_append] at hStep'
      exact ⟨final', .cons hStep' hSpelled⟩

/-- The first piece is what the first step takes. -/
theorem Spelled.exists_cons {s s' final : Lexer} {kind : LexemeKind} {n : Nat} {pieces : List Piece}
    {text rest : Text} (h : Spelled s pieces final) (hSpell : spell pieces = text ++ rest)
    (hStep : s.step (text ++ rest) = some (kind, n, s')) (hText : (text ++ rest).take n = text)
    (hNonempty : text ≠ []) :
    ∃ pieces', pieces = (kind, text) :: pieces' ∧ spell pieces' = rest ∧
      Spelled s' pieces' final := by
  cases h with
  | nil => exact absurd (List.append_eq_nil_iff.mp hSpell.symm).1 hNonempty
  | @take _ s'' _ kind' n' text' pieces' hStep' hText' _ hRest =>
    have hSame : text' ++ spell pieces' = text ++ rest := hSpell
    rw [hSame] at hStep' hText'
    cases hStep.symm.trans hStep'
    obtain rfl := hText.symm.trans hText'
    exact ⟨pieces', rfl, List.append_cancel_left hSame, hRest⟩

/-- What the lexer takes when another word is in the place of a name after a dot: the same pieces up
to the word, and then whatever it takes of the text after it. -/
theorem Spelled.exists_exchanged {s final final' : Lexer} {front back pieces : List Piece}
    {p w : Text} (hw : IsWord w) (h : Spelled s (front ++ (.token .name, p) :: back) final)
    (hGap : ∀ piece ∈ front.getLast?, Lexer.isGap piece.1 = true) (h' : Spelled s pieces final')
    (hSpell : spell pieces = spell front ++ (w ++ spell back)) :
    ∃ frame depth below back', pieces = front ++ (.token (Terminal.ofWord w), w) :: back' ∧
      spell back' = spell back ∧ Spelled ⟨.code frame depth :: below, some .name⟩ back final ∧
      Spelled ⟨.code frame depth :: below, some (Terminal.ofWord w)⟩ back' final' := by
  induction front generalizing s pieces with
  | nil =>
    obtain ⟨frame, depth, below, hModes, -, hEnd, hBack⟩ := Spelled.name h
    obtain ⟨modes, last⟩ := s
    cases hModes
    have hSome : w ≠ [] := by
      obtain ⟨c, t, rfl, -⟩ := hw.start
      exact List.cons_ne_nil c t
    have hWord : spell pieces = w ++ spell back := hSpell
    obtain ⟨back', rfl, hSame, hBack'⟩ :=
      h'.exists_cons hWord (Lexer.step_of_isWord hw hEnd) List.take_left hSome
    exact ⟨frame, depth, below, back', rfl, hSame, hBack, hBack'⟩
  | cons piece front ih =>
    rw [List.cons_append] at h
    cases h with
    | @take _ s' _ kind n text _ hStep hText hNonempty hRest =>
      rw [spell_cons, List.append_assoc] at hSpell
      obtain ⟨pieces', rfl, hSpell', hRest'⟩ := h'.exists_cons hSpell
        (Spelled.head_exchange hw hStep hText hNonempty hRest hGap) List.take_left hNonempty
      obtain ⟨frame, depth, below, back', rfl, hSame⟩ :=
        ih hRest (forall_getLast?_of_cons hGap) hRest' hSpell'
      exact ⟨frame, depth, below, back', rfl, hSame⟩

theorem Lexer.codeStep_of_step {frame : CodeFrame} {depth : Int} {below : List Mode}
    {last : Option Terminal} {t : Text} {kind : LexemeKind} {n : Nat} {s' : Lexer}
    (h : step ⟨.code frame depth :: below, last⟩ t = some (kind, n, s')) :
    codeStep ⟨.code frame depth :: below, last⟩ frame depth below t = some (kind, n, s'.modes) := by
  obtain ⟨⟨_, _, _⟩, hr, hEq⟩ := Option.map_eq_some_iff.mp h
  cases hEq
  exact hr

/-- Where the first word after another word is of the same kind as after a name, the text from it on
begins in the same way after both. -/
theorem FirstWord.sameAfter {frame : CodeFrame} {depth : Int} {below : List Mode} {k k₁ : Terminal}
    {back back' : List Piece} {final final' : Lexer} {rest : Text} (hFirst : FirstWord back k₁ rest)
    (h : Spelled ⟨.code frame depth :: below, some .name⟩ back final)
    (h' : Spelled ⟨.code frame depth :: below, some k⟩ back' final')
    (hSpell : spell back' = spell back) (hKind : ∀ k₂ t, FirstWord back' k₂ t → k₂ = k₁) :
    Lexer.SameAfter k rest := by
  induction hFirst generalizing depth back' with
  | @here k₁ hLine text pieces =>
    cases h with
    | take hStep _ hNonempty _ =>
    cases h' with
    | nil => exact absurd (List.append_eq_nil_iff.mp hSpell.symm).1 hNonempty
    | @take _ _ _ kind' _ text' pieces' hStep' _ _ _ =>
      have hSame : text' ++ spell pieces' = text ++ spell pieces := hSpell
      rw [hSame] at hStep'
      obtain ⟨hRegex, hOpen⟩ := Lexer.kind_of_codeStep rfl (Lexer.codeStep_of_step hStep)
      cases hEnds : Lexer.endsExpression k with
      | true => exact .inl hEnds
      | false =>
        have hExpects : Lexer.expectsExpression ⟨.code frame depth :: below, some k⟩ = true :=
          congrArg (!·) hEnds
        -- a regular expression or an element would be a first word of another kind
        refine .inr (Lexer.neutral_of_codeStep hExpects (Lexer.codeStep_of_step hStep') ?_ ?_)
        · rintro rfl
          exact hRegex (congrArg _ (hKind _ _ (.here (k := .regex) nofun text' pieces')).symm)
        · rintro rfl
          exact hOpen (congrArg _ (hKind _ _ (.here (k := .jsxOpen) nofun text' pieces')).symm)
  | @later kind hOther text pieces k₁ rest _ ih =>
    cases h with
    | @take _ s' _ _ n _ _ hStep hText hNonempty hRest =>
      have hStep' := Lexer.step_after_name (k := k) hStep fun k' hk hLine =>
        absurd (hOther k' hk) hLine
      have hLast := Lexer.last_step hStep
      have hGap : Lexer.isGap kind = true := by
        cases kind with
        | token k' => rw [hOther k' rfl]; rfl
        | blank => rfl
        | lineComment => rfl
        | blockComment => rfl
      obtain ⟨-, _, _, _, hModes, hModes'⟩ :=
        Lexer.scanned_codeStep (Lexer.codeStep_of_step hStep) (Lexer.isModal_of_isGap hGap)
      cases hModes
      obtain ⟨modes', last'⟩ := s'
      obtain rfl : modes' = .code frame (depth + Lexer.braceStep kind) :: below := hModes'
      rw [Lexer.remember_other hOther] at hLast hStep'
      cases hLast
      obtain ⟨pieces', rfl, hSpell', hRest'⟩ := h'.exists_cons hSpell hStep' hText hNonempty
      exact ih hRest hRest' hSpell' fun k₂ t ht => hKind k₂ t (.later hOther text ht)

end ClientBoundary
