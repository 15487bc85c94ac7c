import ClientBoundary.Proofs.Nesting
import ClientBoundary.Proofs.WordLocality

/-!
# The stack of modes

The lexer takes modes off its stack without looking at what is left: a brace that ends a container
or a substitution takes one, and the end of a closing tag takes two, the tag and what it stands on.
Nothing is ever taken off that is not there, whatever the text. A closing tag begins with a slash,
and code opens a tag only in front of a name or of the end of a tag, so a closing tag stands on
children or on another tag and never on code; and the root is code.

* `Grounded` — the root lies at the bottom, and no closing tag stands on code.
* `Ready` — a stack that is grounded, or that will be once the name of a new tag has been read.
* `Ready.step` — a step of the lexer leaves the stack ready, and takes no mode off that is missing.
* `root_stays_at_bottom` — the root lies at the bottom in every state, and lexing with every access
  to the stack checked is the same as lexing.
-/

namespace ClientBoundary

-- ---------------------------------------------------------------------------------------------
-- Lexing with checks
-- ---------------------------------------------------------------------------------------------

/-- Why lexing breaks off when nothing about its stack is taken for granted. -/
inductive LexFault where
  /-- No lexeme of the innermost mode begins here. -/
  | unexpectedCharacter
  /-- No mode is there to read in, or none would be left. -/
  | emptyStack
  /-- Among children, nothing comes next that is text. -/
  | missingText
deriving DecidableEq, Repr

namespace Mode

/-- Take a mode off the stack; one has to be left. -/
def pop : List Mode → Except LexFault (List Mode)
  | _ :: below :: ms => .ok (below :: ms)
  | _ => .error .emptyStack

/-- The modes after the end of a tag, with each mode taken off separately. -/
def checkedEndTag : List Mode → Except LexFault (List Mode)
  | .tag .opening seen :: below => (pop (.tag .opening seen :: below)).map (.children :: ·)
  | .tag .closing seen :: below => pop (.tag .closing seen :: below) >>= pop
  | .tag .selfClosing seen :: below => pop (.tag .selfClosing seen :: below)
  | ms => .ok ms

/-- The modes after a token, with each mode taken off separately. -/
def checkedNext (ms : List Mode) : Turn → Except LexFault (List Mode)
  | .resume => (pop ms).map (.code .substitution 0 :: ·)
  | .closeSubstitution | .closeContainer => pop ms
  | .closeTag => checkedEndTag ms
  | t => .ok (next ms t)

/-- The fault where the lexer cannot take a step. By then a substitution that a brace closes has been
taken off. -/
def stuck : List Mode → LexFault
  | [] => .emptyStack
  | .children :: _ => .missingText
  | [.code .substitution _] => .emptyStack
  | _ => .unexpectedCharacter

end Mode

namespace Lexer

/-- One step of the lexer with every access to the stack checked. -/
def checkedStep (s : Lexer) (t : Text) : Except LexFault (LexemeKind × Nat × Lexer) :=
  match s.step t with
  | none => .error (Mode.stuck s.modes)
  | some (kind, n, s') =>
    (Mode.checkedNext s.modes kind.turn).map fun ms => (kind, n, { s' with modes := ms })

/-- The lexer comes to stand before the rest `t` of a source. -/
inductive Reached (source : Text) : Lexer → Text → Prop where
  | start : Reached source Lexer.start source
  | step {s s' : Lexer} {t : Text} {kind : LexemeKind} {n : Nat} (h : Reached source s t)
      (hText : t ≠ []) (hStep : s.step t = some (kind, n, s')) : Reached source s' (t.drop n)

end Lexer

/-- Lexing with every access to the stack checked, and the fault with which it breaks off. -/
def checkedLexFrom : (steps : Nat) → Lexer → Place → Text → Lexing × Option LexFault
  | 0, s, p, t => (⟨[], s, if t.isEmpty then none else some p⟩, none)
  | steps + 1, s, p, t =>
    if t.isEmpty then (⟨[], s, none⟩, none)
    else
      match s.checkedStep t with
      | .error fault => (⟨[], s, some p⟩, some fault)
      | .ok (kind, n, s') =>
        let text := t.take n
        let q := p.after text
        let (rest, fault) := checkedLexFrom steps s' q (t.drop n)
        ({ rest with lexemes := ⟨kind, text, p, q⟩ :: rest.lexemes }, fault)

-- ---------------------------------------------------------------------------------------------
-- What is read in which mode
-- ---------------------------------------------------------------------------------------------

/-- What changes at most the number of open braces. -/
def Turn.isPlain (t : Turn) : Bool :=
  t = .plain || t = .joint || t = .lineEnd || t = .openGroup || t = .closeGroup ||
    t = .openBrace || t = .closeBrace

/-- What can be read in a mode. -/
def Mode.allows : Mode → Turn → Bool
  | .code frame _, t => t.isPlain || t = .openTag || t = .openSubstitution ||
      (frame ≠ .root && (t = .resume || t = .closeSubstitution || t = .closeContainer))
  | .tag _ _, t => t = .lineEnd || t = .slash || t = .closeTag || t = .openContainer ||
      t = .openTag || t = .joint || t = .word
  | .children, t => t = .openContainer || t = .openTag || t = .text

namespace Lexer

theorem isPlain_scanCode (t : Text) : ∀ r, scanCode t = some r → r.1.turn.isPlain = true := by
  refine forall_orElse (forall_map fun _ _ => rfl) ?_
  refine forall_orElse (forall_map fun _ _ => rfl) ?_
  refine forall_orElse (forall_map fun _ _ => isPlain_ofWord _) ?_
  refine forall_orElse (forall_map fun _ _ => rfl) ?_
  refine forall_orElse (forall_map fun _ _ => rfl) ?_
  refine forall_orElse (forall_map fun _ _ => rfl) ?_
  exact forall_map fun _ h => isPlain_spelling h

/-- A lexeme that a code mode allows; a tag is opened only before a name or the end of a tag. -/
def ReadInCode (frame : CodeFrame) (depth : Int) (t : Text) (kind : LexemeKind) (n : Nat) : Prop :=
  (Mode.code frame depth).allows kind.turn = true ∧
    (kind.turn = .openTag → Pattern.opensElement (t.drop n) = true)

theorem readInCode_plain {frame : CodeFrame} {depth : Int} {t : Text} {kind : LexemeKind} {n : Nat}
    (h : kind.turn.isPlain = true) : ReadInCode frame depth t kind n := by
  refine ⟨?_, fun hOpen => ?_⟩
  · rw [Mode.allows, h]
    rfl
  · rw [hOpen] at h
    cases h

theorem readInCode_token {frame : CodeFrame} {depth : Int} {t : Text} {k : Terminal} {n : Nat}
    (hAllows : (Mode.code frame depth).allows k.turn = true) (hTurn : k.turn ≠ .openTag) :
    ReadInCode frame depth t (.token k) n :=
  ⟨hAllows, fun hOpen => absurd hOpen hTurn⟩

theorem readInCode_plainStep (frame : CodeFrame) (depth : Int) (below : List Mode) (t : Text) :
    ∀ r, plainStep frame depth below t = some r → ReadInCode frame depth t r.1 r.2.1 :=
  forall_map fun r h => readInCode_plain (isPlain_scanCode t r h)

theorem readInCode_regexOrPlain (isRegex : Bool) (frame : CodeFrame) (depth : Int)
    (below : List Mode) (t : Text) (r : LexemeKind × Nat × List Mode)
    (h : (if isRegex then (Pattern.regex t).map fun n =>
        (LexemeKind.token .regex, n, Mode.code frame depth :: below)
      else plainStep frame depth below t) = some r) : ReadInCode frame depth t r.1 r.2.1 := by
  split at h
  · obtain ⟨n, _, rfl⟩ := Option.map_eq_some_iff.mp h
    exact readInCode_plain rfl
  · exact readInCode_plainStep _ _ _ _ r h

theorem readInCode_codeStep (s : Lexer) (frame : CodeFrame) (depth : Int) (below : List Mode)
    (t : Text) : ∀ r, s.codeStep frame depth below t = some r →
      ReadInCode frame depth t r.1 r.2.1 := by
  intro r h
  unfold codeStep at h
  split at h
  · exact readInCode_regexOrPlain _ _ _ _ _ r h
  · split at h
    · rename_i hOpens
      cases h
      exact ⟨rfl, fun _ => (Bool.and_eq_true_iff.mp hOpens).2⟩
    · exact readInCode_plainStep _ _ _ _ r h
  · obtain ⟨⟨_ | _, n⟩, _, rfl⟩ := Option.map_eq_some_iff.mp h
    · exact readInCode_plain rfl
    · exact readInCode_token rfl (by decide)
  · split at h
    · exact readInCode_plainStep _ _ _ _ r h
    · split at h
      · cases h
        exact readInCode_token rfl (by decide)
      · exact readInCode_plainStep _ _ _ _ r h
    · split at h
      · obtain ⟨⟨_ | _, n⟩, _, rfl⟩ := Option.map_eq_some_iff.mp h <;>
          exact readInCode_token rfl (by decide)
      · exact readInCode_plainStep _ _ _ _ r h
  · exact readInCode_plainStep _ _ _ _ r h

theorem allows_tagStep (role : TagRole) (seen : Nat) (below : List Mode) (t : Text) :
    ∀ r, tagStep role seen below t = some r → (Mode.tag role seen).allows r.1.turn = true := by
  intro r h
  unfold tagStep at h
  dsimp only at h
  split at h
  · cases h
    rfl
  split at h
  · cases h
    rfl
  split at h
  · cases h
    rfl
  split at h
  case h_8 =>
    revert r
    exact forall_orElse (forall_map fun _ _ => rfl) (forall_map fun _ _ => rfl)
  all_goals
    cases h
    rfl

theorem allows_childrenStep (below : List Mode) (t : Text) :
    ∀ r, childrenStep below t = some r → Mode.children.allows r.1.turn = true := by
  intro r h
  unfold childrenStep at h
  split at h
  · cases h
    rfl
  · cases h
    rfl
  · revert r
    exact forall_map fun _ _ => rfl

/-- What a step reads is allowed in the innermost mode, of which there is one. -/
theorem allows_of_step {s s' : Lexer} {t : Text} {kind : LexemeKind} {n : Nat}
    (h : s.step t = some (kind, n, s')) :
    ∃ m below, s.modes = m :: below ∧ m.allows kind.turn = true ∧
      ∀ frame depth, m = .code frame depth → kind.turn = .openTag →
        Pattern.opensElement (t.drop n) = true := by
  obtain ⟨r, hr, hEq⟩ := Option.map_eq_some_iff.mp h
  cases hEq
  split at hr
  · cases hr
  · rename_i frame depth below hModes
    obtain ⟨hAllows, hOpens⟩ := readInCode_codeStep _ _ _ _ _ r hr
    exact ⟨_, _, hModes, hAllows, fun _ _ _ => hOpens⟩
  · rename_i hModes
    exact ⟨_, _, hModes, allows_tagStep _ _ _ _ r hr, nofun⟩
  · rename_i hModes
    exact ⟨_, _, hModes, allows_childrenStep _ _ r hr, nofun⟩

/-- In front of a name or of the end of a tag, that is what is read in a tag. -/
theorem turn_of_opensElement {role : TagRole} {seen : Nat} {below : List Mode} {t : Text}
    (hOpens : Pattern.opensElement t = true) :
    ∀ r, tagStep role seen below t = some r → r.1.turn = .word ∨ r.1.turn = .closeTag := by
  cases t with
  | nil => cases hOpens
  | cons c t =>
    have hMark : c = .char '>' ∨ Pattern.isNameStart c = true := by
      simpa [Pattern.opensElement, or_comm] using hOpens
    have hSlash : c ≠ .char '/' := by
      rintro rfl
      cases hOpens
    have hBlank : Pattern.jsxBlank (c :: t) = none := by
      have hNot : c.isBlank = false := by
        rcases hMark with rfl | hName
        · decide
        · exact Pattern.isBlank_of_isNameStart hName
      rw [Pattern.jsxBlank, Pattern.run, hNot]
      rfl
    have hLine : Pattern.lineComment (c :: t) = none := by
      refine Option.eq_none_iff_forall_ne_some.mpr fun n h => ?_
      obtain ⟨t', hText⟩ := Pattern.exists_of_lineComment h
      exact hSlash (List.cons.inj hText).1
    have hBlock : Pattern.blockComment (c :: t) = none := by
      refine Option.eq_none_iff_forall_ne_some.mpr fun n h => ?_
      obtain ⟨t', hText⟩ := Pattern.exists_of_blockComment h
      exact hSlash (List.cons.inj hText).1
    rw [tagStep_eq, hBlank, hLine, hBlock]
    rcases hMark with rfl | hName
    · rintro r h
      cases h
      exact .inr rfl
    · have hOther : c ∉ tagMarks := by
        intro hMem
        have hAll : ∀ g ∈ tagMarks, Pattern.isNameStart g = false := by decide
        rw [hAll c hMem] at hName
        cases hName
      dsimp only
      rw [tagToken_other hOther]
      exact forall_orElse (forall_map fun _ _ => .inl rfl) (forall_map fun _ _ => .inl rfl)

/-- Among children every text goes on. -/
theorem childrenStep_isSome (below : List Mode) {t : Text} (ht : t ≠ []) :
    (childrenStep below t).isSome = true := by
  obtain ⟨c, t, rfl⟩ := List.exists_cons_of_ne_nil ht
  unfold childrenStep
  split
  · rfl
  · rfl
  · rename_i hBrace hTag
    have hText : (c ≠ .char '\x7b' && c ≠ .char '<') = true := by
      rw [Bool.and_eq_true, decide_eq_true_eq, decide_eq_true_eq]
      exact ⟨fun h => hBrace t (by rw [h]), fun h => hTag t (by rw [h])⟩
    rw [Option.isSome_map, Pattern.jsxText, Pattern.run, if_pos hText]
    rfl

end Lexer

-- ---------------------------------------------------------------------------------------------
-- Grounded stacks
-- ---------------------------------------------------------------------------------------------

namespace Mode

/-- The innermost mode reads code. -/
def inCode : List Mode → Bool
  | .code _ _ :: _ => true
  | _ => false

/-- A stack with the root at its bottom, on which a tag that stands on code has been begun and does
not close. -/
inductive Grounded : List Mode → Prop where
  | root (depth : Int) : Grounded [.code .root depth]
  | code {frame : CodeFrame} {depth : Int} {ms : List Mode} (hFrame : frame ≠ .root)
      (h : Grounded ms) : Grounded (.code frame depth :: ms)
  | tag {role : TagRole} {seen : Nat} {ms : List Mode}
      (hCode : inCode ms = true → role ≠ .closing ∧ seen ≠ 0) (h : Grounded ms) :
      Grounded (.tag role seen :: ms)
  | children {ms : List Mode} (h : Grounded ms) : Grounded (.children :: ms)

/-- The root lies at the bottom of a stack, and nowhere else. -/
def Rooted (ms : List Mode) : Prop :=
  ∃ above depth, ms = above ++ [.code .root depth] ∧ ∀ m ∈ above, ∀ d, m ≠ .code .root d

theorem Rooted.cons {m : Mode} {ms : List Mode} (h : Rooted ms) (hm : ∀ d, m ≠ .code .root d) :
    Rooted (m :: ms) := by
  obtain ⟨above, depth, rfl, hAbove⟩ := h
  exact ⟨m :: above, depth, rfl, List.forall_mem_cons.mpr ⟨hm, hAbove⟩⟩

namespace Grounded

variable {frame : CodeFrame} {depth : Int} {role : TagRole} {seen : Nat} {ms : List Mode}

theorem rooted (h : Grounded ms) : Rooted ms := by
  induction h with
  | root depth => exact ⟨[], depth, rfl, List.forall_mem_nil _⟩
  | code hFrame _ ih =>
    refine ih.cons fun d hRoot => hFrame ?_
    cases hRoot
    rfl
  | tag _ _ ih => exact ih.cons fun d hRoot => by cases hRoot
  | children _ ih => exact ih.cons fun d hRoot => by cases hRoot

theorem exists_cons (h : Grounded ms) : ∃ m below, ms = m :: below := by
  cases h with
  | _ => exact ⟨_, _, rfl⟩

theorem pop_eq (h : Grounded ms) (m : Mode) : pop (m :: ms) = .ok ms := by
  obtain ⟨m', below, rfl⟩ := h.exists_cons
  rfl

theorem deepen (h : Grounded (.code frame depth :: ms)) (depth' : Int) :
    Grounded (.code frame depth' :: ms) := by
  cases h with
  | root => exact .root depth'
  | code hFrame h => exact .code hFrame h

theorem below_code (h : Grounded (.code frame depth :: ms)) (hFrame : frame ≠ .root) :
    Grounded ms := by
  cases h with
  | root => exact absurd rfl hFrame
  | code _ h => exact h

theorem begin (h : Grounded (.tag role seen :: ms)) : Grounded (.tag role (seen + 1) :: ms) := by
  cases h with
  | tag hCode h => exact .tag (fun hIn => ⟨(hCode hIn).1, Nat.succ_ne_zero _⟩) h

/-- What a closing tag stands on can be taken off as well: it is not the root. -/
theorem below_closing (h : Grounded (.tag .closing seen :: ms)) :
    ∃ m below, ms = m :: below ∧ Grounded ms ∧ Grounded below := by
  cases h with
  | tag hCode h =>
    have hNot : inCode ms ≠ true := fun hIn => (hCode hIn).1 rfl
    cases h with
    | root | code => exact absurd rfl hNot
    | tag hCode' h' => exact ⟨_, _, rfl, .tag hCode' h', h'⟩
    | children h' => exact ⟨_, _, rfl, .children h', h'⟩

/-- What is read in code and opens no tag keeps the stack grounded. -/
theorem next_code (h : Grounded (.code frame depth :: ms)) {t : Turn}
    (hAllows : (Mode.code frame depth).allows t = true) (hTurn : t ≠ .openTag) :
    Grounded (next (.code frame depth :: ms) t) ∧
      checkedNext (.code frame depth :: ms) t = .ok (next (.code frame depth :: ms) t) := by
  have hFrame (hLeave : t = .resume ∨ t = .closeSubstitution ∨ t = .closeContainer) :
      frame ≠ .root := by
    rintro rfl
    rcases hLeave with rfl | rfl | rfl <;> cases hAllows
  cases t with
  | lineEnd | plain | openGroup | closeGroup | joint => exact ⟨h, rfl⟩
  | openBrace | closeBrace => exact ⟨h.deepen _, rfl⟩
  | openSubstitution => exact ⟨.code (by decide) h, rfl⟩
  | resume =>
    have hBelow := h.below_code (hFrame (.inl rfl))
    refine ⟨.code (by decide) hBelow, ?_⟩
    rw [checkedNext, hBelow.pop_eq]
    rfl
  | closeSubstitution =>
    have hBelow := h.below_code (hFrame (.inr (.inl rfl)))
    exact ⟨hBelow, hBelow.pop_eq _⟩
  | closeContainer =>
    have hBelow := h.below_code (hFrame (.inr (.inr rfl)))
    exact ⟨hBelow, hBelow.pop_eq _⟩
  | openTag => exact absurd rfl hTurn
  | openContainer | slash | closeTag | word | text => cases frame <;> cases hAllows

/-- What is read in a tag keeps the stack grounded. -/
theorem next_tag (h : Grounded (.tag role seen :: ms)) {t : Turn}
    (hAllows : (Mode.tag role seen).allows t = true) :
    Grounded (next (.tag role seen :: ms) t) ∧
      checkedNext (.tag role seen :: ms) t = .ok (next (.tag role seen :: ms) t) := by
  cases t with
  | lineEnd => exact ⟨h, rfl⟩
  | joint | word => exact ⟨h.begin, rfl⟩
  | openContainer => exact ⟨.code (by decide) h.begin, rfl⟩
  | openTag => exact ⟨.tag (fun hIn => by cases hIn) h.begin, rfl⟩
  | slash =>
    cases h with
    | tag hCode h =>
      refine ⟨.tag (fun hIn => ⟨?_, Nat.succ_ne_zero _⟩) h, rfl⟩
      rw [if_neg (hCode hIn).2]
      decide
  | closeTag =>
    have hBelow : Grounded ms := by
      cases h with
      | tag _ h => exact h
    cases role with
    | opening =>
      refine ⟨.children hBelow, ?_⟩
      rw [checkedNext, checkedEndTag, hBelow.pop_eq]
      rfl
    | selfClosing => exact ⟨hBelow, hBelow.pop_eq _⟩
    | closing =>
      obtain ⟨m, below, rfl, -, hBelow'⟩ := h.below_closing
      refine ⟨hBelow', ?_⟩
      rw [checkedNext, checkedEndTag, hBelow.pop_eq]
      exact hBelow'.pop_eq m
  | _ => cases hAllows

/-- What is read among children keeps the stack grounded. -/
theorem next_children (h : Grounded (.children :: ms)) {t : Turn}
    (hAllows : Mode.children.allows t = true) :
    Grounded (next (.children :: ms) t) ∧
      checkedNext (.children :: ms) t = .ok (next (.children :: ms) t) := by
  cases t with
  | text => exact ⟨h, rfl⟩
  | openContainer => exact ⟨.code (by decide) h, rfl⟩
  | openTag => exact ⟨.tag (fun hIn => by cases hIn) h, rfl⟩
  | _ => cases hAllows

end Grounded

end Mode

-- ---------------------------------------------------------------------------------------------
-- Every state
-- ---------------------------------------------------------------------------------------------

namespace Lexer

open Mode (Grounded Rooted checkedNext)

/-- A stack in front of a text: it is grounded, or it is but for a new tag, the name or the end of
which comes next. -/
def Ready (ms : List Mode) (t : Text) : Prop :=
  Grounded ms ∨
    ∃ below, ms = .tag .opening 0 :: below ∧ Grounded below ∧ Pattern.opensElement t = true

theorem Ready.rooted {ms : List Mode} {t : Text} (h : Ready ms t) : Rooted ms := by
  rcases h with h | ⟨below, rfl, h, -⟩
  · exact h.rooted
  · exact h.rooted.cons fun d hRoot => by cases hRoot

variable {s s' : Lexer} {t : Text} {kind : LexemeKind} {n : Nat}

theorem checkedStep_eq_ok (hStep : s.step t = some (kind, n, s'))
    (hNext : checkedNext s.modes kind.turn = .ok (Mode.next s.modes kind.turn)) :
    s.checkedStep t = .ok (kind, n, s') := by
  have hModes := next_of_step hStep
  rw [checkedStep, hStep]
  dsimp only
  rw [hNext, ← hModes]
  rfl

/-- A step from a stack that is ready leads to one that is, and no mode is taken off that is not
there. -/
theorem Ready.step (h : Ready s.modes t) (hStep : s.step t = some (kind, n, s')) :
    Ready s'.modes (t.drop n) ∧ s.checkedStep t = .ok (kind, n, s') := by
  have hModes := next_of_step hStep
  obtain ⟨m, below, hTop, hAllows, hOpens⟩ := allows_of_step hStep
  suffices hNext : Ready (Mode.next s.modes kind.turn) (t.drop n) ∧
      checkedNext s.modes kind.turn = .ok (Mode.next s.modes kind.turn) by
    rw [hModes]
    exact ⟨hNext.1, checkedStep_eq_ok hStep hNext.2⟩
  rcases h with h | ⟨below', hNew, hBelow, hElement⟩
  · rw [hTop] at h ⊢
    cases m with
    | code frame depth =>
      by_cases hTurn : kind.turn = .openTag
      · -- a new tag stands on code, and its name or its end comes next
        rw [hTurn]
        exact ⟨.inr ⟨_, rfl, h, hOpens frame depth rfl hTurn⟩, rfl⟩
      · exact (h.next_code hAllows hTurn).imp_left .inl
    | tag role seen => exact (h.next_tag hAllows).imp_left .inl
    | children => exact (h.next_children hAllows).imp_left .inl
  · rw [hNew]
    obtain ⟨r, hr, hEq⟩ := Option.map_eq_some_iff.mp hStep
    cases hEq
    rw [hNew] at hr
    rcases turn_of_opensElement hElement r hr with hTurn | hTurn
    · rw [hTurn]
      exact ⟨.inl (.tag (fun _ => ⟨by decide, Nat.succ_ne_zero _⟩) hBelow), rfl⟩
    · rw [hTurn]
      refine ⟨.inl (.children hBelow), ?_⟩
      rw [checkedNext, Mode.checkedEndTag, hBelow.pop_eq]
      rfl

/-- Where the lexer cannot take a step, no lexeme begins; its stack is as it should be. -/
theorem Ready.stuck (h : Ready s.modes t) (ht : t ≠ []) (hStep : s.step t = none) :
    s.checkedStep t = .error .unexpectedCharacter := by
  suffices hStuck : Mode.stuck s.modes = .unexpectedCharacter by
    rw [checkedStep, hStep]
    exact congrArg _ hStuck
  have hNone := Option.map_eq_none_iff.mp hStep
  rcases h with h | ⟨below, hNew, -, -⟩
  · generalize hModes : s.modes = ms at h hNone ⊢
    cases h with
    | root => rfl
    | @code frame depth ms hFrame h =>
      obtain ⟨m, below, rfl⟩ := h.exists_cons
      cases frame <;> rfl
    | tag => rfl
    | @children ms h =>
      have hSome := childrenStep_isSome ms ht
      have hNoText : childrenStep ms t = none := hNone
      rw [hNoText] at hSome
      cases hSome
  · rw [hNew]
    rfl

theorem Reached.ready {source : Text} (h : Reached source s t) : Ready s.modes t := by
  induction h with
  | start => exact .inl (.root 0)
  | step _ _ hStep ih => exact (ih.step hStep).1

end Lexer

/-- Lexing with checks is lexing, from a stack that is ready. -/
theorem checkedLexFrom_eq (steps : Nat) {s : Lexer} (p : Place) {t : Text}
    (h : Lexer.Ready s.modes t) (hSteps : t.length ≤ steps) :
    checkedLexFrom steps s p t =
      (lexFrom steps s p t,
        (lexFrom steps s p t).failure.map fun _ => LexFault.unexpectedCharacter) := by
  induction steps generalizing s p t with
  | zero =>
    obtain rfl : t = [] := List.eq_nil_of_length_eq_zero (by omega)
    rfl
  | succ steps ih =>
    rw [checkedLexFrom, lexFrom]
    by_cases hEmpty : t = []
    · rw [hEmpty]
      rfl
    · have hNot : ¬ t.isEmpty = true := by simpa using hEmpty
      rw [if_neg hNot, if_neg hNot]
      cases hStep : s.step t with
      | none => rw [h.stuck hEmpty hStep]; rfl
      | some r =>
        obtain ⟨kind, n, s'⟩ := r
        obtain ⟨hReady, hChecked⟩ := h.step hStep
        have hFewer : (t.drop n).length ≤ steps := by
          have hPos := Lexer.pos_of_step hStep
          have hLength := List.length_pos_iff.mpr hEmpty
          rw [List.length_drop]
          omega
        rw [hChecked]
        dsimp only
        rw [ih _ hReady hFewer]

/-- Whatever the text, the root lies at the bottom of the stack in every state that the lexer comes
to. No mode is taken off that is not there, none is taken off so that none is left, and where lexing
breaks off it does so because no lexeme begins there. -/
theorem root_stays_at_bottom (source : Text) :
    (∀ s t, Lexer.Reached source s t → Mode.Rooted s.modes) ∧
      checkedLexFrom source.length Lexer.start Place.start source =
        (lex source, (lex source).failure.map fun _ => LexFault.unexpectedCharacter) :=
  ⟨fun _ _ h => h.ready.rooted,
    checkedLexFrom_eq source.length Place.start (.inl (.root 0)) (Nat.le_refl _)⟩

end ClientBoundary
