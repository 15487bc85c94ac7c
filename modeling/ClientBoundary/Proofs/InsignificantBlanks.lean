import ClientBoundary.Proofs.BlankLocality
import ClientBoundary.Proofs.ModeStack
import ClientBoundary.Proofs.OptionalSemicolon
import ClientBoundary.Proofs.SameTokens
import Mathlib.Data.List.Chain

/-!
# Insignificant blanks

Blanks and block comments may be put after any token that leaves the lexer in code, without a change
to how the source is read. The lexer takes the pieces before the new text as it did before
(`Spells.spaced`), it takes the new text as blanks and comments, and then it is in the state in which
it took the pieces after it; so the tokens are the same.

A `/` followed by a `*` is the only thing in the way: if no comment ends later they are two tokens,
and a new comment would give them an end. No sentence has such tokens side by side, since nothing
but an operand comes after a sign of division (`follows_slash`).
-/

namespace ClientBoundary

-- ---------------------------------------------------------------------------------------------
-- What comes after a terminal
-- ---------------------------------------------------------------------------------------------

namespace Grammar

variable {N : Type} {V : N → Type} {G : Grammar V}

/-- After the terminal `a` a phrase goes on, with a terminal in `ok`. -/
structure LeadsTo (G : Grammar V) (a : Terminal) (good : N → Bool) (ok : Terminal → Bool) :
    Prop where
  filled : ∀ n, [] ∉ G.shape n
  begins : BeginsIn G good ok
  last : ∀ n, ∀ α ∈ G.shape n, α.getLast? ≠ some (.tok a)
  next : ∀ n, ∀ α ∈ G.shape n,
    α.IsChain fun x y => x = .tok a → startsIn good ok y = true

variable {a : Terminal} {good : N → Bool} {ok : Terminal → Bool}

mutual

theorem Tree.follows (h : LeadsTo G a good ok) : {s : Symbol N} → (tree : Tree G s) →
    tree.yield.IsChain (fun x y => x.kind = a → ok y.kind = true) ∧
      (s ≠ .tok a → ∀ x ∈ tree.yield.getLast?, x.kind ≠ a)
  | _, .leaf k token hKind => by
    refine ⟨.singleton _, fun hs x hx hLast => hs ?_⟩
    obtain rfl : token = x := Option.some.inj hx
    rw [← hKind, hLast]
  | _, .node n i children => by
    obtain ⟨hChain, hLast⟩ := Forest.follows h children (h.next n _ (mem_shape n i))
    exact ⟨hChain, fun _ => hLast (h.last n _ (mem_shape n i))⟩

theorem Forest.follows (h : LeadsTo G a good ok) : {ss : List (Symbol N)} → (f : Forest G ss) →
    (ss.IsChain fun x y => x = .tok a → startsIn good ok y = true) →
    f.yield.IsChain (fun x y => x.kind = a → ok y.kind = true) ∧
      (ss.getLast? ≠ some (.tok a) → ∀ x ∈ f.yield.getLast?, x.kind ≠ a)
  | _, .nil, _ => ⟨.nil, fun _ => by simp [Forest.yield]⟩
  | _, .cons s ss tree rest, hNext => by
    obtain ⟨hChain, hLast⟩ := Tree.follows h tree
    obtain ⟨hChains, hLasts⟩ := Forest.follows h rest hNext.tail
    rw [Forest.yield]
    refine ⟨List.isChain_append.mpr ⟨hChain, hChains, fun x hx y hy hKind => ?_⟩, fun hEnd x hx => ?_⟩
    · -- the last token of the first part is `a` only if this part is the token itself
      have hSymbol : s = .tok a := by
        by_contra hs
        exact hLast hs x hx hKind
      cases ss with
      | nil =>
        cases rest
        simp [Forest.yield] at hy
      | cons s' ss =>
        have hBegins := (List.isChain_cons_cons.mp hNext).1 hSymbol
        obtain ⟨token, hFirst, hOk⟩ := Forest.exists_head h.begins rest hBegins
        rw [hFirst] at hy
        obtain rfl : token = y := Option.some.inj hy
        exact hOk
    · cases ss with
      | nil =>
        cases rest
        rw [Forest.yield, List.append_nil] at hx
        exact hLast (fun hs => hEnd (by rw [hs]; rfl)) x hx
      | cons s' ss =>
        have hPos := rest.yield_pos h.filled (by simp)
        rw [List.getLast?_append_of_ne_nil _ (List.length_pos_iff.mp hPos)] at hx
        exact hLasts (by rwa [List.getLast?_cons_cons] at hEnd) x hx

end

end Grammar

open Grammar

/-- The categories of phrases that begin with no star and no assignment. -/
def beginsWithOperand : Category → Bool
  | .namespaceSpec | .assignOp | .methodDef | .methodLike | .prop | .props | .classMethod
  | .classItem | .classItems => false
  | _ => true

/-- A terminal that begins with no star. -/
def isOperand (t : Terminal) : Bool := t ≠ .star && t ≠ .compoundAssign

theorem leadsTo_operand : LeadsTo moduleGrammar .mulOp beginsWithOperand isOperand := by
  have hAll : ∀ n ∈ Category.all, ∀ α ∈ moduleGrammar.shape n,
      (beginsWithOperand n = true →
        α.head?.any (startsIn beginsWithOperand isOperand) = true) ∧
      α.getLast? ≠ some (.tok .mulOp) ∧
      α.IsChain fun x y => x = .tok .mulOp → startsIn beginsWithOperand isOperand y = true := by
    decide +kernel
  have hShape (n : Category) := hAll n (Category.mem_all n)
  exact ⟨moduleLayout_facts.filled, fun n hn α hα => (hShape n α hα).1 hn,
    fun n α hα => (hShape n α hα).2.1, fun n α hα => (hShape n α hα).2.2⟩

/-- In a source that is read, an operand comes after every sign of division. -/
theorem follows_slash {source : Text} {file : Option Text} {parsed : ParsedModule}
    (hRead : parseModule source file = .ok parsed) {front back : List Token} {x y : Token}
    (hTokens : (lex source).tokens = front ++ x :: y :: back) (hx : x.kind = .mulOp) :
    isOperand y.kind = true := by
  by_contra hy
  have hLine : y.kind ≠ .newline := by
    intro hKind
    rw [hKind] at hy
    exact hy rfl
  have hBrace : y.kind ≠ .rbrace := by
    intro hKind
    rw [hKind] at hy
    exact hy rfl
  obtain ⟨tree, hFrom⟩ := parseModule_eq_ok hRead
  -- nothing is inserted between the two tokens
  obtain ⟨inserted, -, hStep⟩ :=
    (Insertion.run {} front).2.step_word (t := x) (by rw [hx]; decide)
  have hPut : (lex source).statements = ((Insertion.run {} front).1 ++ inserted) ++
      x :: y :: (Insertion.rightAfter (Insertion.bracketsAfter
        (Insertion.openAfter (Insertion.run {} front).2.brackets (Insertion.run {} front).2.last
          (inserted ++ [x])) (some x.kind) y.kind) y none).put back := by
    rw [Lexing.statements_eq_put hFrom.lexed, hTokens, Insertion.put_append, Insertion.put_cons,
      hStep, Insertion.put_unsettled hLine rfl]
    · simp
    · exact close_eq_none (by simp [hBrace])
  rw [← hFrom.tokens] at hPut
  cases tree with
  | none => simp [treeTokens] at hPut
  | some tree =>
    have hChain := (Tree.follows leadsTo_operand tree).1
    rw [show tree.yield = _ from hPut] at hChain
    have hPair := (List.isChain_append.mp hChain).2.1
    exact hy ((List.isChain_cons_cons.mp hPair).1 hx)

-- ---------------------------------------------------------------------------------------------
-- Openings of comments
-- ---------------------------------------------------------------------------------------------

/-- Among some pieces, no token that begins with a star comes right after a sign of division. -/
def SlashesApart (pieces : List Piece) : Prop :=
  ∀ front k text text' back,
    pieces = front ++ (.token .mulOp, text) :: (.token k, text') :: back → isOperand k = true

theorem SlashesApart.tail {piece : Piece} {pieces : List Piece}
    (h : SlashesApart (piece :: pieces)) : SlashesApart pieces := by
  rintro front k text text' back rfl
  exact h (piece :: front) k text text' back (by rw [List.cons_append])

theorem slashesApart_of_read {source : Text} {file : Option Text} {parsed : ParsedModule}
    (hRead : parseModule source file = .ok parsed) {pieces : List Piece}
    (hLexemes : (lex source).lexemes = placed Place.start pieces) : SlashesApart pieces := by
  rintro front k text text' back rfl
  have hTokens : (lex source).tokens = tokensFrom Place.start
      (front ++ (.token .mulOp, text) :: (.token k, text') :: back) := by
    rw [Lexing.tokens, hLexemes]
    rfl
  rw [tokensFrom_append, tokensFrom_token, tokensFrom_token] at hTokens
  exact follows_slash hRead hTokens rfl

/-- What begins with a star in code is a star or an assignment. -/
theorem Lexer.step_star {frame : CodeFrame} {depth : Int} {below : List Mode}
    {last : Option Terminal} {t : Text} {kind : LexemeKind} {n : Nat} {s' : Lexer}
    (h : step ⟨.code frame depth :: below, last⟩ (.char '*' :: t) = some (kind, n, s')) :
    ∃ k, kind = .token k ∧ isOperand k = false := by
  have hStep : step ⟨.code frame depth :: below, last⟩ (.char '*' :: t) =
      (Pattern.spelling (.char '*' :: t)).map fun r =>
        (.token r.1, r.2, ⟨.code frame (depth + braceStep (.token r.1)) :: below,
          remember last (.token r.1)⟩) := by
    show Option.map _ (Option.map _ (Option.map _ _)) = _
    rw [Option.map_map, Option.map_map]
    rfl
  rw [hStep] at h
  obtain ⟨⟨k, m⟩, hSpelling, hEq⟩ := Option.map_eq_some_iff.mp h
  cases hEq
  obtain ⟨spelled, hFind, hEq⟩ := Option.map_eq_some_iff.mp hSpelling
  cases hEq
  have hAll : ∀ s ∈ Terminal.spellings, (Text.ofString s.1).head? = some (.char '*') →
      isOperand s.2 = false := by decide
  refine ⟨_, rfl, hAll spelled (List.mem_of_find?_eq_some hFind) ?_⟩
  have hStarts := List.find?_some hFind
  have hPrefix := Pattern.startsWith_iff.mp hStarts
  have hSome : ∀ s ∈ Terminal.spellings, Text.ofString s.1 ≠ [] := by decide
  obtain ⟨c, w, hw⟩ := List.exists_cons_of_ne_nil (hSome spelled (List.mem_of_find?_eq_some hFind))
  rw [hw] at hPrefix ⊢
  rw [(List.cons_prefix_cons.mp hPrefix).1]
  rfl

/-- Where signs of division have operands after them, a slash and a star open a comment that ends. -/
theorem Spelled.endsComment {s final : Lexer} {pieces : List Piece} (h : Spelled s pieces final)
    (hApart : SlashesApart pieces) (hMode : ∀ below, s.modes ≠ .children :: below) :
    Pattern.EndsComment (spell pieces) := by
  intro v hv hNone
  cases h with
  | nil => cases hv
  | @take _ s' _ kind n text pieces hStep hText hNonempty hRest =>
    have hDrop := drop_of_take hText
    rw [spell_cons] at hv hNone
    rw [hv] at hStep hText hNone hDrop
    obtain ⟨modes, last⟩ := s
    cases modes with
    | nil => cases hStep
    | cons mode below =>
      cases mode with
      | children => exact hMode below rfl
      | code frame depth =>
        -- a sign of division, and after it a token that begins with a star
        have hSlash : Lexer.step ⟨.code frame depth :: below, last⟩
            (.char '/' :: .char '*' :: v) =
            some (.token .mulOp, 1, ⟨.code frame (depth + 0) :: below, some .mulOp⟩) := by
          have hScan : Lexer.scanCode (.char '/' :: .char '*' :: v) = some (.token .mulOp, 1) := by
            rw [Lexer.scanCode, hNone]
            rfl
          rw [Lexer.step]
          simp only [Lexer.codeStep_slash, Lexer.opensComment, Bool.not_true, Bool.and_false,
            Bool.false_eq_true, if_false, Lexer.plainStep, hScan]
          rfl
        rw [hSlash] at hStep
        cases hStep
        cases hRest with
        | nil => simp [spell] at hDrop
        | @take _ _ _ kind' n' text' pieces' hStep' _ _ _ =>
          rw [← spell_cons kind' text', ← hDrop] at hStep'
          obtain ⟨k, rfl, hk⟩ := Lexer.step_star hStep'
          rw [hApart [] k text text' pieces' rfl] at hk
          cases hk
      | tag role seen =>
        -- a slash, and after it nothing that could stand in a tag
        have hSlash : ∃ role', Lexer.step ⟨.tag role seen :: below, last⟩
            (.char '/' :: .char '*' :: v) =
            some (.token .jsxSlash, 1, ⟨.tag role' (seen + 1) :: below, some .jsxSlash⟩) := by
          have hTag := Lexer.tagStep_eq role seen below (.char '/' :: .char '*' :: v)
          rw [hNone] at hTag
          rw [Lexer.step]
          simp only [hTag]
          exact ⟨_, rfl⟩
        obtain ⟨role', hSlash⟩ := hSlash
        rw [hSlash] at hStep
        cases hStep
        cases hRest with
        | nil => simp [spell] at hDrop
        | @take _ _ _ kind' n' text' pieces' hStep' _ _ _ =>
          rw [← spell_cons kind' text', ← hDrop] at hStep'
          cases hStep'

-- ---------------------------------------------------------------------------------------------
-- The pieces before a place
-- ---------------------------------------------------------------------------------------------

/-- In front of `rest` the lexer takes one piece after the other. -/
inductive Spells (rest : Text) : Lexer → List Piece → Lexer → Prop where
  | nil (s : Lexer) : Spells rest s [] s
  | cons {s s' s'' : Lexer} {kind : LexemeKind} {text : Text} {pieces : List Piece}
      (hStep : s.step (text ++ (spell pieces ++ rest)) = some (kind, text.length, s'))
      (hRest : Spells rest s' pieces s'') : Spells rest s ((kind, text) :: pieces) s''

theorem Spells.append {rest : Text} {s s' final : Lexer} {front back : List Piece}
    (h : Spells rest s front s') (hBack : Spelled s' back final) (hRest : spell back = rest) :
    Spelled s (front ++ back) final := by
  subst hRest
  induction h with
  | nil s => exact hBack
  | cons hStep _ ih =>
    rw [List.cons_append]
    refine .cons ?_ (ih hBack)
    rw [spell_append]
    exact hStep

theorem Spells.concat {rest : Text} {s s' s'' : Lexer} {pieces : List Piece} {kind : LexemeKind}
    {text : Text} (h : Spells (text ++ rest) s pieces s')
    (hStep : s'.step (text ++ rest) = some (kind, text.length, s'')) :
    Spells rest s (pieces ++ [(kind, text)]) s'' := by
  induction h with
  | nil s => exact .cons hStep (.nil _)
  | cons hFirst _ ih =>
    rw [List.cons_append]
    refine .cons ?_ (ih hStep)
    rw [spell_append, List.append_assoc]
    simpa [spell] using hFirst

/-- The pieces before a text that is reached. -/
theorem Lexer.Reached.spells {source t : Text} {s : Lexer} (h : Reached source s t) (ht : t ≠ []) :
    ∃ front, spell front ++ t = source ∧ Spells t Lexer.start front s := by
  induction h with
  | start => exact ⟨[], rfl, .nil _⟩
  | @step s s' t kind n _ hText hStep ih =>
    obtain ⟨front, rfl, hSpells⟩ := ih hText
    have hLength : (t.take n).length = n := by
      rw [List.length_take, Nat.min_eq_left]
      have hPos := List.length_pos_iff.mpr ht
      rw [List.length_drop] at hPos
      omega
    have hSplit : t.take n ++ t.drop n = t := List.take_append_drop n t
    have hFront : Spells (t.take n ++ t.drop n) Lexer.start front s := by rwa [hSplit]
    refine ⟨front ++ [(kind, t.take n)], by simp [spell], hFront.concat ?_⟩
    rw [hSplit, hLength]
    exact hStep

/-- What comes after these pieces. -/
theorem Spells.exists_back {rest : Text} {s s' final : Lexer} {front pieces : List Piece}
    (h : Spells rest s front s') (hSpelled : Spelled s pieces final)
    (hSpell : spell pieces = spell front ++ rest) :
    ∃ back, pieces = front ++ back ∧ spell back = rest ∧ Spelled s' back final := by
  induction h generalizing pieces with
  | nil s => exact ⟨pieces, rfl, hSpell, hSpelled⟩
  | @cons s s' s'' kind text front hStep _ ih =>
    rw [spell_cons, List.append_assoc] at hSpell
    cases hSpelled with
    | nil =>
      have hPos := Lexer.pos_of_step hStep
      have hLength := congrArg List.length hSpell
      simp only [spell, List.flatMap_nil, List.length_nil, List.length_append] at hLength
      omega
    | @take _ _ _ kind' n text' pieces hStep' hText _ hRest =>
      rw [spell_cons] at hSpell
      have hSame := hStep'
      rw [hSpell, hStep] at hSame
      cases hSame
      have hFirst : text = text' := by rw [← hText, hSpell, List.take_left]
      subst hFirst
      obtain ⟨back, rfl, hBack⟩ := ih hRest (List.append_cancel_left hSpell)
      exact ⟨back, rfl, hBack⟩

-- ---------------------------------------------------------------------------------------------
-- Blanks and comments that are put in
-- ---------------------------------------------------------------------------------------------

/-- A token in front of the text `post` that leads from `s` into code, with the pieces after it. -/
structure IntoCode (s s' : Lexer) (k : Terminal) (token post : Text) : Prop where
  step : s.step (token ++ post) = some (.token k, token.length, s')
  code : ∃ frame depth below, s'.modes = .code frame depth :: below

/-- A blank after a token that leads into code changes nothing before the blank. -/
theorem Spells.spaced {s s₁ s₂ final : Lexer} {front back : List Piece} {k : Terminal}
    {token : Text} {b : CodePoint} (hb : Pattern.isSpace b = true)
    (h : Spells (token ++ spell back) s front s₁) (hToken : IntoCode s₁ s₂ k token (spell back))
    (hBack : Spelled s₂ back final) (hApart : SlashesApart (front ++ (.token k, token) :: back))
    (t : Text) : Spells (token ++ b :: t) s front s₁ ∧ IntoCode s₁ s₂ k token (b :: t) := by
  have hNonempty : token ≠ [] := List.length_pos_iff.mp (Lexer.pos_of_step hToken.step)
  have hSpelled : Spelled s₁ ((.token k, token) :: back) final := .cons hToken.step hBack
  induction h with
  | nil s =>
    refine ⟨.nil s, ?_, hToken.code⟩
    exact Lexer.step_spaced hb hNonempty (hSpelled.endsComment hApart) hToken.step
      ⟨Nat.le_refl _, fun _ => ⟨k, rfl⟩⟩ (fun _ => hToken.code) t
  | @cons s s' s₁ kind text front hStep hFront ih =>
    obtain ⟨hSpells, hInto⟩ := ih hToken hApart.tail hSpelled
    refine ⟨.cons ?_ hSpells, hInto⟩
    have hAll : Spelled s ((kind, text) :: (front ++ (.token k, token) :: back)) final := by
      refine .cons ?_ (hFront.append hSpelled rfl)
      rw [spell_append]
      exact hStep
    have hEnds := hAll.endsComment hApart
    have hOld : text ++ (spell front ++ (token ++ spell back)) =
        (text ++ (spell front ++ token)) ++ spell back := by simp
    have hNew : text ++ (spell front ++ (token ++ b :: t)) =
        (text ++ (spell front ++ token)) ++ b :: t := by simp
    rw [spell_cons, spell_append, spell_cons, hOld] at hEnds
    rw [hOld] at hStep
    have hPos := Lexer.pos_of_step hToken.step
    have hLength : (text ++ (spell front ++ token)).length =
        text.length + ((spell front).length + token.length) := by simp
    rw [hNew]
    exact Lexer.step_spaced hb (by simp [hNonempty]) hEnds hStep ⟨by omega, fun hEnd => by omega⟩
      (fun hEnd => by omega) t

/-- The tokens among some pieces, without their places. -/
def bareTokens (pieces : List Piece) : List Token := (tokensFrom Place.start pieces).map Token.bare

theorem bareTokens_append (pieces pieces' : List Piece) :
    bareTokens (pieces ++ pieces') = bareTokens pieces ++ bareTokens pieces' := by
  rw [bareTokens, tokensFrom_append, List.map_append,
    bare_tokensFrom (Place.start.after (spell pieces)) Place.start]
  rfl

theorem bareTokens_cons {kind : LexemeKind} (hKind : ∀ k, kind ≠ .token k) (text : Text)
    (pieces : List Piece) : bareTokens ((kind, text) :: pieces) = bareTokens pieces := by
  rw [bareTokens, tokensFrom_other _ hKind, bare_tokensFrom _ Place.start]
  rfl

theorem Pattern.run_append_of_forall {p : CodePoint → Bool} {g : Text} (hg : ∀ c ∈ g, p c = true)
    (t : Text) : run p (g ++ t) = g.length + run p t := by
  induction g with
  | nil => simp
  | cons c g ih =>
    obtain ⟨hc, hRest⟩ := List.forall_mem_cons.mp hg
    rw [List.cons_append, run, if_pos hc, ih hRest, List.length_cons]
    omega

/-- Spaces and tabulators make one run with the blanks after them. -/
theorem Pattern.blank_append {g : Text} (hSome : g ≠ []) (hg : ∀ c ∈ g, isSpace c = true)
    (t : Text) : blank (g ++ t) = some (g.length + (blank t).getD 0) := by
  have hRun := run_append_of_forall (g := g) (t := t)
    (p := CodePoint.isChar fun c => c = ' ' || c = '\t' || c = '\x0c' || c = '\r') fun c hc => by
      rcases eq_of_isSpace (hg c hc) with rfl | rfl <;> rfl
  have hPos := List.length_pos_iff.mpr hSome
  unfold blank nonempty
  rw [hRun, if_neg (by omega), Option.some.injEq, Nat.add_left_cancel_iff]
  split <;> simp_all

theorem Pattern.le_of_blank {t : Text} {m : Nat} (h : blank t = some m) : m ≤ t.length := by
  rw [eq_of_nonempty h]
  exact run_le _ _

theorem Pattern.head_of_blank {t : Text} {m : Nat} (h : blank t = some m) :
    ∃ c t', t = c :: t' ∧ c ∈ Text.ofString " \t\x0c\r" := by
  cases t with
  | nil => cases h
  | cons c t =>
    refine ⟨c, t, rfl, ?_⟩
    by_contra hc
    have hNot : CodePoint.isChar (fun c => c = ' ' || c = '\t' || c = '\x0c' || c = '\r') c =
        false := by
      cases c with
      | surrogate i => rfl
      | char c => simpa [CodePoint.isChar, Text.ofString, not_or, and_assoc] using hc
    rw [blank, run, hNot] at h
    cases h

/-- In code, blanks are taken where they come first, and the lexer stays in its state. -/
theorem Lexer.step_of_blank {s : Lexer} {frame : CodeFrame} {depth : Int} {below : List Mode}
    (hs : s.modes = .code frame depth :: below) {t : Text} {m : Nat}
    (h : Pattern.blank t = some m) : s.step t = some (.blank, m, s) := by
  obtain ⟨modes, last⟩ := s
  obtain rfl : modes = .code frame depth :: below := hs
  obtain ⟨c, t, rfl, hc⟩ := Pattern.head_of_blank h
  have hCases : c = .char ' ' ∨ c = .char '\t' ∨ c = .char '\x0c' ∨ c = .char '\r' := by
    simpa [Text.ofString] using hc
  have hScan : scanCode (c :: t) = some (.blank, m) := by
    rw [scanCode, h]
    rcases hCases with rfl | rfl | rfl | rfl <;> rfl
  have hPlain : codeStep ⟨.code frame depth :: below, last⟩ frame depth below (c :: t) =
      plainStep frame depth below (c :: t) := by
    rcases hCases with rfl | rfl | rfl | rfl <;> rfl
  rw [step]
  simp only [hPlain, plainStep, hScan, Option.map_some, braceStep, Int.add_zero, remember]

/-- In code, a block comment is taken as one. -/
theorem Lexer.step_of_comment {s : Lexer} {frame : CodeFrame} {depth : Int} {below : List Mode}
    (hs : s.modes = .code frame depth :: below) {c : Text}
    (h : Pattern.blockComment c = some c.length) (t : Text) :
    s.step (c ++ t) = some (.blockComment, c.length, s) := by
  obtain ⟨modes, last⟩ := s
  obtain rfl : modes = .code frame depth :: below := hs
  have hComment : Pattern.blockComment (c ++ t) = some c.length :=
    Pattern.decided_blockComment.append (r := []) (by rw [List.append_nil, h]) (Nat.le_refl _) t
  obtain ⟨v, rfl⟩ : ∃ v, c = .char '/' :: .char '*' :: v := by
    unfold Pattern.blockComment at h
    split at h
    · exact ⟨_, rfl⟩
    · cases h
  have hScan : scanCode (.char '/' :: .char '*' :: v ++ t) =
      some (.blockComment, (CodePoint.char '/' :: .char '*' :: v).length) := by
    rw [scanCode, hComment]
    rfl
  rw [step]
  simp only [List.cons_append, codeStep_slash, opensComment, Bool.not_true, Bool.and_false,
    Bool.false_eq_true, if_false, plainStep]
  rw [List.cons_append, List.cons_append] at hScan
  simp only [hScan, Option.map_some, braceStep, Int.add_zero, remember]

/-- Spaces and tabulators in front of pieces of code are blanks, or belong to the blanks that come
first. -/
theorem Spelled.exists_spaced {s final : Lexer} {frame : CodeFrame} {depth : Int}
    {below : List Mode} (hs : s.modes = .code frame depth :: below) {back : List Piece}
    (h : Spelled s back final) {g : Text} (hg : ∀ c ∈ g, Pattern.isSpace c = true) :
    ∃ back', Spelled s back' final ∧ spell back' = g ++ spell back ∧
      bareTokens back' = bareTokens back := by
  by_cases hSome : g = []
  · subst hSome
    exact ⟨back, h, rfl, rfl⟩
  have hStep := Lexer.step_of_blank hs (Pattern.blank_append hSome hg (spell back))
  have hOther : ∀ k, LexemeKind.blank ≠ .token k := by simp
  cases hBlank : Pattern.blank (spell back) with
  | none =>
    rw [hBlank] at hStep
    exact ⟨(.blank, g) :: back, .cons hStep h, rfl, bareTokens_cons hOther _ _⟩
  | some m =>
    rw [hBlank] at hStep
    cases h with
    | nil => cases hBlank
    | @take _ s' _ kind n text pieces hFirst hText _ hRest =>
      rw [spell_cons] at hBlank hStep
      have hSame := Lexer.step_of_blank hs hBlank
      rw [hFirst] at hSame
      cases hSame
      have hLength : text.length = m := by
        have hTake := congrArg List.length hText
        have hLe := Pattern.le_of_blank hBlank
        rw [List.length_take] at hTake
        omega
      refine ⟨(.blank, g ++ text) :: pieces, .cons ?_ hRest, ?_, ?_⟩
      · rw [List.append_assoc, List.length_append, hLength]
        exact hStep
      · rw [spell_cons, spell_cons, List.append_assoc]
      · rw [bareTokens_cons hOther, bareTokens_cons hOther]

/-- Text that stands for nothing between tokens: spaces and tabulators, or a block comment between
two spaces. -/
inductive Filler : Text → Prop where
  | blanks {g : Text} (hg : ∀ c ∈ g, Pattern.isSpace c = true) : Filler g
  | comment {c : Text} (hc : Pattern.blockComment c = some c.length) :
      Filler (.char ' ' :: (c ++ [.char ' ']))

theorem Filler.cases {g : Text} (h : Filler g) :
    g = [] ∨ ∃ b t, g = b :: t ∧ Pattern.isSpace b = true := by
  cases h with
  | comment => exact .inr ⟨_, _, rfl, rfl⟩
  | blanks hg =>
    cases g with
    | nil => exact .inl rfl
    | cons b t => exact .inr ⟨b, t, rfl, hg b List.mem_cons_self⟩

/-- Where nothing is said, the lexer finds the tokens that it found before. -/
theorem Spelled.exists_filled {s final : Lexer} {frame : CodeFrame} {depth : Int}
    {below : List Mode} (hs : s.modes = .code frame depth :: below) {back : List Piece}
    (h : Spelled s back final) {g : Text} (hg : Filler g) :
    ∃ back', Spelled s back' final ∧ spell back' = g ++ spell back ∧
      bareTokens back' = bareTokens back := by
  have hSpace : ∀ c ∈ [CodePoint.char ' '], Pattern.isSpace c = true := by simp [Pattern.isSpace]
  cases hg with
  | blanks hg => exact h.exists_spaced hs hg
  | @comment c hc =>
    obtain ⟨back₁, hSpelled₁, hSpell₁, hTokens₁⟩ := h.exists_spaced hs hSpace
    have hSpelled₂ : Spelled s ((.blockComment, c) :: back₁) final :=
      .cons (Lexer.step_of_comment hs hc _) hSpelled₁
    obtain ⟨back₃, hSpelled₃, hSpell₃, hTokens₃⟩ := hSpelled₂.exists_spaced hs hSpace
    refine ⟨back₃, hSpelled₃, ?_, ?_⟩
    · rw [hSpell₃, spell_cons, hSpell₁]
      simp
    · rw [hTokens₃, bareTokens_cons (by simp), hTokens₁]

theorem map_bare_tokens {source : Text} {pieces : List Piece} {final : Lexer}
    (h : Spelled Lexer.start pieces final) (hSpell : spell pieces = source) :
    (lex source).failure = none ∧ (lex source).tokens.map Token.bare = bareTokens pieces := by
  have hLex := lex_spelled h
  rw [hSpell] at hLex
  rw [hLex]
  exact ⟨rfl, rfl⟩

/-- Blanks and block comments are insignificant in code: put after a token that leaves the lexer in
code, they do not change how a source is read, up to spans. -/
theorem fillers_are_insignificant {pre token post gap : Text} {file : Option Text}
    {parsed : ParsedModule} {s s' : Lexer} {k : Terminal}
    (hRead : parseModule (pre ++ (token ++ post)) file = .ok parsed)
    (hReached : Lexer.Reached (pre ++ (token ++ post)) s (token ++ post))
    (hToken : s.step (token ++ post) = some (.token k, token.length, s'))
    (hCode : Mode.inCode s'.modes = true) (hGap : Filler gap) :
    ∃ parsed', parseModule (pre ++ (token ++ (gap ++ post))) file = .ok parsed' ∧
      Erasure.spans.body parsed'.module = Erasure.spans.body parsed.module := by
  rcases hGap.cases with rfl | ⟨b, t, rfl, hb⟩
  · exact ⟨parsed, hRead, rfl⟩
  obtain ⟨frame, depth, below, hModes⟩ : ∃ frame depth below,
      s'.modes = .code frame depth :: below := by
    unfold Mode.inCode at hCode
    split at hCode
    · rename_i hModes
      exact ⟨_, _, _, hModes⟩
    · cases hCode
  have hNonempty : token ≠ [] := List.length_pos_iff.mp (Lexer.pos_of_step hToken)
  -- the pieces before the token, the token, and the pieces after it
  obtain ⟨tree, hFrom⟩ := parseModule_eq_ok hRead
  obtain ⟨pieces, final, hSpelled, hSpell, hLexemes⟩ := exists_spelled hFrom.lexed
  obtain ⟨front, hFront, hSpells⟩ := hReached.spells (by simp [hNonempty])
  obtain rfl : spell front = pre := List.append_cancel_right hFront
  obtain ⟨back, rfl, hPost, hBack⟩ :=
    (hSpells.concat hToken).exists_back hSpelled (by rw [hSpell, spell_append]; simp [spell])
  subst hPost
  rw [List.append_assoc, List.singleton_append] at hSpelled hSpell hLexemes
  have hApart := slashesApart_of_read hRead hLexemes
  have hInto : IntoCode s s' k token (spell back) := ⟨hToken, frame, depth, below, hModes⟩
  -- the same pieces with the new text between them
  obtain ⟨back', hBack', hSpell', hTokens'⟩ := hBack.exists_filled hModes hGap
  obtain ⟨hSpells', hInto'⟩ := hSpells.spaced hb hInto hBack hApart (t ++ spell back)
  rw [← List.cons_append, ← hSpell'] at hSpells' hInto'
  have hSpelled' : Spelled Lexer.start (front ++ (.token k, token) :: back') final :=
    hSpells'.append (.cons hInto'.step hBack') rfl
  have hSource : spell (front ++ (.token k, token) :: back') =
      spell front ++ (token ++ (b :: t ++ spell back)) := by
    rw [spell_append, spell_cons, hSpell']
  obtain ⟨hLexed, hTokens⟩ := map_bare_tokens hSpelled' hSource
  refine parseModule_of_same_tokens hRead hLexed ?_
  have hAll (pieces : List Piece) : bareTokens (front ++ (.token k, token) :: pieces) =
      bareTokens (front ++ [(.token k, token)]) ++ bareTokens pieces := by
    rw [← bareTokens_append, List.append_assoc, List.singleton_append]
  rw [hTokens, (map_bare_tokens hSpelled hSpell).2, hAll back', hAll back, hTokens']

set_option maxRecDepth 100000 in
/-- A comment at the start of a substitution in a template. -/
theorem comment_in_substitution_is_insignificant :
    ∃ token post gap : Text, token = "\x60a$\x7b" ∧ post = "b\x7dc\x60" ∧ gap = " /* d */ " ∧
      ∃ parsed parsed', parseModule (token ++ post) none = .ok parsed ∧
        parseModule (token ++ (gap ++ post)) none = .ok parsed' ∧
        Erasure.spans.body parsed'.module = Erasure.spans.body parsed.module := by
  have hGap : Filler " /* d */ " := .comment (c := "/* d */") rfl
  refine ⟨_, _, _, rfl, rfl, rfl, ?_⟩
  generalize hFirst : Text.ofString "\x60a$\x7b" = token
  generalize hPost : Text.ofString "b\x7dc\x60" = post
  generalize Text.ofString " /* d */ " = gap at hGap ⊢
  have hReads : readsAs (token ++ post) (fun _ => true) = true := by
    rw [← hFirst, ← hPost]
    decide +kernel
  have hToken : Lexer.start.step (token ++ post) = some (.token .tplHead, token.length,
      ⟨[.code .substitution 0, .code .root 0], some .tplHead⟩) := by
    rw [← hFirst, ← hPost]
    decide
  obtain ⟨parsed, hRead, -⟩ := exists_of_readsAs hReads
  obtain ⟨parsed', hRead', hSame⟩ :=
    @fillers_are_insignificant [] token post gap none parsed _ _ _ hRead .start hToken rfl hGap
  exact ⟨parsed, parsed', hRead, hRead', hSame⟩

end ClientBoundary
