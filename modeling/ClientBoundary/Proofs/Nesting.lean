import ClientBoundary.Proofs.ModuleTree
import ClientBoundary.Proofs.StatementEnds

/-!
# What is open around a place

The lexer keeps a stack of modes, the insertion of terminators keeps a stack of brackets, and the
grammar nests phrases in phrases. Each was written without the others: the lexer decides from the
token before whether a `<` opens an element, and leaves a substitution at the brace that its own
count says. This module shows that the three agree on every source that follows the grammar.

The common view is a stack of `Nest`s, what stands open around a place. A token has a `Turn`, what
it does to that stack, and a category has an `effect`, what a whole phrase does to it.

* `run_yield` — the tokens of a phrase do to the stack what the category of the phrase says; this
  is checked on the alternatives of the grammar, one by one (`effect_checked`).
* `Within.step` and `within_lexFrom` — the modes of the lexer follow the stack, token by token.
* `length_brackets_run` — and so do the open brackets.
* `nothing_open_at_end` — at the end of a source that is read, the lexer is back in its first mode
  with no brace open, and no bracket is open.
-/

namespace ClientBoundary

open Grammar

-- ---------------------------------------------------------------------------------------------
-- Nests and turns
-- ---------------------------------------------------------------------------------------------

/-- Something that stands open around a place in a source. -/
inductive Nest where
  /-- The source itself. -/
  | root
  /-- Parentheses or square brackets. -/
  | group
  /-- Braces in code. -/
  | brace
  /-- A container in JSX. -/
  | container
  /-- A substitution in a template. -/
  | substitution
  /-- A tag; `begun` says whether something stands between its `<` and the place. -/
  | tag (role : TagRole) (begun : Bool)
  /-- The children of an element. -/
  | children
deriving DecidableEq, Repr

/-- What a token does to what is open around it. -/
inductive Turn where
  /-- Nothing, wherever it stands. -/
  | lineEnd
  /-- Nothing, in code. -/
  | plain
  | openGroup | closeGroup
  | openBrace | closeBrace
  | openSubstitution | resume | closeSubstitution
  | openContainer | closeContainer
  | openTag | slash | closeTag
  /-- A word or string of a tag. -/
  | word
  /-- Punctuation of tags and of code. -/
  | joint
  /-- Text among children. -/
  | text
deriving DecidableEq, Repr

/-- What the tokens of a terminal do. -/
def Terminal.turn : Terminal → Turn
  | .newline | .terminator => .lineEnd
  | .lpar | .lsqb => .openGroup
  | .rpar | .rsqb => .closeGroup
  | .lbrace => .openBrace
  | .rbrace => .closeBrace
  | .tplHead => .openSubstitution
  | .tplMiddle => .resume
  | .tplTail => .closeSubstitution
  | .jsxLbrace => .openContainer
  | .jsxRbrace => .closeContainer
  | .jsxOpen => .openTag
  | .jsxSlash => .slash
  | .jsxGt => .closeTag
  | .jsxName | .jsxString => .word
  | .jsxText => .text
  | .eq | .dot | .colon => .joint
  | _ => .plain

namespace Nest

/-- All nests. -/
def all : List Nest :=
  [.root, .group, .brace, .container, .substitution,
   .tag .opening false, .tag .opening true, .tag .closing false, .tag .closing true,
   .tag .selfClosing false, .tag .selfClosing true, .children]

theorem mem_all (n : Nest) : n ∈ all := by
  cases n with
  | tag role begun => cases role <;> cases begun <;> decide
  | _ => decide

/-- Whether what stands directly inside is code. -/
def isCode : Nest → Bool
  | .tag _ _ | .children => false
  | _ => true

/-- Whether what stands directly inside is the inside of a tag. -/
def isTag : Nest → Bool
  | .tag _ _ => true
  | _ => false

/-- After something has been read inside. -/
def begun : Nest → Nest
  | .tag role _ => .tag role true
  | n => n

/-- The end of a tag: an opening one gives way to children, and a closing one goes with the
children that it ends. -/
def endTag : Nest → List Nest → Option (List Nest)
  | .tag .opening _, ns => some (.children :: ns)
  | .tag .selfClosing _, ns => some ns
  | .tag .closing _, .children :: ns => some ns
  | _, _ => none

/-- What is open after one token, innermost first, if the token may stand there. -/
def step (ns : List Nest) (t : Turn) : Option (List Nest) :=
  match t, ns with
  | .lineEnd, ns => some ns
  | _, [] => none
  | .plain, n :: ns => if n.isCode then some (n :: ns) else none
  | .openGroup, n :: ns => if n.isCode then some (.group :: n :: ns) else none
  | .openBrace, n :: ns => if n.isCode then some (.brace :: n :: ns) else none
  | .openSubstitution, n :: ns => if n.isCode then some (.substitution :: n :: ns) else none
  | .closeGroup, n :: ns => if n = .group then some ns else none
  | .closeBrace, n :: ns => if n = .brace then some ns else none
  | .closeSubstitution, n :: ns => if n = .substitution then some ns else none
  | .closeContainer, n :: ns => if n = .container then some ns else none
  | .resume, n :: ns => if n = .substitution then some (n :: ns) else none
  | .openContainer, n :: ns => if !n.isCode then some (.container :: n.begun :: ns) else none
  | .openTag, n :: ns => some (.tag .opening false :: n.begun :: ns)
  | .slash, .tag _ begun :: ns =>
    some (.tag (if begun then .selfClosing else .closing) true :: ns)
  | .slash, _ => none
  | .closeTag, n :: ns => n.endTag ns
  | .word, n :: ns => if n.isTag then some (n.begun :: ns) else none
  | .joint, n :: ns => if n ≠ .children then some (n.begun :: ns) else none
  | .text, n :: ns => if n = .children then some (n :: ns) else none

/-- What is open after some tokens. -/
def run : List Nest → List Turn → Option (List Nest)
  | ns, [] => some ns
  | ns, t :: ts => (step ns t).bind (run · ts)

theorem run_append (ns : List Nest) (ts us : List Turn) :
    run ns (ts ++ us) = (run ns ts).bind (run · us) := by
  induction ts generalizing ns with
  | nil => rfl
  | cons t ts ih =>
    rw [List.cons_append, run, run]
    cases step ns t with
    | none => rfl
    | some ns' => exact ih ns'

/-- A token does not see what is open further out than it reaches. -/
theorem step_append {ns ns' : List Nest} {t : Turn} (h : step ns t = some ns')
    (outer : List Nest) : step (ns ++ outer) t = some (ns' ++ outer) := by
  cases ns with
  | nil =>
    cases t with
    | lineEnd =>
      cases h
      rfl
    | _ => cases h
  | cons n ns =>
    rw [List.cons_append]
    cases t with
    | slash =>
      cases n with
      | tag role begun =>
        cases h
        rfl
      | _ => cases h
    | closeTag =>
      change n.endTag ns = some ns' at h
      change n.endTag (ns ++ outer) = some (ns' ++ outer)
      unfold endTag at h ⊢
      split at h <;> cases h <;> rfl
    | lineEnd | openTag =>
      cases h
      rfl
    | _ =>
      simp only [step] at h ⊢
      split at h
      · cases h
        simp_all
      · cases h

end Nest

-- ---------------------------------------------------------------------------------------------
-- What phrases do
-- ---------------------------------------------------------------------------------------------

/-- What the phrases of a category leave of the innermost thing open around them, if they may
stand in it. Code leaves everything as it was. -/
def Category.effect (c : Category) (n : Nest) : Option (List Nest) :=
  match c with
  | .jsxOpening => some [.children, n.begun]
  | .jsxClosing => if n = .children then some [] else none
  | .jsxElement | .jsxFragment | .jsxSelfClosing => some [n.begun]
  | .jsxContainer | .jsxSpreadChild => if n.isCode then none else some [n.begun]
  | .jsxName | .jsxNameRest | .jsxAttrName | .jsxStr | .jsxAttrValue
  | .jsxAttr | .jsxSpreadAttr | .jsxAttrs => if n.isTag then some [n.begun] else none
  | .jsxText | .jsxChild | .jsxChildren => if n = .children then some [n] else none
  | .tplRest => if n = .substitution then some [n] else none
  | _ => if n.isCode then some [n] else none

namespace Nest

/-- What is open after some symbols, phrases of a category having the effect of the category. -/
def through : List (Symbol Category) → List Nest → Option (List Nest)
  | [], ns => some ns
  | .tok t :: ss, ns => (step ns t.turn).bind (through ss)
  | .cat _ :: _, [] => none
  | .cat c :: ss, n :: ns => (c.effect n).bind fun inner => through ss (inner ++ ns)

theorem through_append {ss : List (Symbol Category)} {ns ns' : List Nest}
    (h : through ss ns = some ns') (outer : List Nest) :
    through ss (ns ++ outer) = some (ns' ++ outer) := by
  induction ss generalizing ns with
  | nil =>
    cases h
    rfl
  | cons s ss ih =>
    cases s with
    | tok t =>
      obtain ⟨ms, hStep, hRest⟩ := Option.bind_eq_some_iff.mp h
      rw [through, step_append hStep, Option.bind_some]
      exact ih hRest
    | cat c =>
      cases ns with
      | nil => cases h
      | cons n ns =>
        obtain ⟨inner, hEffect, hRest⟩ := Option.bind_eq_some_iff.mp h
        rw [List.cons_append, through, hEffect, Option.bind_some, ← List.append_assoc]
        exact ih hRest

/-- The symbols of every alternative do together what their category says. -/
theorem effect_checked (c : Category) {ss : List (Symbol Category)}
    (hShape : ss ∈ moduleGrammar.shape c) {n : Nest} {inner : List Nest}
    (hEffect : c.effect n = some inner) : through ss [n] = some inner := by
  have hAll : ∀ c ∈ Category.all, ∀ ss ∈ moduleGrammar.shape c, ∀ n ∈ all,
      (c.effect n).all (fun inner => decide (through ss [n] = some inner)) = true := by
    decide +kernel
  have hHere := hAll c (Category.mem_all c) ss hShape n (mem_all n)
  rw [hEffect] at hHere
  exact of_decide_eq_true hHere

end Nest

/-- What the tokens do, one after the other. -/
def turns (ts : List Token) : List Turn := ts.map fun t => t.kind.turn

theorem turns_append (ts us : List Token) : turns (ts ++ us) = turns ts ++ turns us :=
  List.map_append

mutual

/-- The tokens of a phrase do what its symbol says. -/
theorem Grammar.Tree.run_yield : {s : Symbol Category} → (tree : Tree moduleGrammar s) →
    ∀ ns ns' : List Nest, Nest.through [s] ns = some ns' →
      Nest.run ns (turns tree.yield) = some ns'
  | _, .leaf t token hKind, ns, ns', h => by
    have hStep : Nest.step ns token.kind.turn = some ns' := by
      rw [hKind]
      simpa [Nest.through] using h
    rw [Tree.yield, turns, List.map_singleton, Nest.run, hStep]
    rfl
  | _, .node c i children, [], ns', h => by cases h
  | _, .node c i children, n :: ns, ns', h => by
    obtain ⟨inner, hEffect, hRest⟩ := Option.bind_eq_some_iff.mp h
    cases hRest
    have hShape := List.mem_map_of_mem (f := Alternative.symbols)
      (List.get_mem (moduleGrammar.rule c).alternatives i)
    have hThrough := Nest.through_append (Nest.effect_checked c hShape hEffect) ns
    exact Forest.run_yield children _ _ hThrough

/-- The tokens of phrases side by side do what their symbols say. -/
theorem Grammar.Forest.run_yield : {ss : List (Symbol Category)} → (f : Forest moduleGrammar ss) →
    ∀ ns ns' : List Nest, Nest.through ss ns = some ns' →
      Nest.run ns (turns f.yield) = some ns'
  | _, .nil, ns, ns', h => h
  | _, .cons s ss tree rest, ns, ns', h => by
    have hSplit : ∃ ms, Nest.through [s] ns = some ms ∧ Nest.through ss ms = some ns' := by
      cases s with
      | tok t =>
        obtain ⟨ms, hStep, hRest⟩ := Option.bind_eq_some_iff.mp h
        exact ⟨ms, by rw [Nest.through, hStep]; rfl, hRest⟩
      | cat c =>
        cases ns with
        | nil => cases h
        | cons n ns =>
          obtain ⟨inner, hEffect, hRest⟩ := Option.bind_eq_some_iff.mp h
          exact ⟨inner ++ ns, by rw [Nest.through, hEffect]; rfl, hRest⟩
    obtain ⟨ms, hTree, hRest⟩ := hSplit
    rw [Forest.yield, turns_append, Nest.run_append, Tree.run_yield tree _ _ hTree]
    exact Forest.run_yield rest _ _ hRest

end

-- ---------------------------------------------------------------------------------------------
-- The modes of the lexer
-- ---------------------------------------------------------------------------------------------

namespace Mode

/-- After something has been read in the innermost mode. -/
def begun : List Mode → List Mode
  | .tag role seen :: below => .tag role (seen + 1) :: below
  | ms => ms

/-- With a change of the brace count of the innermost mode. -/
def deepened (change : Int) : List Mode → List Mode
  | .code frame depth :: below => .code frame (depth + change) :: below
  | ms => ms

/-- After a slash in a tag. -/
def slashed : List Mode → List Mode
  | .tag _ seen :: below => .tag (if seen = 0 then .closing else .selfClosing) (seen + 1) :: below
  | ms => ms

/-- After the end of a tag. -/
def endTag : List Mode → List Mode
  | .tag .opening _ :: below => .children :: below
  | .tag .closing _ :: below => below.tail
  | .tag .selfClosing _ :: below => below
  | ms => ms

/-- The modes of the lexer after a token. -/
def next (ms : List Mode) : Turn → List Mode
  | .openBrace => deepened 1 ms
  | .closeBrace => deepened (-1) ms
  | .openSubstitution => .code .substitution 0 :: ms
  | .resume => .code .substitution 0 :: ms.tail
  | .closeSubstitution | .closeContainer => ms.tail
  | .openContainer => .code .container 0 :: begun ms
  | .openTag => .tag .opening 0 :: begun ms
  | .slash => slashed ms
  | .closeTag => endTag ms
  | .word | .joint => begun ms
  | .lineEnd | .plain | .openGroup | .closeGroup | .text => ms

end Mode

/-- What a lexeme does; one between tokens does nothing. -/
def LexemeKind.turn : LexemeKind → Turn
  | .token t => t.turn
  | _ => .lineEnd

namespace Lexer

/-- What may be read in code without a change of mode. -/
def isPlain (t : Terminal) : Bool :=
  t.turn = .plain || t.turn = .joint || t.turn = .lineEnd || t.turn = .openGroup ||
    t.turn = .closeGroup || t.turn = .openBrace || t.turn = .closeBrace

/-- A lexeme in code that changes at most the number of open braces. -/
def StaysInCode (kind : LexemeKind) : Prop :=
  ∀ frame depth below,
    Mode.next (.code frame depth :: below) kind.turn =
      .code frame (depth + braceStep kind) :: below

theorem staysInCode_token {t : Terminal} (h : isPlain t = true) : StaysInCode (.token t) := by
  intro frame depth below
  cases t <;> first
    | exact congrArg (fun d => Mode.code frame d :: below) (Int.add_zero depth).symm
    | rfl
    | cases h

theorem staysInCode_between {kind : LexemeKind} (hTurn : kind.turn = .lineEnd)
    (hBrace : braceStep kind = 0) : StaysInCode kind := by
  intro frame depth below
  rw [hTurn, hBrace, Int.add_zero]
  rfl

theorem isPlain_ofWord (w : Text) : isPlain (Terminal.ofWord w) = true := by
  have hWords : ∀ p ∈ Terminal.words, isPlain p.2 = true := by decide
  unfold Terminal.ofWord
  split
  · rename_i p hFind
    exact hWords p (List.mem_of_find?_eq_some hFind)
  · rfl

theorem isPlain_spelling {t : Text} {r : Terminal × Nat} (h : Pattern.spelling t = some r) :
    isPlain r.1 = true := by
  have hSpellings : ∀ p ∈ Terminal.spellings, isPlain p.2 = true := by decide
  obtain ⟨p, hFind, rfl⟩ := Option.map_eq_some_iff.mp h
  exact hSpellings p (List.mem_of_find?_eq_some hFind)

theorem staysInCode_scanCode (t : Text) : ∀ r, scanCode t = some r → StaysInCode r.1 := by
  refine forall_orElse (forall_map fun _ _ => staysInCode_token rfl) ?_
  refine forall_orElse (forall_map fun _ _ => staysInCode_token rfl) ?_
  refine forall_orElse (forall_map fun _ _ => staysInCode_token (isPlain_ofWord _)) ?_
  refine forall_orElse (forall_map fun _ _ => staysInCode_between rfl rfl) ?_
  refine forall_orElse (forall_map fun _ _ => staysInCode_between rfl rfl) ?_
  refine forall_orElse (forall_map fun _ _ => staysInCode_between rfl rfl) ?_
  exact forall_map fun _ h => staysInCode_token (isPlain_spelling h)

theorem next_plainStep (frame : CodeFrame) (depth : Int) (below : List Mode) (t : Text) :
    ∀ r, plainStep frame depth below t = some r →
      r.2.2 = Mode.next (.code frame depth :: below) r.1.turn :=
  forall_map fun r h => (staysInCode_scanCode t r h frame depth below).symm

theorem next_regexOrPlain (isRegex : Bool) (frame : CodeFrame) (depth : Int) (below : List Mode)
    (t : Text) (r : LexemeKind × Nat × List Mode)
    (h : (if isRegex then (Pattern.regex t).map fun n =>
        (LexemeKind.token .regex, n, Mode.code frame depth :: below)
      else plainStep frame depth below t) = some r) :
    r.2.2 = Mode.next (.code frame depth :: below) r.1.turn := by
  split at h
  · obtain ⟨n, _, rfl⟩ := Option.map_eq_some_iff.mp h
    rfl
  · exact next_plainStep _ _ _ _ r h

theorem next_codeStep (s : Lexer) (frame : CodeFrame) (depth : Int) (below : List Mode)
    (t : Text) : ∀ r, s.codeStep frame depth below t = some r →
      r.2.2 = Mode.next (.code frame depth :: below) r.1.turn := by
  intro r h
  unfold codeStep at h
  split at h
  · exact next_regexOrPlain _ _ _ _ _ r h
  · split at h
    · cases h
      rfl
    · exact next_plainStep _ _ _ _ r h
  · obtain ⟨⟨_ | _, n⟩, _, rfl⟩ := Option.map_eq_some_iff.mp h <;> rfl
  · split at h
    · exact next_plainStep _ _ _ _ r h
    · split at h
      · cases h
        rfl
      · exact next_plainStep _ _ _ _ r h
    · split at h
      · obtain ⟨⟨_ | _, n⟩, _, rfl⟩ := Option.map_eq_some_iff.mp h <;> rfl
      · exact next_plainStep _ _ _ _ r h
  · exact next_plainStep _ _ _ _ r h

theorem next_tagStep (role : TagRole) (seen : Nat) (below : List Mode) (t : Text) :
    ∀ r, tagStep role seen below t = some r →
      r.2.2 = Mode.next (.tag role seen :: below) r.1.turn := by
  intro r h
  unfold tagStep at h
  dsimp only at h
  split at h
  · cases h
    rfl
  split at h
  · cases h
    rfl
  split at h
  · cases h
    rfl
  split at h
  case h_8 =>
    revert r
    exact forall_orElse (forall_map fun _ _ => rfl) (forall_map fun _ _ => rfl)
  case h_2 =>
    cases h
    cases role <;> rfl
  all_goals
    cases h
    rfl

theorem next_childrenStep (below : List Mode) (t : Text) :
    ∀ r, childrenStep below t = some r → r.2.2 = Mode.next (.children :: below) r.1.turn := by
  intro r h
  unfold childrenStep at h
  split at h
  · cases h
    rfl
  · cases h
    rfl
  · revert r
    exact forall_map fun _ _ => rfl

/-- The modes after a lexeme depend on the modes before it and on what the lexeme does. -/
theorem next_of_step {s s' : Lexer} {t : Text} {kind : LexemeKind} {n : Nat}
    (h : s.step t = some (kind, n, s')) : s'.modes = Mode.next s.modes kind.turn := by
  obtain ⟨r, hr, hEq⟩ := Option.map_eq_some_iff.mp h
  cases hEq
  split at hr
  · cases hr
  · rename_i hModes
    rw [hModes]
    exact next_codeStep _ _ _ _ _ r hr
  · rename_i hModes
    rw [hModes]
    exact next_tagStep _ _ _ _ r hr
  · rename_i hModes
    rw [hModes]
    exact next_childrenStep _ _ r hr

end Lexer

/-- Modes of the lexer that fit what is open. Parentheses have no mode of their own, and braces
are counted by the mode they stand in. -/
inductive Within : List Nest → List Mode → Prop where
  | root : Within [.root] [.code .root 0]
  | group {ns : List Nest} {ms : List Mode} {frame : CodeFrame} {depth : Int}
      (h : Within ns (.code frame depth :: ms)) : Within (.group :: ns) (.code frame depth :: ms)
  | brace {ns : List Nest} {ms : List Mode} {frame : CodeFrame} {depth : Int}
      (h : Within ns (.code frame depth :: ms)) :
      Within (.brace :: ns) (.code frame (depth + 1) :: ms)
  | container {ns : List Nest} {ms : List Mode} (h : Within ns ms) :
      Within (.container :: ns) (.code .container 0 :: ms)
  | substitution {ns : List Nest} {ms : List Mode} (h : Within ns ms) :
      Within (.substitution :: ns) (.code .substitution 0 :: ms)
  | tag {ns : List Nest} {ms : List Mode} {role : TagRole} {begun : Bool} {seen : Nat}
      (hBegun : begun = true ↔ seen ≠ 0) (h : Within ns ms) :
      Within (.tag role begun :: ns) (.tag role seen :: ms)
  | children {ns : List Nest} {ms : List Mode} (h : Within ns ms) :
      Within (.children :: ns) (.children :: ms)

namespace Within

variable {n : Nest} {ns ns' : List Nest} {ms : List Mode}

/-- Inside of code, the lexer reads code. -/
theorem exists_code (h : Within (n :: ns) ms) (hCode : n.isCode = true) :
    ∃ frame depth below, ms = .code frame depth :: below := by
  cases h with
  | tag | children => cases hCode
  | _ => exact ⟨_, _, _, rfl⟩

theorem begun (h : Within (n :: ns) ms) : Within (n.begun :: ns) (Mode.begun ms) := by
  cases h with
  | tag hBegun h => exact .tag (by simp) h
  | root => exact .root
  | group h => exact .group h
  | brace h => exact .brace h
  | container h => exact .container h
  | substitution h => exact .substitution h
  | children h => exact .children h

theorem openTag (h : Within ns ms) : Within (.tag .opening false :: ns) (.tag .opening 0 :: ms) :=
  .tag (by simp) h

/-- A slash makes a tag a closing one when it comes first, and else one that closes itself. -/
theorem slash {role : TagRole} {begun : Bool} (h : Within (.tag role begun :: ns) ms) :
    Within (.tag (if begun then .selfClosing else .closing) true :: ns) (Mode.slashed ms) := by
  cases h with
  | @tag _ ms _ _ seen hBegun h =>
    have hRole : (if begun then TagRole.selfClosing else .closing) =
        if seen = 0 then .closing else .selfClosing := by
      cases begun <;> simp_all
    rw [hRole]
    exact .tag (by simp) h

/-- A closing tag ends with the children before it. -/
theorem endTag (h : Within (n :: ns) ms) (hEnd : n.endTag ns = some ns') :
    Within ns' (Mode.endTag ms) := by
  unfold Nest.endTag at hEnd
  split at hEnd
  · cases hEnd
    cases h with
    | tag _ h => exact .children h
  · cases hEnd
    cases h with
    | tag _ h => exact h
  · cases hEnd
    cases h with
    | tag _ h =>
      cases h with
      | children h => exact h
  · cases hEnd

/-- The modes of the lexer follow what is open, token by token. -/
theorem step {t : Turn} (h : Within ns ms) (hStep : Nest.step ns t = some ns') :
    Within ns' (Mode.next ms t) := by
  cases ns with
  | nil => cases h
  | cons n ns =>
    cases t with
    | lineEnd =>
      cases hStep
      exact h
    | plain | text =>
      obtain ⟨_, hEq⟩ := Option.ite_none_right_eq_some.mp hStep
      cases hEq
      exact h
    | openGroup =>
      obtain ⟨hCode, hEq⟩ := Option.ite_none_right_eq_some.mp hStep
      cases hEq
      obtain ⟨frame, depth, below, rfl⟩ := h.exists_code hCode
      exact .group h
    | openBrace =>
      obtain ⟨hCode, hEq⟩ := Option.ite_none_right_eq_some.mp hStep
      cases hEq
      obtain ⟨frame, depth, below, rfl⟩ := h.exists_code hCode
      exact .brace h
    | openSubstitution =>
      obtain ⟨_, hEq⟩ := Option.ite_none_right_eq_some.mp hStep
      cases hEq
      exact .substitution h
    | closeGroup =>
      obtain ⟨rfl, hEq⟩ := Option.ite_none_right_eq_some.mp hStep
      cases hEq
      cases h with
      | group h => exact h
    | closeBrace =>
      obtain ⟨rfl, hEq⟩ := Option.ite_none_right_eq_some.mp hStep
      cases hEq
      cases h with
      | @brace _ ms frame depth h =>
        rw [Mode.next, Mode.deepened, Int.add_neg_cancel_right]
        exact h
    | closeSubstitution =>
      obtain ⟨rfl, hEq⟩ := Option.ite_none_right_eq_some.mp hStep
      cases hEq
      cases h with
      | substitution h => exact h
    | closeContainer =>
      obtain ⟨rfl, hEq⟩ := Option.ite_none_right_eq_some.mp hStep
      cases hEq
      cases h with
      | container h => exact h
    | resume =>
      obtain ⟨rfl, hEq⟩ := Option.ite_none_right_eq_some.mp hStep
      cases hEq
      cases h with
      | substitution h => exact .substitution h
    | openContainer =>
      obtain ⟨_, hEq⟩ := Option.ite_none_right_eq_some.mp hStep
      cases hEq
      exact .container h.begun
    | openTag =>
      cases hStep
      exact h.begun.openTag
    | slash =>
      cases n with
      | tag role begun =>
        cases hStep
        exact h.slash
      | _ => cases hStep
    | closeTag => exact h.endTag hStep
    | word | joint =>
      obtain ⟨_, hEq⟩ := Option.ite_none_right_eq_some.mp hStep
      cases hEq
      exact h.begun

end Within

/-- The modes of the lexer follow what is open over a whole text. -/
theorem within_lexFrom (steps : Nat) {s : Lexer} (p : Place) (t : Text) {ns ns' : List Nest}
    (h : Within ns s.modes)
    (hRun : Nest.run ns (turns (lexFrom steps s p t).tokens) = some ns') :
    Within ns' (lexFrom steps s p t).final.modes := by
  induction steps generalizing s p t ns with
  | zero =>
    cases hRun
    exact h
  | succ steps ih =>
    rw [lexFrom] at hRun ⊢
    split at hRun
    · rename_i hEmpty
      rw [if_pos hEmpty]
      cases hRun
      exact h
    · rename_i hText
      rw [if_neg hText]
      split at hRun
      · cases hRun
        exact h
      · rename_i kind n s' hStep
        have hNext := Lexer.next_of_step hStep
        cases kind with
        | token k =>
          obtain ⟨ms, hTurn, hRest⟩ := Option.bind_eq_some_iff.mp hRun
          exact ih _ _ (by rw [hNext]; exact h.step hTurn) hRest
        | _ => exact ih _ _ (by rw [hNext]; exact h) hRun

-- ---------------------------------------------------------------------------------------------
-- Open brackets
-- ---------------------------------------------------------------------------------------------

/-- The number of open brackets after a token. -/
def Turn.lift (height : Nat) : Turn → Nat
  | .openGroup | .openBrace | .openSubstitution | .openContainer => height + 1
  | .closeGroup | .closeBrace | .closeSubstitution | .closeContainer => height - 1
  | _ => height

namespace Nest

/-- Whether a bracket goes with a nest. -/
def isBracket : Nest → Bool
  | .group | .brace | .container | .substitution => true
  | _ => false

/-- The number of brackets that are open. -/
def height (ns : List Nest) : Nat := ns.countP isBracket

theorem height_cons (n : Nest) (ns : List Nest) :
    height (n :: ns) = height ns + if n.isBracket then 1 else 0 := List.countP_cons

theorem height_begun (n : Nest) (ns : List Nest) : height (n.begun :: ns) = height (n :: ns) := by
  have hSame : n.begun.isBracket = n.isBracket := by cases n <;> rfl
  rw [height_cons, height_cons, hSame]

theorem height_endTag {n : Nest} {ns ns' : List Nest} (h : n.endTag ns = some ns') :
    height ns' = height (n :: ns) := by
  unfold endTag at h
  split at h <;> cases h <;> rfl

/-- The number of open brackets follows what is open. -/
theorem height_step {ns ns' : List Nest} {t : Turn} (h : step ns t = some ns') :
    height ns' = t.lift (height ns) := by
  cases ns with
  | nil =>
    cases t with
    | lineEnd =>
      cases h
      rfl
    | _ => cases h
  | cons n ns =>
    cases t with
    | lineEnd =>
      cases h
      rfl
    | plain | text | resume =>
      obtain ⟨_, hEq⟩ := Option.ite_none_right_eq_some.mp h
      cases hEq
      rfl
    | openGroup | openBrace | openSubstitution =>
      obtain ⟨_, hEq⟩ := Option.ite_none_right_eq_some.mp h
      cases hEq
      exact height_cons _ _
    | closeGroup | closeBrace | closeSubstitution | closeContainer =>
      obtain ⟨rfl, hEq⟩ := Option.ite_none_right_eq_some.mp h
      cases hEq
      rw [height_cons]
      rfl
    | openContainer =>
      obtain ⟨_, hEq⟩ := Option.ite_none_right_eq_some.mp h
      cases hEq
      rw [height_cons, height_begun]
      rfl
    | openTag =>
      cases h
      rw [height_cons, height_begun]
      rfl
    | slash =>
      cases n with
      | tag role begun =>
        cases h
        rfl
      | _ => cases h
    | closeTag => exact height_endTag h
    | word | joint =>
      obtain ⟨_, hEq⟩ := Option.ite_none_right_eq_some.mp h
      cases hEq
      exact height_begun n ns

end Nest

namespace Insertion

theorem length_bracketsAfter (brackets : List Bracket) (last : Option Terminal) (k : Terminal) :
    (bracketsAfter brackets last k).length = k.turn.lift brackets.length := by
  cases k <;> first
    | rfl
    | exact List.length_tail

/-- A token changes the number of open brackets by what it does. -/
theorem length_brackets_step (s : Insertion) (t : Token) :
    (s.step t).2.brackets.length = t.kind.turn.lift s.brackets.length := by
  unfold step
  split
  · rename_i hNewline
    rw [hNewline]
    split <;> rfl
  · exact length_bracketsAfter _ _ _

/-- The open brackets are as many as what is open says, over all tokens. -/
theorem length_brackets_run {s : Insertion} {ts : List Token} {ns ns' : List Nest}
    (h : s.brackets.length = Nest.height ns) (hRun : Nest.run ns (turns ts) = some ns') :
    (s.run ts).2.brackets.length = Nest.height ns' := by
  induction ts generalizing s ns with
  | nil =>
    cases hRun
    exact h
  | cons t ts ih =>
    obtain ⟨ms, hStep, hRest⟩ := Option.bind_eq_some_iff.mp hRun
    refine ih (s := (s.step t).2) ?_ hRest
    rw [length_brackets_step, h, Nest.height_step hStep]

-- ---------------------------------------------------------------------------------------------
-- Sources that are read
-- ---------------------------------------------------------------------------------------------

theorem run_terminators {ts : List Token} (h : ∀ t ∈ ts, t.kind = .terminator) (ns : List Nest) :
    Nest.run ns (turns ts) = some ns := by
  induction ts with
  | nil => rfl
  | cons t ts ih =>
    obtain ⟨hKind, hRest⟩ := List.forall_mem_cons.mp h
    rw [turns, List.map_cons, hKind]
    exact ih hRest

/-- Neither a line feed nor an inserted terminator changes what is open. -/
theorem turns_run (s : Insertion) (ts : List Token) (ns : List Nest) :
    Nest.run ns (turns (s.run ts).1) = Nest.run ns (turns ts) := by
  induction ts generalizing s ns with
  | nil => rfl
  | cons t ts ih =>
    have hRun : (s.run (t :: ts)).1 = (s.step t).1 ++ ((s.step t).2.run ts).1 := rfl
    have hCons : turns (t :: ts) = turns [t] ++ turns ts := rfl
    rw [hRun, turns_append, hCons, Nest.run_append, Nest.run_append]
    have hOut : Nest.run ns (turns (s.step t).1) = Nest.run ns (turns [t]) := by
      rcases step_cases s t with ⟨hOut, hKind, _⟩ | ⟨settled, closed, hOut, hSettled, hClosed, _⟩
      · rw [hOut, turns, turns, List.map_singleton, hKind]
        rfl
      · have hInserted : ∀ x ∈ settled.toList ++ closed.toList, x.kind = .terminator := by
          intro x hx
          rcases List.mem_append.mp hx with hx | hx
          · obtain ⟨nl, _, rfl⟩ := hSettled x (Option.mem_toList.mp hx)
            rfl
          · obtain ⟨_, rfl⟩ := hClosed x (Option.mem_toList.mp hx)
            rfl
        rw [hOut, turns_append, Nest.run_append, run_terminators hInserted]
        rfl
    rw [hOut]
    cases Nest.run ns (turns [t]) with
    | none => rfl
    | some ms => exact ih _ ms

end Insertion

/-- The tokens of a source that follows the grammar close all that they open. -/
theorem run_tokens {source : Text} {file : Option Text} {parsed : ParsedModule}
    {tree : Option ItemsTree} (h : ReadFrom source file parsed tree) :
    Nest.run [.root] (turns (lex source).tokens) = some [.root] := by
  have hStatements : Nest.run [.root] (turns (lex source).statements) =
      Nest.run [.root] (turns (lex source).tokens) := by
    have hFinish : ∀ x ∈ (Insertion.run {} (lex source).tokens).2.finish.toList,
        x.kind = .terminator := fun x hx => Insertion.kind_of_finish (Option.mem_toList.mp hx)
    rw [Lexing.statements_eq_put h.lexed, Insertion.put, turns_append, Nest.run_append, Insertion.turns_run]
    cases Nest.run [.root] (turns (lex source).tokens) with
    | none => rfl
    | some ns => exact Insertion.run_terminators hFinish ns
  rw [← hStatements, ← h.tokens]
  cases tree with
  | none => rfl
  | some tree => exact tree.run_yield _ _ rfl

/-- At the end of a source that is read nothing is open: the lexer is in the mode in which it began,
with as many braces closed as opened, and the insertion of terminators has no bracket left. -/
theorem nothing_open_at_end {source : Text} {file : Option Text} {parsed : ParsedModule}
    (hRead : parseModule source file = .ok parsed) :
    (lex source).final.modes = [.code .root 0] ∧
      (Insertion.run {} (lex source).tokens).2.brackets = [] := by
  obtain ⟨tree, h⟩ := parseModule_eq_ok hRead
  have hRun := run_tokens h
  constructor
  · have hWithin : Within [.root] (lex source).final.modes :=
      within_lexFrom source.length Place.start source .root hRun
    cases hModes : (lex source).final.modes with
    | nil =>
      rw [hModes] at hWithin
      cases hWithin
    | cons m ms =>
      rw [hModes] at hWithin
      cases hWithin
      rfl
  · have hLength := Insertion.length_brackets_run (s := {}) rfl hRun
    exact List.length_eq_zero_iff.mp hLength

set_option maxRecDepth 100000 in
/-- An element in a template, with a container among its children. -/
theorem nothing_open_after_element_in_template :
    (lex "`$\x7b<a>\x7bb\x7d</a>\x7d`").tokens.map (·.kind.turn) =
        [.openSubstitution, .openTag, .word, .closeTag, .openContainer, .plain, .closeContainer,
          .openTag, .slash, .word, .closeTag, .closeSubstitution] ∧
      ∃ parsed, parseModule "`$\x7b<a>\x7bb\x7d</a>\x7d`" none = .ok parsed ∧
        (lex "`$\x7b<a>\x7bb\x7d</a>\x7d`").final.modes = [.code .root 0] ∧
        (Insertion.run {} (lex "`$\x7b<a>\x7bb\x7d</a>\x7d`").tokens).2.brackets = [] := by
  refine ⟨by decide +kernel, ?_⟩
  have hReads : readsAs "`$\x7b<a>\x7bb\x7d</a>\x7d`" (fun _ => true) = true := by
    decide +kernel
  obtain ⟨parsed, hRead, _⟩ := exists_of_readsAs hReads
  exact ⟨parsed, hRead, nothing_open_at_end hRead⟩

end ClientBoundary
