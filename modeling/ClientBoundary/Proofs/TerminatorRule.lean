import ClientBoundary.Proofs.StatementEnds
import Mathlib.Data.List.Induction

/-!
# The rule that terminators follow

The insertion of terminators goes over the tokens once, with a stack of brackets and a line feed
that may be waiting. Here the same is said without a state. Which bracket is the innermost open one
is read off the tokens that were put out: it is the last one whose closing token is still missing
(`Innermost`), and it encloses a block when it is a brace and the token put out right before it lets
a brace open a block. From this, `FollowsRule` says between which tokens a terminator stands, and
`FollowsRule.unique` that it says so completely.

* `innermost_iff` — the bracket on top of the stack is the innermost one.
* `insertTerminators_eq_iff_followsRule` — what is put out is the one list that follows the rule.
* `quiet_put` — in what is put out, no statement can end where a block closes or the input ends.
* `insertTerminators_idempotent` — hence a second insertion finds nothing to do.
-/

namespace ClientBoundary

namespace Insertion

-- ---------------------------------------------------------------------------------------------
-- The innermost bracket
-- ---------------------------------------------------------------------------------------------

/-- Terminals that open a bracket. -/
def opensBracket : Terminal → Bool
  | .lpar | .lsqb | .lbrace | .jsxLbrace | .tplHead => true
  | _ => false

/-- Terminals that close the innermost bracket, whatever opened it. -/
def closesBracket : Terminal → Bool
  | .rpar | .rsqb | .rbrace | .jsxRbrace | .tplTail => true
  | _ => false

/-- Tokens among which each bracket that opens is closed, and none besides. -/
inductive Balanced : List Token → Prop where
  | nil : Balanced []
  | plain {t : Token} {ts : List Token} (hOpens : opensBracket t.kind = false)
      (hCloses : closesBracket t.kind = false) (hRest : Balanced ts) : Balanced (t :: ts)
  | pair {opening closing : Token} {inside ts : List Token}
      (hOpens : opensBracket opening.kind = true) (hInside : Balanced inside)
      (hCloses : closesBracket closing.kind = true) (hRest : Balanced ts) :
      Balanced (opening :: (inside ++ closing :: ts))

/-- What a bracket encloses when the tokens `before` were put out before it. -/
def enclosed (before : List Token) (opening : Token) : Bracket :=
  if opening.kind = .lbrace ∧ opensBlock (before.getLast?.map Token.kind) = true then .block
  else .group

/-- The innermost bracket that is open after the tokens `out` encloses `b`. -/
def Innermost (out : List Token) (b : Bracket) : Prop :=
  ∃ before opening inside, out = before ++ opening :: inside ∧
    opensBracket opening.kind = true ∧ Balanced inside ∧ b = enclosed before opening

theorem Balanced.append {ts us : List Token} (h : Balanced ts) (hMore : Balanced us) :
    Balanced (ts ++ us) := by
  induction h with
  | nil => exact hMore
  | plain hOpens hCloses _ ih => exact .plain hOpens hCloses ih
  | @pair opening closing inside ts hOpens hInside hCloses _ _ ih =>
    have hSplit : opening :: (inside ++ closing :: ts) ++ us =
        opening :: (inside ++ closing :: (ts ++ us)) := by simp
    rw [hSplit]
    exact .pair hOpens hInside hCloses ih

theorem bracketsAfter_plain {k : Terminal} (hOpens : opensBracket k = false)
    (hCloses : closesBracket k = false) (brackets : List Bracket) (last : Option Terminal) :
    bracketsAfter brackets last k = brackets := by
  cases k <;> first
    | rfl
    | exact absurd hOpens (by decide)
    | exact absurd hCloses (by decide)

theorem bracketsAfter_closing {k : Terminal} (h : closesBracket k = true)
    (brackets : List Bracket) (last : Option Terminal) :
    bracketsAfter brackets last k = brackets.tail := by
  cases k <;> first | rfl | cases h

theorem bracketsAfter_opening {t : Token} (h : opensBracket t.kind = true)
    (brackets : List Bracket) (before : List Token) :
    bracketsAfter brackets (lastOf none before) t.kind = enclosed before t :: brackets := by
  have hLast : lastOf none before = before.getLast?.map Token.kind := Option.or_none
  rw [hLast, enclosed]
  cases hKind : t.kind with
  | lbrace => simp [bracketsAfter]
  | lpar | lsqb | jsxLbrace | tplHead => rfl
  | _ =>
    rw [hKind] at h
    cases h

theorem bracketsAfter_pushes {k : Terminal} (h : opensBracket k = true) (last : Option Terminal) :
    ∃ b, ∀ brackets, bracketsAfter brackets last k = b :: brackets := by
  cases k <;> first | exact ⟨_, fun _ => rfl⟩ | cases h

/-- Tokens whose brackets match leave the stack as it was. -/
theorem openAfter_balanced {ts : List Token} (h : Balanced ts) (brackets : List Bracket)
    (last : Option Terminal) : openAfter brackets last ts = brackets := by
  induction h generalizing brackets last with
  | nil => rfl
  | plain hOpens hCloses _ ih => rw [openAfter, ih, bracketsAfter_plain hOpens hCloses]
  | @pair opening closing inside ts hOpens _ hCloses _ ihInside ihRest =>
    obtain ⟨b, hPushed⟩ := bracketsAfter_pushes hOpens last
    rw [openAfter, openAfter_append, ihInside, openAfter, ihRest, bracketsAfter_closing hCloses,
      hPushed]
    rfl

/-- The brackets that are open after tokens of which the last one that stays open is known. -/
theorem openAfter_opening {before inside : List Token} {opening : Token}
    (hOpens : opensBracket opening.kind = true) (hInside : Balanced inside) :
    openAfter [] none (before ++ opening :: inside) =
      enclosed before opening :: openAfter [] none before := by
  rw [openAfter_append, openAfter, openAfter_balanced hInside, bracketsAfter_opening hOpens]

/-- Each bracket on the stack was opened by a token that is not closed yet. The induction is on the
number of tokens: a closing token leads back to what was put out before the one it closes. -/
theorem exists_opening {out : List Token} {b : Bracket} {bs : List Bracket}
    (h : openAfter [] none out = b :: bs) :
    ∃ before opening inside, out = before ++ opening :: inside ∧
      opensBracket opening.kind = true ∧ Balanced inside ∧ b = enclosed before opening ∧
      openAfter [] none before = bs := by
  induction hLength : out.length using Nat.strongRecOn generalizing out b bs with
  | ind n ih =>
  rcases List.eq_nil_or_concat out with rfl | ⟨front, t, rfl⟩
  · cases h
  rw [List.concat_eq_append] at h hLength ⊢
  rw [List.length_append, List.length_singleton] at hLength
  have hStep : openAfter [] none (front ++ [t]) =
      bracketsAfter (openAfter [] none front) (lastOf none front) t.kind := openAfter_append ..
  rw [hStep] at h
  cases hOpens : opensBracket t.kind with
  | true =>
    rw [bracketsAfter_opening hOpens] at h
    obtain ⟨hHead, hTail⟩ := List.cons.inj h
    exact ⟨front, t, [], rfl, hOpens, .nil, hHead.symm, hTail⟩
  | false =>
    cases hCloses : closesBracket t.kind with
    | false =>
      rw [bracketsAfter_plain hOpens hCloses] at h
      obtain ⟨before, opening, inside, rfl, hOpening, hInside, hEnclosed, hBelow⟩ :=
        ih _ (by omega) h rfl
      refine ⟨before, opening, inside ++ [t], by simp, hOpening, ?_, hEnclosed, hBelow⟩
      exact hInside.append (.plain hOpens hCloses .nil)
    | true =>
      rw [bracketsAfter_closing hCloses] at h
      cases hFront : openAfter [] none front with
      | nil =>
        rw [hFront] at h
        cases h
      | cons c cs =>
        -- the token closes the bracket `c`, and `b` is the one around it
        obtain ⟨before, opening, inside, rfl, hOpening, hInside, -, hBelow⟩ :=
          ih _ (by omega) hFront rfl
        rw [hFront] at h
        rw [List.length_append, List.length_cons] at hLength
        obtain ⟨before', opening', inside', rfl, hOpening', hInside', hEnclosed', hBelow'⟩ :=
          ih before.length (by omega) (hBelow.trans h) rfl
        refine ⟨before', opening', inside' ++ opening :: (inside ++ [t]), by simp, hOpening', ?_,
          hEnclosed', hBelow'⟩
        exact hInside'.append (.pair hOpening hInside hCloses .nil)

/-- The bracket on top of the stack is the innermost one that is open. -/
theorem innermost_iff {out : List Token} {b : Bracket} :
    Innermost out b ↔ (openAfter [] none out).head? = some b := by
  constructor
  · rintro ⟨before, opening, inside, rfl, hOpens, hInside, rfl⟩
    rw [openAfter_opening hOpens hInside]
    rfl
  · intro h
    obtain ⟨bs, hStack⟩ := List.head?_eq_some_iff.mp h
    obtain ⟨before, opening, inside, hOut, hOpens, hInside, hEnclosed, -⟩ :=
      exists_opening hStack
    exact ⟨before, opening, inside, hOut, hOpens, hInside, hEnclosed⟩

theorem inBlock_iff_innermost {out : List Token} :
    inBlock { brackets := openAfter [] none out } = true ↔
      ∀ b, Innermost out b → b = .block := by
  simp only [innermost_iff]
  cases openAfter [] none out with
  | nil => simp [inBlock]
  | cons b bs => simp [inBlock]

-- ---------------------------------------------------------------------------------------------
-- The rule
-- ---------------------------------------------------------------------------------------------

/-- A terminator belongs between the neighbours `a` and `b`, when the tokens `before` were put out
before `a` and the line feeds `gap` stand between the two. -/
def EndsBetween (before : List Token) (a : Token) (gap : List Token) (b : Token) : Prop :=
  terminable a.kind = true ∧
    ((gap ≠ [] ∧ (∀ e, Innermost (before ++ [a]) e → e = .block) ∧
        (a.kind = .kwReturn ∨ endsStatement b.kind (some a.kind) = true)) ∨
      (b.kind = .rbrace ∧ Innermost (before ++ [a]) .block))

/-- A terminator belongs at the end of the input, after the last token `a`. -/
def EndsAfter (before : List Token) (a : Token) : Prop :=
  terminable a.kind = true ∧ ∀ e, Innermost (before ++ [a]) e → e = .block

/-- One terminator at the place of a token under a condition, and else nothing. -/
def Inserts (condition : Prop) (place : Token) (inserted : List Token) : Prop :=
  (condition ∧ inserted = [terminatorAt place]) ∨ (¬ condition ∧ inserted = [])

/-- What is put out for some tokens follows the rule. -/
structure FollowsRule (tokens out : List Token) : Prop where
  /-- Nothing but line feeds is left out, and nothing but terminators put in. -/
  kept : out.filter (·.kind ≠ .terminator) = tokens.filter (·.kind ≠ .newline)
  /-- No terminator stands before the first token. -/
  first : ∀ t ∈ out.head?, t.kind ≠ .terminator
  /-- Between two neighbours stands at most one, in the place of the first line feed there or, when
  there is none, of the brace that follows. -/
  between : ∀ front a gap b back, tokens = front ++ a :: (gap ++ b :: back) →
    a.kind ≠ .newline → (∀ t ∈ gap, t.kind = .newline) → b.kind ≠ .newline →
    ∃ before inserted after, out = before ++ a :: (inserted ++ b :: after) ∧
      before.filter (·.kind ≠ .terminator) = front.filter (·.kind ≠ .newline) ∧
      Inserts (EndsBetween before a gap b) (gap.headD b) inserted
  /-- After the last token stands at most one, in the place of that token. -/
  last : ∀ front a gap, tokens = front ++ a :: gap →
    a.kind ≠ .newline → (∀ t ∈ gap, t.kind = .newline) →
    ∃ before inserted, out = before ++ a :: inserted ∧
      before.filter (·.kind ≠ .terminator) = front.filter (·.kind ≠ .newline) ∧
      Inserts (EndsAfter before a) a inserted

-- ---------------------------------------------------------------------------------------------
-- What is put out follows the rule
-- ---------------------------------------------------------------------------------------------

theorem filter_newlines {ts : List Token} (h : ∀ t ∈ ts, t.kind = .newline) :
    ts.filter (·.kind ≠ .newline) = [] :=
  List.filter_eq_nil_iff.mpr fun t ht => by simp [h t ht]

/-- After a token that is no line feed, the state is known from what was put out. -/
theorem run_concat (front : List Token) {a : Token} (hWord : a.kind ≠ .newline)
    (hWritten : ∀ t ∈ front, t.kind ≠ .terminator) :
    ∃ before, run {} (front ++ [a]) =
        (before ++ [a], rightAfter (openAfter [] none (before ++ [a])) a none) ∧
      before.filter (·.kind ≠ .terminator) = front.filter (·.kind ≠ .newline) := by
  obtain ⟨hBrackets, hLast⟩ := state_run {} front
  obtain ⟨inserted, hInserted, hStep⟩ := (run {} front).2.step_word hWord
  have hOpen : openAfter [] none ((run {} front).1 ++ inserted ++ [a]) =
      openAfter (run {} front).2.brackets (run {} front).2.last (inserted ++ [a]) := by
    rw [List.append_assoc, openAfter_append, hBrackets, hLast]
  have hOne : (run {} front).2.run [a] = (run {} front).2.step a :=
    Prod.ext (List.append_nil _) rfl
  refine ⟨(run {} front).1 ++ inserted, ?_, ?_⟩
  · rw [run_append, hOne, hStep, hOpen, ← List.append_assoc]
    rfl
  · rw [List.filter_append, filter_terminators hInserted, List.append_nil,
      filter_run {} hWritten]

variable {brackets : List Bracket} {a b : Token} {gap : List Token}

/-- The line feed that is waiting after a token: the first one, where a statement can end. -/
def waiting (brackets : List Bracket) (a : Token) (gap : List Token) : Option Token :=
  if canEnd brackets (some a.kind) then gap.head? else none

/-- While a line feed is waiting, the ones after it mean nothing. -/
theorem put_waiting_newlines (nl : Token) (hGap : ∀ t ∈ gap, t.kind = .newline) (us : List Token) :
    (rightAfter brackets a (some nl)).put (gap ++ us) =
      (rightAfter brackets a (some nl)).put us := by
  induction gap with
  | nil => rfl
  | cons u gap ih =>
    obtain ⟨hKind, hRest⟩ := List.forall_mem_cons.mp hGap
    have hStep : (rightAfter brackets a (some nl)).step u =
        ([], rightAfter brackets a (some nl)) := by
      rw [step, if_pos hKind]
      rfl
    rw [List.cons_append, put_skipped hStep, ih hRest]

theorem put_newlines (brackets : List Bracket) (a : Token) (hGap : ∀ t ∈ gap, t.kind = .newline)
    (us : List Token) :
    (rightAfter brackets a none).put (gap ++ us) =
      (rightAfter brackets a (waiting brackets a gap)).put us := by
  unfold waiting
  cases hEnd : canEnd brackets (some a.kind) with
  | false =>
    rw [if_neg Bool.false_ne_true]
    induction gap with
    | nil => rfl
    | cons nl gap ih =>
      obtain ⟨hKind, hRest⟩ := List.forall_mem_cons.mp hGap
      rw [List.cons_append, put_skipped (step_newline hKind hEnd), ih hRest]
  | true =>
    rw [if_pos rfl]
    cases gap with
    | nil => rfl
    | cons nl gap =>
      obtain ⟨hKind, hRest⟩ := List.forall_mem_cons.mp hGap
      have hStep : (rightAfter brackets a none).step nl = ([], rightAfter brackets a (some nl)) := by
        have hBoth : ((rightAfter brackets a none).canTerminate &&
            (rightAfter brackets a none).inBlock) = true := hEnd
        rw [step, if_pos hKind, Bool.and_assoc, hBoth]
        rfl
      rw [List.cons_append, put_skipped hStep, put_waiting_newlines nl hRest]
      rfl

theorem restricted_iff {k : Terminal} : restricted k = true ↔ k = .kwReturn := by
  cases k <;> simp [restricted]

/-- The condition for a terminator between two tokens, in terms of the stack of brackets. -/
def EndsUnder (brackets : List Bracket) (a : Token) (gap : List Token) (b : Token) : Prop :=
  terminable a.kind = true ∧
    ((gap ≠ [] ∧ inBlock { brackets } = true ∧
        (a.kind = .kwReturn ∨ endsStatement b.kind (some a.kind) = true)) ∨
      (b.kind = .rbrace ∧ brackets.head? = some .block))

theorem canEnd_iff : canEnd brackets (some a.kind) = true ↔
    terminable a.kind = true ∧ inBlock { brackets } = true := Bool.and_eq_true_iff

/-- A line feed that is waiting becomes a terminator. -/
theorem settle_eq_some_iff {x : Token} :
    (rightAfter brackets a (waiting brackets a gap)).settle b.kind = some x ↔
      (terminable a.kind = true ∧ inBlock { brackets } = true) ∧
        (a.kind = .kwReturn ∨ endsStatement b.kind (some a.kind) = true) ∧
        ∃ nl, gap.head? = some nl ∧ x = terminatorAt nl := by
  rw [← canEnd_iff, ← restricted_iff, ← Bool.or_eq_true]
  have hGuard (pending : Option Token) : ((rightAfter brackets a pending).isRestricted ||
      endsStatement b.kind (rightAfter brackets a pending).last) =
        (restricted a.kind || endsStatement b.kind (some a.kind)) := rfl
  cases hEnd : canEnd brackets (some a.kind) with
  | false => simp [waiting, hEnd, settle, rightAfter]
  | true =>
    cases hHead : gap.head? with
    | none => simp [waiting, hEnd, hHead, settle, rightAfter]
    | some nl =>
      have hWaiting : waiting brackets a gap = some nl := by rw [waiting, hEnd, if_pos rfl, hHead]
      rw [hWaiting, settle]
      simp only [hGuard]
      cases restricted a.kind || endsStatement b.kind (some a.kind) <;>
        simp [rightAfter, eq_comm]

theorem close_eq_some_iff {last : Terminal} {x : Token} :
    close brackets (some last) b = some x ↔
      (b.kind = .rbrace ∧ brackets.head? = some .block) ∧ terminable last = true ∧
        x = terminatorAt b := by
  cases brackets with
  | nil => simp [close]
  | cons e bs =>
    cases e with
    | group => simp [close]
    | block =>
      have hClose : close (.block :: bs) (some last) b =
          if b.kind = .rbrace ∧ terminable last = true then some (terminatorAt b) else none := by
        simp [close]
      rw [hClose, Option.ite_none_right_eq_some, Option.some_inj, eq_comm (a := x), and_assoc]
      simp

/-- From one token to the next one that is no line feed. -/
theorem put_next (brackets : List Bracket) (a : Token) (hGap : ∀ t ∈ gap, t.kind = .newline)
    (hWord : b.kind ≠ .newline) (us : List Token) :
    ∃ inserted, (rightAfter brackets a none).put (gap ++ b :: us) = inserted ++ b ::
        (rightAfter (openAfter brackets (some a.kind) (inserted ++ [b])) b none).put us ∧
      Inserts (EndsUnder brackets a gap b) (gap.headD b) inserted := by
  rw [put_newlines brackets a hGap]
  cases hSettle : (rightAfter brackets a (waiting brackets a gap)).settle b.kind with
  | some x =>
    obtain ⟨⟨hCan, hBlock⟩, hEnds, nl, hHead, rfl⟩ := settle_eq_some_iff.mp hSettle
    obtain ⟨rest, rfl⟩ := List.head?_eq_some_iff.mp hHead
    rw [put_settled hWord hSettle]
    exact ⟨[terminatorAt nl], rfl, .inl ⟨⟨hCan, .inl ⟨List.cons_ne_nil _ _, hBlock, hEnds⟩⟩, rfl⟩⟩
  | none =>
    -- a line feed before the brace that closes a block would have become a terminator
    have hNone : terminable a.kind = true → gap ≠ [] → inBlock { brackets } = true →
        ¬ (a.kind = .kwReturn ∨ endsStatement b.kind (some a.kind) = true) := by
      intro hCan hNonempty hBlock hEnds
      obtain ⟨nl, rest, rfl⟩ := List.exists_cons_of_ne_nil hNonempty
      rw [settle_eq_some_iff.mpr ⟨⟨hCan, hBlock⟩, hEnds, nl, rfl, rfl⟩] at hSettle
      cases hSettle
    cases hClose : close brackets (some a.kind) b with
    | some x =>
      obtain ⟨⟨hBrace, hBlock⟩, hCan, rfl⟩ := close_eq_some_iff.mp hClose
      have hEmpty : gap = [] := by
        by_contra hNonempty
        obtain ⟨bs, rfl⟩ := List.head?_eq_some_iff.mp hBlock
        exact hNone hCan hNonempty rfl (.inr (by rw [hBrace]; rfl))
      rw [put_closed hWord hSettle hClose, hEmpty]
      exact ⟨[terminatorAt b], rfl, .inl ⟨⟨hCan, .inr ⟨hBrace, hBlock⟩⟩, rfl⟩⟩
    | none =>
      rw [put_unsettled hWord hSettle hClose]
      refine ⟨[], rfl, .inr ⟨?_, rfl⟩⟩
      rintro ⟨hCan, ⟨hNonempty, hBlock, hEnds⟩ | hCloses⟩
      · exact hNone hCan hNonempty hBlock hEnds
      · rw [close_eq_some_iff.mpr ⟨hCloses, hCan, rfl⟩] at hClose
        cases hClose

theorem put_last (brackets : List Bracket) (a : Token) (hGap : ∀ t ∈ gap, t.kind = .newline) :
    Inserts (terminable a.kind = true ∧ inBlock { brackets } = true) a
      ((rightAfter brackets a none).put gap) := by
  have hPut := put_newlines brackets a hGap []
  rw [List.append_nil, put_nil] at hPut
  have hFinish : (rightAfter brackets a (waiting brackets a gap)).finish =
      if canEnd brackets (some a.kind) then some (terminatorAt a) else none := rfl
  rw [hPut, hFinish, ← canEnd_iff]
  cases canEnd brackets (some a.kind) with
  | true => exact .inl ⟨rfl, rfl⟩
  | false => exact .inr ⟨Bool.false_ne_true, rfl⟩

theorem head_put {tokens : List Token} (hWritten : ∀ t ∈ tokens, t.kind ≠ .terminator) :
    ∀ t ∈ (put {} tokens).head?, t.kind ≠ .terminator := by
  induction tokens with
  | nil => exact fun t ht => by cases ht
  | cons u us ih =>
    obtain ⟨hHere, hRest⟩ := List.forall_mem_cons.mp hWritten
    by_cases hKind : u.kind = .newline
    · rw [put_skipped (step_newline hKind rfl)]
      exact ih hRest
    · rw [put_unsettled hKind rfl rfl]
      intro t ht
      cases ht
      exact hHere

theorem followsRule_put {tokens : List Token} (hWritten : ∀ t ∈ tokens, t.kind ≠ .terminator) :
    FollowsRule tokens (put {} tokens) where
  kept := filter_put {} hWritten
  first := head_put hWritten
  between := by
    rintro front a gap b back rfl hA hGap hB
    obtain ⟨before, hRun, hKept⟩ := run_concat front hA fun t ht =>
      hWritten t (List.mem_append_left _ ht)
    obtain ⟨inserted, hPut, hInserts⟩ :=
      put_next (openAfter [] none (before ++ [a])) a hGap hB back
    have hOut := put_append {} (front ++ [a]) (gap ++ b :: back)
    rw [hRun, hPut, ← List.append_cons] at hOut
    rw [EndsUnder, inBlock_iff_innermost, ← innermost_iff] at hInserts
    exact ⟨before, inserted, _, hOut.trans (List.append_cons ..).symm, hKept, hInserts⟩
  last := by
    rintro front a gap rfl hA hGap
    obtain ⟨before, hRun, hKept⟩ := run_concat front hA fun t ht =>
      hWritten t (List.mem_append_left _ ht)
    have hInserts := put_last (openAfter [] none (before ++ [a])) a hGap
    rw [inBlock_iff_innermost] at hInserts
    refine ⟨before, _, ?_, hKept, hInserts⟩
    rw [List.append_cons, put_append, hRun, List.append_assoc]
    rfl

-- ---------------------------------------------------------------------------------------------
-- Nothing else follows the rule
-- ---------------------------------------------------------------------------------------------

theorem Inserts.unique {condition : Prop} {place : Token} {inserted inserted' : List Token}
    (h : Inserts condition place inserted) (h' : Inserts condition place inserted') :
    inserted = inserted' := by
  rcases h with ⟨hYes, rfl⟩ | ⟨hNo, rfl⟩ <;> rcases h' with ⟨hYes', rfl⟩ | ⟨hNo', rfl⟩
  · rfl
  · exact absurd hYes hNo'
  · exact absurd hYes' hNo
  · rfl

theorem Inserts.filter {condition : Prop} {place : Token} {inserted : List Token}
    (h : Inserts condition place inserted) : inserted.filter (·.kind ≠ .terminator) = [] := by
  rcases h with ⟨-, rfl⟩ | ⟨-, rfl⟩ <;> rfl

/-- A token that is no terminator is found by the number of those before it. -/
theorem eq_of_filter_eq {before before' after after' : List Token} {t t' : Token}
    (ht : t.kind ≠ .terminator) (ht' : t'.kind ≠ .terminator)
    (hBefore : before.filter (·.kind ≠ .terminator) = before'.filter (·.kind ≠ .terminator))
    (h : before ++ t :: after = before' ++ t' :: after') : before = before' := by
  induction before generalizing before' with
  | nil =>
    cases before' with
    | nil => rfl
    | cons y ys =>
      obtain ⟨rfl, -⟩ := List.cons.inj h
      rw [List.filter_cons_of_pos (by simp [ht])] at hBefore
      cases hBefore
  | cons x xs ih =>
    cases before' with
    | nil =>
      obtain ⟨rfl, -⟩ := List.cons.inj h
      rw [List.filter_cons_of_pos (by simp [ht'])] at hBefore
      cases hBefore
    | cons y ys =>
      obtain ⟨rfl, hRest⟩ := List.cons.inj h
      refine congrArg (x :: ·) (ih ?_ hRest)
      by_cases hKind : x.kind = .terminator
      · rwa [List.filter_cons_of_neg (by simp [hKind]),
          List.filter_cons_of_neg (by simp [hKind])] at hBefore
      · rw [List.filter_cons_of_pos (by simp [hKind]),
          List.filter_cons_of_pos (by simp [hKind])] at hBefore
        exact (List.cons.inj hBefore).2

/-- The last token that is no line feed, if there is one. -/
theorem newlines_or_exists_last (ts : List Token) :
    (∀ t ∈ ts, t.kind = .newline) ∨
      ∃ front a gap, ts = front ++ a :: gap ∧ a.kind ≠ .newline ∧ ∀ t ∈ gap, t.kind = .newline := by
  induction ts using List.reverseRecOn with
  | nil => exact .inl (List.forall_mem_nil _)
  | append_singleton ts t ih =>
    by_cases hKind : t.kind = .newline
    · rcases ih with hAll | ⟨front, a, gap, rfl, hA, hGap⟩
      · exact .inl (List.forall_mem_append.mpr ⟨hAll, by simpa using hKind⟩)
      · refine .inr ⟨front, a, gap ++ [t], by simp, hA, ?_⟩
        exact List.forall_mem_append.mpr ⟨hGap, by simpa using hKind⟩
    · exact .inr ⟨ts, t, [], rfl, hKind, List.forall_mem_nil _⟩

namespace FollowsRule

variable {tokens out out' : List Token}

theorem ne_terminator (h : FollowsRule tokens out) {t : Token} (hMem : t ∈ tokens)
    (hWord : t.kind ≠ .newline) : t.kind ≠ .terminator := by
  have hKept : t ∈ out.filter (·.kind ≠ .terminator) := by
    rw [h.kept]
    exact List.mem_filter.mpr ⟨hMem, by simpa using hWord⟩
  simpa using (List.mem_filter.mp hKept).2

/-- Before the first token there is nothing. -/
theorem before_first (h : FollowsRule tokens out) {before after : List Token} {a : Token}
    (hOut : out = before ++ a :: after) (hBefore : before.filter (·.kind ≠ .terminator) = []) :
    before = [] := by
  cases before with
  | nil => rfl
  | cons x xs =>
    have hFirst : x.kind ≠ .terminator := h.first x (by rw [hOut]; rfl)
    rw [List.filter_cons_of_pos (by simpa using hFirst)] at hBefore
    cases hBefore

/-- Two lists that follow the rule agree up to each token, by induction on the tokens before it: up
to the token before by the induction hypothesis, and from there by the rule. -/
theorem before_eq (h : FollowsRule tokens out) (h' : FollowsRule tokens out')
    {front back before after before' after' : List Token} {a : Token}
    (hTokens : tokens = front ++ a :: back) (hA : a.kind ≠ .newline)
    (hOut : out = before ++ a :: after)
    (hBefore : before.filter (·.kind ≠ .terminator) = front.filter (·.kind ≠ .newline))
    (hOut' : out' = before' ++ a :: after')
    (hBefore' : before'.filter (·.kind ≠ .terminator) = front.filter (·.kind ≠ .newline)) :
    before = before' := by
  have hNot : a.kind ≠ .terminator := h.ne_terminator (by simp [hTokens]) hA
  induction hLength : front.length using Nat.strongRecOn
    generalizing front back before after before' after' a with
  | ind n ih =>
  rcases newlines_or_exists_last front with hAll | ⟨front, c, gap, rfl, hC, hGap⟩
  · rw [filter_newlines hAll] at hBefore hBefore'
    rw [h.before_first hOut hBefore, h'.before_first hOut' hBefore']
  · have hSplit : tokens = front ++ c :: (gap ++ a :: back) := by rw [hTokens]; simp
    obtain ⟨start, inserted, rest, hStart, hFront, hInserts⟩ :=
      h.between front c gap a back hSplit hC hGap hA
    obtain ⟨start', inserted', rest', hStart', hFront', hInserts'⟩ :=
      h'.between front c gap a back hSplit hC hGap hA
    have hShort : front.length < n := by
      rw [← hLength, List.length_append, List.length_cons]
      omega
    obtain rfl : start = start' :=
      ih _ hShort hSplit hC hStart hFront hStart' hFront'
        (h.ne_terminator (by simp [hSplit]) hC) rfl
    obtain rfl := hInserts.unique hInserts'
    -- what stands before `a` is the same in both
    have hWhole : (start ++ c :: inserted).filter (·.kind ≠ .terminator) =
        (front ++ c :: gap).filter (·.kind ≠ .newline) := by
      rw [List.filter_append, List.filter_append, hFront, List.filter_cons_of_pos,
        List.filter_cons_of_pos, hInserts.filter, filter_newlines hGap]
      · simpa using hC
      · simpa using h.ne_terminator (by simp [hSplit]) hC
    have hHere : before = start ++ c :: inserted := by
      have hSame : before ++ a :: after = start ++ c :: inserted ++ a :: rest := by
        rw [← hOut, hStart]
        simp
      exact eq_of_filter_eq hNot hNot (hBefore.trans hWhole.symm) hSame
    have hHere' : before' = start ++ c :: inserted := by
      have hSame : before' ++ a :: after' = start ++ c :: inserted ++ a :: rest' := by
        rw [← hOut', hStart']
        simp
      exact eq_of_filter_eq hNot hNot (hBefore'.trans hWhole.symm) hSame
    rw [hHere, hHere']

/-- The rule leaves no choice. -/
theorem unique (h : FollowsRule tokens out) (h' : FollowsRule tokens out') : out = out' := by
  rcases newlines_or_exists_last tokens with hAll | ⟨front, a, gap, hTokens, hA, hGap⟩
  · have hEmpty {ys : List Token} (hRule : FollowsRule tokens ys) : ys = [] := by
      cases ys with
      | nil => rfl
      | cons y ys =>
        have hKept := hRule.kept
        rw [filter_newlines hAll, List.filter_cons_of_pos (by simpa using hRule.first y rfl)] at hKept
        cases hKept
    rw [hEmpty h, hEmpty h']
  · obtain ⟨before, inserted, hOut, hBefore, hInserts⟩ := h.last front a gap hTokens hA hGap
    obtain ⟨before', inserted', hOut', hBefore', hInserts'⟩ := h'.last front a gap hTokens hA hGap
    obtain rfl := h.before_eq h' hTokens hA hOut hBefore hOut' hBefore'
    rw [hOut, hOut', hInserts.unique hInserts']

end FollowsRule

end Insertion

/-- The tokens put out for an input that has no terminators of its own are those that the rule
demands: all of them but the line feeds, and a terminator where the rule has one. -/
theorem insertTerminators_eq_iff_followsRule {tokens : List Token}
    (hWritten : ∀ t ∈ tokens, t.kind ≠ .terminator) (out : List Token) :
    insertTerminators tokens = out ↔ Insertion.FollowsRule tokens out := by
  have hRule : Insertion.FollowsRule tokens (insertTerminators tokens) :=
    Insertion.followsRule_put hWritten
  constructor
  · rintro rfl
    exact hRule
  · exact hRule.unique

/-- Brackets that do not match: the first closes nothing, and a square bracket closes a parenthesis.
A `return` ends its statement at the line feed, and a name in the parenthesis does not. -/
theorem terminators_among_unmatched_brackets :
    ∃ tokens out : List Token,
      tokens.map Token.kind = [.rpar, .lbrace, .kwReturn, .newline, .lpar, .name, .newline, .name,
        .rsqb, .rbrace] ∧
      out.map Token.kind = [.rpar, .lbrace, .kwReturn, .terminator, .lpar, .name, .name, .rsqb,
        .terminator, .rbrace, .terminator] ∧
      (∀ t ∈ tokens, t.kind ≠ .terminator) ∧ Insertion.FollowsRule tokens out := by
  refine ⟨[.rpar, .lbrace, .kwReturn, .newline, .lpar, .name, .newline, .name, .rsqb, .rbrace].map
    fun k => ⟨k, [], Place.start, Place.start⟩, _, rfl, ?_, by decide,
    (insertTerminators_eq_iff_followsRule (by decide) _).mp rfl⟩
  decide

-- ---------------------------------------------------------------------------------------------
-- A second insertion
-- ---------------------------------------------------------------------------------------------

theorem quiet_terminator (brackets : List Bracket) (last : Option Terminal) (ks : List Terminal) :
    quiet brackets last (.terminator :: ks) = quiet brackets (some .terminator) ks := by
  simp [quiet, Insertion.bracketsAfter]

theorem quiet_after_terminator {k : Terminal} (hKind : k ≠ .newline) (brackets : List Bracket)
    (ks : List Terminal) :
    quiet brackets (some .terminator) (k :: ks) =
      quiet (Insertion.bracketsAfter brackets (some .terminator) k) (some k) ks := by
  have hCan : Insertion.canTerminate { last := some .terminator } = false := rfl
  simp [quiet, hKind, hCan]

theorem quiet_cons {brackets : List Bracket} {last : Option Terminal} {t : Token}
    (hKind : t.kind ≠ .newline) (hClose : Insertion.close brackets last t = none)
    (ks : List Terminal) :
    quiet brackets last (t.kind :: ks) =
      quiet (Insertion.bracketsAfter brackets last t.kind) (some t.kind) ks := by
  have hGuard : (brackets.head? = some .block && t.kind = .rbrace &&
      Insertion.canTerminate { last }) = false := by
    rw [Bool.eq_false_iff]
    intro hAll
    simp only [Bool.and_eq_true, decide_eq_true_eq] at hAll
    obtain ⟨⟨hBlock, hBrace⟩, hCan⟩ := hAll
    cases last with
    | none => cases hCan
    | some l =>
      rw [Insertion.close_eq_some_iff.mpr ⟨⟨hBrace, hBlock⟩, hCan, rfl⟩] at hClose
      cases hClose
  rw [quiet, if_neg hKind, hGuard]
  rfl

namespace Insertion

theorem quiet_finish {s : Insertion} (hRead : s.last.isSome → s.lastToken.isSome) :
    quiet s.brackets s.last (s.finish.toList.map Token.kind) = true := by
  have hCan : (s.canTerminate && s.inBlock) = canEnd s.brackets s.last := rfl
  cases hEnd : canEnd s.brackets s.last with
  | false =>
    have hFinish : s.finish = none := by
      unfold finish
      rw [hCan, hEnd]
      split <;> rfl
    rw [hFinish, Option.toList_none, List.map_nil, quiet, hEnd]
    rfl
  | true =>
    have hLast : s.last.isSome := by
      cases hLast : s.last with
      | none =>
        rw [hLast] at hEnd
        cases hEnd
      | some l => rfl
    obtain ⟨t, ht⟩ := Option.isSome_iff_exists.mp (hRead hLast)
    have hFinish : s.finish = some (terminatorAt t) := by
      unfold finish
      rw [ht]
      exact if_pos (hCan.trans hEnd)
    rw [hFinish, Option.toList_some, List.map_singleton]
    exact quiet_terminator _ _ _

/-- Nothing is to be inserted into what was put out: the brackets are the same the second time, and
where a statement could end at a brace or at the end, a terminator stands now. -/
theorem quiet_put {s : Insertion} (hRead : s.last.isSome → s.lastToken.isSome)
    (ts : List Token) : quiet s.brackets s.last ((s.put ts).map Token.kind) = true := by
  induction ts generalizing s with
  | nil => exact quiet_finish hRead
  | cons t ts ih =>
    by_cases hKind : t.kind = .newline
    · obtain ⟨pending, hStep⟩ := s.exists_step_newline hKind
      rw [put_skipped hStep]
      exact ih (s := { s with pending := pending }) hRead
    · have hNext (brackets : List Bracket) := ih (s := rightAfter brackets t none) fun _ => rfl
      cases hSettle : s.settle t.kind with
      | some x =>
        rw [put_settled hKind hSettle, List.map_cons, List.map_cons, kind_of_settle hSettle,
          quiet_terminator, quiet_after_terminator hKind]
        exact hNext _
      | none =>
        cases hClose : close s.brackets s.last t with
        | some x =>
          rw [put_closed hKind hSettle hClose, List.map_cons, List.map_cons, kind_of_close hClose,
            quiet_terminator, quiet_after_terminator hKind]
          exact hNext _
        | none =>
          rw [put_unsettled hKind hSettle hClose, List.map_cons, quiet_cons hKind hClose]
          exact hNext _

theorem put_ne_newline (s : Insertion) (ts : List Token) : ∀ t ∈ s.put ts, t.kind ≠ .newline := by
  intro t ht
  by_cases hKind : t.kind = .terminator
  · rw [hKind]
    decide
  · obtain ⟨before, after, hSplit⟩ := List.append_of_mem ht
    obtain ⟨_, _, _, hWord, _⟩ := put_eq_append hKind hSplit
    exact hWord

end Insertion

/-- A second insertion changes nothing, whatever the tokens. -/
theorem insertTerminators_idempotent (tokens : List Token) :
    insertTerminators (insertTerminators tokens) = insertTerminators tokens := by
  have hQuiet : quiet [] none ((insertTerminators tokens).map Token.kind) = true :=
    Insertion.quiet_put (s := {}) (fun h => by cases h) tokens
  rw [insertTerminators_quiet hQuiet, List.filter_eq_self]
  intro t ht
  simpa using Insertion.put_ne_newline {} tokens t ht

end ClientBoundary
