import ClientBoundary.Proofs.BareValue
import ClientBoundary.Proofs.Spelling

/-!
# Where terminators are inserted

The insertion of terminators reads the tokens of a source one by one. What it puts out depends on
the kinds of the tokens and not on their places (`put_bare`), and its state is determined by what it
has put out so far (`state_run`).

* `put_eq_append` — each token put out that is no terminator was read at some point, and what stands
  before and after it was put out before and after that point.
* `insertTerminators_omitted` — where a statement may end and a line feed or the end of the input
  follows, a semicolon can be left out: a terminator is put out in its place, and everything else is
  the same.
-/

namespace ClientBoundary

namespace Insertion

/-- All that is put out from a state on, the terminator at the end included. -/
def put (s : Insertion) (ts : List Token) : List Token :=
  (s.run ts).1 ++ (s.run ts).2.finish.toList

theorem put_nil (s : Insertion) : s.put [] = s.finish.toList := rfl

theorem put_cons (s : Insertion) (t : Token) (ts : List Token) :
    s.put (t :: ts) = (s.step t).1 ++ (s.step t).2.put ts := by
  rw [put, run, put]
  exact List.append_assoc ..

theorem run_cons (s : Insertion) (t : Token) (ts : List Token) :
    s.run (t :: ts) = ((s.step t).1 ++ ((s.step t).2.run ts).1, ((s.step t).2.run ts).2) := rfl

theorem run_append (s : Insertion) (ts us : List Token) :
    s.run (ts ++ us) =
      ((s.run ts).1 ++ ((s.run ts).2.run us).1, ((s.run ts).2.run us).2) := by
  induction ts generalizing s with
  | nil => rfl
  | cons t ts ih => rw [List.cons_append, run_cons, run_cons, ih, List.append_assoc]

theorem put_append (s : Insertion) (ts us : List Token) :
    s.put (ts ++ us) = (s.run ts).1 ++ (s.run ts).2.put us := by
  rw [put, run_append, put, List.append_assoc]

-- ---------------------------------------------------------------------------------------------
-- Places do not matter
-- ---------------------------------------------------------------------------------------------

/-- The state without the places of the tokens it remembers. -/
def bare (s : Insertion) : Insertion :=
  { s with pending := s.pending.map Token.bare, lastToken := s.lastToken.map Token.bare }

theorem settle_bare (s : Insertion) (k : Terminal) :
    s.bare.settle k = (s.settle k).map Token.bare := by
  unfold settle
  cases hPending : s.pending with
  | none => simp [bare, hPending]
  | some nl =>
    have hBare : s.bare.pending = some nl.bare := by rw [bare, hPending]; rfl
    have hGuard : (s.bare.isRestricted || endsStatement k s.bare.last) =
        (s.isRestricted || endsStatement k s.last) := rfl
    simp only [hBare, hGuard]
    cases s.isRestricted || endsStatement k s.last <;> rfl

theorem close_bare (brackets : List Bracket) (last : Option Terminal) (t : Token) :
    close brackets last t.bare = (close brackets last t).map Token.bare := by
  unfold close
  split
  · rename_i l
    have hGuard : (decide (t.bare.kind = .rbrace) && terminable l) =
        (decide (t.kind = .rbrace) && terminable l) := rfl
    rw [hGuard]
    cases decide (t.kind = .rbrace) && terminable l <;> rfl
  · rfl

theorem step_bare (s : Insertion) (t : Token) :
    s.bare.step t.bare = ((s.step t).1.map Token.bare, (s.step t).2.bare) := by
  unfold step
  have hKind : t.bare.kind = t.kind := rfl
  rw [hKind]
  by_cases hNewline : t.kind = .newline
  · rw [if_pos hNewline, if_pos hNewline]
    have hGuard : (s.bare.pending.isNone && s.bare.canTerminate && s.bare.inBlock) =
        (s.pending.isNone && s.canTerminate && s.inBlock) := by
      have hPending : s.bare.pending.isNone = s.pending.isNone := by simp [bare]
      rw [hPending]
      rfl
    rw [hGuard]
    cases s.pending.isNone && s.canTerminate && s.inBlock <;> rfl
  · rw [if_neg hNewline, if_neg hNewline, settle_bare]
    have hBrackets : s.bare.brackets = s.brackets := rfl
    have hLast : s.bare.last = s.last := rfl
    simp only [hBrackets, hLast, Option.isSome_map, close_bare, Option.toList_map]
    refine Prod.ext ?_ rfl
    rw [List.map_append, List.map_append, List.map_singleton]

theorem finish_bare (s : Insertion) : s.bare.finish = s.finish.map Token.bare := by
  unfold finish
  cases hLast : s.lastToken with
  | none => simp [bare, hLast]
  | some t =>
    have hBare : s.bare.lastToken = some t.bare := by rw [bare, hLast]; rfl
    have hGuard : (s.bare.canTerminate && s.bare.inBlock) = (s.canTerminate && s.inBlock) := rfl
    simp only [hBare, hGuard]
    cases s.canTerminate && s.inBlock <;> rfl

/-- What is put out for tokens without their places is what is put out for the tokens, without its
places. -/
theorem put_bare (s : Insertion) (ts : List Token) :
    s.bare.put (ts.map Token.bare) = (s.put ts).map Token.bare := by
  induction ts generalizing s with
  | nil => rw [List.map_nil, put_nil, put_nil, finish_bare, Option.toList_map]
  | cons t ts ih => rw [List.map_cons, put_cons, put_cons, step_bare, ih, List.map_append]

-- ---------------------------------------------------------------------------------------------
-- The state and what was put out
-- ---------------------------------------------------------------------------------------------

/-- The kind of the last of some tokens, or the given one when there are none. -/
def lastOf (last : Option Terminal) (out : List Token) : Option Terminal :=
  (out.getLast?.map Token.kind).or last

/-- The brackets that are open after some tokens, inserted terminators among them. -/
def openAfter (brackets : List Bracket) (last : Option Terminal) : List Token → List Bracket
  | [] => brackets
  | t :: out => openAfter (bracketsAfter brackets last t.kind) (some t.kind) out

theorem lastOf_cons (last : Option Terminal) (t : Token) (out : List Token) :
    lastOf last (t :: out) = lastOf (some t.kind) out := by
  rw [lastOf, lastOf, List.getLast?_cons]
  cases out.getLast? <;> rfl

theorem lastOf_append (last : Option Terminal) (out out' : List Token) :
    lastOf last (out ++ out') = lastOf (lastOf last out) out' := by
  simp [lastOf, List.getLast?_append, Option.map_or, Option.or_assoc]

theorem openAfter_append (brackets : List Bracket) (last : Option Terminal)
    (out out' : List Token) :
    openAfter brackets last (out ++ out') =
      openAfter (openAfter brackets last out) (lastOf last out) out' := by
  induction out generalizing brackets last with
  | nil => rfl
  | cons t out ih => rw [List.cons_append, openAfter, openAfter, lastOf_cons, ih]

/-- A terminator leaves the brackets as they are. -/
theorem openAfter_terminator {x : Token} (hKind : x.kind = .terminator) (brackets : List Bracket)
    (last : Option Terminal) (out : List Token) :
    openAfter brackets last (x :: out) = openAfter brackets (some .terminator) out := by
  rw [openAfter, hKind]
  rfl

theorem kind_of_settle {s : Insertion} {k : Terminal} {x : Token} (h : s.settle k = some x) :
    x.kind = .terminator := by
  unfold settle at h
  split at h
  · split at h
    · cases h
      rfl
    · cases h
  · cases h

theorem kind_of_close {brackets : List Bracket} {last : Option Terminal} {t x : Token}
    (h : close brackets last t = some x) : x.kind = .terminator := by
  unfold close at h
  split at h
  · split at h
    · cases h
      rfl
    · cases h
  · cases h

theorem kind_of_finish {s : Insertion} {x : Token} (h : s.finish = some x) :
    x.kind = .terminator := by
  unfold finish at h
  split at h
  · split at h
    · cases h
      rfl
    · cases h
  · cases h

/-- After a terminator no second one is put before a brace, nor after a semicolon. -/
theorem close_eq_none_of_not_terminable {last : Terminal} (hLast : terminable last = false)
    (brackets : List Bracket) (t : Token) : close brackets (some last) t = none :=
  close_eq_none (by rw [show canTerminate { last := some last } = false from hLast]; simp)

theorem step_settled {s : Insertion} {t x : Token} (hKind : t.kind ≠ .newline)
    (hSettle : s.settle t.kind = some x) :
    s.step t = ([x, t],
      { brackets := bracketsAfter s.brackets (some .terminator) t.kind, last := some t.kind,
        lastToken := some t }) := by
  have hClose : close s.brackets (some .terminator) t = none :=
    close_eq_none_of_not_terminable rfl _ _
  rw [step, if_neg hKind]
  simp [hSettle, hClose]

/-- For a line feed nothing is put out, and at most it is remembered. -/
theorem exists_step_newline (s : Insertion) {t : Token} (hKind : t.kind = .newline) :
    ∃ pending, s.step t = ([], { s with pending := pending }) := by
  unfold step
  rw [if_pos hKind]
  split
  · exact ⟨some t, rfl⟩
  · exact ⟨s.pending, rfl⟩

/-- A token that is no line feed is put out after terminators alone. -/
theorem step_word (s : Insertion) {t : Token} (hKind : t.kind ≠ .newline) :
    ∃ inserted : List Token, (∀ x ∈ inserted, x.kind = .terminator) ∧
      s.step t = (inserted ++ [t],
        { brackets := openAfter s.brackets s.last (inserted ++ [t])
          last := some t.kind
          pending := none
          lastToken := some t }) := by
  cases hSettle : s.settle t.kind with
  | none =>
    cases hClose : close s.brackets s.last t with
    | none =>
      refine ⟨[], nofun, ?_⟩
      rw [step, if_neg hKind]
      simp [hSettle, hClose, openAfter]
    | some y =>
      have hTerminator := kind_of_close hClose
      refine ⟨[y], by simpa using hTerminator, ?_⟩
      rw [step, if_neg hKind]
      simp [hSettle, hClose, openAfter_terminator hTerminator, openAfter]
  | some x =>
    have hTerminator := kind_of_settle hSettle
    refine ⟨[x], by simpa using hTerminator, ?_⟩
    rw [step_settled hKind hSettle, List.singleton_append, openAfter_terminator hTerminator]
    rfl

/-- The state right after a token, or at a line feed after it that is waiting. -/
def rightAfter (brackets : List Bracket) (t : Token) (pending : Option Token) : Insertion :=
  ⟨brackets, some t.kind, pending, some t⟩

theorem put_skipped {s s' : Insertion} {u : Token} (h : s.step u = ([], s')) (us : List Token) :
    s.put (u :: us) = s'.put us := by
  rw [put_cons, h]
  rfl

theorem put_settled {s : Insertion} {u x : Token} (hKind : u.kind ≠ .newline)
    (hSettle : s.settle u.kind = some x) (us : List Token) :
    s.put (u :: us) =
      x :: u :: (rightAfter (bracketsAfter s.brackets (some .terminator) u.kind) u none).put us := by
  rw [put_cons, step_settled hKind hSettle]
  rfl

theorem put_closed {s : Insertion} {u x : Token} (hKind : u.kind ≠ .newline)
    (hSettle : s.settle u.kind = none) (hClose : close s.brackets s.last u = some x)
    (us : List Token) :
    s.put (u :: us) =
      x :: u :: (rightAfter (bracketsAfter s.brackets (some .terminator) u.kind) u none).put us := by
  rw [put_cons, step, if_neg hKind]
  simp [hSettle, hClose, rightAfter]

theorem put_unsettled {s : Insertion} {u : Token} (hKind : u.kind ≠ .newline)
    (hSettle : s.settle u.kind = none) (hClose : close s.brackets s.last u = none)
    (us : List Token) :
    s.put (u :: us) = u :: (rightAfter (bracketsAfter s.brackets s.last u.kind) u none).put us := by
  rw [put_cons, step, if_neg hKind]
  simp [hSettle, hClose, rightAfter]

/-- The last terminal and the open brackets of the state are those of what was put out. -/
theorem state_run (s : Insertion) (ts : List Token) :
    (s.run ts).2.brackets = openAfter s.brackets s.last (s.run ts).1 ∧
      (s.run ts).2.last = lastOf s.last (s.run ts).1 := by
  induction ts generalizing s with
  | nil => exact ⟨rfl, rfl⟩
  | cons t ts ih =>
    rw [run_cons, openAfter_append, lastOf_append]
    have hState : (s.step t).2.brackets = openAfter s.brackets s.last (s.step t).1 ∧
        (s.step t).2.last = lastOf s.last (s.step t).1 := by
      by_cases hKind : t.kind = .newline
      · obtain ⟨pending, hStep⟩ := s.exists_step_newline hKind
        rw [hStep]
        exact ⟨rfl, rfl⟩
      · obtain ⟨inserted, _, hStep⟩ := s.step_word hKind
        rw [hStep, lastOf_append]
        exact ⟨rfl, rfl⟩
    rw [← hState.1, ← hState.2]
    exact ih _

/-- As soon as a terminal was put out, a token of the source was. -/
theorem lastToken_run {s : Insertion} (h : s.last.isSome → s.lastToken.isSome) (ts : List Token) :
    (s.run ts).2.last.isSome → (s.run ts).2.lastToken.isSome := by
  induction ts generalizing s with
  | nil => exact h
  | cons t ts ih =>
    rw [run_cons]
    refine ih ?_
    by_cases hKind : t.kind = .newline
    · obtain ⟨pending, hStep⟩ := s.exists_step_newline hKind
      rw [hStep]
      exact h
    · obtain ⟨inserted, _, hStep⟩ := s.step_word hKind
      rw [hStep]
      exact fun _ => rfl

theorem filter_terminators {ts : List Token} (h : ∀ t ∈ ts, t.kind = .terminator) :
    ts.filter (·.kind ≠ .terminator) = [] :=
  List.filter_eq_nil_iff.mpr fun t ht => by simp [h t ht]

/-- Nothing but line feeds is left out, and nothing but terminators put in. -/
theorem filter_run (s : Insertion) {ts : List Token} (h : ∀ t ∈ ts, t.kind ≠ .terminator) :
    (s.run ts).1.filter (·.kind ≠ .terminator) = ts.filter (·.kind ≠ .newline) := by
  induction ts generalizing s with
  | nil => rfl
  | cons t ts ih =>
    obtain ⟨hHere, hRest⟩ := List.forall_mem_cons.mp h
    rw [run_cons, List.filter_append, ih _ hRest]
    by_cases hKind : t.kind = .newline
    · obtain ⟨pending, hStep⟩ := s.exists_step_newline hKind
      rw [hStep, List.filter_cons_of_neg (by simp [hKind])]
      rfl
    · obtain ⟨inserted, hInserted, hStep⟩ := s.step_word hKind
      rw [hStep, List.filter_append, filter_terminators hInserted,
        List.filter_cons_of_pos (by simp [hHere]), List.filter_cons_of_pos (by simp [hKind])]
      rfl

theorem filter_put (s : Insertion) {ts : List Token} (h : ∀ t ∈ ts, t.kind ≠ .terminator) :
    (s.put ts).filter (·.kind ≠ .terminator) = ts.filter (·.kind ≠ .newline) := by
  have hFinish : ∀ t ∈ (s.run ts).2.finish.toList, t.kind = .terminator :=
    fun t ht => kind_of_finish (Option.mem_toList.mp ht)
  rw [put, List.filter_append, s.filter_run h, filter_terminators hFinish, List.append_nil]

/-- Two ways to split a list at an element that is not among the first ones of it. -/
theorem append_cons_cases {α : Type} {t x : α} {inserted rest before after : List α}
    (hNot : x ∉ inserted) (h : inserted ++ t :: rest = before ++ x :: after) :
    (before = inserted ∧ x = t ∧ after = rest) ∨
      ∃ before', before = inserted ++ t :: before' ∧ rest = before' ++ x :: after := by
  induction inserted generalizing before with
  | nil =>
    cases before with
    | nil =>
      obtain ⟨rfl, rfl⟩ := List.cons.inj h
      exact .inl ⟨rfl, rfl, rfl⟩
    | cons y before =>
      obtain ⟨rfl, hRest⟩ := List.cons.inj h
      exact .inr ⟨before, rfl, hRest⟩
  | cons y inserted ih =>
    cases before with
    | nil =>
      obtain ⟨rfl, _⟩ := List.cons.inj h
      exact absurd List.mem_cons_self hNot
    | cons z before =>
      obtain ⟨rfl, hRest⟩ := List.cons.inj h
      rcases ih (fun hMem => hNot (List.mem_cons_of_mem _ hMem)) hRest with
        ⟨rfl, hx, hAfter⟩ | ⟨before', rfl, hAfter⟩
      · exact .inl ⟨rfl, hx, hAfter⟩
      · exact .inr ⟨before', rfl, hAfter⟩

/-- A token put out that is no terminator was read at some point, what was put out up to it was put
out up to that point, and what comes after it was put out from there on. -/
theorem put_eq_append {s : Insertion} {ts before after : List Token} {x : Token}
    (hKind : x.kind ≠ .terminator) (h : s.put ts = before ++ x :: after) :
    ∃ front back, ts = front ++ x :: back ∧ x.kind ≠ .newline ∧
      before ++ [x] = (s.run (front ++ [x])).1 ∧ after = (s.run (front ++ [x])).2.put back := by
  induction ts generalizing s before with
  | nil =>
    have hMem : x ∈ s.finish.toList := by
      rw [← put_nil, h]
      simp
    exact absurd (kind_of_finish (Option.mem_toList.mp hMem)) hKind
  | cons t ts ih =>
    rw [put_cons] at h
    by_cases hNewline : t.kind = .newline
    · obtain ⟨pending, hStep⟩ := s.exists_step_newline hNewline
      have hOut : (s.step t).1 = [] := by rw [hStep]
      rw [hOut, List.nil_append] at h
      obtain ⟨front, back, rfl, hWord, hBefore, hAfter⟩ := ih h
      refine ⟨t :: front, back, rfl, hWord, ?_, hAfter⟩
      rw [List.cons_append, run_cons, hOut, hBefore]
      rfl
    · obtain ⟨inserted, hInserted, hStep⟩ := s.step_word hNewline
      have hOut : (s.step t).1 = inserted ++ [t] := by rw [hStep]
      rw [hOut, List.append_assoc, List.singleton_append] at h
      rcases append_cons_cases (fun hMem => hKind (hInserted x hMem)) h with
        ⟨rfl, rfl, rfl⟩ | ⟨before', rfl, hRest⟩
      · refine ⟨[], ts, rfl, hNewline, ?_, rfl⟩
        rw [List.nil_append, run_cons, hOut]
        exact (List.append_nil _).symm
      · obtain ⟨front, back, rfl, hWord, hBefore, hAfter⟩ := ih hRest
        refine ⟨t :: front, back, rfl, hWord, ?_, hAfter⟩
        rw [List.cons_append, run_cons, hOut, ← hBefore]
        simp

-- ---------------------------------------------------------------------------------------------
-- A terminator for a semicolon
-- ---------------------------------------------------------------------------------------------

/-- A statement may end here. -/
structure Ending (s : Insertion) : Prop where
  canTerminate : s.canTerminate = true
  inBlock : s.inBlock = true
  read : s.lastToken.isSome = true

/-- The state right after a semicolon. -/
def afterSemi (s : Insertion) (semi : Token) : Insertion :=
  { brackets := s.brackets, last := some .semi, lastToken := some semi }

theorem step_semi (s : Insertion) {semi : Token} (hSemi : semi.kind = .semi) :
    (s.step semi).2 = s.afterSemi semi := by
  have hKind : semi.kind ≠ .newline := by rw [hSemi]; decide
  rw [step, if_neg hKind]
  simp only [hSemi]
  rfl

/-- After a semicolon line feeds mean nothing. -/
theorem put_afterSemi_newline (s : Insertion) (semi : Token) {t : Token} (ts : List Token)
    (hKind : t.kind = .newline) :
    (s.afterSemi semi).put (t :: ts) = (s.afterSemi semi).put ts := by
  rw [put_cons, step_newline hKind rfl, List.nil_append]

theorem put_end {s : Insertion} (semi : Token) (hEnding : s.Ending) :
    ∃ x : Token, x.kind = .terminator ∧ s.put [] = x :: (s.afterSemi semi).put [] := by
  obtain ⟨t, hRead⟩ := Option.isSome_iff_exists.mp hEnding.read
  refine ⟨terminatorAt t, rfl, ?_⟩
  rw [put_nil, put_nil, finish, hRead]
  simp only [hEnding.canTerminate, hEnding.inBlock, Bool.and_self, if_true]
  rfl

theorem put_pending {s : Insertion} (semi : Token) {ts : List Token} (hEnding : s.Ending)
    (hPending : s.pending.isSome = true)
    (hNext : ∀ t ∈ ts.find? (·.kind ≠ .newline),
      (s.isRestricted || endsStatement t.kind s.last) = true) :
    ∃ x : Token, x.kind = .terminator ∧ s.put ts = x :: (s.afterSemi semi).put ts := by
  induction ts with
  | nil => exact put_end semi hEnding
  | cons t ts ih =>
    by_cases hKind : t.kind = .newline
    · -- one line feed is waiting already
      have hStep : s.step t = ([], s) := by
        have hNone : s.pending.isNone = false := by rw [← Option.not_isSome, hPending]; rfl
        rw [step, if_pos hKind, hNone]
        rfl
      rw [put_afterSemi_newline s semi ts hKind, put_cons, hStep]
      refine ih fun u hu => hNext u ?_
      rw [List.find?_cons_of_neg (by simp [hKind])]
      exact hu
    · have hEnds : (s.isRestricted || endsStatement t.kind s.last) = true := by
        refine hNext t ?_
        rw [List.find?_cons_of_pos (by simp [hKind])]
        rfl
      obtain ⟨nl, hNl⟩ := Option.isSome_iff_exists.mp hPending
      have hSettle : s.settle t.kind = some (terminatorAt nl) := by
        rw [settle, hNl]
        exact if_pos hEnds
      have hClose : close (s.afterSemi semi).brackets (s.afterSemi semi).last t = none :=
        close_eq_none_of_not_terminable rfl _ _
      -- a brace opens a block after a terminator as it does after a semicolon
      have hBrackets : bracketsAfter s.brackets (some .terminator) t.kind =
          bracketsAfter s.brackets (some .semi) t.kind := rfl
      refine ⟨terminatorAt nl, rfl, ?_⟩
      rw [put_cons, put_cons, step_settled hKind hSettle, step_passed hKind rfl hClose, hBrackets]
      rfl

/-- Where a statement may end, a semicolon before a line feed or the end of the input can be left
out: a terminator is put out in its place. -/
theorem put_without_semi {s : Insertion} {semi : Token} {ts : List Token}
    (hSemi : semi.kind = .semi) (hEnding : s.Ending)
    (hLine : ∀ t ∈ ts.head?, t.kind = .newline)
    (hNext : ∀ t ∈ ts.find? (·.kind ≠ .newline),
      (s.isRestricted || endsStatement t.kind s.last) = true) :
    ∃ x : Token, x.kind = .terminator ∧ s.put ts = x :: (s.step semi).2.put ts := by
  rw [s.step_semi hSemi]
  cases ts with
  | nil => exact put_end semi hEnding
  | cons t ts =>
    cases hPending : s.pending with
    | some nl => exact put_pending semi hEnding (by rw [hPending]; rfl) hNext
    | none =>
      have hKind : t.kind = .newline := hLine t rfl
      have hStep : s.step t = ([], { s with pending := some t }) := by
        rw [step, if_pos hKind, hPending, hEnding.canTerminate, hEnding.inBlock]
        rfl
      have hEnding' : Ending { s with pending := some t } :=
        ⟨hEnding.canTerminate, hEnding.inBlock, hEnding.read⟩
      rw [put_afterSemi_newline s semi ts hKind, put_cons, hStep]
      refine put_pending semi hEnding' rfl fun u hu => hNext u ?_
      rw [List.find?_cons_of_neg (by simp [hKind])]
      exact hu

/-- The first token put out after a semicolon is the next one that is no line feed. -/
theorem head_put_afterSemi (s : Insertion) (semi : Token) (ts : List Token) :
    ((s.afterSemi semi).put ts).head? = ts.find? (·.kind ≠ .newline) := by
  induction ts with
  | nil => rfl
  | cons t ts ih =>
    by_cases hKind : t.kind = .newline
    · rw [put_afterSemi_newline s semi ts hKind, ih, List.find?_cons_of_neg (by simp [hKind])]
    · have hClose : close (s.afterSemi semi).brackets (s.afterSemi semi).last t = none :=
        close_eq_none_of_not_terminable rfl _ _
      rw [put_cons, step_passed hKind rfl hClose, List.find?_cons_of_pos (by simp [hKind])]
      rfl

end Insertion

/-- When lexing has reached the end of the text, all its tokens are put out. -/
theorem Lexing.statements_eq_put {l : Lexing} (h : l.failure = none) :
    l.statements = Insertion.put {} l.tokens := by
  rw [statements, h]
  rfl

/-- The semicolon between the tokens `before` and the tokens `after` may be left out before a line
feed: a statement may end after the `last` token, line feeds count there, and the next token is not
one that would go on with the statement. After an expression, a regular expression and an element
would: without the semicolon they are read as a division and a comparison. -/
structure Omissible (before : List Token) (last : Token) (after : List Token) : Prop where
  last_before : before.getLast? = some last
  terminable : Insertion.terminable last.kind = true
  block : (Insertion.openAfter [] none before).head? ≠ some .group
  next : ∀ next ∈ after.head?, Insertion.restricted last.kind = true ∨
    (Insertion.endsStatement next.kind (some last.kind) = true ∧
      next.kind ≠ .regex ∧ next.kind ≠ .jsxOpen)

/-- No terminator stands between a token and one before it that can end a statement: what is put out
before the token is put out before it is read. -/
theorem before_eq_run {front before : List Token} {last x : Token} (hWord : x.kind ≠ .newline)
    (hBefore : before ++ [x] = (Insertion.run {} (front ++ [x])).1)
    (hLast : before.getLast? = some last) (hTerminable : Insertion.terminable last.kind = true) :
    before = (Insertion.run {} front).1 := by
  obtain ⟨inserted, hInserted, hStep⟩ := (Insertion.run {} front).2.step_word hWord
  have hFront : before = (Insertion.run {} front).1 ++ inserted := by
    have hRun : ((Insertion.run {} front).2.run [x]).1 = inserted ++ [x] := by
      rw [Insertion.run_cons, hStep]
      exact List.append_nil _
    rw [Insertion.run_append, hRun, ← List.append_assoc] at hBefore
    exact List.append_cancel_right hBefore
  cases hEnd : inserted.getLast? with
  | none => rw [hFront, List.getLast?_eq_none_iff.mp hEnd, List.append_nil]
  | some y =>
    have hSame : y = last := by
      rw [hFront, List.getLast?_append, hEnd] at hLast
      exact Option.some.inj hLast
    rw [← hSame, hInserted y (List.mem_of_getLast? hEnd)] at hTerminable
    cases hTerminable

theorem ending_of_omissible {front before after : List Token} {last : Token}
    (hFront : before = (Insertion.run {} front).1) (hOmissible : Omissible before last after) :
    (Insertion.run {} front).2.Ending ∧ (Insertion.run {} front).2.last = some last.kind := by
  obtain ⟨hBrackets, hLast⟩ := Insertion.state_run {} front
  have hRead := Insertion.lastToken_run (s := {}) nofun front
  rw [← hFront] at hBrackets hLast
  rw [Insertion.lastOf, hOmissible.last_before] at hLast
  refine ⟨⟨?_, ?_, hRead (by rw [hLast]; rfl)⟩, hLast⟩
  · rw [Insertion.canTerminate, hLast]
    exact hOmissible.terminable
  · have hBlock := hOmissible.block
    rw [Insertion.inBlock, hBrackets]
    cases hOpen : Insertion.openAfter [] none before with
    | nil => rfl
    | cons b bs =>
      cases b with
      | block => rfl
      | group => exact absurd (by rw [hOpen]; rfl) hBlock

/-- Where a statement may end and a line follows, a terminator stands for the semicolon that is left
out, whatever the places of the tokens after it. -/
theorem insertTerminators_omitted {tokens before after : List Token} {last semi : Token}
    (hTokens : insertTerminators tokens = before ++ semi :: after) (hSemi : semi.kind = .semi)
    (hOmissible : Omissible before last after) :
    ∃ front back, tokens = front ++ semi :: back ∧
      after.head? = back.find? (·.kind ≠ .newline) ∧
      (Insertion.run {} front).2.last = some last.kind ∧
      ((∀ t ∈ back.head?, t.kind = .newline) →
        ∀ back' : List Token, back'.map Token.bare = back.map Token.bare →
          ∃ x : Token, x.kind = .terminator ∧
            (insertTerminators (front ++ back')).map Token.bare =
              (before ++ x :: after).map Token.bare) := by
  obtain ⟨front, back, rfl, hWord, hBefore, hAfter⟩ :=
    Insertion.put_eq_append (s := {}) (by rw [hSemi]; decide) hTokens
  have hFront := before_eq_run hWord hBefore hOmissible.last_before hOmissible.terminable
  obtain ⟨hEnding, hLast⟩ := ending_of_omissible hFront hOmissible
  generalize hState : (Insertion.run {} front).2 = s at hEnding hLast
  have hStep : (Insertion.run {} (front ++ [semi])).2 = (s.step semi).2 := by
    rw [Insertion.run_append, hState]
    rfl
  rw [hStep] at hAfter
  have hHead : after.head? = back.find? (·.kind ≠ .newline) := by
    rw [hAfter, s.step_semi hSemi, Insertion.head_put_afterSemi]
  refine ⟨front, back, rfl, hHead, by rw [hState]; exact hLast, fun hLine back' hBack => ?_⟩
  have hNext : ∀ t ∈ back.find? (·.kind ≠ .newline),
      (s.isRestricted || Insertion.endsStatement t.kind s.last) = true := by
    intro t ht
    rw [Insertion.isRestricted, hLast, Bool.or_eq_true]
    exact (hOmissible.next t (hHead ▸ ht)).imp_right And.left
  obtain ⟨x, hKind, hPut⟩ := Insertion.put_without_semi hSemi hEnding hLine hNext
  refine ⟨x, hKind, ?_⟩
  have hBare : (s.put back').map Token.bare = (x :: after).map Token.bare := by
    rw [← s.put_bare, hBack, s.put_bare, hPut, hAfter]
  have hOmitted : insertTerminators (front ++ back') = before ++ s.put back' := by
    rw [hFront, ← hState]
    exact Insertion.put_append {} front back'
  rw [hOmitted, List.map_append, hBare, List.map_append]

end ClientBoundary
