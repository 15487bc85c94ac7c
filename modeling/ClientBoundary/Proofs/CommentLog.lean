import ClientBoundary.Proofs.ServerOutput
import Mathlib.Data.List.DropRight
import Mathlib.Data.List.Induction
import Mathlib.Data.List.Sort

/-!
# A table of comments and its log

A table is known by the calls that were made on it. What is filed at a position of one side is what
was added there since the last time it was taken, and every answer of the table can be told from the
calls before it.

* `TableCall`, `CommentTable.run` — the calls on a table, and a run of any number of them with their
  answers.
* `filed` — the comments at a position according to a log of calls; `AnswersLog` — what a call must
  answer after a log.
* `Reflects.perform` — a table that holds what a log says still does after one more call, and the
  call is answered as the log has it.
* `table_refines_log` — tables and logs agree, in all answers and in the state at the end.
-/

namespace ClientBoundary

-- ---------------------------------------------------------------------------------------------
-- Positions
-- ---------------------------------------------------------------------------------------------

theorem nodup_eraseDups : (l : List Int) → l.eraseDups.Nodup
  | [] => List.nodup_nil
  | a :: l => by
    rw [List.eraseDups_cons, List.nodup_cons, List.mem_eraseDups]
    exact ⟨by simp, nodup_eraseDups _⟩
termination_by l => l.length
decreasing_by exact Nat.lt_succ_of_le (List.length_filter_le _ _)

namespace CommentEntries

theorem mem_positions (es : CommentEntries) (pos : Int) :
    pos ∈ es.positions ↔ es.get pos ≠ [] := by
  rw [CommentEntries.positions, List.mem_mergeSort, List.mem_eraseDups, CommentEntries.get, Ne,
    List.map_eq_nil_iff, List.filter_eq_nil_iff]
  simp

/-- The positions of a table are in strictly ascending order. -/
theorem pairwise_positions (es : CommentEntries) : es.positions.Pairwise (· < ·) := by
  have hSorted : es.positions.Pairwise (· ≤ ·) := List.pairwise_mergeSort' (· ≤ ·) _
  have hNodup : es.positions.Nodup :=
    (List.mergeSort_perm _ _).nodup_iff.mpr (nodup_eraseDups _)
  exact (hSorted.and hNodup).imp fun h => lt_of_le_of_ne h.1 h.2

end CommentEntries

-- ---------------------------------------------------------------------------------------------
-- Calls
-- ---------------------------------------------------------------------------------------------

/-- The two sides of a table. -/
inductive CommentSide where
  | leading
  | trailing
deriving DecidableEq

/-- What a table holds on one side. -/
def CommentTable.entries (t : CommentTable) : CommentSide → CommentEntries
  | .leading => t.leading
  | .trailing => t.trailing

/-- A call on a table. An unknown position can be looked up, but nothing is added or taken there. -/
inductive TableCall where
  | add (side : CommentSide) (pos : Int) (c : Comment)
  | get (side : CommentSide) (pos : Option Int)
  | hasLeading (pos : Option Int)
  | take (side : CommentSide) (pos : Int)
  | leadingPositions

/-- What a table answers to a call. -/
inductive TableAnswer where
  | done
  | comments (cs : List Comment)
  | truth (b : Bool)
  | positions (ps : List Int)

/-- Make a call on a table. -/
def CommentTable.perform (t : CommentTable) : TableCall → TableAnswer × CommentTable
  | .add .leading pos c => (.done, t.addLeading pos c)
  | .add .trailing pos c => (.done, t.addTrailing pos c)
  | .get .leading pos => (.comments (t.getLeading pos), t)
  | .get .trailing pos => (.comments (t.getTrailing pos), t)
  | .hasLeading pos => (.truth (t.hasLeading pos), t)
  | .take .leading pos => (.comments (t.takeLeading pos).1, (t.takeLeading pos).2)
  | .take .trailing pos => (.comments (t.takeTrailing pos).1, (t.takeTrailing pos).2)
  | .leadingPositions => (.positions t.leadingPositions, t)

/-- Make calls one after the other: all answers, and the table at the end. -/
def CommentTable.run (t : CommentTable) : List TableCall → List TableAnswer × CommentTable
  | [] => ([], t)
  | call :: calls =>
    let (answer, t) := t.perform call
    let (answers, t) := t.run calls
    (answer :: answers, t)

-- ---------------------------------------------------------------------------------------------
-- Logs
-- ---------------------------------------------------------------------------------------------

namespace TableCall

/-- The comment that a call adds at a position. -/
def added? (side : CommentSide) (pos : Int) : TableCall → Option Comment
  | .add s p c => if s = side ∧ p = pos then some c else none
  | _ => none

/-- A call takes what is filed at a position. -/
def takes (side : CommentSide) (pos : Int) : TableCall → Bool
  | .take s p => s = side ∧ p = pos
  | _ => false

/-- A call adds or takes comments at a position. -/
def changes (side : CommentSide) (pos : Int) (call : TableCall) : Bool :=
  call.takes side pos || (call.added? side pos).isSome

end TableCall

/-- The comments at a position according to a log: those added there after the last call that took
the comments of the position. -/
def filed (log : List TableCall) (side : CommentSide) (pos : Int) : List Comment :=
  (log.rtakeWhile fun call => !call.takes side pos).filterMap (·.added? side pos)

/-- What a call must answer after the calls of a log. -/
def AnswersLog (log : List TableCall) : TableCall → TableAnswer → Prop
  | .add .., answer => answer = .done
  | .get side pos, answer => answer = .comments (pos.elim [] (filed log side))
  | .take side pos, answer => answer = .comments (filed log side pos)
  | .hasLeading pos, answer =>
    ∃ b, answer = .truth b ∧ (b = true ↔ ∃ p, pos = some p ∧ filed log .leading p ≠ [])
  | .leadingPositions, answer =>
    ∃ ps, answer = .positions ps ∧ ps.Pairwise (· < ·) ∧ ∀ p, p ∈ ps ↔ filed log .leading p ≠ []

theorem filed_concat (log : List TableCall) (call : TableCall) (side : CommentSide) (pos : Int) :
    filed (log ++ [call]) side pos =
      if call.takes side pos then [] else filed log side pos ++ (call.added? side pos).toList := by
  unfold filed
  rw [List.rtakeWhile_concat]
  cases call.takes side pos
  · cases hAdded : call.added? side pos <;> simp [List.filterMap_append, hAdded]
  · rfl

/-- Only the calls that add or take at a position decide what is filed there. -/
theorem filed_filter_changes (log : List TableCall) (side : CommentSide) (pos : Int) :
    filed (log.filter (·.changes side pos)) side pos = filed log side pos := by
  induction log using List.reverseRecOn with
  | nil => rfl
  | append_singleton log call ih =>
    rw [List.filter_append, List.filter_singleton, filed_concat]
    cases hChanges : call.changes side pos with
    | true => rw [cond_true, filed_concat, ih]
    | false =>
      rw [TableCall.changes, Bool.or_eq_false_iff, Option.isSome_eq_false_iff,
        Option.isNone_iff_eq_none] at hChanges
      rw [cond_false, List.append_nil, ih, hChanges.1, hChanges.2]
      exact (List.append_nil _).symm

-- ---------------------------------------------------------------------------------------------
-- Tables and logs
-- ---------------------------------------------------------------------------------------------

/-- A table holds what a log says, everywhere. -/
def CommentTable.Reflects (t : CommentTable) (log : List TableCall) : Prop :=
  ∀ side pos, (t.entries side).get pos = filed log side pos

variable {t : CommentTable} {log : List TableCall}

theorem entries_perform (t : CommentTable) (call : TableCall) (side : CommentSide) (pos : Int) :
    ((t.perform call).2.entries side).get pos =
      if call.takes side pos then []
      else (t.entries side).get pos ++ (call.added? side pos).toList := by
  have hAdd : ∀ (es : CommentEntries) (p : Int) (c : Comment),
      CommentEntries.get (es ++ [(p, c)]) pos = es.get pos ++ if p = pos then [c] else [] :=
    fun es p c => (es.get_append _ pos).trans (congrArg _ (CommentEntries.get_map_pair [c] p pos))
  have hTake : ∀ (es : CommentEntries) (p : Int),
      (es.erase p).get pos = if p = pos then [] else es.get pos := by
    intro es p
    split
    · subst p
      exact es.get_erase_self pos
    · rename_i h
      exact es.get_erase_ne (Ne.symm h)
  cases call with
  | add s p c =>
    cases s <;> cases side <;> simp [CommentTable.perform, CommentTable.entries,
      CommentTable.addLeading, CommentTable.addTrailing, TableCall.takes, TableCall.added?, hAdd]
    all_goals split <;> simp
  | take s p =>
    cases s <;> cases side <;> simp [CommentTable.perform, CommentTable.entries,
      CommentTable.takeLeading, CommentTable.takeTrailing, TableCall.takes, TableCall.added?, hTake]
  | get s p => cases s <;> simp [CommentTable.perform, TableCall.takes, TableCall.added?]
  | hasLeading p => simp [CommentTable.perform, TableCall.takes, TableCall.added?]
  | leadingPositions => simp [CommentTable.perform, TableCall.takes, TableCall.added?]

/-- One more call: the table holds what the longer log says. -/
theorem CommentTable.Reflects.perform (h : t.Reflects log) (call : TableCall) :
    (t.perform call).2.Reflects (log ++ [call]) := by
  intro side pos
  rw [entries_perform, filed_concat, h side pos]

/-- One more call: it is answered from what the log says. -/
theorem CommentTable.Reflects.answersLog (h : t.Reflects log) (call : TableCall) :
    AnswersLog log call (t.perform call).1 := by
  cases call with
  | add s p c => cases s <;> rfl
  | get s p =>
    cases p with
    | none => cases s <;> rfl
    | some p =>
      cases s with
      | leading => exact congrArg TableAnswer.comments (h .leading p)
      | trailing => exact congrArg TableAnswer.comments (h .trailing p)
  | take s p =>
    cases s with
    | leading => exact congrArg TableAnswer.comments (h .leading p)
    | trailing => exact congrArg TableAnswer.comments (h .trailing p)
  | hasLeading p =>
    refine ⟨_, rfl, ?_⟩
    cases p with
    | none => simp [CommentTable.hasLeading, CommentTable.getLeading]
    | some p =>
      have hHeld : t.leading.get p = filed log .leading p := h .leading p
      simp [CommentTable.hasLeading, CommentTable.getLeading, hHeld]
  | leadingPositions =>
    refine ⟨_, rfl, t.leading.pairwise_positions, fun p => ?_⟩
    have hHeld : t.leading.get p = filed log .leading p := h .leading p
    rw [← hHeld]
    exact t.leading.mem_positions p

/-- Any number of calls on a table that holds what a log says. -/
theorem CommentTable.Reflects.run (h : t.Reflects log) (calls : List TableCall) :
    (t.run calls).2.Reflects (log ++ calls) ∧
      ∀ before call after, calls = before ++ call :: after →
        ∃ answer, (t.run calls).1[before.length]? = some answer ∧
          AnswersLog (log ++ before) call answer := by
  induction calls generalizing t log with
  | nil => exact ⟨by simpa [CommentTable.run] using h, fun _ _ _ hSplit => by simp at hSplit⟩
  | cons first calls ih =>
    obtain ⟨hEnd, hAnswers⟩ := ih (h.perform first)
    refine ⟨by simpa [CommentTable.run] using hEnd, fun before call after hSplit => ?_⟩
    cases before with
    | nil =>
      obtain ⟨rfl, -⟩ := List.cons.inj hSplit
      exact ⟨(t.perform first).1, rfl, (List.append_nil log).symm ▸ h.answersLog first⟩
    | cons b before =>
      obtain ⟨rfl, hCalls⟩ := List.cons.inj hSplit
      obtain ⟨answer, hAnswer, hLog⟩ := hAnswers before call after hCalls
      exact ⟨answer, by simpa [CommentTable.run] using hAnswer, by simpa using hLog⟩

theorem length_run (t : CommentTable) (calls : List TableCall) :
    (t.run calls).1.length = calls.length := by
  induction calls generalizing t with
  | nil => rfl
  | cons call calls ih => exact congrArg (· + 1) (ih _)

theorem reflects_empty : ({} : CommentTable).Reflects [] := by
  intro side pos
  cases side <;> rfl

/-- A new table refines the log of the calls made on it: each call is answered once, from the log of
the calls before it; in the end every position holds what the whole log says; and leaving out all
calls that neither add nor take at a position changes nothing there. -/
theorem table_refines_log (calls : List TableCall) :
    let (answers, t) := CommentTable.run {} calls
    answers.length = calls.length ∧
    (∀ before call after, calls = before ++ call :: after →
      ∃ answer, answers[before.length]? = some answer ∧ AnswersLog before call answer) ∧
    t.Reflects calls ∧
    ∀ side pos, ((CommentTable.run {} (calls.filter (·.changes side pos))).2.entries side).get pos =
      (t.entries side).get pos := by
  obtain ⟨hEnd, hAnswers⟩ := reflects_empty.run calls
  refine ⟨length_run _ _, hAnswers, hEnd, fun side pos => ?_⟩
  rw [(reflects_empty.run _).1 side pos, List.nil_append, filed_filter_changes]
  exact (hEnd side pos).symm

end ClientBoundary
