import ClientBoundary.Proofs.ExchangedWord
import ClientBoundary.Proofs.TerminatorRule

/-!
# The tokens around a property

A name after a dot is the name of a property, and some word is put in its place. What comes before
it stays the same. What comes after it is lexed in the same way, and the same terminators are
inserted, unless one of four tables makes a difference there (`Unnoticed`): the one that says
whether a slash and a `<` after the word begin an expression, and those that say where a line may
end after the word and what a brace after it encloses.

* `Insertion.put_group_iff` — when the same is put out in a group as in a block.
* `Insertion.put_rightAfter_iff` — when the same is put out after the word as after the name.
* `PropertySite.exchanged_iff_unnoticed` — when the tokens of the source with the word are those of
  the source with the name but for the word, up to their places.
-/

namespace ClientBoundary

open Pattern (IsWord)

namespace Insertion

/-- The first token that is no line feed, if there is one. -/
theorem newlines_or_exists_first (ts : List Token) :
    (∀ t ∈ ts, t.kind = .newline) ∨
      ∃ gap b us, ts = gap ++ b :: us ∧ (∀ t ∈ gap, t.kind = .newline) ∧ b.kind ≠ .newline := by
  induction ts with
  | nil => exact .inl (List.forall_mem_nil _)
  | cons t ts ih =>
    by_cases hKind : t.kind = .newline
    · rcases ih with hAll | ⟨gap, b, us, rfl, hGap, hB⟩
      · exact .inl (List.forall_mem_cons.mpr ⟨hKind, hAll⟩)
      · exact .inr ⟨t :: gap, b, us, rfl, List.forall_mem_cons.mpr ⟨hKind, hGap⟩, hB⟩
    · exact .inr ⟨[], t, ts, rfl, List.forall_mem_nil _, hKind⟩

-- ---------------------------------------------------------------------------------------------
-- Blocks and groups
-- ---------------------------------------------------------------------------------------------

/-- Whether no terminator stands directly inside a bracket up to where it is closed, with `depth`
further brackets open inside it at the start. -/
def unbroken : Nat → List Token → Bool
  | _, [] => true
  | depth, t :: ts =>
    if opensBracket t.kind then unbroken (depth + 1) ts
    else if closesBracket t.kind then
      match depth with
      | 0 => true
      | depth + 1 => unbroken depth ts
    else (depth ≠ 0 || t.kind ≠ .terminator) && unbroken depth ts

theorem unbroken_bare (depth : Nat) (ts : List Token) :
    unbroken depth (ts.map Token.bare) = unbroken depth ts := by
  induction ts generalizing depth with
  | nil => rfl
  | cons t ts ih =>
    have hKind : t.bare.kind = t.kind := rfl
    cases depth <;> simp only [List.map_cons, unbroken, hKind, ih]

/-- A token either stays inside a bracket, whatever the bracket encloses, or closes it. -/
theorem pass_cases {b : Token} (hWritten : b.kind ≠ .terminator) (inner rest : List Bracket)
    (last : Option Terminal) :
    (∃ inner', (∀ e, bracketsAfter (inner ++ e :: rest) last b.kind = inner' ++ e :: rest) ∧
      ∀ out, unbroken inner.length (b :: out) = unbroken inner'.length out) ∨
    ((∀ e, bracketsAfter (inner ++ e :: rest) last b.kind = rest) ∧
      ∀ out, unbroken inner.length (b :: out) = true) := by
  cases hOpens : opensBracket b.kind with
  | true =>
    obtain ⟨e', hPushed⟩ := bracketsAfter_pushes hOpens last
    exact .inl ⟨e' :: inner, fun e => hPushed _, fun out => by simp [unbroken, hOpens]⟩
  | false =>
    cases hCloses : closesBracket b.kind with
    | false =>
      exact .inl ⟨inner, fun e => bracketsAfter_plain hOpens hCloses _ _,
        fun out => by simp [unbroken, hOpens, hCloses, hWritten]⟩
    | true =>
      cases inner with
      | nil =>
        exact .inr ⟨fun e => bracketsAfter_closing hCloses _ _,
          fun out => by simp [unbroken, hOpens, hCloses]⟩
      | cons e' inner =>
        exact .inl ⟨inner, fun e => bracketsAfter_closing hCloses _ _,
          fun out => by simp [unbroken, hOpens, hCloses]⟩

/-- One terminator or none before a token. -/
theorem openAfter_inserted {condition : Prop} {place b : Token} {inserted : List Token}
    (h : Inserts condition place inserted) (brackets : List Bracket) (last : Option Terminal) :
    openAfter brackets last (inserted ++ [b]) =
      bracketsAfter brackets (lastOf last inserted) b.kind := by
  rcases h with ⟨-, rfl⟩ | ⟨-, rfl⟩
  · rfl
  · cases last <;> rfl

/-- No terminator is put directly into a group, and the same is put out in a group as in a block
into which none is put. -/
theorem put_group {ts : List Token} (hWritten : ∀ u ∈ ts, u.kind ≠ .terminator) (a : Token)
    (inner rest : List Bracket) :
    unbroken inner.length ((rightAfter (inner ++ .group :: rest) a none).put ts) = true ∧
    (unbroken inner.length ((rightAfter (inner ++ .block :: rest) a none).put ts) = true →
      (rightAfter (inner ++ .group :: rest) a none).put ts =
        (rightAfter (inner ++ .block :: rest) a none).put ts) := by
  induction hLength : ts.length using Nat.strongRecOn generalizing ts a inner with
  | ind n ih =>
  rcases newlines_or_exists_first ts with hGap | ⟨gap, b, us, rfl, hGap, hWord⟩
  · have hGroup := put_last (inner ++ .group :: rest) a hGap
    have hBlock := put_last (inner ++ .block :: rest) a hGap
    cases inner with
    | nil =>
      rcases hGroup with ⟨⟨-, hIn⟩, -⟩ | ⟨-, hGroup⟩
      · cases hIn
      · rw [hGroup]
        rcases hBlock with ⟨-, hBlock⟩ | ⟨-, hBlock⟩ <;> rw [hBlock]
        · refine ⟨rfl, fun h => ?_⟩
          cases h
        · exact ⟨rfl, fun _ => rfl⟩
    | cons e inner =>
      refine ⟨?_, fun _ => Inserts.unique hGroup hBlock⟩
      rcases hGroup with ⟨-, hGroup⟩ | ⟨-, hGroup⟩ <;> rw [hGroup] <;> rfl
  · rw [List.length_append, List.length_cons] at hLength
    have hHere : b.kind ≠ .terminator := hWritten b (by simp)
    have ih := fun inner' =>
      ih us.length (by omega) (fun u hu => hWritten u (by simp [hu])) b inner' rfl
    -- what the token itself does, after whatever was put out before it
    have hStep (last : Option Terminal) :
        let group := rightAfter (bracketsAfter (inner ++ .group :: rest) last b.kind) b none
        let block := rightAfter (bracketsAfter (inner ++ .block :: rest) last b.kind) b none
        unbroken inner.length (b :: group.put us) = true ∧
          (unbroken inner.length (b :: block.put us) = true → group.put us = block.put us) := by
      dsimp only
      rcases pass_cases hHere inner rest last with ⟨inner', hStack, hPass⟩ | ⟨hStack, hPass⟩
      · rw [hStack, hStack, hPass, hPass]
        exact ih inner'
      · rw [hStack, hStack, hPass]
        exact ⟨rfl, fun _ => rfl⟩
    obtain ⟨inserted, hGroup, hInserts⟩ := put_next (inner ++ .group :: rest) a hGap hWord us
    obtain ⟨inserted', hBlock, hInserts'⟩ := put_next (inner ++ .block :: rest) a hGap hWord us
    rw [hGroup, hBlock, openAfter_inserted hInserts, openAfter_inserted hInserts']
    cases inner with
    | nil =>
      rcases hInserts with ⟨hEnds, -⟩ | ⟨-, rfl⟩
      · simp [EndsUnder, inBlock] at hEnds
      · rcases hInserts' with ⟨-, rfl⟩ | ⟨-, rfl⟩
        · refine ⟨(hStep _).1, fun h => ?_⟩
          cases h
        · exact ⟨(hStep _).1, fun h => congrArg (b :: ·) ((hStep _).2 h)⟩
    | cons e inner =>
      obtain rfl := Inserts.unique hInserts hInserts'
      have hSkip (out : List Token) : unbroken (inner.length + 1) (inserted ++ b :: out) =
          unbroken (inner.length + 1) (b :: out) := by
        rcases hInserts with ⟨-, rfl⟩ | ⟨-, rfl⟩ <;> rfl
      rw [List.length_cons, hSkip, hSkip]
      exact ⟨(hStep _).1, fun h => congrArg _ (congrArg _ ((hStep _).2 h))⟩

/-- The same is put out in a group as in a block exactly if no terminator is put directly into the
block. -/
theorem put_group_iff {ts : List Token} (hWritten : ∀ u ∈ ts, u.kind ≠ .terminator) (a : Token)
    (rest : List Bracket) :
    ((rightAfter (.group :: rest) a none).put ts).map Token.bare =
        ((rightAfter (.block :: rest) a none).put ts).map Token.bare ↔
      unbroken 0 ((rightAfter (.block :: rest) a none).put ts) = true := by
  obtain ⟨hFree, hSame⟩ := put_group hWritten a [] rest
  constructor
  · intro h
    rw [← unbroken_bare, ← h, unbroken_bare]
    exact hFree
  · exact fun h => congrArg _ (hSame h)

-- ---------------------------------------------------------------------------------------------
-- Terminators after a word
-- ---------------------------------------------------------------------------------------------

/-- Words leave the brackets as they are. -/
theorem bracketsAfter_word {k : Terminal} (hWord : k ∈ ModuleGrammar.propIdentTerminals)
    (brackets : List Bracket) (last : Option Terminal) : bracketsAfter brackets last k = brackets := by
  cases k <;> first | rfl | exact absurd hWord (by decide)

theorem ne_of_word {k : Terminal} (hWord : k ∈ ModuleGrammar.propIdentTerminals) :
    k ≠ .newline ∧ k ≠ .rbrace ∧ k ≠ .terminator := by
  refine ⟨?_, ?_, ?_⟩ <;> rintro rfl <;> exact absurd hWord (by decide)

/-- The tables make no difference between a word of kind `k` and the name after which `out` was put
out. Whether a line feed follows that counts is given. -/
structure Alike (k : Terminal) (beforeLine : Prop) (out : List Token) : Prop where
  /-- Where a terminator follows, the word can end a statement. -/
  ending : terminable k = true ∨ ∀ x ∈ out.head?, x.kind ≠ .terminator
  /-- Where a line feed follows that counts, it ends the statement, or the word does not make it do
  so. -/
  line : restricted k = false ∨ (∃ x ∈ out.head?, x.kind = .terminator) ∨ ¬ beforeLine
  /-- Where a brace follows, it encloses a block after the word as it does after a name, or no
  terminator stands directly inside it. -/
  brace : opensBlock (some k) = true ∨
    ((∃ x ∈ out.head?, x.kind = .lbrace) → unbroken 0 out.tail = true)

section Alike

variable {k : Terminal} {beforeLine : Prop} {x b : Token} {out : List Token}

theorem alike_of_terminator (hCan : terminable k = true) (hx : x.kind = .terminator) :
    Alike k beforeLine (x :: out) := by
  refine ⟨.inl hCan, .inr (.inl ⟨x, rfl, hx⟩), .inr ?_⟩
  rintro ⟨y, hy, hBrace⟩
  cases hy
  rw [hx] at hBrace
  cases hBrace

theorem Alike.terminable (h : Alike k beforeLine (x :: out)) (hx : x.kind = .terminator) :
    Insertion.terminable k = true :=
  h.ending.resolve_right fun hNone => hNone x rfl hx

theorem alike_cons_iff (hb : b.kind ≠ .terminator) :
    Alike k beforeLine (b :: out) ↔ (restricted k = false ∨ ¬ beforeLine) ∧
      (opensBlock (some k) = true ∨ (b.kind = .lbrace → unbroken 0 out = true)) := by
  constructor
  · intro h
    refine ⟨h.line.imp_right ?_, h.brace.imp_right fun hFree hBrace => hFree ⟨b, rfl, hBrace⟩⟩
    rintro (⟨y, hy, hTerminator⟩ | hNone)
    · cases hy
      exact absurd hTerminator hb
    · exact hNone
  · rintro ⟨hLine, hBrace⟩
    refine ⟨.inr ?_, hLine.imp_right .inr, hBrace.imp_right ?_⟩
    · rintro y hy
      cases hy
      exact hb
    · rintro hFree ⟨y, hy, hOpens⟩
      cases hy
      exact hFree hOpens

end Alike

/-- A line feed comes first among the tokens, and the brackets let it count. -/
def LineAhead (brackets : List Bracket) (ts : List Token) : Prop :=
  (∃ u ∈ ts.head?, u.kind = .newline) ∧ inBlock { brackets } = true

/-- Only a brace is classed by the terminal before it. -/
theorem bracketsAfter_congr {k : Terminal} (h : k ≠ .lbrace) (brackets : List Bracket)
    (last last' : Option Terminal) :
    bracketsAfter brackets last' k = bracketsAfter brackets last k := by
  cases k <;> first | rfl | exact absurd rfl h

variable {brackets : List Bracket} {t t' b : Token} {gap ts us : List Token}

theorem lineAhead_iff (hGap : ∀ u ∈ gap, u.kind = .newline) (hWord : b.kind ≠ .newline) :
    LineAhead brackets (gap ++ b :: us) ↔ gap ≠ [] ∧ inBlock { brackets } = true := by
  refine and_congr_left fun _ => ?_
  cases gap with
  | nil => simpa using hWord
  | cons nl gap => simpa using hGap nl List.mem_cons_self

theorem endsUnder_name (ht : t.kind = .name) :
    EndsUnder brackets t gap b ↔
      (gap ≠ [] ∧ inBlock { brackets } = true ∧ endsStatement b.kind (some .name) = true) ∨
        (b.kind = .rbrace ∧ brackets.head? = some .block) := by
  simp [EndsUnder, ht, terminable]

/-- A statement ends after a word where it ends after a name, if the word can end one, and at every
line feed that counts, if the word is restricted. -/
theorem endsUnder_word (ht : t.kind = .name) (ht' : t'.kind ∈ ModuleGrammar.propIdentTerminals)
    (hGap : ∀ u ∈ gap, u.kind = .newline) (hWord : b.kind ≠ .newline) (us : List Token) :
    EndsUnder brackets t' gap b ↔ terminable t'.kind = true ∧
      (EndsUnder brackets t gap b ∨
        (restricted t'.kind = true ∧ LineAhead brackets (gap ++ b :: us))) := by
  have hEnds : endsStatement b.kind (some t'.kind) = endsStatement b.kind (some .name) := by
    simp [endsStatement, (ne_of_word ht').2.1]
  rw [endsUnder_name ht, lineAhead_iff hGap hWord, EndsUnder, hEnds, restricted_iff]
  tauto

/-- At the end of the input. -/
theorem put_newlines_iff (ht : t.kind = .name) (hGap : ∀ u ∈ gap, u.kind = .newline) :
    ((rightAfter brackets t' none).put gap).map Token.bare =
        ((rightAfter brackets t none).put gap).map Token.bare ↔
      Alike t'.kind (LineAhead brackets gap) ((rightAfter brackets t none).put gap) := by
  have hCan : terminable t.kind = true := by
    rw [ht]
    rfl
  rcases put_last brackets t hGap with ⟨⟨-, hBlock⟩, hOut⟩ | ⟨hNot, hOut⟩ <;>
    rcases put_last brackets t' hGap with ⟨⟨hCan', hBlock'⟩, hOut'⟩ | ⟨hNot', hOut'⟩ <;>
    rw [hOut, hOut']
  · exact iff_of_true rfl (alike_of_terminator hCan' rfl)
  · exact iff_of_false (by simp) fun h => hNot' ⟨h.terminable rfl, hBlock⟩
  · exact absurd ⟨hCan, hBlock'⟩ hNot
  · exact iff_of_true rfl ⟨.inr (by simp), .inr (.inr fun h => hNot ⟨hCan, h.2⟩), .inr (by simp)⟩

/-- Before a token that no terminator is put in front of, only a brace can make a difference. -/
theorem put_unbroken_iff (ht : t.kind = .name) (hWritten : ∀ u ∈ us, u.kind ≠ .terminator) :
    ((rightAfter (bracketsAfter brackets (some t'.kind) b.kind) b none).put us).map Token.bare =
        ((rightAfter (bracketsAfter brackets (some t.kind) b.kind) b none).put us).map Token.bare ↔
      (opensBlock (some t'.kind) = true ∨ (b.kind = .lbrace → unbroken 0
        ((rightAfter (bracketsAfter brackets (some t.kind) b.kind) b none).put us) = true)) := by
  by_cases hBrace : b.kind = .lbrace
  · have hBlock : bracketsAfter brackets (some t.kind) b.kind = .block :: brackets := by
      rw [hBrace, ht]
      rfl
    rw [hBlock]
    cases hOpens : opensBlock (some t'.kind) with
    | true =>
      have hBlock' : bracketsAfter brackets (some t'.kind) b.kind = .block :: brackets := by
        simp [hBrace, bracketsAfter, hOpens]
      rw [hBlock']
      exact iff_of_true rfl (.inl rfl)
    | false =>
      have hGroup : bracketsAfter brackets (some t'.kind) b.kind = .group :: brackets := by
        simp [hBrace, bracketsAfter, hOpens]
      rw [hGroup, put_group_iff hWritten]
      simp [hBrace]
  · rw [bracketsAfter_congr hBrace brackets (some t.kind) (some t'.kind)]
    exact iff_of_true rfl (.inr fun h => absurd h hBrace)

/-- After a word the same is put out as after a name exactly if the tables make no difference. -/
theorem put_rightAfter_iff (ht : t.kind = .name) (ht' : t'.kind ∈ ModuleGrammar.propIdentTerminals)
    (hWritten : ∀ u ∈ ts, u.kind ≠ .terminator) :
    ((rightAfter brackets t' none).put ts).map Token.bare =
        ((rightAfter brackets t none).put ts).map Token.bare ↔
      Alike t'.kind (LineAhead brackets ts) ((rightAfter brackets t none).put ts) := by
  rcases newlines_or_exists_first ts with hGap | ⟨gap, b, us, rfl, hGap, hWord⟩
  · exact put_newlines_iff ht hGap
  have hHere : b.kind ≠ .terminator := hWritten b (by simp)
  have hEndsWord : EndsUnder brackets t' gap b ↔ _ := endsUnder_word ht ht' hGap hWord us
  obtain ⟨inserted, hName, hInserts⟩ := put_next brackets t hGap hWord us
  obtain ⟨inserted', hOther, hInserts'⟩ := put_next brackets t' hGap hWord us
  rw [hName, hOther]
  rcases hInserts with ⟨hEnds, rfl⟩ | ⟨hEnds, rfl⟩ <;>
    rcases hInserts' with ⟨hEnds', rfl⟩ | ⟨hEnds', rfl⟩
  · -- a terminator follows both
    exact iff_of_true rfl (alike_of_terminator hEnds'.1 rfl)
  · -- a terminator follows the name only
    refine iff_of_false (fun h => hHere (congrArg Token.kind (List.cons.inj h).1)) fun h => ?_
    exact hEnds' (hEndsWord.mpr ⟨h.terminable rfl, .inl hEnds⟩)
  · -- a terminator follows the word only
    refine iff_of_false (fun h => hHere (congrArg Token.kind (List.cons.inj h).1).symm) fun h => ?_
    obtain ⟨-, hEnds' | ⟨hRestricted, hAhead⟩⟩ := hEndsWord.mp hEnds'
    · exact hEnds hEnds'
    · rcases ((alike_cons_iff hHere).mp h).1 with hFree | hNone
      · rw [hRestricted] at hFree
        cases hFree
      · exact hNone hAhead
  · -- a terminator follows neither, and a brace may still be classed in two ways
    have hLine : restricted t'.kind = false ∨ ¬ LineAhead brackets (gap ++ b :: us) := by
      cases hRestricted : restricted t'.kind with
      | false => exact .inl rfl
      | true =>
        have hCan : terminable t'.kind = true := by
          rw [restricted_iff.mp hRestricted]
          rfl
        exact .inr fun hAhead => hEnds' (hEndsWord.mpr ⟨hCan, .inr ⟨hRestricted, hAhead⟩⟩)
    have hUs : ∀ u ∈ us, u.kind ≠ .terminator := fun u hu => hWritten u (by simp [hu])
    simp only [List.nil_append]
    rw [alike_cons_iff hHere, and_iff_right hLine, List.map_cons, List.map_cons,
      List.cons_inj_right]
    exact put_unbroken_iff ht hUs

-- ---------------------------------------------------------------------------------------------
-- A word after a dot
-- ---------------------------------------------------------------------------------------------

theorem close_other {brackets : List Bracket} {last : Option Terminal} {u : Token}
    (h : u.kind ≠ .rbrace) : close brackets last u = none :=
  close_eq_none (by simp [h])

/-- A word after a dot is put out alone. -/
theorem put_word {dot u : Token} (hWord : u.kind ∈ ModuleGrammar.propIdentTerminals)
    (us : List Token) :
    (rightAfter brackets dot none).put (u :: us) = u :: (rightAfter brackets u none).put us := by
  obtain ⟨hLine, hBrace, -⟩ := ne_of_word hWord
  rw [put_unsettled hLine rfl (close_other hBrace), bracketsAfter_word hWord]
  rfl

/-- After a dot line feeds mean nothing. -/
theorem put_gap {dot : Token} (hDot : dot.kind = .dot) {gap : List Token}
    (hGap : ∀ u ∈ gap, u.kind = .newline) (us : List Token) :
    (rightAfter brackets dot none).put (gap ++ us) = (rightAfter brackets dot none).put us := by
  have hEnd : canEnd (rightAfter brackets dot none).brackets (rightAfter brackets dot none).last =
      false := by
    rw [show (rightAfter brackets dot none).last = some .dot from congrArg some hDot]
    rfl
  induction gap with
  | nil => rfl
  | cons u gap ih =>
    rw [List.cons_append, put_skipped (step_newline (hGap u List.mem_cons_self) hEnd)]
    exact ih fun v hv => hGap v (List.mem_cons_of_mem _ hv)

/-- What is put out after a dot begins with the next token that is no line feed. -/
theorem exists_gap {dot name : Token} (hDot : dot.kind = .dot) (hName : name.kind = .name)
    {us after : List Token} (h : (rightAfter brackets dot none).put us = name :: after) :
    ∃ gap back, us = gap ++ name :: back ∧ (∀ u ∈ gap, u.kind = .newline) ∧
      after = (rightAfter brackets name none).put back := by
  have hWord : name.kind ∈ ModuleGrammar.propIdentTerminals := by
    rw [hName]
    decide
  induction us with
  | nil =>
    have hCan : (rightAfter brackets dot none).canTerminate = false := by
      show terminable dot.kind = false
      rw [hDot]
      rfl
    have hFinish : (rightAfter brackets dot none).finish = none :=
      if_neg (by rw [hCan]; exact Bool.false_ne_true)
    rw [put_nil, hFinish] at h
    cases h
  | cons u us ih =>
    by_cases hLine : u.kind = .newline
    · have hSkip : (rightAfter brackets dot none).put ([u] ++ us) =
          (rightAfter brackets dot none).put us := put_gap hDot (by simpa using hLine) us
      rw [List.singleton_append] at hSkip
      obtain ⟨gap, back, rfl, hGap, hAfter⟩ := ih (hSkip ▸ h)
      exact ⟨u :: gap, back, rfl, List.forall_mem_cons.mpr ⟨hLine, hGap⟩, hAfter⟩
    · have hClose : close brackets (some dot.kind) u = none := by
        rw [hDot]
        exact close_eq_none_of_not_terminable rfl _ _
      rw [put_unsettled hLine rfl hClose] at h
      obtain ⟨rfl, rfl⟩ := List.cons.inj h
      refine ⟨[], us, rfl, nofun, ?_⟩
      show (rightAfter (bracketsAfter brackets (some dot.kind) u.kind) u none).put us = _
      rw [bracketsAfter_word hWord]

/-- The tokens up to a name after a dot, and what is put out when a word takes its place. -/
theorem exists_before_name {tokens before after : List Token} {dot name : Token}
    (h : insertTerminators tokens = before ++ dot :: name :: after) (hDot : dot.kind = .dot)
    (hName : name.kind = .name) :
    ∃ front gap back, tokens = front ++ dot :: (gap ++ name :: back) ∧
      (∀ u ∈ gap, u.kind = .newline) ∧
      after = (rightAfter (openAfter [] none (before ++ [dot])) name none).put back ∧
      ∀ (word : Token) (us : List Token), word.kind ∈ ModuleGrammar.propIdentTerminals →
        insertTerminators (front ++ dot :: (gap ++ word :: us)) = before ++ dot :: word ::
          (rightAfter (openAfter [] none (before ++ [dot])) word none).put us := by
  obtain ⟨front, rest, rfl, hLine, hBefore, hAfter⟩ :=
    put_eq_append (s := {}) (by rw [hDot]; decide) h
  have hState : (run {} (front ++ [dot])).2 =
      rightAfter (openAfter [] none (before ++ [dot])) dot none := by
    obtain ⟨inserted, _, hStep⟩ := (run {} front).2.step_word hLine
    have hBrackets := (state_run {} (front ++ [dot])).1
    rw [← hBefore] at hBrackets
    rw [run_append, run_cons, hStep] at hBrackets ⊢
    exact congrArg (rightAfter · dot none) hBrackets
  rw [hState] at hAfter
  obtain ⟨gap, back, rfl, hGap, rfl⟩ := exists_gap hDot hName hAfter.symm
  refine ⟨front, gap, back, rfl, hGap, rfl, fun word us hWord => ?_⟩
  have hPut : insertTerminators (front ++ dot :: (gap ++ word :: us)) =
      (run {} (front ++ [dot])).1 ++ (run {} (front ++ [dot])).2.put (gap ++ word :: us) := by
    rw [← put_append, List.append_assoc]
    rfl
  rw [hPut, ← hBefore, hState, put_gap hDot hGap, put_word hWord, List.append_assoc]
  rfl

/-- The first written token among those put out is the first token that is no line feed. -/
theorem find?_put {ts : List Token} (hWritten : ∀ t ∈ ts, t.kind ≠ .terminator) (s : Insertion) :
    (s.put ts).find? (·.kind ≠ .terminator) = ts.find? (·.kind ≠ .newline) := by
  rw [← List.head?_filter, s.filter_put hWritten, List.head?_filter]

end Insertion

-- ---------------------------------------------------------------------------------------------
-- Properties
-- ---------------------------------------------------------------------------------------------

/-- The name `p` of a property between the texts `pre` and `post`: a name right after a dot among
the tokens that the grammar is matched against. -/
structure PropertySite (pre p post : Text) where
  before : List Token
  dot : Token
  name : Token
  after : List Token
  statements : (lex (pre ++ p ++ post)).statements = before ++ dot :: name :: after
  dot_kind : dot.kind = .dot
  name_kind : name.kind = .name
  name_text : name.text = p
  name_start : name.start.offset = pre.length

namespace PropertySite

variable {pre p post : Text}

/-- The brackets that are open around the name. -/
def brackets (site : PropertySite pre p post) : List Bracket :=
  Insertion.openAfter [] none (site.before ++ [site.dot])

/-- A line feed comes right after the name, and line feeds count there: no bracket is open, or the
innermost is that of a block. -/
def BeforeLine (site : PropertySite pre p post) : Prop :=
  (∃ t, [site.name, t] <:+: (lex (pre ++ p ++ post)).tokens ∧ t.kind = .newline) ∧
    Insertion.inBlock { brackets := site.brackets } = true

/-- The source with the word `w` in the place of the name has the same tokens but for the word, up
to their places. -/
def Exchanged (site : PropertySite pre p post) (w : Text) : Prop :=
  (lex (pre ++ w ++ post)).failure = none ∧ ∃ word : Token, word.kind = Terminal.ofWord w ∧
    word.text = w ∧ (lex (pre ++ w ++ post)).statements.map Token.bare =
      (site.before ++ site.dot :: word :: site.after).map Token.bare

end PropertySite

/-- A word of kind `k` in the place of the name of a property makes no difference to the tokens
around it. -/
structure Unnoticed (k : Terminal) {pre p post : Text} (site : PropertySite pre p post) : Prop
    extends Insertion.Alike k site.BeforeLine site.after where
  /-- What is written next begins in the same way after the word as after a name. -/
  next : ∀ t ∈ site.after.find? (·.kind ≠ .terminator),
    Lexer.SameAfter k ((pre ++ p ++ post).drop t.start.offset)

theorem Terminal.ofWord_mem (w : Text) : Terminal.ofWord w ∈ ModuleGrammar.propIdentTerminals := by
  have hAll : ∀ k ∈ .name :: Terminal.words.map (·.2), k ∈ ModuleGrammar.propIdentTerminals := by
    decide
  exact hAll _ (Lexer.ofWord_mem_words w)

theorem tokens_ne_terminator {s final : Lexer} {pieces : List Piece} (h : Spelled s pieces final)
    (p : Place) : ∀ t ∈ tokensFrom p pieces, t.kind ≠ .terminator := by
  induction h generalizing p with
  | nil => nofun
  | @take s s' final kind n text pieces hStep _ _ _ ih =>
    rcases kind.token_or with ⟨k, rfl⟩ | hKind
    · rw [tokensFrom_token]
      exact List.forall_mem_cons.mpr ⟨Lexer.step_ne_terminator hStep, ih _⟩
    · rw [tokensFrom_other p hKind]
      exact ih _

/-- Nothing but gaps stands between a dot and the name after it. -/
theorem gap_of_tokensFrom {p : Place} {pieces : List Piece}
    (h : ∀ t ∈ tokensFrom p pieces, t.kind = .newline) :
    ∀ piece ∈ pieces, Lexer.isGap piece.1 = true := by
  induction pieces generalizing p with
  | nil => nofun
  | cons piece pieces ih =>
    obtain ⟨kind, text⟩ := piece
    rcases kind.token_or with ⟨k, rfl⟩ | hKind
    · rw [tokensFrom_token] at h
      obtain ⟨hHere, hRest⟩ := List.forall_mem_cons.mp h
      have hLine : k = .newline := hHere
      subst hLine
      exact List.forall_mem_cons.mpr ⟨rfl, ih hRest⟩
    · rw [tokensFrom_other p hKind] at h
      refine List.forall_mem_cons.mpr ⟨?_, ih h⟩
      cases kind with
      | token k => exact absurd rfl (hKind k)
      | blank => rfl
      | lineComment => rfl
      | blockComment => rfl

namespace PropertySite

variable {pre p post : Text} {site : PropertySite pre p post} {w : Text}

/-- The pieces around the name of a property. -/
structure Between (site : PropertySite pre p post) (left right : List Piece) (final : Lexer) :
    Prop where
  spelled : Spelled Lexer.start (left ++ (.token .name, p) :: right) final
  spell_left : spell left = pre
  spell_right : spell right = post
  gap : ∀ piece ∈ left.getLast?, Lexer.isGap piece.1 = true
  name_stop : site.name.stop.offset = (pre ++ p).length
  tokens : (lex (pre ++ p ++ post)).tokens =
    tokensFrom Place.start left ++ site.name :: tokensFrom site.name.stop right
  after : site.after = (Insertion.rightAfter site.brackets site.name none).put
    (tokensFrom site.name.stop right)
  put : ∀ (word : Token) (us : List Token), word.kind ∈ ModuleGrammar.propIdentTerminals →
    insertTerminators (tokensFrom Place.start left ++ word :: us) =
      site.before ++ site.dot :: word :: (Insertion.rightAfter site.brackets word none).put us

theorem exists_between (site : PropertySite pre p post)
    (hLexed : (lex (pre ++ p ++ post)).failure = none) :
    ∃ left right final, site.Between left right final := by
  obtain ⟨pieces, final, hSpelled, hSpell, hLexemes⟩ := exists_spelled hLexed
  have hTokens : (lex (pre ++ p ++ post)).tokens = tokensFrom Place.start pieces := by
    rw [tokensFrom, ← hLexemes]
    rfl
  have hInserted : insertTerminators (tokensFrom Place.start pieces) =
      site.before ++ site.dot :: site.name :: site.after := by
    rw [← site.statements, ← hTokens, Lexing.statements, hLexed]
  obtain ⟨front, gap, back, hSplit, hGap, hAfter, hWord⟩ :=
    Insertion.exists_before_name hInserted site.dot_kind site.name_kind
  have hAround : tokensFrom Place.start pieces =
      (front ++ site.dot :: gap) ++ site.name :: back := by
    rw [hSplit, List.append_assoc]
    rfl
  obtain ⟨left, right, rfl, hLeft, hStart, rfl⟩ := exists_piece hAround
  have hName : site.name = ⟨site.name.kind, site.name.text, Place.start.after (spell left),
      (Place.start.after (spell left)).after site.name.text⟩ := by
    rw [tokensFrom_append, tokensFrom_token, ← hLeft] at hAround
    exact (List.cons.inj (List.append_cancel_left hAround)).1.symm
  rw [site.name_kind, site.name_text] at hSpelled hSpell
  rw [spell_append, spell_cons, ← List.append_assoc] at hSpell
  have hLength : (spell left).length = pre.length := by
    have hOffset := site.name_start
    rw [hStart, Place.offset_after] at hOffset
    exact (Nat.zero_add _).symm.trans hOffset
  obtain ⟨hPre, hPost⟩ :=
    List.append_inj hSpell (by rw [List.length_append, List.length_append, hLength])
  refine ⟨left, right, final, hSpelled, List.append_cancel_right hPre, hPost, ?_, ?_, ?_, hAfter,
    ?_⟩
  · obtain ⟨far, near, rfl, -, -, rfl⟩ := exists_piece hLeft
    intro piece hPiece
    rw [List.getLast?_append_of_ne_nil _ (List.cons_ne_nil _ _)] at hPiece
    rcases List.mem_cons.mp (List.mem_of_getLast? hPiece) with rfl | hNear
    · rw [site.dot_kind]
      rfl
    · exact gap_of_tokensFrom hGap piece hNear
  · rw [congrArg Token.stop hName, Place.offset_after, Place.offset_after, hLength, site.name_text,
      List.length_append]
    exact congrArg (· + p.length) (Nat.zero_add _)
  · rw [hTokens, hAround, hLeft]
  · intro word us hKind
    rw [hLeft, List.append_assoc]
    exact hWord word us hKind

theorem bare_after {before xs ys : List Token} {dot word word' : Token}
    (h : (before ++ dot :: word :: xs).map Token.bare =
      (before ++ dot :: word' :: ys).map Token.bare) :
    xs.map Token.bare = ys.map Token.bare := by
  simp only [List.map_append, List.map_cons] at h
  exact (List.cons.inj (List.cons.inj (List.append_cancel_left h)).2).2

namespace Between

variable {left right : List Piece} {final : Lexer}

theorem written (h : site.Between left right final) :
    ∀ t ∈ tokensFrom site.name.stop right, t.kind ≠ .terminator := by
  obtain ⟨s, hRest⟩ := h.spelled.exists_before
  cases hRest with
  | take _ _ _ hRight => exact tokens_ne_terminator hRight _

theorem tokens_eq (h : site.Between left right final) :
    (lex (pre ++ p ++ post)).tokens =
      tokensFrom Place.start (left ++ (.token .name, p) :: right) := by
  have hLex := lex_spelled h.spelled
  rw [spell_append, spell_cons, h.spell_left, h.spell_right, ← List.append_assoc] at hLex
  rw [hLex]
  rfl

/-- The tokens right after the name. -/
theorem beforeLine_iff (h : site.Between left right final) :
    site.BeforeLine ↔ Insertion.LineAhead site.brackets (tokensFrom site.name.stop right) := by
  refine and_congr_left fun _ => ⟨?_, ?_⟩
  · rintro ⟨t, ⟨front, back, hSplit⟩, hLine⟩
    rw [h.tokens_eq, List.append_assoc] at hSplit
    obtain ⟨before, after, hPieces, -, hStart, hAfter⟩ := exists_piece hSplit.symm
    rw [site.name_kind, site.name_text] at hPieces
    have hLength : (spell left).length = (spell before).length := by
      have hOffset := site.name_start
      rw [hStart, Place.offset_after] at hOffset
      rw [h.spell_left]
      exact (hOffset.symm.trans (Nat.zero_add _))
    obtain ⟨-, hSame⟩ := h.spelled.append_inj hPieces hLength
    rw [(List.cons.inj hSame).2, hAfter]
    exact ⟨t, rfl, hLine⟩
  · rintro ⟨t, hFirst, hLine⟩
    obtain ⟨us, hBack⟩ := List.head?_eq_some_iff.mp hFirst
    refine ⟨t, ⟨tokensFrom Place.start left, us, ?_⟩, hLine⟩
    rw [h.tokens, hBack]
    simp

/-- The text from the first word after the name on. -/
theorem next_iff (h : site.Between left right final) {P : Text → Prop} :
    (∀ t ∈ site.after.find? (·.kind ≠ .terminator), P ((pre ++ p ++ post).drop t.start.offset)) ↔
      ∀ k t, FirstWord right k t → P t := by
  rw [h.after, Insertion.find?_put h.written]
  have hFirst {k : Terminal} {rest : Text} (hFirst : FirstWord right k rest) :
      ∃ t ∈ (tokensFrom site.name.stop right).find? (·.kind ≠ .newline),
        (pre ++ p ++ post).drop t.start.offset = rest := by
    obtain ⟨t, skipped, hFind, -, hSpell, hStart⟩ := hFirst.exists_token site.name.stop
    refine ⟨t, hFind, ?_⟩
    rw [hStart, Place.offset_after, h.name_stop, ← h.spell_right, hSpell, ← List.append_assoc,
      ← List.length_append, List.drop_left]
  constructor
  · intro hNext k rest hWord
    obtain ⟨t, ht, rfl⟩ := hFirst hWord
    exact hNext t ht
  · intro hNext t ht
    obtain ⟨rest, hWord⟩ := exists_firstWord (Option.mem_def.mp ht)
    obtain ⟨t', ht', hRest⟩ := hFirst hWord
    rw [Option.mem_unique ht ht', hRest]
    exact hNext _ _ hWord

/-- The tokens with a word in the place of the name. -/
theorem lex_word (h : site.Between left right final) {right' : List Piece} {final' : Lexer}
    (h' : Spelled Lexer.start (left ++ (.token (Terminal.ofWord w), w) :: right') final')
    (hSpell : spell right' = post) :
    (lex (pre ++ w ++ post)).failure = none ∧ ∃ word : Token, word.kind = Terminal.ofWord w ∧
      word.text = w ∧ (lex (pre ++ w ++ post)).statements = site.before ++ site.dot :: word ::
        (Insertion.rightAfter site.brackets word none).put (tokensFrom word.stop right') := by
  have hLex := lex_spelled h'
  rw [spell_append, spell_cons, h.spell_left, hSpell, ← List.append_assoc] at hLex
  obtain ⟨q, hq⟩ : ∃ q, q = Place.start.after (spell left) := ⟨_, rfl⟩
  refine ⟨by rw [hLex], ⟨Terminal.ofWord w, w, q, q.after w⟩, rfl, rfl, ?_⟩
  rw [← h.put ⟨Terminal.ofWord w, w, q, q.after w⟩ _ (Terminal.ofWord_mem w), hq,
    ← tokensFrom_token, ← tokensFrom_append, hLex]
  rfl

/-- Where the text goes on in the same way after the word, the tokens are the same exactly if the
tables of the insertion make no difference. -/
theorem exchanged_iff (h : site.Between left right final) (hw : IsWord w)
    (hNext : ∀ k t, FirstWord right k t → Lexer.SameAfter (Terminal.ofWord w) t) :
    site.Exchanged w ↔ Insertion.Alike (Terminal.ofWord w) site.BeforeLine site.after := by
  obtain ⟨final', hSpelled⟩ := h.spelled.exchange hw h.gap hNext
  obtain ⟨hLexed, word, hKind, hText, hStatements⟩ := h.lex_word hSpelled h.spell_right
  have hPlaces : ((Insertion.rightAfter site.brackets word none).put
      (tokensFrom word.stop right)).map Token.bare =
        ((Insertion.rightAfter site.brackets word none).put
          (tokensFrom site.name.stop right)).map Token.bare := by
    rw [← Insertion.put_bare, ← Insertion.put_bare, bare_tokensFrom word.stop site.name.stop]
  have hAlike : ((Insertion.rightAfter site.brackets word none).put
      (tokensFrom word.stop right)).map Token.bare = site.after.map Token.bare ↔
        Insertion.Alike (Terminal.ofWord w) site.BeforeLine site.after := by
    rw [hPlaces, h.beforeLine_iff, ← hKind, h.after]
    exact Insertion.put_rightAfter_iff site.name_kind (hKind ▸ Terminal.ofWord_mem w) h.written
  rw [← hAlike]
  constructor
  · rintro ⟨-, word', -, -, hBare⟩
    rw [hStatements] at hBare
    exact bare_after hBare
  · intro hBare
    refine ⟨hLexed, word, hKind, hText, ?_⟩
    rw [hStatements]
    simp only [List.map_append, List.map_cons, hBare]

/-- Where the tokens are the same, the text goes on in the same way after the word. -/
theorem next_of_exchanged (h : site.Between left right final) (hw : IsWord w)
    (hExchanged : site.Exchanged w) :
    ∀ k t, FirstWord right k t → Lexer.SameAfter (Terminal.ofWord w) t := by
  obtain ⟨hLexed, word', -, -, hBare⟩ := hExchanged
  obtain ⟨pieces, final', hSpelled, hSpell, -⟩ := exists_spelled hLexed
  rw [List.append_assoc, ← h.spell_left, ← h.spell_right] at hSpell
  obtain ⟨frame, depth, below, right', rfl, hRight, hName, hWord⟩ :=
    h.spelled.exists_exchanged hw h.gap hSpelled hSpell
  obtain ⟨-, word, -, -, hStatements⟩ := h.lex_word hSpelled (hRight.trans h.spell_right)
  rw [hStatements, h.after] at hBare
  have hFind := congrArg (List.find? (·.kind ≠ .terminator)) (bare_after hBare)
  rw [List.find?_map, List.find?_map] at hFind
  intro k₁ rest hFirst
  refine hFirst.sameAfter hName hWord hRight fun k₂ t hFirst' => ?_
  obtain ⟨token, _, hToken, rfl, -⟩ := hFirst.exists_token site.name.stop
  obtain ⟨token', _, hToken', rfl, -⟩ := hFirst'.exists_token word.stop
  have hOld :=
    (Insertion.find?_put h.written (.rightAfter site.brackets site.name none)).trans hToken
  have hNew := (Insertion.find?_put (tokens_ne_terminator hWord word.stop)
    (.rightAfter site.brackets word none)).trans hToken'
  have hBoth : some token'.bare = some token.bare :=
    ((congrArg (Option.map Token.bare) hNew).symm.trans hFind).trans
      (congrArg (Option.map Token.bare) hOld)
  have hKinds : token'.bare.kind = token.bare.kind := by rw [Option.some.inj hBoth]
  exact hKinds

end Between

/-- The tokens with a word in the place of the name of a property are the same but for the word, up
to their places, exactly if the word makes no difference to the tokens around it. -/
theorem exchanged_iff_unnoticed (site : PropertySite pre p post) (hw : IsWord w)
    (hLexed : (lex (pre ++ p ++ post)).failure = none) :
    site.Exchanged w ↔ Unnoticed (Terminal.ofWord w) site := by
  obtain ⟨left, right, final, h⟩ := site.exists_between hLexed
  constructor
  · intro hExchanged
    have hNext := h.next_of_exchanged hw hExchanged
    exact ⟨(h.exchanged_iff hw hNext).mp hExchanged, h.next_iff.mpr hNext⟩
  · intro hSame
    exact (h.exchanged_iff hw (h.next_iff.mp hSame.next)).mpr hSame.toAlike

end PropertySite

end ClientBoundary
