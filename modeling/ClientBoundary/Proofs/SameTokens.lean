import ClientBoundary.Proofs.BareValue
import ClientBoundary.Proofs.Leftmost
import ClientBoundary.Proofs.Preference
import ClientBoundary.Proofs.StatementEnds

/-!
# Sources with the same tokens

Where a token lies in a source has no bearing on how it is read: terminators are inserted by the
kinds of the tokens, and which tree is preferred is decided by their kinds too. So two sources whose
tokens differ in their places alone are read as the same module up to spans.

* `Tree.exists_relabelled` — a tree over other tokens of the same kinds and texts, which is preferred
  wherever the first one is.
* `parseModule_of_same_tokens` — the two sources.
-/

namespace ClientBoundary

namespace Grammar

variable {N : Type} {V : N → Type} {G : Grammar V}

mutual

/-- The tokens of a tree can be put in the place of others that differ in their places alone. -/
theorem Tree.exists_relabelled : {s : Symbol N} → (tree : Tree G s) → {ts : List Token} →
    ts.map Token.bare = tree.yield.map Token.bare →
    ∃ twin : Tree G s, twin.yield = ts ∧ twin.bareValue = tree.bareValue ∧
      ∀ start w i, tree.Preferred start w i → twin.Preferred start w i
  | _, .leaf k token hKind, ts, h => by
    rw [Tree.yield, List.map_singleton, List.map_eq_singleton_iff] at h
    obtain ⟨t, rfl, hBare⟩ := h
    have hSame : t.bare.kind = token.bare.kind := by rw [hBare]
    exact ⟨.leaf k t (hSame.trans hKind), rfl, hBare, fun _ _ _ _ => trivial⟩
  | _, .node n a children, ts, h => by
    rw [Tree.yield] at h
    obtain ⟨twin, hYield, hValues, hPreferred⟩ := Forest.exists_relabelled children h
    have hLength : twin.yield.length = children.yield.length := by
      simpa [hYield] using congrArg List.length h
    refine ⟨.node n a twin, hYield, by rw [Tree.bareValue, Tree.bareValue, hValues], ?_⟩
    rintro start w i ⟨hFirst, hChildren⟩
    refine ⟨fun b hb => ?_, hPreferred start w _ _ _ _ _ hChildren⟩
    rw [hLength]
    exact hFirst b hb

theorem Forest.exists_relabelled : {ss : List (Symbol N)} → (f : Forest G ss) → {ts : List Token} →
    ts.map Token.bare = f.yield.map Token.bare →
    ∃ twin : Forest G ss, twin.yield = ts ∧ twin.bareValues = f.bareValues ∧
      ∀ start w n α i k j, f.Preferred start w n α i k j → twin.Preferred start w n α i k j
  | _, .nil, ts, h => by
    rw [Forest.yield, List.map_nil, List.map_eq_nil_iff] at h
    exact ⟨.nil, h.symm, rfl, fun _ _ _ _ _ _ _ _ => trivial⟩
  | _, .cons s ss tree rest, ts, h => by
    rw [Forest.yield, List.map_append, List.map_eq_append_iff] at h
    obtain ⟨us, vs, rfl, hTree, hRest⟩ := h
    obtain ⟨twin, hYield, hValue, hPreferred⟩ := Tree.exists_relabelled tree hTree
    obtain ⟨twins, hYields, hValues, hPreferreds⟩ := Forest.exists_relabelled rest hRest
    have hLength : twin.yield.length = tree.yield.length := by
      simpa [hYield] using congrArg List.length hTree
    refine ⟨.cons s ss twin twins, by rw [Forest.yield, hYield, hYields],
      by rw [Forest.bareValues, Forest.bareValues, hValue, hValues], ?_⟩
    rintro start w n α i k j ⟨hLate, hFirst, hLater⟩
    rw [Forest.Preferred, hLength]
    exact ⟨hLate, hPreferred _ _ _ hFirst, hPreferreds _ _ _ _ _ _ _ hLater⟩

end

end Grammar

theorem statements_of_same_tokens {l l' : Lexing} (h : l.failure = none) (h' : l'.failure = none)
    (hTokens : l'.tokens.map Token.bare = l.tokens.map Token.bare) :
    l'.statements.map Token.bare = l.statements.map Token.bare := by
  have hBare (ts : List Token) : (Insertion.put {} ts).map Token.bare =
      Insertion.put {} (ts.map Token.bare) := (Insertion.put_bare {} ts).symm
  rw [Lexing.statements_eq_put h, Lexing.statements_eq_put h', hBare, hBare, hTokens]

/-- A source with the tokens of one that is read is read too, as the same module up to spans. -/
theorem parseModule_of_same_tokens {source source' : Text} {file : Option Text}
    {parsed : ParsedModule} (hRead : parseModule source file = .ok parsed)
    (hLexed : (lex source').failure = none)
    (hTokens : (lex source').tokens.map Token.bare = (lex source).tokens.map Token.bare) :
    ∃ parsed', parseModule source' file = .ok parsed' ∧
      Erasure.spans.body parsed'.module = Erasure.spans.body parsed.module := by
  obtain ⟨tree, hFrom⟩ := parseModule_eq_ok hRead
  have hSame := statements_of_same_tokens hFrom.lexed hLexed hTokens
  cases tree with
  | none =>
    -- no tokens, no items
    have hNone : (lex source').statements = [] := by
      rw [← List.map_eq_nil_iff (f := Token.bare), hSame, ← hFrom.tokens]
      rfl
    have hTree : Reader.syntaxTree source' (lex source') = .ok none := by
      simp only [Reader.syntaxTree, hNone, hLexed]
      rfl
    have hItems : Reader.buildItems file none = .ok [] := rfl
    exact ⟨_, parseModule_of_tree hTree hItems,
      congrArg (List.map Erasure.spans.item) (Except.ok.inj hFrom.built)⟩
  | some tree =>
    obtain ⟨-, hYield, hPreferred⟩ := syntaxTree_eq_some_iff.mp hFrom.matched
    obtain ⟨twin, hTwin, hValue, hKeeps⟩ := tree.exists_relabelled (hYield ▸ hSame)
    have hKinds : (lex source').statements.map Token.kind =
        (lex source).statements.map Token.kind := by
      simpa [Function.comp_def, Token.bare] using congrArg (List.map Token.kind) hSame
    have hTree : Reader.syntaxTree source' (lex source') = .ok (some twin) := by
      refine syntaxTree_eq_some_iff.mpr ⟨hLexed, hTwin, hKeeps _ _ _ ?_⟩
      rw [hKinds]
      exact hPreferred
    obtain ⟨items, hItems, hErased⟩ := items_of_bareValue hValue hFrom.built
    exact ⟨_, parseModule_of_tree hTree hItems, hErased⟩

end ClientBoundary
