import ClientBoundary.Proofs.BareValue
import ClientBoundary.Proofs.Clause
import ClientBoundary.Proofs.Preference

/-!
# One terminal in the place of another

Where a phrase may be written as one of several terminals, a token of one kind in that place can be
exchanged for one of another kind. The preferred tree of the new tokens is then the old one with the
leaf exchanged, provided that the new terminal opens no readings there that the old one did not
allow already. `Interchange` states when this is so, for any grammar; it holds of semicolons and
terminators as ends of statements (`interchange_stmtEnd`).

* `Item.replaced` — what is under way among the new tokens was under way among the old ones.
* `Tree.exists_twin` — the preferred tree of the new tokens, which is like the old one.
-/

namespace ClientBoundary

namespace Grammar

variable {N : Type} {V : N → Type} {G : Grammar V}

/-- At position `p` a terminal `t` can take the place of a terminal `s` as a phrase of category `e`:
phrases of this category are single terminals, and wherever else `t` may stand at this position, it
stands alone as a phrase, which `s` derives as well. -/
structure Interchange (G : Grammar V) (start : N) (w : List Terminal) (p : Nat) (e : N)
    (s t : Terminal) : Prop where
  filled : ∀ n, [] ∉ G.shape n
  ends : ∀ α ∈ G.shape e, ∃ u, α = [.tok u]
  admits : [.tok t] ∈ G.shape e
  alone : ∀ {n α k i}, Item G.shape start w n α k i p → α[k]? = some (.tok t) → α = [.tok t]
  derives : ∀ {m β k i n}, Item G.shape start w m β k i p → β[k]? = some (.cat n) →
    [.tok t] ∈ G.shape n → Derives G (.cat n) [s]

mutual

/-- The category that each token of a tree is a direct part of, for a tree that is itself a direct
part of a phrase of category `n`. -/
def Tree.owners : {s : Symbol N} → Tree G s → (n : N) → List N
  | _, .leaf _ _ _, n => [n]
  | _, .node n _ children, _ => children.owners n

/-- The category that each token of a forest is a direct part of. -/
def Forest.owners : {ss : List (Symbol N)} → Forest G ss → (n : N) → List N
  | _, .nil, _ => []
  | _, .cons _ _ tree rest, n => tree.owners n ++ rest.owners n

end

mutual

theorem Tree.length_owners : {s : Symbol N} → (tree : Tree G s) → (n : N) →
    (tree.owners n).length = tree.yield.length
  | _, .leaf _ _ _, _ => rfl
  | _, .node n _ children, _ => Forest.length_owners children n

theorem Forest.length_owners : {ss : List (Symbol N)} → (f : Forest G ss) → (n : N) →
    (f.owners n).length = f.yield.length
  | _, .nil, _ => rfl
  | _, .cons _ _ tree rest, n => by
    rw [Forest.owners, Forest.yield, List.length_append, List.length_append,
      Tree.length_owners tree n, Forest.length_owners rest n]

end

-- ---------------------------------------------------------------------------------------------
-- Phrases of one token
-- ---------------------------------------------------------------------------------------------

mutual

theorem Tree.yield_pos (hFilled : ∀ n, [] ∉ G.shape n) : {s : Symbol N} → (tree : Tree G s) →
    0 < tree.yield.length
  | _, .leaf _ _ _ => Nat.one_pos
  | _, .node n a children => by
    refine Forest.yield_pos hFilled children fun hNil => hFilled n ?_
    rw [← hNil]
    exact List.mem_map_of_mem (List.get_mem _ a)

theorem Forest.yield_pos (hFilled : ∀ n, [] ∉ G.shape n) : {ss : List (Symbol N)} →
    (f : Forest G ss) → ss ≠ [] → 0 < f.yield.length
  | _, .nil, hSome => absurd rfl hSome
  | _, .cons _ _ tree rest, _ => by
    rw [Forest.yield, List.length_append]
    exact Nat.add_pos_left (Tree.yield_pos hFilled tree) _

end

section Exchange

variable {e start : N} {s t : Terminal}

-- ---------------------------------------------------------------------------------------------
-- What is under way
-- ---------------------------------------------------------------------------------------------

/-- The tokens differ in one place, where a token of kind `t` takes that of one of kind `s`; in the
others they may lie elsewhere in a source. -/
structure Exchanged (s t : Terminal) (p : Nat) (tokens tokens' : List Token) : Prop where
  length : tokens'.length = tokens.length
  same : ∀ q, q ≠ p → tokens'[q]?.map Token.bare = tokens[q]?.map Token.bare
  old : (tokens.map Token.kind)[p]? = some s
  new : (tokens'.map Token.kind)[p]? = some t

theorem prefix_drop_of_getElem? {α : Type} {w : List α} {a : α} {j : Nat} (h : w[j]? = some a) :
    [a] <+: w.drop j := by
  obtain ⟨hLt, rfl⟩ := List.getElem?_eq_some_iff.mp h
  rw [List.drop_eq_getElem_cons hLt]
  exact ⟨_, rfl⟩

variable {p : Nat} {tokens tokens' : List Token} {new : Token}

theorem Exchanged.kind (h : Exchanged s t p tokens tokens') {q : Nat} (hq : q ≠ p) :
    (tokens'.map Token.kind)[q]? = (tokens.map Token.kind)[q]? := by
  have hKind (ts : List Token) :
      (ts.map Token.kind)[q]? = (ts[q]?.map Token.bare).map Token.kind := by
    rw [List.getElem?_map, Option.map_map]
    rfl
  rw [hKind, hKind, h.same q hq]

/-- A phrase that begins with the exchanged token, and is that token alone, was there before. -/
theorem Exchanged.item_over (hG : Interchange G start (tokens.map Token.kind) p e s t)
    (h : Exchanged s t p tokens tokens') {m n : N} {β : List (Symbol N)} {k i : Nat}
    (hItem : Item G.shape start (tokens.map Token.kind) m β k i p) (hNext : β[k]? = some (.cat n))
    (hPhrase : [.tok t] ∈ G.shape n) :
    Item G.shape start (tokens.map Token.kind) m β (k + 1) i (p + 1) ∧
      Between G.shape start (tokens.map Token.kind) (.cat n) p (p + 1) := by
  obtain ⟨tree, hKinds⟩ := hG.derives hItem hNext hPhrase
  have hLength : tree.yield.length = 1 := by simpa using congrArg List.length hKinds
  have hYield := prefix_drop_of_getElem? h.old
  rw [← hKinds] at hYield
  have hOver := (Item.over_tree tree hItem hNext hYield).2
  have hBetween := tree.between hItem hNext hYield
  rw [hLength] at hOver hBetween
  exact ⟨hOver, hBetween⟩

/-- After an exchange nothing new is under way, except the new terminal itself as a phrase. -/
theorem Item.replaced (hG : Interchange G start (tokens.map Token.kind) p e s t)
    (hTokens : Exchanged s t p tokens tokens') {n : N} {α : List (Symbol N)} {k i j : Nat}
    (h : Item G.shape start (tokens'.map Token.kind) n α k i j) :
    Item G.shape start (tokens.map Token.kind) n α k i j ∨
      (α = [.tok t] ∧ k = 1 ∧ i = p ∧ j = p + 1) := by
  induction h with
  | start hα => exact .inl (.start hα)
  | predict _ hNext hα ih =>
    rcases ih with hItem | ⟨rfl, rfl, -, -⟩
    · exact .inl (.predict hItem hNext hα)
    · cases hNext
  | @scan n α k i j t' _ hNext hToken ih =>
    rcases ih with hItem | ⟨rfl, rfl, -, -⟩
    · by_cases hj : j = p
      · subst hj
        obtain rfl : t' = t := Option.some.inj (hToken.symm.trans hTokens.new)
        have hSingle := hG.alone hItem hNext
        have hk : k < α.length := (List.getElem?_eq_some_iff.mp hNext).1
        rw [hSingle, List.length_singleton] at hk
        have hSpan := hItem.span hG.filled
        exact .inr ⟨hSingle, by omega, by omega, rfl⟩
      · exact .inl (.scan hItem hNext (hTokens.kind hj ▸ hToken))
    · cases hNext
  | @complete m n β α k i j l _ hNext hDone ih ihDone =>
    rcases ih with hItem | ⟨rfl, rfl, -, -⟩
    · rcases ihDone with hPhrase | ⟨rfl, -, rfl, rfl⟩
      · exact .inl (.complete hItem hNext hPhrase)
      · exact .inl (hTokens.item_over hG hItem hNext hDone.mem).1
    · cases hNext

/-- So no phrase that an item waits for is new. -/
theorem Between.replaced (hG : Interchange G start (tokens.map Token.kind) p e s t)
    (hTokens : Exchanged s t p tokens tokens') {m n : N} {β : List (Symbol N)} {k i j l : Nat}
    (hItem : Item G.shape start (tokens.map Token.kind) m β k i j) (hNext : β[k]? = some (.cat n))
    (h : Between G.shape start (tokens'.map Token.kind) (.cat n) j l) :
    Between G.shape start (tokens.map Token.kind) (.cat n) j l := by
  obtain ⟨α, hDone⟩ := h
  rcases hDone.replaced hG hTokens with hPhrase | ⟨rfl, -, rfl, rfl⟩
  · exact ⟨α, hPhrase⟩
  · exact (hTokens.item_over hG hItem hNext hDone.mem).2

-- ---------------------------------------------------------------------------------------------
-- Twins
-- ---------------------------------------------------------------------------------------------

mutual

/-- All that begins at position `p` in a tree that begins at `i` is one phrase of category `e` and
its parts. -/
def Tree.Hosts (e : N) (p : Nat) : {x : Symbol N} → Tree G x → (i : Nat) → Prop
  | _, .leaf _ _ _, i => i ≠ p
  | _, .node n _ children, i => (n = e ∧ i = p) ∨ (i ≠ p ∧ children.Hosts e p i)

/-- All that begins at position `p` in a forest that begins at `j` is one phrase of category `e` and
its parts. -/
def Forest.Hosts (e : N) (p : Nat) : {xs : List (Symbol N)} → Forest G xs → (j : Nat) → Prop
  | _, .nil, _ => True
  | _, .cons _ _ tree rest, j => tree.Hosts e p j ∧ rest.Hosts e p (j + tree.yield.length)

end

mutual

/-- Two trees that begin at `i` differ in the places of their tokens, and in the phrase of category
`e` at position `p`, which is the token `new` in the second one. -/
def Tree.Alike (e : N) (p : Nat) (new : Token) : {x : Symbol N} → Tree G x → (i : Nat) →
    Tree G x → Prop
  | _, .leaf t token h, _, twin => twin.bareValue = (Tree.leaf t token h : Tree G _).bareValue
  | _, .node n a children, i, twin =>
    (n = e ∧ i = p ∧ twin.yield = [new]) ∨
      (i ≠ p ∧ ∃ children', twin = .node n a children' ∧ children.Alike e p new i children')

/-- Two forests that begin at `j` differ in the places of their tokens, and in the phrase of
category `e` at position `p`, which is the token `new` in the second one. -/
def Forest.Alike (e : N) (p : Nat) (new : Token) : {xs : List (Symbol N)} → Forest G xs →
    (j : Nat) → Forest G xs → Prop
  | _, .nil, _, _ => True
  | _, .cons _ _ tree rest, j, .cons _ _ tree' rest' =>
    tree.Alike e p new j tree' ∧ rest.Alike e p new (j + tree.yield.length) rest'

end

theorem append_prefix_drop {α : Type} {w xs ys : List α} {j : Nat} (hx : xs <+: w.drop j)
    (hy : ys <+: w.drop (j + xs.length)) : xs ++ ys <+: w.drop j := by
  obtain ⟨rest, hRest⟩ := hx
  rw [← List.drop_drop, ← hRest, List.drop_left] at hy
  obtain ⟨rest', rfl⟩ := hy
  exact ⟨rest', by rw [← hRest, List.append_assoc]⟩

/-- The token at the place of a leaf that is not exchanged. -/
theorem Exchanged.leaf (h : Exchanged s t p tokens tokens') {token : Token} {i : Nat} (hi : i ≠ p)
    (hAt : [token] <+: tokens.drop i) :
    ∃ token', [token'] <+: tokens'.drop i ∧ token'.bare = token.bare := by
  have hSame := h.same i hi
  rw [getElem?_of_prefix_drop hAt] at hSame
  obtain ⟨token', hAt', hBare⟩ := Option.map_eq_some_iff.mp hSame
  exact ⟨token', prefix_drop_of_getElem? hAt', hBare⟩

theorem Forest.length_yield_token {u : Terminal} {xs : List (Symbol N)} (f : Forest G xs)
    (h : xs = [.tok u]) : f.yield.length = 1 := by
  subst h
  cases f with
  | cons _ _ tree rest =>
    cases tree
    cases rest
    rfl

theorem mem_shape (n : N) (a : Fin (G.rule n).alternatives.length) :
    ((G.rule n).alternatives.get a).symbols ∈ G.shape n :=
  List.mem_map_of_mem (List.get_mem _ a)

theorem length_yield_of_ends (hEnds : ∀ α ∈ G.shape e, ∃ u, α = [.tok u]) (tree : Tree G (.cat e)) :
    tree.yield.length = 1 := by
  cases tree with
  | node _ a children =>
    obtain ⟨u, hSymbols⟩ := hEnds _ (mem_shape e a)
    exact children.length_yield_token hSymbols

/-- A token is preferred as the only symbol of an alternative. -/
theorem exists_forest_token {w : List Terminal} {token : Token} {xs : List (Symbol N)}
    (h : xs = [.tok token.kind]) (n : N) (α : List (Symbol N)) (i k j : Nat) :
    ∃ f : Forest G xs, f.yield = [token] ∧ f.Preferred start w n α i k j := by
  subst h
  refine ⟨.cons _ _ (.leaf _ token rfl) .nil, rfl, fun l hLt _ hBetween => ?_, trivial, trivial⟩
  have hStop := hBetween.1
  rw [Tree.yield, List.length_singleton] at hStop
  omega

/-- The first alternative of a category that reads as given. -/
theorem exists_first_alternative {n : N} {α : List (Symbol N)} (h : α ∈ G.shape n) :
    ∃ a : Fin (G.rule n).alternatives.length, ((G.rule n).alternatives.get a).symbols = α ∧
      ∀ b < a, ((G.rule n).alternatives.get b).symbols ≠ α := by
  classical
  obtain ⟨alternative, hMem, hSymbols⟩ := List.mem_map.mp h
  have hLt := List.findIdx_lt_length_of_exists (p := fun a => decide (a.symbols = α))
    ⟨alternative, hMem, decide_eq_true hSymbols⟩
  refine ⟨⟨_, hLt⟩, of_decide_eq_true (List.findIdx_getElem (w := hLt)), fun b hb hSame => ?_⟩
  have hNot := List.not_of_lt_findIdx (show b.val < _ from hb)
  exact of_decide_eq_false hNot hSame

/-- The preferred phrase of category `e` at the place of the exchange. -/
theorem Exchanged.exists_end (hG : Interchange G start (tokens.map Token.kind) p e s t)
    (h : Exchanged s t p tokens tokens') (hNew : tokens'[p]? = some new) :
    ∃ tree : Tree G (.cat e), tree.yield = [new] ∧
      tree.Preferred start (tokens'.map Token.kind) p := by
  have hKind := h.new
  rw [List.getElem?_map, hNew] at hKind
  obtain rfl := Option.some.inj hKind
  obtain ⟨a, hSymbols, hFirst⟩ := exists_first_alternative hG.admits
  obtain ⟨f, hYield, hPreferred⟩ : ∃ f : Forest G ((G.rule e).alternatives.get a).symbols,
      f.yield = [new] ∧ f.Preferred start (tokens'.map Token.kind) e
        ((G.rule e).alternatives.get a).symbols p 0 p := exists_forest_token hSymbols ..
  have hOne : f.yield.length = 1 := by rw [hYield, List.length_singleton]
  refine ⟨.node e a f, hYield, fun b hb hItem => ?_, hPreferred⟩
  · -- the alternatives before it are other terminals, which are not there
    obtain ⟨u, hOther⟩ := hG.ends _ (mem_shape e b)
    rw [hOther, hOne] at hItem
    obtain ⟨l, hl, hToken, -⟩ := hItem.before_token (k := 0) rfl
    obtain rfl : l = p := by omega
    refine hFirst b hb ?_
    rw [hOther, Option.some.inj (hToken.symm.trans h.new)]

mutual

/-- The preferred tree after an exchange, for a tree that the exchange touches in a phrase of
category `e` at most. -/
theorem Tree.exists_twin (hG : Interchange G start (tokens.map Token.kind) p e s t)
    (hTokens : Exchanged s t p tokens tokens') (hNew : tokens'[p]? = some new) :
    {x : Symbol N} → (tree : Tree G x) → {i : Nat} → tree.yield <+: tokens.drop i →
    tree.Hosts e p i → tree.Preferred start (tokens.map Token.kind) i →
    ∃ twin : Tree G x, twin.yield <+: tokens'.drop i ∧ twin.yield.length = tree.yield.length ∧
      tree.Alike e p new i twin ∧ twin.Preferred start (tokens'.map Token.kind) i
  | _, .leaf _ token h, i, hAt, hHosts, _ => by
    subst h
    obtain ⟨token', hAt', hBare⟩ := hTokens.leaf hHosts hAt
    have hKind : token'.bare.kind = token.bare.kind := by rw [hBare]
    exact ⟨.leaf _ token' hKind, hAt', rfl, hBare, trivial⟩
  | _, .node m a children, i, hAt, .inl ⟨hm, hi⟩, hPreferred => by
    subst hm hi
    obtain ⟨twin, hYield, hPreferred'⟩ := hTokens.exists_end hG hNew
    refine ⟨twin, ?_, ?_, .inl ⟨rfl, rfl, hYield⟩, hPreferred'⟩
    · rw [hYield]
      exact prefix_drop_of_getElem? hNew
    · rw [length_yield_of_ends hG.ends, length_yield_of_ends hG.ends]
  | _, .node m a children, i, hAt, .inr ⟨hi, hHosts⟩, hPreferred => by
    obtain ⟨children', hAt', hLength, hAlike, hPreferred'⟩ :=
      Forest.exists_twin hG hTokens hNew children List.drop_zero hAt hHosts hPreferred.2
    refine ⟨.node m a children', hAt', hLength, .inr ⟨hi, children', rfl, hAlike⟩,
      fun b hb hItem => ?_, hPreferred'⟩
    rw [hLength] at hItem
    rcases hItem.replaced hG hTokens with hItem | ⟨-, -, hStart, -⟩
    · exact hPreferred.1 b hb hItem
    · exact hi hStart

theorem Forest.exists_twin (hG : Interchange G start (tokens.map Token.kind) p e s t)
    (hTokens : Exchanged s t p tokens tokens') (hNew : tokens'[p]? = some new) :
    {xs : List (Symbol N)} → (f : Forest G xs) → {n : N} → {α : List (Symbol N)} →
    {i k j : Nat} → α.drop k = xs → f.yield <+: tokens.drop j → f.Hosts e p j →
    f.Preferred start (tokens.map Token.kind) n α i k j →
    ∃ twin : Forest G xs, twin.yield <+: tokens'.drop j ∧ twin.yield.length = f.yield.length ∧
      f.Alike e p new j twin ∧ twin.Preferred start (tokens'.map Token.kind) n α i k j
  | _, .nil, _, _, _, _, _, _, _, _, _ => ⟨.nil, List.nil_prefix, rfl, trivial, trivial⟩
  | _, .cons x xs tree rest, n, α, i, k, j, hSymbols, hAt, hHosts, hPreferred => by
    have hNext : α[k]? = some x := by
      rw [← List.head?_drop, hSymbols]
      rfl
    have hTail : α.drop (k + 1) = xs := by
      rw [← List.tail_drop, hSymbols]
      rfl
    rw [Forest.yield] at hAt
    obtain ⟨hFirst, hLater⟩ := drop_prefix_append hAt
    obtain ⟨hLate, hTree, hRest⟩ := hPreferred
    obtain ⟨tree', hAt', hLength, hAlike, hTree'⟩ :=
      Tree.exists_twin hG hTokens hNew tree hFirst hHosts.1 hTree
    obtain ⟨rest', hAtRest, hLengthRest, hAlikeRest, hRest'⟩ :=
      Forest.exists_twin hG hTokens hNew rest hTail hLater hHosts.2 hRest
    rw [← hLength] at hAtRest hRest'
    refine ⟨.cons x xs tree' rest', append_prefix_drop hAt' hAtRest, ?_, ⟨hAlike, hAlikeRest⟩, ?_,
      hTree', hRest'⟩
    · rw [Forest.yield, Forest.yield, List.length_append, List.length_append, hLength, hLengthRest]
    · intro l hLt hItem hBetween
      cases x with
      | tok t' =>
        -- a token begins right before its end
        cases tree'
        have hStop := hBetween.1
        rw [Tree.yield, List.length_singleton] at hStop
        omega
      | cat m =>
        rw [hLength] at hBetween
        rcases hItem.replaced hG hTokens with hItem | ⟨rfl, rfl, -, -⟩
        · exact hLate l hLt hItem (hBetween.replaced hG hTokens hItem hNext)
        · cases hNext

end

mutual

/-- Trees that differ in a phrase whose value does not say how it is written have the same bare
value. -/
theorem Tree.bareValue_of_alike (hValue : Subsingleton (V e)) : {x : Symbol N} →
    (tree twin : Tree G x) → {i : Nat} → tree.Alike e p new i twin →
    twin.bareValue = tree.bareValue
  | _, .leaf _ _ _, _, _, hAlike => hAlike
  | _, .node n a children, twin, i, hAlike => by
    rcases hAlike with ⟨rfl, -, -⟩ | ⟨-, children', rfl, hAlike⟩
    · exact hValue.elim _ _
    · rw [Tree.bareValue, Tree.bareValue,
        Forest.bareValues_of_alike hValue children children' hAlike]

theorem Forest.bareValues_of_alike (hValue : Subsingleton (V e)) : {xs : List (Symbol N)} →
    (f twin : Forest G xs) → {j : Nat} → f.Alike e p new j twin → twin.bareValues = f.bareValues
  | _, .nil, .nil, _, _ => rfl
  | _, .cons _ _ tree rest, .cons _ _ tree' rest', j, hAlike => by
    rw [Forest.bareValues, Forest.bareValues, Tree.bareValue_of_alike hValue tree tree' hAlike.1,
      Forest.bareValues_of_alike hValue rest rest' hAlike.2]

end

-- ---------------------------------------------------------------------------------------------
-- Phrases that never come first
-- ---------------------------------------------------------------------------------------------

mutual

/-- Where phrases of category `e` never come first in another, the first token of another phrase is
not a direct part of one. -/
theorem Tree.first_owner (hFilled : ∀ n, [] ∉ G.shape n)
    (hFirst : ∀ n, ∀ α ∈ G.shape n, α.head? ≠ some (.cat e)) : {x : Symbol N} →
    (tree : Tree G x) → {n : N} → x ≠ .cat e → n ≠ e → (tree.owners n)[0]? ≠ some e
  | _, .leaf _ _ _, n, _, hn => fun hOwner => hn (Option.some.inj hOwner)
  | _, .node m a children, _, hm, _ => by
    refine Forest.first_owner hFilled hFirst children (fun hNil => hFilled m ?_)
      (hFirst m _ (mem_shape m a)) fun h => hm (by rw [h])
    rw [← hNil]
    exact mem_shape m a

theorem Forest.first_owner (hFilled : ∀ n, [] ∉ G.shape n)
    (hFirst : ∀ n, ∀ α ∈ G.shape n, α.head? ≠ some (.cat e)) : {xs : List (Symbol N)} →
    (f : Forest G xs) → {n : N} → xs ≠ [] → xs.head? ≠ some (.cat e) → n ≠ e →
    (f.owners n)[0]? ≠ some e
  | _, .nil, _, hSome, _, _ => absurd rfl hSome
  | _, .cons x xs tree rest, n, _, hx, hn => by
    have hPos := tree.yield_pos hFilled
    rw [Forest.owners, List.getElem?_append_left (by rwa [tree.length_owners])]
    exact Tree.first_owner hFilled hFirst tree (fun h => hx (congrArg some h)) hn

end

mutual

/-- So when a token is a direct part of a phrase of category `e`, that phrase is all that begins
there. -/
theorem Tree.hosts_of_owner (hFilled : ∀ n, [] ∉ G.shape n)
    (hFirst : ∀ n, ∀ α ∈ G.shape n, α.head? ≠ some (.cat e))
    (hEnds : ∀ α ∈ G.shape e, ∃ u, α = [.tok u]) : {x : Symbol N} → (tree : Tree G x) → {n : N} →
    {i : Nat} → (∀ q < tree.yield.length, i + q = p → n ≠ e ∧ (tree.owners n)[q]? = some e) →
    tree.Hosts e p i
  | _, .leaf _ _ _, n, i, hOwner => by
    intro hi
    obtain ⟨hn, hHere⟩ := hOwner 0 Nat.one_pos hi
    exact hn (Option.some.inj hHere)
  | _, .node m a children, n, i, hOwner => by
    by_cases hi : i = p
    · refine .inl ⟨?_, hi⟩
      by_contra hm
      obtain ⟨hn, hHere⟩ := hOwner 0 ((Tree.node m a children).yield_pos hFilled) hi
      exact Tree.first_owner hFilled hFirst _ (fun h => hm (Symbol.cat.inj h)) hn hHere
    · refine .inr ⟨hi, Forest.hosts_of_owner hFilled hFirst hEnds children (n := m) fun q hq hp => ?_⟩
      refine ⟨?_, (hOwner q hq hp).2⟩
      rintro rfl
      have hOne := length_yield_of_ends hEnds (.node m a children)
      rw [Tree.yield] at hOne
      omega

theorem Forest.hosts_of_owner (hFilled : ∀ n, [] ∉ G.shape n)
    (hFirst : ∀ n, ∀ α ∈ G.shape n, α.head? ≠ some (.cat e))
    (hEnds : ∀ α ∈ G.shape e, ∃ u, α = [.tok u]) : {xs : List (Symbol N)} → (f : Forest G xs) →
    {n : N} → {j : Nat} →
    (∀ q < f.yield.length, j + q = p → n ≠ e ∧ (f.owners n)[q]? = some e) → f.Hosts e p j
  | _, .nil, _, _, _ => trivial
  | _, .cons x xs tree rest, n, j, hOwner => by
    simp only [Forest.yield, List.length_append, Forest.owners] at hOwner
    have hLength := tree.length_owners n
    refine ⟨Tree.hosts_of_owner hFilled hFirst hEnds tree (n := n) fun q hq hp => ?_,
      Forest.hosts_of_owner hFilled hFirst hEnds rest (n := n) fun q hq hp => ?_⟩
    · have hBoth := hOwner q (by omega) hp
      rwa [List.getElem?_append_left (by omega)] at hBoth
    · have hBoth := hOwner (tree.yield.length + q) (by omega) (by omega)
      rwa [List.getElem?_append_right (by omega), hLength, Nat.add_sub_cancel_left] at hBoth

end

end Exchange

end Grammar

open Grammar

/-- Where an exchanged token is a phrase of its own, matching the new tokens gives a tree that is
like the old one. -/
theorem syntaxTree_twin {source : Text} (source' : Text) {lexing lexing' : Lexing} {tree : ItemsTree}
    {p : Nat} {e : Category} {s t : Terminal}
    (hG : Interchange moduleGrammar .items (lexing.statements.map Token.kind) p e s t)
    (hTree : Reader.syntaxTree source lexing = .ok (some tree)) (hLexed : lexing'.failure = none)
    (hTokens : Exchanged s t p lexing.statements lexing'.statements) {new : Token}
    (hNew : lexing'.statements[p]? = some new) (hHosts : tree.Hosts e p 0) :
    ∃ twin : ItemsTree, Reader.syntaxTree source' lexing' = .ok (some twin) ∧
      tree.Alike e p new 0 twin := by
  obtain ⟨-, hYield, hPreferred⟩ := syntaxTree_eq_some_iff.mp hTree
  have hAt : tree.yield <+: lexing.statements.drop 0 := by
    rw [hYield]
    exact List.prefix_rfl
  obtain ⟨twin, hAt', hLength, hAlike, hPreferred'⟩ :=
    Tree.exists_twin hG hTokens hNew tree hAt hHosts hPreferred
  have hYield' : twin.yield = lexing'.statements :=
    hAt'.eq_of_length (by rw [hLength, hYield, List.drop_zero, hTokens.length])
  exact ⟨twin, syntaxTree_eq_some_iff.mpr ⟨hLexed, hYield', hPreferred'⟩, hAlike⟩

-- ---------------------------------------------------------------------------------------------
-- Ends of statements
-- ---------------------------------------------------------------------------------------------

/-- Whether a terminator stands alone in the alternatives that it stands in, and the end of a
statement first in none. -/
def endsApart (n : Category) : Bool :=
  (moduleGrammar.shape n).all fun α =>
    α.head? ≠ some (.cat .stmtEnd) && (!α.contains (.tok .terminator) || α = [.tok .terminator])

theorem endsApart_eq_true (n : Category) : endsApart n = true := by
  have hAll : Category.all.all endsApart = true := by decide +kernel
  exact List.all_eq_true.mp hAll n (Category.mem_all n)

theorem derives_of_unit {n : Category} {x : Symbol Category} {w : List Terminal}
    (hMem : [x] ∈ moduleGrammar.shape n) (h : Derives moduleGrammar x w) :
    Derives moduleGrammar (.cat n) w :=
  derives_cat.mpr ⟨[x], hMem, derivesAll_single.mpr h⟩

/-- The categories with a terminator for a phrase; a semicolon is a phrase of each of them. -/
theorem derives_semi {n : Category} (h : [.tok .terminator] ∈ moduleGrammar.shape n) :
    Derives moduleGrammar (.cat n) [.semi] := by
  have hAll : Category.all.all (fun n => !(moduleGrammar.shape n).contains [.tok .terminator] ||
      [.stmtEnd, .classItem, .blockItem, .item].contains n) = true := by decide +kernel
  have hCategory := List.all_eq_true.mp hAll n (Category.mem_all n)
  have hSemi : Derives moduleGrammar (.tok .semi) [.semi] := derives_tok.mpr rfl
  have hStmt : Derives moduleGrammar (.cat .stmt) [.semi] :=
    derives_of_unit (x := .cat .emptyStmt) (by decide) (derives_of_unit (by decide) hSemi)
  simp only [List.contains_eq_mem, h, decide_true, Bool.not_true, Bool.false_or,
    decide_eq_true_eq, List.mem_cons, List.not_mem_nil, or_false] at hCategory
  rcases hCategory with rfl | rfl | rfl | rfl
  · exact derives_of_unit (by decide) hSemi
  · exact derives_of_unit (by decide) hSemi
  · exact derives_of_unit (by decide) hStmt
  · exact derives_of_unit (by decide) hStmt

theorem ends_stmtEnd : ∀ α ∈ moduleGrammar.shape .stmtEnd, ∃ u, α = [.tok u] := by
  intro α hMem
  have hShape : moduleGrammar.shape .stmtEnd = [[.tok .semi], [.tok .terminator]] := rfl
  rw [hShape, List.mem_cons, List.mem_singleton] at hMem
  rcases hMem with rfl | rfl
  · exact ⟨_, rfl⟩
  · exact ⟨_, rfl⟩

/-- Semicolons and terminators are interchangeable as ends of statements. -/
theorem interchange_stmtEnd (w : List Terminal) (p : Nat) :
    Interchange moduleGrammar .items w p .stmtEnd .semi .terminator where
  filled := moduleLayout_facts.filled
  ends := ends_stmtEnd
  admits := by decide
  alone hItem hNext := by
    have h := List.all_eq_true.mp (endsApart_eq_true _) _ hItem.mem
    simp [List.mem_of_getElem? hNext] at h
    exact h.2
  derives _ _ := derives_semi

/-- Where a semicolon was matched as the end of a statement, a terminator in its place is matched
as one too, and otherwise the tree stays what it is. -/
theorem syntaxTree_exchanged {source source' : Text} {lexing lexing' : Lexing} {tree : ItemsTree}
    {p : Nat} (hTree : Reader.syntaxTree source lexing = .ok (some tree))
    (hLexed : lexing'.failure = none)
    (hTokens : Exchanged .semi .terminator p lexing.statements lexing'.statements)
    (hEnd : (tree.owners .items)[p]? = some .stmtEnd) :
    ∃ tree' : ItemsTree, Reader.syntaxTree source' lexing' = .ok (some tree') ∧
      tree'.bareValue = tree.bareValue := by
  have hFirst (n : Category) (α) (hMem : α ∈ moduleGrammar.shape n) :
      α.head? ≠ some (.cat .stmtEnd) := by
    have h := List.all_eq_true.mp (endsApart_eq_true n) _ hMem
    simp at h
    exact h.1
  have hHosts : tree.Hosts .stmtEnd p 0 :=
    tree.hosts_of_owner moduleLayout_facts.filled hFirst ends_stmtEnd (n := .items) fun q _ hq => by
      rw [Nat.zero_add] at hq
      exact ⟨by decide, hq ▸ hEnd⟩
  have hKind := hTokens.new
  rw [List.getElem?_map] at hKind
  obtain ⟨new, hNew, -⟩ := Option.map_eq_some_iff.mp hKind
  obtain ⟨twin, hTwin, hAlike⟩ :=
    syntaxTree_twin source' (interchange_stmtEnd _ p) hTree hLexed hTokens hNew hHosts
  exact ⟨twin, hTwin, Tree.bareValue_of_alike (inferInstanceAs (Subsingleton Unit)) tree twin hAlike⟩

end ClientBoundary
