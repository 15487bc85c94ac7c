import ClientBoundary.Proofs.BuildOrder
import ClientBoundary.Proofs.ModuleTree

/-!
# What holds of the values of phrases

A property of the values of all phrases is shown rule by rule: where it holds of the values of the
parts of a phrase, it must hold of the value of the phrase.

* `Yields P s r Q` — what a rule must satisfy for this, and `yields_seq`, `yields_map`, … what that
  comes to for a rule that is put together.
* `Tree.holds_value` — the induction over trees; the property may speak of the tokens of a phrase,
  as long as it is not lost when there are more of them, and may need the trees to be of a kind.
* `yields_commaList`, `yields_plainList`, … — the rules for lists, element by element.
-/

namespace ClientBoundary

namespace Grammar

variable {N : Type} {V : N → Type} {α β : Type}

/-- Where `P` holds of all parts of a phrase of a rule, `Q` holds of its value at the span `s`. -/
def Yields (P : (s : Symbol N) → SymbolValue V s → Prop) (s : Span) (r : Rule V α) (Q : α → Prop) :
    Prop :=
  FromParts P s r fun v parts => (∀ p ∈ parts, p) → Q v

section Rules

variable {P : (s : Symbol N) → SymbolValue V s → Prop} {s : Span}

theorem Yields.imp {r : Rule V α} {Q Q' : α → Prop} (h : Yields P s r Q)
    (hImp : ∀ a, Q a → Q' a) : Yields P s r Q' :=
  FromParts.imp h fun a _ hQ hParts => hImp a (hQ hParts)

theorem Yields.and {r : Rule V α} {Q Q' : α → Prop} (h : Yields P s r Q) (h' : Yields P s r Q') :
    Yields P s r fun v => Q v ∧ Q' v :=
  fun a ha vs hParts => ⟨h a ha vs hParts, h' a ha vs hParts⟩

@[simp] theorem yields_map {r : Rule V α} {f : α → β} {Q : β → Prop} :
    Yields P s (f <$> r) Q ↔ Yields P s r fun a => Q (f a) :=
  fromParts_map

@[simp] theorem yields_seq {f : Rule V (α → β)} {r : Rule V α} {Q : β → Prop} :
    Yields P s (f <*> r) Q ↔ Yields P s f fun g => Yields P s r fun a => Q (g a) := by
  unfold Yields
  rw [fromParts_seq]
  constructor
  · intro h
    refine h.imp fun g left hRight hLeft => hRight.imp fun a right hQ hParts => hQ ?_
    exact List.forall_mem_append.mpr ⟨hLeft, hParts⟩
  · intro h
    refine h.imp fun g left hRight b hb vs hParts => ?_
    obtain ⟨hLeft, hOwn⟩ := List.forall_mem_append.mp hParts
    exact hRight hLeft b hb vs hOwn

@[simp] theorem yields_seqLeft {r : Rule V α} {q : Rule V β} {Q : α → Prop} :
    Yields P s (r <* q) Q ↔ Yields P s r fun a => Yields P s q fun _ => Q a :=
  yields_seq.trans yields_map

@[simp] theorem yields_seqRight {r : Rule V α} {q : Rule V β} {Q : β → Prop} :
    Yields P s (r *> q) Q ↔ Yields P s r fun _ => Yields P s q fun b => Q b :=
  yields_seq.trans yields_map

@[simp] theorem yields_orElse {r q : Rule V α} {Q : α → Prop} :
    Yields P s (r <|> q) Q ↔ Yields P s r Q ∧ Yields P s q Q :=
  fromParts_orElse

@[simp] theorem yields_tok {t : Terminal} {Q : Token → Prop} :
    Yields P s (Rule.tok t : Rule V Token) Q ↔ ∀ token, P (.tok t) token → Q token := by
  unfold Yields
  rw [fromParts_tok]
  simp only [List.forall_mem_singleton]

@[simp] theorem yields_cat {n : N} {Q : V n → Prop} :
    Yields P s (Rule.cat n) Q ↔ ∀ v, P (.cat n) v → Q v := by
  unfold Yields
  rw [fromParts_cat]
  simp only [List.forall_mem_singleton]

@[simp] theorem yields_span {Q : Span → Prop} :
    Yields P s (Rule.span : Rule V Span) Q ↔ Q s := by
  unfold Yields
  rw [fromParts_span]
  exact ⟨fun h => h (List.forall_mem_nil _), fun h _ => h⟩

@[simp] theorem yields_opt {r : Rule V α} {Q : Option α → Prop} :
    Yields P s (Rule.opt r) Q ↔ (Yields P s r fun a => Q (some a)) ∧ Q none := by
  unfold Yields
  rw [fromParts_opt]
  exact ⟨fun h => ⟨h.1, h.2 (List.forall_mem_nil _)⟩, fun h => ⟨h.1, fun _ => h.2⟩⟩

end Rules

theorem Yields.opt {P : (s : Symbol N) → SymbolValue V s → Prop} {s : Span} {r : Rule V α}
    {B : α → Prop} {Q : Option α → Prop} (h : Yields P s r B)
    (hQ : ∀ o : Option α, (∀ a ∈ o, B a) → Q o) : Yields P s (Rule.opt r) Q := by
  refine yields_opt.mpr ⟨h.imp fun a ha => hQ (some a) fun b hb => Option.some.inj hb ▸ ha, ?_⟩
  exact hQ none nofun

theorem yields_flag {P : (s : Symbol N) → SymbolValue V s → Prop} {s : Span} {r : Rule V α}
    {Q : Bool → Prop} (h : ∀ b, Q b) : Yields P s (Rule.flag r) Q :=
  fun _ _ _ _ => h _

/-- What holds of the values of a rule whatever the parts are. -/
theorem Always.yields {r : Rule V α} {Q : α → Prop} {P : (s : Symbol N) → SymbolValue V s → Prop}
    {s : Span} (h : Always r fun _ v => Q v) : Yields P s r Q :=
  fun a ha vs _ => h a ha s vs

-- ---------------------------------------------------------------------------------------------
-- Trees
-- ---------------------------------------------------------------------------------------------

section Trees

variable {G : Grammar V} {file : Option Text}
  {P : List Token → (s : Symbol N) → SymbolValue V s → Prop}
  {Ok : (s : Symbol N) → Tree G s → Prop}

/-- All of some trees side by side are of a kind. -/
def Forest.Each (Ok : (s : Symbol N) → Tree G s → Prop) :
    {ss : List (Symbol N)} → Forest G ss → Prop
  | _, .nil => True
  | _, .cons s _ tree rest => Ok s tree ∧ rest.Each Ok

theorem Forest.each_of_forall (h : ∀ s tree, Ok s tree) {ss : List (Symbol N)}
    (f : Forest G ss) : f.Each Ok := by
  cases f with
  | nil => trivial
  | cons s _ tree rest => exact ⟨h s tree, rest.each_of_forall h⟩

mutual

/-- A property of tokens and of what they stand for holds of every tree of a kind, if it is not lost
when there are more tokens, holds of single tokens, and passes from the parts of a phrase to the
whole; the trees of the parts must be of that kind as well. -/
theorem Tree.holds_value
    (hMore : ∀ {us ts : List Token} {s : Symbol N} {v : SymbolValue V s}, us <:+: ts →
      P us s v → P ts s v)
    (hLeaf : ∀ token : Token, P [token] (.tok token.kind) token)
    (hDown : ∀ (n : N) (i : Fin (G.rule n).alternatives.length)
      (children : Forest G ((G.rule n).alternatives.get i).symbols),
      Ok (.cat n) (.node n i children) → children.Each Ok)
    (hNode : ∀ (n : N) (i : Fin (G.rule n).alternatives.length)
      (children : Forest G ((G.rule n).alternatives.get i).symbols),
      Ok (.cat n) (.node n i children) →
      (∀ p ∈ ofParts (P children.yield) _ (children.values file), p) →
        P children.yield (.cat n) ((Tree.node n i children).value file)) :
    {s : Symbol N} → (tree : Tree G s) → Ok s tree → P tree.yield s (tree.value file)
  | _, .leaf _ token h, _ => by
    subst h
    exact hLeaf token
  | _, .node n i children, hOk =>
    hNode n i children hOk
      (Forest.holds_values hMore hLeaf hDown hNode children (hDown n i children hOk) List.infix_rfl)

theorem Forest.holds_values
    (hMore : ∀ {us ts : List Token} {s : Symbol N} {v : SymbolValue V s}, us <:+: ts →
      P us s v → P ts s v)
    (hLeaf : ∀ token : Token, P [token] (.tok token.kind) token)
    (hDown : ∀ (n : N) (i : Fin (G.rule n).alternatives.length)
      (children : Forest G ((G.rule n).alternatives.get i).symbols),
      Ok (.cat n) (.node n i children) → children.Each Ok)
    (hNode : ∀ (n : N) (i : Fin (G.rule n).alternatives.length)
      (children : Forest G ((G.rule n).alternatives.get i).symbols),
      Ok (.cat n) (.node n i children) →
      (∀ p ∈ ofParts (P children.yield) _ (children.values file), p) →
        P children.yield (.cat n) ((Tree.node n i children).value file)) :
    {ss : List (Symbol N)} → (f : Forest G ss) → f.Each Ok → {ts : List Token} → f.yield <:+: ts →
      ∀ p ∈ ofParts (P ts) ss (f.values file), p
  | _, .nil, _, _, _ => List.forall_mem_nil _
  | _, .cons _ _ tree rest, hOk, _, h => by
    have hTree : tree.yield <:+: tree.yield ++ rest.yield := (List.prefix_append ..).isInfix
    have hRest : rest.yield <:+: tree.yield ++ rest.yield := (List.suffix_append ..).isInfix
    exact List.forall_mem_cons.mpr
      ⟨hMore (hTree.trans h) (Tree.holds_value hMore hLeaf hDown hNode tree hOk.1),
        Forest.holds_values hMore hLeaf hDown hNode rest hOk.2 (hRest.trans h)⟩

end

theorem forall_ofParts_imp {F F' : (s : Symbol N) → SymbolValue V s → Prop}
    (hImp : ∀ s v, F s v → F' s v) {ss : List (Symbol N)} {vs : Values V ss}
    (h : ∀ p ∈ ofParts F ss vs, p) : ∀ p ∈ ofParts F' ss vs, p := by
  induction ss with
  | nil => exact List.forall_mem_nil _
  | cons s ss ih =>
    obtain ⟨hHead, hRest⟩ := List.forall_mem_cons.mp h
    exact List.forall_mem_cons.mpr ⟨hImp s _ hHead, ih hRest⟩

/-- What a rule yields holds of the value of a node. -/
theorem Yields.node {Q : (s : Symbol N) → SymbolValue V s → Prop} {n : N}
    {i : Fin (G.rule n).alternatives.length}
    {children : Forest G ((G.rule n).alternatives.get i).symbols} {R : V n → Prop}
    (h : Yields Q (spanOf file children.yield) (G.rule n) R)
    (hParts : ∀ p ∈ ofParts Q _ (children.values file), p) :
    R ((Tree.node n i children).value file) := by
  rw [Tree.value, Forest.span_eq]
  exact h _ (List.get_mem _ i) _ hParts

end Trees

end Grammar

open Grammar

-- ---------------------------------------------------------------------------------------------
-- Lists
-- ---------------------------------------------------------------------------------------------

/-- What is built, if anything is, has a property. -/
def IfBuilt {α : Type} (A : α → Prop) : Build α → Prop
  | .ok a => A a
  | .error _ => True

section Building

variable {α β : Type} {A : β → Prop} {x : Build α}

theorem IfBuilt.of_forall {B : α → Prop} (h : ∀ a, B a) : IfBuilt B x := by
  cases x with
  | error e => trivial
  | ok a => exact h a

theorem IfBuilt.imp {B C : α → Prop} (h : IfBuilt B x) (hImp : ∀ a, B a → C a) : IfBuilt C x := by
  cases x with
  | error e => trivial
  | ok a => exact hImp a h

theorem IfBuilt.both {B C : α → Prop} (h : IfBuilt B x ∧ IfBuilt C x) :
    IfBuilt (fun a => B a ∧ C a) x := by
  cases x with
  | error e => trivial
  | ok a => exact h

theorem IfBuilt.bind {B : α → Prop} {k : α → Build β} (h : IfBuilt B x)
    (hNext : ∀ a, B a → IfBuilt A (k a)) : IfBuilt A (x >>= k) := by
  cases x with
  | error e => trivial
  | ok a => exact hNext a h

theorem IfBuilt.map {B : α → Prop} {f : α → β} (h : IfBuilt B x) (hf : ∀ a, B a → A (f a)) :
    IfBuilt A (f <$> x) := by
  cases x with
  | error e => trivial
  | ok a => exact hf a h

theorem IfBuilt.optional {B : α → Prop} {x : Option (Build α)} (h : ∀ v ∈ x, IfBuilt B v) :
    IfBuilt (fun o => ∀ a ∈ o, B a) (ModuleGrammar.optional x) := by
  cases x with
  | none => exact nofun
  | some v => exact (h v rfl).bind fun a ha b hb => Option.some.inj hb ▸ ha

theorem IfBuilt.orEmpty {B : α → Prop} {x : Option (Build (List α))}
    (h : ∀ v ∈ x, IfBuilt (fun as => ∀ a ∈ as, B a) v) :
    IfBuilt (fun as => ∀ a ∈ as, B a) (ModuleGrammar.orEmpty x) := by
  cases x with
  | none => exact List.forall_mem_nil _
  | some v => exact h v rfl

theorem ifBuilt_of_bind {k : α → Build β}
    (h : ∀ a, IfBuilt A (k a)) : IfBuilt A (x >>= k) := by
  cases x with
  | error e => trivial
  | ok a => exact h a

theorem ifBuilt_map {f : α → β} : IfBuilt A (f <$> x) ↔ IfBuilt (fun a => A (f a)) x := by
  cases x <;> rfl

end Building

namespace ModuleGrammar

variable {α : Type} {A : α → Prop} {s : Span}
  {P : (s : Symbol Category) → SymbolValue Category.Value s → Prop}

theorem ifBuilt_snoc {xs : Build (List α)} {x : Build α}
    (hInit : IfBuilt (fun xs => ∀ x ∈ xs, A x) xs) (hLast : IfBuilt A x) :
    IfBuilt (fun xs => ∀ x ∈ xs, A x) (snoc xs x) := by
  cases xs with
  | error e => trivial
  | ok xs =>
    cases x with
    | error e => trivial
    | ok x => exact List.forall_mem_append.mpr ⟨hInit, List.forall_mem_singleton.mpr hLast⟩

theorem ifBuilt_single {x : Build α} (h : IfBuilt A x) :
    IfBuilt (fun xs => ∀ x ∈ xs, A x) (single x) := by
  cases x with
  | error e => trivial
  | ok x => exact List.forall_mem_singleton.mpr h

theorem ifBuilt_append {xs ys : Build (List α)} (hLeft : IfBuilt (fun xs => ∀ x ∈ xs, A x) xs)
    (hRight : IfBuilt (fun xs => ∀ x ∈ xs, A x) ys) :
    IfBuilt (fun xs => ∀ x ∈ xs, A x) (append xs ys) := by
  cases xs with
  | error e => trivial
  | ok xs =>
    cases ys with
    | error e => trivial
    | ok ys => exact List.forall_mem_append.mpr ⟨hLeft, hRight⟩

theorem yields_commaList {list : R (Build (List α))} {element : R (Build α)}
    (hList : Yields P s list (IfBuilt fun xs => ∀ x ∈ xs, A x))
    (hElement : Yields P s element (IfBuilt A)) :
    Yields P s (commaList list element) (IfBuilt fun xs => ∀ x ∈ xs, A x) := by
  unfold commaList tok
  simp only [yields_orElse, yields_seq, yields_seqLeft, yields_map, yields_tok]
  exact ⟨hList.imp fun xs hxs _ _ => hElement.imp fun x hx => ifBuilt_snoc hxs hx,
    hElement.imp fun x hx => ifBuilt_single hx⟩

theorem yields_plainList {list element : R (Build (List α))}
    (hList : Yields P s list (IfBuilt fun xs => ∀ x ∈ xs, A x))
    (hElement : Yields P s element (IfBuilt fun xs => ∀ x ∈ xs, A x)) :
    Yields P s (plainList list element) (IfBuilt fun xs => ∀ x ∈ xs, A x) := by
  unfold plainList
  simp only [yields_orElse, yields_seq, yields_map]
  exact ⟨hList.imp fun xs hxs => hElement.imp fun ys hys => ifBuilt_append hxs hys, hElement⟩

theorem yields_bracketed {left right : Terminal} {list : R (Build (List α))}
    (hList : Yields P s list (IfBuilt fun xs => ∀ x ∈ xs, A x)) :
    Yields P s (bracketed left right list) (IfBuilt fun xs => ∀ x ∈ xs, A x) := by
  unfold bracketed tok
  simp only [yields_opt, yields_seqLeft, yields_seqRight, yields_map, yields_tok]
  refine fun _ _ => ⟨hList.imp fun xs hxs => ⟨fun _ _ _ _ => hxs, fun _ _ => hxs⟩, fun _ _ => ?_⟩
  exact List.forall_mem_nil _

theorem yields_oneOf {ts : List Terminal} {Q : Token → Prop} :
    Yields P s (oneOf ts) Q ↔ ∀ t ∈ ts, ∀ token, P (.tok t) token → Q token := by
  constructor
  · intro h t ht token hToken
    refine h _ (List.mem_flatMap.mpr ⟨t, ht, List.mem_singleton_self _⟩) (token, ()) ?_
    exact List.forall_mem_singleton.mpr hToken
  · intro h a ha vs hParts
    obtain ⟨t, ht, ha⟩ := List.mem_flatMap.mp ha
    obtain rfl := List.mem_singleton.mp ha
    exact h t ht vs.1 (hParts _ (List.mem_singleton_self _))

end ModuleGrammar

end ClientBoundary
