import ClientBoundary.Token.Basic

/-!
# Grammars with values

A grammar says, for every *category* `n`, which sequences of symbols make a phrase of that
category, and at the same time which value such a phrase has. Its rules are written in
applicative style: `cat n` and `tok t` stand for one symbol and give its value, `f <$> r`,
`r <*> s`, `r <* s` and `r *> s` put symbols side by side, `r <|> s` offers a choice, `opt r`
makes a part optional, and `span` gives the span of the whole phrase. A rule is thereby a list of
*alternatives*, each a plain sequence of symbols with a function from the values of the symbols
to the value of the phrase.

`Tree G s` is the type of the derivations of the symbol `s`: a tree cannot fail to follow the
grammar. `Tree.yield` are its tokens and `Tree.value` is its value. A sequence of terminals is
*derivable* from a symbol when some tree of the symbol has these terminals as its leaves.

The order of the alternatives of a rule is a preference, used where a phrase has two readings.
-/

namespace ClientBoundary

/-- A symbol of a grammar: a terminal or a category. -/
inductive Symbol (N : Type) where
  | tok (t : Terminal)
  | cat (n : N)
deriving DecidableEq, Repr

namespace Grammar

variable {N : Type}

/-- The values of a symbol: of a terminal its tokens, of a category what `V` says. -/
abbrev SymbolValue (V : N → Type) : Symbol N → Type
  | .tok _ => Token
  | .cat n => V n

/-- The values of a sequence of symbols. -/
abbrev Values (V : N → Type) : List (Symbol N) → Type
  | [] => Unit
  | s :: ss => SymbolValue V s × Values V ss

namespace Values

/-- The values of the first part of a sequence. -/
def left {V : N → Type} :
    (xs : List (Symbol N)) → {ys : List (Symbol N)} → Values V (xs ++ ys) → Values V xs
  | [], _, _ => ()
  | _ :: xs, _, (v, vs) => (v, left xs vs)

/-- The values of the second part of a sequence. -/
def right {V : N → Type} :
    (xs : List (Symbol N)) → {ys : List (Symbol N)} → Values V (xs ++ ys) → Values V ys
  | [], _, vs => vs
  | _ :: xs, _, (_, vs) => right xs vs

end Values

/-- One way to write a phrase: its symbols, and its value from its span and their values. -/
structure Alternative (V : N → Type) (α : Type) where
  symbols : List (Symbol N)
  value : Span → Values V symbols → α

/-- The ways to write a phrase with a value in `α`, in order of preference. -/
structure Rule (V : N → Type) (α : Type) where
  alternatives : List (Alternative V α)

namespace Rule

variable {V : N → Type} {α β : Type}

/-- Two alternatives side by side, the first giving a function and the second its argument. -/
def apply (f : Alternative V (α → β)) (a : Alternative V α) : Alternative V β where
  symbols := f.symbols ++ a.symbols
  value s vs := f.value s (Values.left f.symbols vs) (a.value s (Values.right f.symbols vs))

instance : Applicative (Rule V) where
  pure a := ⟨[⟨[], fun _ _ => a⟩]⟩
  map f r := ⟨r.alternatives.map fun a => ⟨a.symbols, fun s vs => f (a.value s vs)⟩⟩
  seq f r := ⟨f.alternatives.flatMap fun a => (r ()).alternatives.map (apply a)⟩

instance : OrElse (Rule V α) := ⟨fun r r' => ⟨r.alternatives ++ (r' ()).alternatives⟩⟩

/-- A token of the given kind. -/
def tok (t : Terminal) : Rule V Token := ⟨[⟨[.tok t], fun _ vs => vs.1⟩]⟩

/-- A phrase of the given category. -/
def cat (n : N) : Rule V (V n) := ⟨[⟨[.cat n], fun _ vs => vs.1⟩]⟩

/-- No symbol; the value is the span of the phrase that the rule describes. -/
def span : Rule V Span := ⟨[⟨[], fun s _ => s⟩]⟩

/-- A part that may be missing; where both readings are open, it is there. -/
def opt (r : Rule V α) : Rule V (Option α) :=
  ⟨r.alternatives.map (fun a => ⟨a.symbols, fun s vs => some (a.value s vs)⟩) ++
    [⟨[], fun _ _ => none⟩]⟩

/-- Whether an optional part is there. -/
def flag (r : Rule V α) : Rule V Bool := Option.isSome <$> opt r

end Rule

end Grammar

/-- A grammar over the categories `N`, with values `V`. -/
structure Grammar {N : Type} (V : N → Type) where
  rule : (n : N) → Grammar.Rule V (V n)

namespace Grammar

variable {N : Type} {V : N → Type}

/-- The symbols of each alternative of a category. -/
def shape (G : Grammar V) (n : N) : List (List (Symbol N)) :=
  (G.rule n).alternatives.map (·.symbols)

mutual

/-- A derivation of a symbol. -/
inductive Tree (G : Grammar V) : Symbol N → Type where
  | leaf (t : Terminal) (token : Token) (h : token.kind = t) : Tree G (.tok t)
  | node (n : N) (i : Fin (G.rule n).alternatives.length)
      (children : Forest G ((G.rule n).alternatives.get i).symbols) : Tree G (.cat n)

/-- Derivations of a sequence of symbols. -/
inductive Forest (G : Grammar V) : List (Symbol N) → Type where
  | nil : Forest G []
  | cons (s : Symbol N) (ss : List (Symbol N)) (tree : Tree G s) (rest : Forest G ss) :
      Forest G (s :: ss)

end

mutual

/-- The tokens of a tree, from left to right. -/
def Tree.yield {G : Grammar V} : {s : Symbol N} → Tree G s → List Token
  | _, .leaf _ token _ => [token]
  | _, .node _ _ children => children.yield

/-- The tokens of a forest, from left to right. -/
def Forest.yield {G : Grammar V} : {ss : List (Symbol N)} → Forest G ss → List Token
  | _, .nil => []
  | _, .cons _ _ tree rest => tree.yield ++ rest.yield

end

mutual

/-- The first token of a tree. -/
def Tree.first? {G : Grammar V} : {s : Symbol N} → Tree G s → Option Token
  | _, .leaf _ token _ => some token
  | _, .node _ _ children => children.first?

/-- The first token of a forest. -/
def Forest.first? {G : Grammar V} : {ss : List (Symbol N)} → Forest G ss → Option Token
  | _, .nil => none
  | _, .cons _ _ tree rest => tree.first?.or rest.first?

end

mutual

/-- The last token of a tree. -/
def Tree.last? {G : Grammar V} : {s : Symbol N} → Tree G s → Option Token
  | _, .leaf _ token _ => some token
  | _, .node _ _ children => children.last?

/-- The last token of a forest. -/
def Forest.last? {G : Grammar V} : {ss : List (Symbol N)} → Forest G ss → Option Token
  | _, .nil => none
  | _, .cons _ _ tree rest => rest.last?.or tree.last?

end

/-- The span from the first to the last token of a phrase. -/
def Forest.span {G : Grammar V} {ss : List (Symbol N)} (f : Forest G ss) (file : Option Text) :
    Span :=
  match f.first?, f.last? with
  | some a, some b => Span.ofLocation (Place.locate a.start b.stop) file
  | _, _ => Span.dummy

mutual

/-- The value of a tree, for a source in the given file. -/
def Tree.value {G : Grammar V} (file : Option Text) :
    {s : Symbol N} → Tree G s → SymbolValue V s
  | _, .leaf _ token _ => token
  | _, .node n i children =>
    ((G.rule n).alternatives.get i).value (children.span file) (children.values file)

/-- The values of a forest. -/
def Forest.values {G : Grammar V} (file : Option Text) :
    {ss : List (Symbol N)} → Forest G ss → Values V ss
  | _, .nil => ()
  | _, .cons _ _ tree rest => (tree.value file, rest.values file)

end

/-- A sequence of terminals is derivable from a symbol when some tree has it as its leaves. -/
def Derives (G : Grammar V) (s : Symbol N) (w : List Terminal) : Prop :=
  ∃ tree : Tree G s, tree.yield.map Token.kind = w

end Grammar

end ClientBoundary
