import ClientBoundary.Grammar.Rules
import ClientBoundary.Proofs.Erasure

/-!
# Values without places

The value of a phrase records where the phrase stands, and otherwise it depends on the kinds and the
texts of its tokens only. To state this for all trees at once, the value is compared with one that
is computed with every place left out, from tokens without places and with dummy spans
(`Tree.bareValue`).

* `Erases` — what a rule must satisfy, and `erases_seq`, `erases_map`, … what that comes to for a
  rule that is put together.
* `Tree.erase_value` — when all rules satisfy it, erasing the value of a tree gives its bare value.
* `ModuleGrammar.erases_rule` — the rules of modules satisfy it, for the erasure of spans.
-/

namespace ClientBoundary

/-- A token without its places. -/
def Token.bare (t : Token) : Token := ⟨t.kind, t.text, Place.start, Place.start⟩

namespace Grammar

variable {N : Type} {V : N → Type} {α β : Type}

mutual

/-- The value of a tree, computed without the places of its tokens. -/
def Tree.bareValue {G : Grammar V} : {s : Symbol N} → Tree G s → SymbolValue V s
  | _, .leaf _ token _ => token.bare
  | _, .node n a children => ((G.rule n).alternatives.get a).value {} children.bareValues

/-- The values of a forest, computed without the places of its tokens. -/
def Forest.bareValues {G : Grammar V} : {ss : List (Symbol N)} → Forest G ss → Values V ss
  | _, .nil => ()
  | _, .cons _ _ tree rest => (tree.bareValue, rest.bareValues)

end

/-- The value of a symbol as `E` erases it; a token loses its places. -/
def eraseSymbol (E : (n : N) → V n → V n) : (s : Symbol N) → SymbolValue V s → SymbolValue V s
  | .tok _, token => token.bare
  | .cat n, v => E n v

/-- The values of a sequence of symbols as `E` erases them. -/
def eraseValues (E : (n : N) → V n → V n) : (ss : List (Symbol N)) → Values V ss → Values V ss
  | [], _ => ()
  | s :: ss, vs => (eraseSymbol E s vs.1, eraseValues E ss vs.2)

/-- The value of each phrase of a rule, at the span `s`, is in the relation `P` to the value that the
same phrase has with its span and the places in its parts left out. -/
def Erases (E : (n : N) → V n → V n) (s : Span) (r : Rule V α) (P : α → α → Prop) : Prop :=
  ∀ a ∈ r.alternatives, ∀ vs, P (a.value s vs) (a.value {} (eraseValues E a.symbols vs))

-- ---------------------------------------------------------------------------------------------
-- Rules that are put together
-- ---------------------------------------------------------------------------------------------

section Rules

variable {E : (n : N) → V n → V n} {s : Span}

theorem Erases.imp {r : Rule V α} {P Q : α → α → Prop} (h : Erases E s r P)
    (hImp : ∀ a a', P a a' → Q a a') : Erases E s r Q :=
  fun a ha vs => hImp _ _ (h a ha vs)

/-- Values of two sequences side by side. -/
def joinValues : (xs : List (Symbol N)) → {ys : List (Symbol N)} → Values V xs → Values V ys →
    Values V (xs ++ ys)
  | [], _, _, ws => ws
  | _ :: xs, _, (v, vs), ws => (v, joinValues xs vs ws)

theorem left_joinValues (xs : List (Symbol N)) {ys : List (Symbol N)} (vs : Values V xs)
    (ws : Values V ys) : Values.left xs (joinValues xs vs ws) = vs := by
  induction xs with
  | nil => rfl
  | cons x xs ih => exact Prod.ext rfl (ih vs.2)

theorem right_joinValues (xs : List (Symbol N)) {ys : List (Symbol N)} (vs : Values V xs)
    (ws : Values V ys) : Values.right xs (joinValues xs vs ws) = ws := by
  induction xs with
  | nil => rfl
  | cons x xs ih => exact ih vs.2

theorem left_eraseValues (xs : List (Symbol N)) {ys : List (Symbol N)} (vs : Values V (xs ++ ys)) :
    Values.left xs (eraseValues E (xs ++ ys) vs) = eraseValues E xs (Values.left xs vs) := by
  induction xs with
  | nil => rfl
  | cons x xs ih => exact Prod.ext rfl (ih vs.2)

theorem right_eraseValues (xs : List (Symbol N)) {ys : List (Symbol N)} (vs : Values V (xs ++ ys)) :
    Values.right xs (eraseValues E (xs ++ ys) vs) = eraseValues E ys (Values.right xs vs) := by
  induction xs with
  | nil => rfl
  | cons x xs ih => exact ih vs.2

@[simp] theorem erases_map {r : Rule V α} {f : α → β} {P : β → β → Prop} :
    Erases E s (f <$> r) P ↔ Erases E s r fun a a' => P (f a) (f a') := by
  constructor
  · intro h a ha
    exact h _ (List.mem_map_of_mem ha)
  · intro h b hb
    obtain ⟨a, ha, rfl⟩ := List.mem_map.mp hb
    exact h a ha

@[simp] theorem erases_seq {f : Rule V (α → β)} {r : Rule V α} {P : β → β → Prop} :
    Erases E s (f <*> r) P ↔
      Erases E s f fun g g' => Erases E s r fun a a' => P (g a) (g' a') := by
  constructor
  · intro h a ha vs b hb ws
    have hMem : Rule.apply a b ∈ (f <*> r).alternatives :=
      List.mem_flatMap.mpr ⟨a, ha, List.mem_map_of_mem hb⟩
    have hBoth := h _ hMem (joinValues a.symbols vs ws)
    simpa only [Rule.apply, left_eraseValues, right_eraseValues, left_joinValues,
      right_joinValues] using hBoth
  · intro h c hc vs
    obtain ⟨a, ha, hc⟩ := List.mem_flatMap.mp hc
    obtain ⟨b, hb, rfl⟩ := List.mem_map.mp hc
    have hBoth := h a ha (Values.left a.symbols vs) b hb (Values.right a.symbols vs)
    have hLeft := left_eraseValues (E := E) a.symbols vs
    have hRight := right_eraseValues (E := E) a.symbols vs
    rw [← hLeft, ← hRight] at hBoth
    exact hBoth

@[simp] theorem erases_seqLeft {r : Rule V α} {q : Rule V β} {P : α → α → Prop} :
    Erases E s (r <* q) P ↔ Erases E s r fun a a' => Erases E s q fun _ _ => P a a' :=
  erases_seq.trans erases_map

@[simp] theorem erases_seqRight {r : Rule V α} {q : Rule V β} {P : β → β → Prop} :
    Erases E s (r *> q) P ↔ Erases E s r fun _ _ => Erases E s q fun b b' => P b b' :=
  erases_seq.trans erases_map

@[simp] theorem erases_orElse {r q : Rule V α} {P : α → α → Prop} :
    Erases E s (r <|> q) P ↔ Erases E s r P ∧ Erases E s q P :=
  List.forall_mem_append

@[simp] theorem erases_tok {t : Terminal} {P : Token → Token → Prop} :
    Erases E s (Rule.tok t : Rule V Token) P ↔ ∀ token, P token token.bare := by
  constructor
  · intro h token
    exact h _ (List.mem_singleton_self _) (token, ())
  · intro h a ha vs
    obtain rfl := List.mem_singleton.mp ha
    exact h vs.1

@[simp] theorem erases_cat {n : N} {P : V n → V n → Prop} :
    Erases E s (Rule.cat n) P ↔ ∀ v, P v (E n v) := by
  constructor
  · intro h v
    exact h _ (List.mem_singleton_self _) (v, ())
  · intro h a ha vs
    obtain rfl := List.mem_singleton.mp ha
    exact h vs.1

@[simp] theorem erases_span {P : Span → Span → Prop} :
    Erases E s (Rule.span : Rule V Span) P ↔ P s {} := by
  constructor
  · intro h
    exact h _ (List.mem_singleton_self _) ()
  · rintro h a ha vs
    obtain rfl := List.mem_singleton.mp ha
    exact h

@[simp] theorem erases_opt {r : Rule V α} {P : Option α → Option α → Prop} :
    Erases E s (Rule.opt r) P ↔ (Erases E s r fun a a' => P (some a) (some a')) ∧ P none none := by
  have hNone : Erases E s (⟨[⟨[], fun _ _ => none⟩]⟩ : Rule V (Option α)) P ↔ P none none := by
    constructor
    · intro h
      exact h _ (List.mem_singleton_self _) ()
    · rintro h a ha vs
      obtain rfl := List.mem_singleton.mp ha
      exact h
  rw [← hNone, ← erases_map (f := some)]
  exact List.forall_mem_append

end Rules

-- ---------------------------------------------------------------------------------------------
-- Trees
-- ---------------------------------------------------------------------------------------------

section Trees

variable {G : Grammar V} {E : (n : N) → V n → V n} (file : Option Text)

mutual

/-- When all rules agree with the erasure, erasing the value of a tree gives its bare value. -/
theorem Tree.erase_value (hG : ∀ n s, Erases E s (G.rule n) fun v v' => E n v = v') :
    {s : Symbol N} → (tree : Tree G s) → eraseSymbol E s (tree.value file) = tree.bareValue
  | _, .leaf _ _ _ => rfl
  | _, .node n a children => by
    rw [Tree.value, Tree.bareValue, ← Forest.erase_values hG children]
    exact hG n _ _ (List.get_mem _ _) _

theorem Forest.erase_values (hG : ∀ n s, Erases E s (G.rule n) fun v v' => E n v = v') :
    {ss : List (Symbol N)} → (f : Forest G ss) → eraseValues E ss (f.values file) = f.bareValues
  | _, .nil => rfl
  | _, .cons _ _ tree rest => by
    rw [Forest.values, Forest.bareValues, eraseValues, Tree.erase_value hG tree,
      Forest.erase_values hG rest]

end

end Trees

end Grammar

open Grammar

-- ---------------------------------------------------------------------------------------------
-- Modules
-- ---------------------------------------------------------------------------------------------

/-- A failure to build without the place it is reported at. -/
def BuildError.bare : BuildError → BuildError
  | .literal cause => .literal cause
  | .closingName closing opening => .closingName closing.bare opening

/-- Erase a value that may have failed to be built. -/
def built {α : Type} (f : α → α) : Build α → Build α
  | .ok a => .ok (f a)
  | .error e => .error e.bare

theorem forall_build {α : Type} {P : Build α → Prop} :
    (∀ x, P x) ↔ (∀ e, P (.error e)) ∧ ∀ a, P (.ok a) := by
  constructor
  · exact fun h => ⟨fun _ => h _, fun _ => h _⟩
  · rintro ⟨hError, hOk⟩ (e | a)
    · exact hError e
    · exact hOk a

/-- The erasure of spans and of nothing else. -/
abbrev Erasure.spans : Erasure := {}

/-- The erasure of spans that calls the properties of accesses as given. -/
abbrev Erasure.calling (key : Ident → Text) : Erasure := { key }

open Erasure (spans calling)

namespace Category

/-- The erased values of phrases; `prop` says what a property is called that is a phrase on its
own. -/
def erase (r : Erasure) (prop : Ident → Text) : (c : Category) → c.Value → c.Value
  | .stmtEnd => id
  | .ident => Erasure.ident
  | .propIdent => fun i => ⟨prop i, {}⟩
  | .strLit | .jsxStr => built r.str
  | .numLit => built r.num
  | .exportName => built r.exportName
  | .computedProp | .propName => built r.propName
  | .jsxNameRest => id
  | .jsxName | .jsxClosing => fun t => ⟨Erasure.jsxName t.name, t.first.bare⟩
  | .jsxAttrName => id
  | .jsxSelfClosing | .jsxOpening => built fun t => ⟨Erasure.jsxName t.name, r.attrs t.attrs⟩
  | .jsxElement | .jsxFragment => built r.jsx
  | .jsxText | .jsxContainer | .jsxSpreadChild | .jsxChild => built r.child
  | .jsxChildren => built r.children
  | .jsxAttrValue => built r.attrValue
  | .jsxAttr | .jsxSpreadAttr => built r.attr
  | .jsxAttrs => built r.attrs
  | .params | .paramList | .arrowParams | .patElems => built r.pats
  | .blockStmt => built r.block
  | .classBody | .classItem | .classItems => built r.members
  | .tplRest => built (List.map fun p => (p.1, r.expr p.2))
  | .tplLit => built r.template
  | .arguments | .args => built r.exprs
  | .assignOp => id
  | .fnExpr | .classHeritage | .classExpr | .objectLit | .arrayLit | .parenExpr
  | .primary | .member | .call | .newOnly | .lhs
  | .unary | .multiplicative | .additive | .shift | .relational | .equality
  | .bitAnd | .bitXor | .bitOr | .logicAnd | .logicOr | .cond
  | .arrowFn | .assign | .expr | .arg => built r.expr
  | .spread => built fun p => ⟨r.expr p.expr, {}⟩
  | .objectPat | .arrayPat | .pat | .assignPat | .restPat | .patElem | .param =>
    built r.pat
  | .assignPatProp | .keyValuePatProp | .patProp => built r.patProp
  | .patProps => built r.patProps
  | .keyValueProp | .shorthandProp | .prop => built r.prop
  | .props => built r.props
  | .methodDef | .getterDef | .setterDef | .methodLike =>
    built fun m => ⟨r.propName m.key, r.function m.function, m.kind, {}⟩
  | .classMethod | .classProp => built r.member
  | .varKind => id
  | .varDeclarator => built r.declarator
  | .varDeclarators => built r.declarators
  | .varDecl | .fnDecl | .classDecl | .returnStmt | .throwStmt | .ifStmt | .whileStmt
  | .exprStmt | .emptyStmt | .stmt => built r.stmt
  | .blockItem | .blockItems => built r.stmts
  | .namespaceSpec => r.importSpecifier
  | .namedSpec => built r.importSpecifier
  | .namedSpecs => built (List.map r.importSpecifier)
  | .exportSpec => built r.exportSpecifier
  | .exportSpecs => built (List.map r.exportSpecifier)
  | .importDecl | .importBare | .exportDefaultDecl | .exportDefaultExpr | .exportNamedDecl
  | .namedExport | .exportAll | .moduleDecl => built r.item
  | .item | .items => built (List.map r.item)

/-- What a property is called as a part of a phrase: accesses may change its name, but keys of
properties and names of exports keep it. -/
def partName (r : Erasure) : Category → Ident → Text
  | .propName | .exportName => Ident.sym
  | _ => r.key

end Category

namespace Erasure

variable (r : Erasure)

/-- A function that applies another to one element after the other is its map. -/
theorem eq_map {α : Type} (one : α → α) (all : List α → List α) (hNil : all [] = [])
    (hCons : ∀ x xs, all (x :: xs) = one x :: all xs) (xs : List α) : all xs = xs.map one := by
  induction xs with
  | nil => exact hNil
  | cons x xs ih => rw [hCons, ih, List.map_cons]

theorem exprs_eq_map (xs : List Expr) : r.exprs xs = xs.map r.expr :=
  eq_map r.expr r.exprs rfl (fun _ _ => rfl) xs

theorem props_eq_map (xs : List Property) : r.props xs = xs.map r.prop :=
  eq_map r.prop r.props rfl (fun _ _ => rfl) xs

theorem members_eq_map (xs : List ClassMember) : r.members xs = xs.map r.member :=
  eq_map r.member r.members rfl (fun _ _ => rfl) xs

theorem pats_eq_map (xs : List Pat) : r.pats xs = xs.map r.pat :=
  eq_map r.pat r.pats rfl (fun _ _ => rfl) xs

theorem patProps_eq_map (xs : List PatProp) : r.patProps xs = xs.map r.patProp :=
  eq_map r.patProp r.patProps rfl (fun _ _ => rfl) xs

theorem attrs_eq_map (xs : List JsxAttr) : r.attrs xs = xs.map r.attr :=
  eq_map r.attr r.attrs rfl (fun _ _ => rfl) xs

theorem children_eq_map (xs : List JsxChild) : r.children xs = xs.map r.child :=
  eq_map r.child r.children rfl (fun _ _ => rfl) xs

theorem stmts_eq_map (xs : List Stmt) : r.stmts xs = xs.map r.stmt :=
  eq_map r.stmt r.stmts rfl (fun _ _ => rfl) xs

theorem declarators_eq_map (xs : List Declarator) : r.declarators xs = xs.map r.declarator :=
  eq_map r.declarator r.declarators rfl (fun _ _ => rfl) xs

end Erasure

namespace ModuleGrammar

variable {α : Type} {s : Span} {E : (c : Category) → c.Value → c.Value} {key : Ident → Text}

theorem erases_oneOf {ts : List Terminal} {P : Token → Token → Prop} :
    Erases E s (oneOf ts) P ↔ ∀ t ∈ ts, ∀ token : Token, P token token.bare := by
  constructor
  · intro h t ht token
    exact h _ (List.mem_flatMap.mpr ⟨t, ht, List.mem_singleton_self _⟩) (token, ())
  · intro h a ha vs
    obtain ⟨t, ht, ha⟩ := List.mem_flatMap.mp ha
    obtain rfl := List.mem_singleton.mp ha
    exact h t ht vs.1

section Lists

-- the functions on lists that the erasure has are maps, but not all by definition
variable {e : α → α} {es : List α → List α} (hes : ∀ xs, es xs = xs.map e)

include hes

theorem built_snoc (xs : Build (List α)) (x : Build α) :
    built es (snoc xs x) = snoc (built es xs) (built e x) := by
  cases xs with
  | error => rfl
  | ok xs =>
    cases x with
    | error => rfl
    | ok x => exact congrArg Except.ok (by simp [hes])

theorem built_single (x : Build α) : built es (single x) = single (built e x) := by
  cases x with
  | error => rfl
  | ok x => exact congrArg Except.ok (hes [x])

theorem built_append (xs ys : Build (List α)) :
    built es (append xs ys) = append (built es xs) (built es ys) := by
  cases xs with
  | error => rfl
  | ok xs =>
    cases ys with
    | error => rfl
    | ok ys => exact congrArg Except.ok (by simp [hes])

theorem erases_commaList {list : R (Build (List α))} {element : R (Build α)}
    (hList : Erases E s list fun v v' => built es v = v')
    (hElement : Erases E s element fun v v' => built e v = v') :
    Erases E s (commaList list element) fun v v' => built es v = v' := by
  unfold commaList tok
  simp only [erases_orElse, erases_seq, erases_seqLeft, erases_map, erases_tok]
  refine ⟨hList.imp fun xs xs' hxs _ => hElement.imp fun x x' hx => ?_,
    hElement.imp fun x x' hx => ?_⟩
  · rw [built_snoc hes, hxs, hx]
  · rw [built_single hes, hx]

theorem erases_plainList {list element : R (Build (List α))}
    (hList : Erases E s list fun v v' => built es v = v')
    (hElement : Erases E s element fun v v' => built es v = v') :
    Erases E s (plainList list element) fun v v' => built es v = v' := by
  unfold plainList
  simp only [erases_orElse, erases_seq, erases_map]
  refine ⟨hList.imp fun xs xs' hxs => hElement.imp fun ys ys' hys => ?_, hElement⟩
  rw [built_append hes, hxs, hys]

end Lists

-- ---------------------------------------------------------------------------------------------
-- Builders that look at their parts
-- ---------------------------------------------------------------------------------------------

theorem built_ofLiteral {β : Type} {f : β → β} {g g' : α → β} (h : ∀ a, f (g a) = g' a)
    (x : Except LiteralError α) :
    built f (ofLiteral x >>= fun a => pure (g a)) = ofLiteral x >>= fun a => pure (g' a) := by
  cases x with
  | error => rfl
  | ok a => exact congrArg Except.ok (h a)

theorem built_makeTemplate (head tail : Token) (first : Build Expr)
    (rest : Build (List (Text × Expr))) :
    built (calling key).template (makeTemplate s head first (some rest) tail) =
      makeTemplate {} head.bare (built (calling key).expr first)
        (some (built (List.map fun p => (p.1, (calling key).expr p.2)) rest)) tail.bare := by
  cases first with
  | error => rfl
  | ok first =>
    cases rest with
    | error => rfl
    | ok rest =>
      refine congrArg Except.ok ?_
      simp [Erasure.template, Erasure.exprs_eq_map, Token.bare]

theorem span_expr (e : Expr) : ((calling key).expr e).span = {} := by
  cases e with
  | tpl t => cases t; rfl
  | jsx n => cases n <;> rfl
  | _ => rfl

theorem built_makeIndex (obj index : Build Expr) :
    built (calling key).expr (makeIndex s obj index) =
      makeIndex {} (built (calling key).expr obj) (built (calling key).expr index) := by
  cases index with
  | error => rfl
  | ok index =>
    cases obj with
    | error => rfl
    | ok obj =>
      refine congrArg Except.ok ?_
      rw [span_expr]
      rfl

theorem memberKind_eq (r : Erasure) (isStatic : Bool) (name : PropName) (f f' : Function)
    (kind : MethodKind) (s s' : Span) :
    memberKind isStatic ⟨r.propName name, f, kind, s⟩ = memberKind isStatic ⟨name, f', kind, s'⟩ := by
  cases kind <;> cases name <;> rfl

theorem text_jsxName (n : JsxName) : (Erasure.jsxName n).text = n.text := by
  cases n <;> rfl

theorem built_makeElement (opening : Build OpeningTag) (children : Option (Build (List JsxChild)))
    (closing : TagName) :
    built (calling key).jsx (makeElement s opening children closing) =
      makeElement {}
        (built (fun t => ⟨Erasure.jsxName t.name, (calling key).attrs t.attrs⟩) opening)
        (children.map (built (calling key).children))
        ⟨Erasure.jsxName closing.name, closing.first.bare⟩ := by
  cases opening with
  | error => rfl
  | ok tag =>
    by_cases hName : closing.name.text = tag.name.text
    · simp only [makeElement, built, bind, Except.bind, text_jsxName, hName, if_true]
      rcases children with - | (- | children) <;> rfl
    · simp only [makeElement, built, bind, Except.bind, text_jsxName, hName, if_false]
      rfl

-- ---------------------------------------------------------------------------------------------
-- The rules
-- ---------------------------------------------------------------------------------------------

theorem erases_jsxChildren :
    Erases (Category.erase (calling key) key) s jsxChildren fun v v' =>
      built (calling key).children v = v' := by
  refine erases_plainList (calling key).children_eq_map (erases_cat.mpr fun _ => rfl) ?_
  rw [erases_map]
  exact erases_cat.mpr (built_single (calling key).children_eq_map)

theorem erases_jsxAttrs :
    Erases (Category.erase (calling key) key) s jsxAttrs fun v v' =>
      built (calling key).attrs v = v' := by
  refine erases_plainList (calling key).attrs_eq_map (erases_cat.mpr fun _ => rfl) ?_
  rw [erases_map, erases_orElse]
  exact ⟨erases_cat.mpr (built_single (calling key).attrs_eq_map),
    erases_cat.mpr (built_single (calling key).attrs_eq_map)⟩

theorem erases_tplRest : Erases (Category.erase (calling key) key) s tplRest fun v v' =>
    built (List.map fun p => (p.1, (calling key).expr p.2)) v = v' := by
  refine erases_plainList (e := fun p => (p.1, (calling key).expr p.2)) (fun _ => rfl)
    (erases_cat.mpr fun _ => rfl) ?_
  rw [erases_seq, erases_map]
  refine erases_tok.mpr fun token => erases_cat.mpr ?_
  rintro (- | e) <;> rfl

theorem erases_tplLit :
    Erases (Category.erase (calling key) key) s tplLit fun v v' =>
      built (calling key).template v = v' := by
  dsimp only [tplLit, tok, cat]
  simp only [erases_seq, erases_map, erases_span, erases_tok, erases_cat, erases_opt,
    erases_orElse]
  refine ⟨fun _ => rfl, fun head first => ⟨fun rest tail => built_makeTemplate .., fun tail => ?_⟩⟩
  cases first <;> rfl

theorem erases_accesses {obj : R (Build Expr)}
    (hObj : Erases (Category.erase (calling key) key) s obj fun v v' =>
      built (calling key).expr v = v') :
    Erases (Category.erase (calling key) key) s (accesses obj) fun v v' =>
      built (calling key).expr v = v' := by
  dsimp only [accesses, tok, cat]
  simp only [erases_orElse, erases_seqLeft, erases_seq, erases_map, erases_span, erases_tok,
    erases_cat]
  refine ⟨hObj.imp ?_, hObj.imp ?_, hObj.imp ?_⟩
  · rintro (- | obj) _ rfl _ i <;> rfl
  · rintro obj _ rfl _ key _
    exact built_makeIndex obj key
  · rintro (- | obj) _ rfl (- | t) <;> rfl

theorem erases_member :
    Erases (Category.erase (calling key) key) s member fun v v' =>
      built (calling key).expr v = v' := by
  refine erases_orElse.mpr ⟨erases_cat.mpr fun _ => rfl, erases_orElse.mpr
    ⟨erases_accesses (erases_cat.mpr fun _ => rfl), ?_⟩⟩
  dsimp only [tok, cat]
  simp only [erases_seqLeft, erases_seq, erases_map, erases_span, erases_tok, erases_cat]
  rintro _ (- | callee) (- | args) <;> rfl

theorem erases_call :
    Erases (Category.erase (calling key) key) s call fun v v' =>
      built (calling key).expr v = v' := by
  refine erases_orElse.mpr ⟨?_, erases_orElse.mpr ⟨?_, erases_orElse.mpr ⟨?_,
    erases_accesses (erases_cat.mpr fun _ => rfl)⟩⟩⟩
  all_goals
    dsimp only [tok, cat]
    simp only [erases_seqLeft, erases_seq, erases_map, erases_span, erases_tok, erases_cat]
  · rintro (- | callee) (- | args) <;> rfl
  · rintro _ (- | args) <;> rfl
  · rintro (- | callee) (- | args) <;> rfl

theorem erases_classMethod :
    Erases (Category.erase (calling key) key) s classMethod fun v v' =>
      built (calling key).member v = v' := by
  dsimp only [classMethod, Rule.flag, tok, cat]
  simp only [erases_seq, erases_map, erases_span, erases_tok, erases_cat, erases_opt,
    forall_build]
  refine ⟨fun _ => ⟨fun _ => rfl, fun m => ?_⟩, fun _ => rfl, fun m => ?_⟩
  all_goals
    refine congrArg Except.ok (congrArg (ClassMember.method _ _ · _ _) ?_)
    exact (memberKind_eq ..).symm

theorem erases_jsxElement :
    Erases (Category.erase (calling key) key) s jsxElement fun v v' =>
      built (calling key).jsx v = v' := by
  dsimp only [jsxElement, cat]
  simp only [erases_seq, erases_map, erases_span, erases_cat, erases_opt, erases_orElse]
  refine ⟨fun tag => ?_, fun opening => ⟨fun children => ?_, ?_⟩⟩
  · cases tag <;> rfl
  · exact built_makeElement opening (some children)
  · exact built_makeElement opening none

/-- The rules of modules put spans into their values and do nothing else with them, and the name of
a property goes from an access into its value as it is. -/
theorem erases_rule {c : Category} (hName : c ≠ .propIdent) (s : Span) :
    Erases (Category.erase (calling key) (c.partName (calling key))) s (rule c) fun v v' =>
      c.erase (calling key) key v = v' := by
  cases c
  case propIdent => exact absurd rfl hName
  case args | patElems | patProps | paramList | props | varDeclarators | namedSpecs | exportSpecs =>
    refine erases_commaList ?_ (erases_cat.mpr fun _ => rfl) (erases_cat.mpr fun _ => rfl)
    simp [Erasure.exprs_eq_map, Erasure.pats_eq_map, Erasure.patProps_eq_map,
      Erasure.props_eq_map, Erasure.declarators_eq_map]
  case items =>
    exact erases_plainList (e := (calling key).item) (fun _ => rfl) (erases_cat.mpr fun _ => rfl)
      (erases_cat.mpr fun _ => rfl)
  case blockItems =>
    exact erases_plainList (calling key).stmts_eq_map (erases_cat.mpr fun _ => rfl)
      (erases_cat.mpr fun _ => rfl)
  case classItems =>
    exact erases_plainList (calling key).members_eq_map (erases_cat.mpr fun _ => rfl)
      (erases_cat.mpr fun _ => rfl)
  case jsxChildren => exact erases_jsxChildren
  case jsxAttrs => exact erases_jsxAttrs
  case tplRest => exact erases_tplRest
  case strLit =>
    refine erases_seq.mpr (erases_map.mpr (erases_span.mpr (erases_tok.mpr fun token => ?_)))
    exact built_ofLiteral (fun _ => rfl) (StringLiteral.value token.text)
  case numLit =>
    refine erases_seq.mpr (erases_map.mpr (erases_span.mpr (erases_tok.mpr fun token => ?_)))
    exact built_ofLiteral (fun _ => rfl) (NumberLiteral.value token.text)
  case tplLit => exact erases_tplLit
  case member => exact erases_member
  case call => exact erases_call
  case classMethod => exact erases_classMethod
  case jsxElement => exact erases_jsxElement
  -- everywhere else the span and the parts go into one node as they are
  all_goals
    dsimp only [rule, stmtEnd, ident, exportName, computedProp, propName, jsxText,
      jsxStr, jsxNameRest, jsxName, jsxAttrName, jsxSelfClosing, jsxOpening, jsxClosing,
      jsxFragment, jsxContainer, jsxSpreadChild, jsxChild, jsxAttrValue, jsxAttr, jsxSpreadAttr,
      params, blockStmt, fnExpr, classHeritage, classBody, classExpr, objectLit, arrayLit,
      parenExpr, primary, arguments, newOnly, lhs, unary, multiplicative, additive, shift,
      relational, equality, bitAnd, bitXor, bitOr, logicAnd, logicOr, cond, arrowParams, arrowFn,
      assignOp, assign, expr, spread, arg, objectPat, arrayPat, pat, assignPat, restPat, patElem,
      assignPatProp, keyValuePatProp, patProp, param, keyValueProp, shorthandProp, methodDef,
      getterDef, setterDef, methodLike, prop, classProp, classItem, varKind, varDeclarator,
      varDecl, fnDecl, classDecl, returnStmt, throwStmt, ifStmt, whileStmt, exprStmt, emptyStmt,
      stmt, blockItem, namespaceSpec, namedSpec, exportSpec, importDecl, importClause,
      namedImports, importBare, exportDefaultDecl, exportDefaultExpr, exportNamedDecl, namedExport,
      exportAll, moduleDecl, item, mark, bracketed, level, defaultSpec, namespaceImport, arrowBody,
      Rule.flag, tok, cat]
    simp only [erases_seqLeft, erases_seqRight, erases_seq, erases_map, erases_span, erases_tok,
      erases_cat, erases_opt, erases_oneOf, erases_orElse, forall_const, forall_build]
    repeat' first | rfl | trivial | intro _ | apply And.intro

/-- With the names of properties kept, this holds of all rules. -/
theorem erases_rule_spans (c : Category) (s : Span) :
    Erases (Category.erase spans Ident.sym) s (rule c) fun v v' =>
      c.erase spans Ident.sym v = v' := by
  by_cases hName : c = .propIdent
  · subst hName
    refine erases_seq.mpr (erases_map.mpr (erases_span.mpr (erases_oneOf.mpr fun _ _ token => ?_)))
    rfl
  · have hParts : c.partName spans = Ident.sym := by
      unfold Category.partName
      split <;> rfl
    have hRule : Erases (Category.erase spans (c.partName spans)) s (rule c) fun v v' =>
        c.erase spans Ident.sym v = v' := erases_rule hName s
    rwa [hParts] at hRule

end ModuleGrammar

/-- A bare value says what the items of a tree are up to spans. -/
theorem exists_items {tree : Tree moduleGrammar (.cat .items)} {file : Option Text}
    {bare : List ModuleItem} (h : tree.bareValue = .ok bare) :
    ∃ items, tree.value file = .ok items ∧ items.map spans.item = bare := by
  have hErase : built (List.map spans.item) (tree.value file) = tree.bareValue :=
    Tree.erase_value (E := Category.erase spans Ident.sym) file ModuleGrammar.erases_rule_spans tree
  rw [h] at hErase
  cases hValue : tree.value file with
  | error e =>
    rw [hValue] at hErase
    cases hErase
  | ok items =>
    rw [hValue] at hErase
    exact ⟨items, rfl, Except.ok.inj hErase⟩

/-- Trees with the same bare value stand for the same items up to spans. -/
theorem items_of_bareValue {tree tree' : Tree moduleGrammar (.cat .items)} {file : Option Text}
    {items : List ModuleItem} (h : tree'.bareValue = tree.bareValue)
    (hBuilt : tree.value file = .ok items) :
    ∃ items', tree'.value file = .ok items' ∧
      items'.map spans.item = items.map spans.item := by
  have hErase : built (List.map spans.item) (tree.value file) = tree.bareValue :=
    Tree.erase_value (E := Category.erase spans Ident.sym) file ModuleGrammar.erases_rule_spans tree
  rw [hBuilt] at hErase
  exact exists_items (h.trans hErase.symm)

end ClientBoundary
