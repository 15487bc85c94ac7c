import ClientBoundary.Proofs.BareValue

/-!
# The order of building

The value of a phrase is built from the values of its parts, and building stops at the first part
that has none. The parts are built from left to right but for six kinds of phrases
(`Category.inBuildOrder`).

* `FromParts` — what a rule must satisfy for its values to be in a relation to what is said of their
  parts, and `fromParts_seq`, `fromParts_map`, … what that comes to for a rule that is put together.
* `ModuleGrammar.fault_rule` — the value of a phrase fails as the first of its parts does. Elements
  stand apart, because the names of their tags are compared as well.
-/

namespace ClientBoundary

namespace Grammar

variable {N : Type} {V : N → Type} {α β ε : Type}

/-- What `F` says of each part of a phrase, from left to right. -/
def ofParts (F : (s : Symbol N) → SymbolValue V s → ε) : (ss : List (Symbol N)) → Values V ss → List ε
  | [], _ => []
  | s :: ss, vs => F s vs.1 :: ofParts F ss vs.2

/-- The value of each phrase of a rule, at the span `s`, is in the relation `P` to what `F` says of
its parts. -/
def FromParts (F : (s : Symbol N) → SymbolValue V s → ε) (s : Span) (r : Rule V α)
    (P : α → List ε → Prop) : Prop :=
  ∀ a ∈ r.alternatives, ∀ vs, P (a.value s vs) (ofParts F a.symbols vs)

section Rules

variable {F : (s : Symbol N) → SymbolValue V s → ε} {s : Span}

theorem ofParts_append (xs : List (Symbol N)) {ys : List (Symbol N)} (vs : Values V (xs ++ ys)) :
    ofParts F (xs ++ ys) vs =
      ofParts F xs (Values.left xs vs) ++ ofParts F ys (Values.right xs vs) := by
  induction xs with
  | nil => rfl
  | cons x xs ih => exact congrArg (F x vs.1 :: ·) (ih vs.2)

theorem FromParts.imp {r : Rule V α} {P Q : α → List ε → Prop} (h : FromParts F s r P)
    (hImp : ∀ a parts, P a parts → Q a parts) : FromParts F s r Q :=
  fun a ha vs => hImp _ _ (h a ha vs)

@[simp] theorem fromParts_map {r : Rule V α} {f : α → β} {P : β → List ε → Prop} :
    FromParts F s (f <$> r) P ↔ FromParts F s r fun a parts => P (f a) parts := by
  constructor
  · intro h a ha
    exact h _ (List.mem_map_of_mem ha)
  · intro h b hb
    obtain ⟨a, ha, rfl⟩ := List.mem_map.mp hb
    exact h a ha

@[simp] theorem fromParts_seq {f : Rule V (α → β)} {r : Rule V α} {P : β → List ε → Prop} :
    FromParts F s (f <*> r) P ↔
      FromParts F s f fun g left => FromParts F s r fun a right => P (g a) (left ++ right) := by
  constructor
  · intro h a ha vs b hb ws
    have hMem : Rule.apply a b ∈ (f <*> r).alternatives :=
      List.mem_flatMap.mpr ⟨a, ha, List.mem_map_of_mem hb⟩
    have hBoth := h _ hMem (joinValues a.symbols vs ws)
    simpa only [Rule.apply, ofParts_append, left_joinValues, right_joinValues] using hBoth
  · intro h c hc vs
    obtain ⟨a, ha, hc⟩ := List.mem_flatMap.mp hc
    obtain ⟨b, hb, rfl⟩ := List.mem_map.mp hc
    have hBoth := h a ha (Values.left a.symbols vs) b hb (Values.right a.symbols vs)
    have hParts : ofParts F (Rule.apply a b).symbols vs = _ ++ _ := ofParts_append a.symbols vs
    rw [hParts]
    exact hBoth

@[simp] theorem fromParts_seqLeft {r : Rule V α} {q : Rule V β} {P : α → List ε → Prop} :
    FromParts F s (r <* q) P ↔
      FromParts F s r fun a left => FromParts F s q fun _ right => P a (left ++ right) :=
  fromParts_seq.trans fromParts_map

@[simp] theorem fromParts_seqRight {r : Rule V α} {q : Rule V β} {P : β → List ε → Prop} :
    FromParts F s (r *> q) P ↔
      FromParts F s r fun _ left => FromParts F s q fun b right => P b (left ++ right) :=
  fromParts_seq.trans fromParts_map

@[simp] theorem fromParts_orElse {r q : Rule V α} {P : α → List ε → Prop} :
    FromParts F s (r <|> q) P ↔ FromParts F s r P ∧ FromParts F s q P :=
  List.forall_mem_append

@[simp] theorem fromParts_tok {t : Terminal} {P : Token → List ε → Prop} :
    FromParts F s (Rule.tok t : Rule V Token) P ↔ ∀ token, P token [F (.tok t) token] := by
  constructor
  · intro h token
    exact h _ (List.mem_singleton_self _) (token, ())
  · intro h a ha vs
    obtain rfl := List.mem_singleton.mp ha
    exact h vs.1

@[simp] theorem fromParts_cat {n : N} {P : V n → List ε → Prop} :
    FromParts F s (Rule.cat n) P ↔ ∀ v, P v [F (.cat n) v] := by
  constructor
  · intro h v
    exact h _ (List.mem_singleton_self _) (v, ())
  · intro h a ha vs
    obtain rfl := List.mem_singleton.mp ha
    exact h vs.1

@[simp] theorem fromParts_span {P : Span → List ε → Prop} :
    FromParts F s (Rule.span : Rule V Span) P ↔ P s [] := by
  constructor
  · intro h
    exact h _ (List.mem_singleton_self _) ()
  · rintro h a ha vs
    obtain rfl := List.mem_singleton.mp ha
    exact h

@[simp] theorem fromParts_opt {r : Rule V α} {P : Option α → List ε → Prop} :
    FromParts F s (Rule.opt r) P ↔
      (FromParts F s r fun a parts => P (some a) parts) ∧ P none [] := by
  have hNone : FromParts F s (⟨[⟨[], fun _ _ => none⟩]⟩ : Rule V (Option α)) P ↔ P none [] := by
    constructor
    · intro h
      exact h _ (List.mem_singleton_self _) ()
    · rintro h a ha vs
      obtain rfl := List.mem_singleton.mp ha
      exact h
  rw [← hNone, ← fromParts_map (f := some)]
  exact List.forall_mem_append

end Rules

end Grammar

open Grammar

-- ---------------------------------------------------------------------------------------------
-- Faults
-- ---------------------------------------------------------------------------------------------

/-- Why a value cannot be given. -/
def errorOf {ε α : Type} : Except ε α → Option ε
  | .ok _ => none
  | .error e => some e

/-- Why a token of a kind with a text denotes nothing, if it is a literal. -/
def literalFault (t : Terminal) (text : Text) : Option LiteralError :=
  match t with
  | .string => errorOf (StringLiteral.value text)
  | .number => errorOf (NumberLiteral.value text)
  | _ => none

/-- Why a token denotes nothing, if it is a literal. -/
def Token.fault (t : Token) : Option LiteralError := literalFault t.kind t.text

namespace Category

/-- Why the value of a phrase could not be built. -/
def fault : (c : Category) → c.Value → Option BuildError
  | .stmtEnd | .ident | .propIdent | .jsxNameRest | .jsxName | .jsxClosing | .jsxAttrName
  | .assignOp | .varKind | .namespaceSpec => fun _ => none
  | .strLit | .jsxStr | .numLit | .exportName | .computedProp | .propName
  | .jsxSelfClosing | .jsxOpening | .jsxElement | .jsxFragment
  | .jsxText | .jsxContainer | .jsxSpreadChild | .jsxChild | .jsxChildren
  | .jsxAttrValue | .jsxAttr | .jsxSpreadAttr | .jsxAttrs
  | .params | .paramList | .arrowParams | .patElems | .blockStmt
  | .classBody | .classItem | .classItems | .tplRest | .tplLit | .arguments | .args
  | .fnExpr | .classHeritage | .classExpr | .objectLit | .arrayLit | .parenExpr
  | .primary | .member | .call | .newOnly | .lhs
  | .unary | .multiplicative | .additive | .shift | .relational | .equality
  | .bitAnd | .bitXor | .bitOr | .logicAnd | .logicOr | .cond
  | .arrowFn | .assign | .expr | .arg | .spread
  | .objectPat | .arrayPat | .pat | .assignPat | .restPat | .patElem | .param
  | .assignPatProp | .keyValuePatProp | .patProp | .patProps
  | .keyValueProp | .shorthandProp | .prop | .props
  | .methodDef | .getterDef | .setterDef | .methodLike | .classMethod | .classProp
  | .varDeclarator | .varDeclarators
  | .varDecl | .fnDecl | .classDecl | .returnStmt | .throwStmt | .ifStmt | .whileStmt
  | .exprStmt | .emptyStmt | .stmt | .blockItem | .blockItems
  | .namedSpec | .namedSpecs | .exportSpec | .exportSpecs
  | .importDecl | .importBare | .exportDefaultDecl | .exportDefaultExpr | .exportNamedDecl
  | .namedExport | .exportAll | .moduleDecl | .item | .items => errorOf

/-- The parts of a phrase in the order in which they are built. In an element the names of its tags
are compared, to which `closing` belongs, after the opening tag has been built. -/
def inBuildOrder {α : Type} (c : Category) (closing : α) (parts : List α) : List α :=
  match c with
  -- a value is built before what it is given to, a source before the alias
  | .varDeclarator | .classProp | .exportAll => parts.reverse
  -- of `obj [ key ]` the key comes first
  | .member | .call => if parts.length = 4 then parts.reverse else parts
  -- the statement after `else` comes first
  | .ifStmt => parts.drop 6 ++ parts.take 6
  | .jsxElement =>
    match parts with
    | opening :: part :: rest => opening :: closing :: part :: rest
    | parts => parts
  | _ => parts

variable {α β : Type} {c : Category} {closing x : α} {parts : List α}

theorem map_inBuildOrder (f : α → β) :
    (c.inBuildOrder closing parts).map f = c.inBuildOrder (f closing) (parts.map f) := by
  fun_cases inBuildOrder c closing parts with
  | case10 => rcases parts with - | ⟨o, - | ⟨p, rest⟩⟩ <;> simp_all [inBuildOrder]
  | _ => simp_all [inBuildOrder]

theorem inBuildOrder_of_ne (hc : c ≠ .jsxElement) (a b : α) :
    c.inBuildOrder a parts = c.inBuildOrder b parts := by
  fun_cases inBuildOrder c a parts <;> simp_all [inBuildOrder]

theorem mem_inBuildOrder (h : x ∈ parts) : x ∈ c.inBuildOrder closing parts := by
  fun_cases inBuildOrder c closing parts with
  | case8 =>
    rw [List.mem_append, or_comm, ← List.mem_append, List.take_append_drop]
    exact h
  | _ => grind

theorem of_mem_inBuildOrder (h : x ∈ c.inBuildOrder closing parts) : x = closing ∨ x ∈ parts := by
  revert h
  fun_cases inBuildOrder c closing parts with
  | case8 =>
    rw [List.mem_append, or_comm, ← List.mem_append, List.take_append_drop]
    exact .inr
  | _ => grind

end Category

/-- Why a symbol has no value. -/
def symbolFault : (s : Symbol Category) → SymbolValue Category.Value s → Option BuildError
  | .tok t, token => (literalFault t token.text).map .literal
  | .cat c, v => c.fault v

namespace ModuleGrammar

variable {α : Type} {s : Span}

theorem literalFault_eq_none {t : Terminal} (hString : t ≠ .string) (hNumber : t ≠ .number)
    (text : Text) : literalFault t text = none := by
  unfold literalFault
  split
  · exact absurd rfl hString
  · exact absurd rfl hNumber
  · rfl

theorem fromParts_oneOf {ts : List Terminal} (hts : .string ∉ ts ∧ .number ∉ ts)
    {P : Token → List (Option BuildError) → Prop} :
    FromParts symbolFault s (oneOf ts) P ↔ ∀ t ∈ ts, ∀ token : Token, P token [none] := by
  have hNone : ∀ t ∈ ts, ∀ token : Token, symbolFault (.tok t) token = none := by
    intro t ht token
    change (literalFault t token.text).map BuildError.literal = none
    rw [literalFault_eq_none (fun h => hts.1 (h ▸ ht)) fun h => hts.2 (h ▸ ht)]
    rfl
  constructor
  · intro h t ht token
    rw [← hNone t ht token]
    exact h _ (List.mem_flatMap.mpr ⟨t, ht, List.mem_singleton_self _⟩) (token, ())
  · intro h a ha vs
    obtain ⟨t, ht, ha⟩ := List.mem_flatMap.mp ha
    obtain rfl := List.mem_singleton.mp ha
    have hToken := h t ht vs.1
    rw [← hNone t ht vs.1] at hToken
    exact hToken

/-- The phrases of a rule are built from left to right. -/
abbrev LeftToRight (s : Span) (r : R (Build α)) : Prop :=
  FromParts symbolFault s r fun v parts => errorOf v = parts.findSome? id

theorem errorOf_ofLiteral {β : Type} (x : Except LiteralError α) (g : α → β) :
    errorOf (ofLiteral x >>= fun a => pure (g a)) =
      [(errorOf x).map BuildError.literal].findSome? id := by
  cases x <;> rfl

theorem errorOf_snoc (xs : Build (List α)) (x : Build α) :
    errorOf (snoc xs x) = (errorOf xs).or (errorOf x) := by
  cases xs <;> cases x <;> rfl

theorem errorOf_append (xs ys : Build (List α)) :
    errorOf (append xs ys) = (errorOf xs).or (errorOf ys) := by
  cases xs <;> cases ys <;> rfl

theorem errorOf_single (x : Build α) : errorOf (single x) = errorOf x := by
  cases x <;> rfl

theorem errorOf_makeBinary (left : Build Expr) (op : Token) (right : Build Expr) :
    errorOf (makeBinary s left op right) = (errorOf left).or (errorOf right) := by
  cases left <;> cases right <;> rfl

theorem errorOf_makeFunction (isAsync isGenerator : Bool) (params : Build (List Pat))
    (body : Build Block) :
    errorOf (makeFunction s isAsync isGenerator params body) =
      [errorOf params, errorOf body].findSome? id := by
  cases params <;> cases body <;> rfl

theorem errorOf_bind_pure {β : Type} (x : Build α) (g : α → β) :
    errorOf (x >>= fun a => pure (g a)) = errorOf x := by
  cases x <;> rfl

theorem errorOf_makeImport (specifiers : Build (List ImportSpecifier)) (src : Build StrLit) :
    errorOf (makeImport s specifiers src) = (errorOf specifiers).or (errorOf src) := by
  cases specifiers <;> cases src <;> rfl

/-- Of a single part there is only one order. -/
theorem findSome?_single (o : Option BuildError) : [o].findSome? id = o := by
  cases o <;> rfl

theorem leftToRight_commaList {list : R (Build (List α))} {element : R (Build α)}
    (hList : LeftToRight s list) (hElement : LeftToRight s element) :
    LeftToRight s (commaList list element) := by
  unfold commaList tok
  simp only [fromParts_orElse, fromParts_seq, fromParts_seqLeft, fromParts_map, fromParts_tok]
  refine ⟨hList.imp fun xs ps hxs _ => hElement.imp fun x qs hx => ?_,
    hElement.imp fun x qs hx => ?_⟩
  · rw [errorOf_snoc, hxs, hx, List.findSome?_append, List.findSome?_append]
    exact congrArg (Option.or · _) (Option.or_none).symm
  · rw [errorOf_single, hx]

theorem leftToRight_plainList {list element : R (Build (List α))}
    (hList : LeftToRight s list) (hElement : LeftToRight s element) :
    LeftToRight s (plainList list element) := by
  unfold plainList
  simp only [fromParts_orElse, fromParts_seq, fromParts_map]
  refine ⟨hList.imp fun xs ps hxs => hElement.imp fun ys qs hys => ?_, hElement⟩
  rw [errorOf_append, hxs, hys, List.findSome?_append]

theorem leftToRight_level {this next : R (Build Expr)} {ops : List Terminal}
    (hOps : .string ∉ ops ∧ .number ∉ ops) (hThis : LeftToRight s this)
    (hNext : LeftToRight s next) : LeftToRight s (level this ops next) := by
  unfold level
  simp only [fromParts_orElse, fromParts_seq, fromParts_map, fromParts_span,
    fromParts_oneOf hOps]
  refine ⟨hNext, hThis.imp fun l ps hl _ _ op => hNext.imp fun r qs hr => ?_⟩
  rw [errorOf_makeBinary, hl, hr, List.findSome?_append, List.findSome?_append]
  exact congrArg (Option.or · _) (Option.or_none).symm

theorem leftToRight_importClause : LeftToRight s importClause := by
  dsimp only [importClause, defaultSpec, namespaceImport, namedImports, bracketed, tok, cat]
  simp only [fromParts_seqLeft, fromParts_seqRight, fromParts_seq, fromParts_map, fromParts_tok,
    fromParts_cat, fromParts_opt, fromParts_orElse, forall_build]
  repeat' first | rfl | intro _ | apply And.intro

theorem fault_importDecl : LeftToRight s importDecl := by
  dsimp only [importDecl, tok, cat]
  simp only [fromParts_seqLeft, fromParts_seq, fromParts_map, fromParts_span, fromParts_tok,
    fromParts_cat]
  refine fun _ => leftToRight_importClause.imp fun specifiers parts h _ src _ => ?_
  rw [errorOf_makeImport, h]
  simp only [List.findSome?_append]
  cases List.findSome? id parts <;> cases src <;> rfl

theorem fault_fnDecl : LeftToRight s fnDecl := by
  dsimp only [fnDecl, Rule.flag, tok, cat]
  simp only [fromParts_seqLeft, fromParts_seq, fromParts_map, fromParts_span, fromParts_tok,
    fromParts_cat, fromParts_opt]
  refine ⟨fun _ _ => ⟨fun _ _ ps b => ?_, fun _ ps b => ?_⟩,
    fun _ => ⟨fun _ _ ps b => ?_, fun _ ps b => ?_⟩⟩
  all_goals exact (errorOf_bind_pure ..).trans (errorOf_makeFunction ..)

theorem fault_fnExpr : LeftToRight s fnExpr := by
  dsimp only [fnExpr, Rule.flag, tok, cat]
  simp only [fromParts_seqLeft, fromParts_seq, fromParts_map, fromParts_span, fromParts_tok,
    fromParts_cat, fromParts_opt]
  refine ⟨fun _ _ => ⟨fun _ => ⟨fun _ ps b => ?_, fun ps b => ?_⟩, fun _ ps b => ?_, fun ps b => ?_⟩,
    fun _ => ⟨fun _ => ⟨fun _ ps b => ?_, fun ps b => ?_⟩, fun _ ps b => ?_, fun ps b => ?_⟩⟩
  all_goals exact (errorOf_bind_pure ..).trans (errorOf_makeFunction ..)

theorem errorOf_makeMethod (kind : MethodKind) (isAsync isGenerator : Bool) (key : Build PropName)
    (params : Build (List Pat)) (body : Build Block) :
    errorOf (makeMethod s kind isAsync isGenerator key params body) =
      [errorOf key, errorOf params, errorOf body].findSome? id := by
  cases key <;> cases params <;> cases body <;> rfl

theorem fault_methodDef : LeftToRight s methodDef := by
  dsimp only [methodDef, Rule.flag, tok, cat]
  simp only [fromParts_seq, fromParts_map, fromParts_span, fromParts_tok,
    fromParts_cat, fromParts_opt]
  refine ⟨fun _ => ⟨fun _ key ps b => ?_, fun key ps b => ?_⟩,
    fun _ key ps b => ?_, fun key ps b => ?_⟩
  all_goals exact errorOf_makeMethod ..

theorem leftToRight_cat {c : Category} {f : c.Value → Build α} (h : ∀ v, errorOf (f v) = c.fault v) :
    LeftToRight s (f <$> cat c) :=
  fromParts_map.mpr (fromParts_cat.mpr fun v => (h v).trans (findSome?_single _).symm)

/-- The value of a phrase fails as the first of its parts fails, in the order of building. -/
theorem fault_rule (c : Category) (hc : c ≠ .jsxElement) (s : Span) :
    FromParts symbolFault s (rule c) fun v parts =>
      c.fault v = (c.inBuildOrder none parts).findSome? id := by
  cases c
  case jsxElement => exact absurd rfl hc
  case args | patElems | patProps | paramList | props | varDeclarators | namedSpecs | exportSpecs =>
    exact leftToRight_commaList (fromParts_cat.mpr fun _ => (findSome?_single _).symm)
      (fromParts_cat.mpr fun _ => (findSome?_single _).symm)
  case items | blockItems | classItems =>
    exact leftToRight_plainList (fromParts_cat.mpr fun _ => (findSome?_single _).symm)
      (fromParts_cat.mpr fun _ => (findSome?_single _).symm)
  case jsxChildren =>
    exact leftToRight_plainList (fromParts_cat.mpr fun _ => (findSome?_single _).symm)
      (leftToRight_cat errorOf_single)
  case logicOr | logicAnd | bitOr | bitXor | bitAnd | equality | relational | shift | additive
      | multiplicative =>
    exact leftToRight_level (by decide) (fromParts_cat.mpr fun _ => (findSome?_single _).symm)
      (fromParts_cat.mpr fun _ => (findSome?_single _).symm)
  case strLit =>
    refine fromParts_seq.mpr (fromParts_map.mpr (fromParts_span.mpr (fromParts_tok.mpr ?_)))
    exact fun token => errorOf_ofLiteral (StringLiteral.value token.text) _
  case numLit =>
    refine fromParts_seq.mpr (fromParts_map.mpr (fromParts_span.mpr (fromParts_tok.mpr ?_)))
    exact fun token => errorOf_ofLiteral (NumberLiteral.value token.text) _
  case importDecl => exact fault_importDecl
  case fnDecl => exact fault_fnDecl
  case fnExpr => exact fault_fnExpr
  case methodDef => exact fault_methodDef
  all_goals
    dsimp only [rule, stmtEnd, ident, propIdent, exportName, computedProp, propName, jsxText,
      jsxStr, jsxNameRest, jsxName, jsxAttrName, jsxSelfClosing, jsxOpening, jsxClosing,
      jsxFragment, jsxContainer, jsxSpreadChild, jsxChild, jsxAttrValue, jsxAttr, jsxSpreadAttr,
      jsxAttrs, params, blockStmt, classHeritage, classBody, classExpr, objectLit, arrayLit,
      parenExpr, tplRest, tplLit, primary, arguments, accesses, member, call, newOnly, lhs, unary,
      cond, arrowParams, arrowFn, assignOp, assign, expr, spread, arg, objectPat, arrayPat, pat,
      assignPat, restPat, patElem, assignPatProp, keyValuePatProp, patProp, param, keyValueProp,
      shorthandProp, getterDef, setterDef, methodLike, prop, classMethod, classProp, classItem,
      varKind, varDeclarator, varDecl, classDecl, returnStmt, throwStmt, ifStmt, whileStmt,
      exprStmt, emptyStmt, stmt, blockItem, namespaceSpec, namedSpec, exportSpec, importBare,
      exportDefaultDecl, exportDefaultExpr, exportNamedDecl, namedExport, exportAll, moduleDecl,
      item, mark, bracketed, plainList, arrowBody, Rule.flag, tok, cat]
    simp +decide only [fromParts_seqLeft, fromParts_seqRight, fromParts_seq, fromParts_map,
      fromParts_span, fromParts_tok, fromParts_cat, fromParts_opt, fromParts_oneOf,
      fromParts_orElse, forall_build]
    repeat' first | rfl | trivial | intro _ | apply And.intro

end ModuleGrammar

end ClientBoundary
