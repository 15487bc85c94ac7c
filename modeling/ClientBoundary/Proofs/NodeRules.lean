import ClientBoundary.Proofs.Expectations

/-!
# The nodes that the rules make

Every node of a module is made by the rule of some phrase, from nodes that its parts brought with
them. There are three kinds of new nodes: those with the span of the phrase, those that only stand
for another node, and names and literals, which are made from one token. Every new node is regular,
because of what is expected of the parts.

Conditional statements are set apart: what is to be shown of them may depend on the whole tree they
are read from, and not only on their parts.

* `ModuleGrammar.each_rule` — a property that passes to each kind of new node (`Closed`) passes from
  the parts of a phrase to its value.
* `Tree.each_value` — a property that is `Inherited` holds of all nodes in the value of a tree.
* `ReadFrom.each_item` — and so of all items of a source that is read.
-/

namespace ClientBoundary

open Grammar

/-- A name or a literal is written as a text; nothing is asked of other nodes. -/
def Node.ReadsAs (t : Text) : Node → Prop
  | .ident i => i.sym = t
  | .str l | .attrStr l => l.raw = some t
  | .num l => l.raw = some t
  | _ => True

/-- A node of which nothing is known but its sort, its span and its parts: no name or literal, and no
conditional statement, which is not read for itself alone. -/
def Node.isPlain : Node → Bool
  | .ident _ | .str _ | .attrStr _ | .num _ | .stmt (.ifStmt ..) => false
  | _ => true

theorem Node.readsAs_of_isPlain {n : Node} (h : n.isPlain = true) (t : Text) : n.ReadsAs t := by
  cases n <;> trivial

/-- The categories of names and literals, which are one token each. -/
def Category.isLiteral : Category → Bool
  | .ident | .propIdent | .strLit | .numLit | .jsxStr => true
  | _ => false

/-- A property passes to the nodes that the rule of a category makes at the span `s`: to a node with
that span, to one that only stands for another, and to a name or a literal made from a token with
the property `T`. -/
structure Closed (c : Category) (s : Span) (T : Token → Prop) (Good : Node → Prop) : Prop where
  phrase : beginsWithCode c = true → ∀ n : Node, n.span = s → n.isPlain = true → n.Regular →
    (∀ p ∈ n.parts, Good p) → Good n
  wrapper : ∀ n p : Node, n.parts = [p] → n.span = p.span → n.isPlain = true → n.Regular →
    Good p → Good n
  literal : c.isLiteral = true → ∀ (n : Node) (token : Token), T token → n.span = s →
    n.parts = [] → n.ReadsAs token.text → n.Regular → Good n

namespace ModuleGrammar

variable {Good : Node → Prop} {T : Token → Prop} {s : Span} {c : Category}

-- ---------------------------------------------------------------------------------------------
-- Steps that several rules have in common
-- ---------------------------------------------------------------------------------------------

theorem each_cat (c : Category) : Yields (Known Good T) s (cat c) (c.Each Good) :=
  yields_cat.mpr fun _ hPart => hPart.1

/-- A part that is left out is not a bad one. -/
theorem forall_optional {α : Type} {sort : α → Node} {o : Option α}
    (h : ∀ a ∈ o, Good (sort a)) : ∀ p ∈ o.toList.map sort, Good p :=
  List.forall_mem_map.mpr fun a ha => h a (Option.mem_toList.mp ha)

theorem all_isExpr {o : Option Expr} {k : Nat} (h : ∀ e ∈ o, k < e.level) :
    o.all Expr.isExpr = true := by
  cases o with
  | none => rfl
  | some e => exact Expr.isExpr_of_level (h e rfl)

/-- A node that is made of one expression. -/
theorem each_ofExpr {β : Type} {sort : β → Node} {f : Expr → β} {k : Nat} {v : Build Expr}
    (hv : IfBuilt (fun e => Good (.expr e)) v ∧ AtLeast (k + 1) v)
    (hNode : ∀ e, Good (.expr e) → e.isExpr = true → Good (sort (f e))) :
    IfBuilt (fun b => Good (sort b)) (v >>= fun e => pure (f e)) :=
  (IfBuilt.both hv).bind fun e he => hNode e he.1 (Expr.isExpr_of_level he.2)

section Wrappers

variable {α β : Type} {sort : α → Node} {sort' : β → Node}

/-- Nodes that only stand for others. -/
structure Wraps (sort : α → Node) (sort' : β → Node) (f : α → β) : Prop where
  parts : ∀ a, (sort' (f a)).parts = [sort a]
  span : ∀ a, (sort' (f a)).span = (sort a).span
  plain : ∀ a, (sort' (f a)).isPlain = true
  regular : ∀ a, (sort' (f a)).Regular

theorem Wraps.good {f : α → β} (hf : Wraps sort sort' f) (h : Closed c s T Good) {a : α}
    (ha : Good (sort a)) : Good (sort' (f a)) :=
  h.wrapper _ _ (hf.parts a) (hf.span a) (hf.plain a) (hf.regular a) ha

/-- A phrase that is built and stands for a node of another sort. -/
theorem each_wrapped (h : Closed c s T Good) {r : R (Build α)} {f : α → β}
    (hr : Yields (Known Good T) s r (IfBuilt fun a => Good (sort a))) (hf : Wraps sort sort' f) :
    Yields (Known Good T) s ((fun x => f <$> x) <$> r) (IfBuilt fun b => Good (sort' b)) :=
  yields_map.mpr (hr.imp fun _ hx => hx.map fun _ => hf.good h)

/-- A name that stands for a node of another sort. -/
theorem each_named (h : Closed c s T Good) {r : R Ident} {f : Ident → β}
    (hr : Yields (Known Good T) s r fun i => Good (.ident i)) (hf : Wraps Node.ident sort' f) :
    Yields (Known Good T) s ((fun i => .ok (f i)) <$> r) (IfBuilt fun b => Good (sort' b)) :=
  yields_map.mpr (hr.imp fun _ hi => hf.good h hi)

end Wrappers

-- ---------------------------------------------------------------------------------------------
-- Names and literals
-- ---------------------------------------------------------------------------------------------

theorem each_ident (h : Closed .ident s T Good) :
    Yields (Known Good T) s ident (Category.Each Good .ident) := by
  unfold ident
  simp only [yields_seq, yields_map, yields_span, yields_oneOf]
  intro _ _ token hToken
  exact h.literal rfl _ token hToken.1 rfl rfl rfl ⟨trivial, trivial, trivial, rfl⟩

theorem each_propIdent (h : Closed .propIdent s T Good) :
    Yields (Known Good T) s propIdent (Category.Each Good .propIdent) := by
  unfold propIdent
  simp only [yields_seq, yields_map, yields_span, yields_oneOf]
  intro _ _ token hToken
  exact h.literal rfl _ token hToken.1 rfl rfl rfl ⟨trivial, trivial, trivial, rfl⟩

theorem each_strLit (h : Closed .strLit s T Good) :
    Yields (Known Good T) s strLit (Category.Each Good .strLit) := by
  dsimp only [strLit, tok]
  simp only [yields_seq, yields_map, yields_span, yields_tok, makeStr]
  intro token hToken
  cases hValue : StringLiteral.value token.text with
  | error e => trivial
  | ok value =>
    exact h.literal rfl _ token hToken.1 rfl rfl rfl ⟨trivial, trivial, ⟨_, rfl, hValue⟩, rfl⟩

theorem each_numLit (h : Closed .numLit s T Good) :
    Yields (Known Good T) s numLit (Category.Each Good .numLit) := by
  dsimp only [numLit, tok]
  simp only [yields_seq, yields_map, yields_span, yields_tok, makeNum]
  intro token hToken
  cases hValue : NumberLiteral.value token.text with
  | error e => trivial
  | ok value =>
    exact h.literal rfl _ token hToken.1 rfl rfl rfl ⟨trivial, trivial, ⟨_, rfl, hValue⟩, rfl⟩

theorem each_jsxStr (h : Closed .jsxStr s T Good) :
    Yields (Known Good T) s jsxStr (Category.Each Good .jsxStr) := by
  dsimp only [jsxStr, tok]
  simp only [yields_seq, yields_map, yields_span, yields_tok]
  intro token hToken
  obtain ⟨quote, body, hText⟩ := hToken.2
  have hInner : inner 1 token.text = body := by
    rw [hText]
    exact inner_of_mark _ body [.char quote]
  refine h.literal rfl _ token hToken.1 rfl rfl rfl ⟨trivial, trivial, ⟨quote, ?_⟩, rfl⟩
  rw [hInner, hText]

theorem each_tplRest : Yields (Known Good T) s tplRest (Category.Each Good .tplRest) := by
  refine yields_plainList (yields_cat.mpr fun _ hRest => hRest.1) ?_
  dsimp only [tok, cat]
  simp only [yields_seq, yields_map, yields_tok, yields_cat]
  intro token _ e hExpr
  exact IfBuilt.bind hExpr.1 fun e he => List.forall_mem_singleton.mpr he

theorem each_tplLit (h : Closed .tplLit s T Good) :
    Yields (Known Good T) s tplLit (Category.Each Good .tplLit) := by
  dsimp only [tplLit, tok, cat]
  simp only [yields_orElse, yields_seq, yields_map, yields_span, yields_tok, yields_cat]
  refine ⟨fun token hToken => ?_, fun head hHead first hFirst => ?_⟩
  · refine h.phrase rfl _ rfl rfl ⟨trivial, List.forall_mem_nil _, ⟨rfl, ?_, ?_⟩, rfl⟩ ?_
    · exact chunkText_inner hToken.2
    · exact List.forall_mem_nil _
    · exact List.forall_mem_nil _
  · refine Yields.opt (yields_cat.mpr fun _ hRest => IfBuilt.both hRest) fun rest hRest => ?_
    intro tail hTail
    have hRest : IfBuilt (fun ps => ∀ p ∈ ps, Good (.expr p.2) ∧ p.2.isExpr = true ∧ ChunkText p.1)
        (orEmpty rest) := by
      refine IfBuilt.orEmpty fun v hv => ?_
      cases v with
      | error e => trivial
      | ok ps => exact fun p hp => ⟨(hRest _ hv).1 p hp, (hRest _ hv).2 p hp⟩
    refine IfBuilt.bind (IfBuilt.both hFirst) fun e he => hRest.bind fun ps hps => ?_
    refine h.phrase rfl _ rfl rfl ⟨trivial, ?_, ⟨?_, ?_, ?_⟩, rfl⟩ ?_
    · refine List.forall_mem_cons.mpr ⟨Expr.isExpr_of_level he.2, ?_⟩
      exact List.forall_mem_map.mpr fun p hp => (hps p hp).2.1
    · simp only [List.length_append, List.length_map, List.length_cons, List.length_nil]
    · exact chunkText_inner hHead.2
    · refine List.forall_mem_append.mpr ⟨?_, List.forall_mem_singleton.mpr (chunkText_inner hTail.2)⟩
      exact List.forall_mem_map.mpr fun p hp => (hps p hp).2.2
    · refine List.forall_mem_cons.mpr ⟨he.1, ?_⟩
      rw [List.map_map]
      exact List.forall_mem_map.mpr fun p hp => (hps p hp).1

-- ---------------------------------------------------------------------------------------------
-- Functions and classes
-- ---------------------------------------------------------------------------------------------

section Functions

variable (h : Closed c s T Good) (hBegins : beginsWithCode c = true)
include h hBegins

theorem each_makeFunction {params : Build (List Pat)} {body : Build Block}
    (hParams : Known Good T (.cat .params) params) (hBody : Known Good T (.cat .blockStmt) body)
    (isAsync isGenerator : Bool) :
    IfBuilt (fun f => Good (.function f)) (makeFunction s isAsync isGenerator params body) := by
  refine IfBuilt.bind (IfBuilt.both hParams) fun ps hps => IfBuilt.bind hBody.1 fun b hb => ?_
  refine h.phrase hBegins _ rfl rfl ⟨trivial, hps.2, trivial, rfl⟩ ?_
  exact List.forall_mem_append.mpr
    ⟨List.forall_mem_map.mpr hps.1, List.forall_mem_singleton.mpr hb⟩

theorem each_makeClass {superClass : Option (Build Expr)} {body : Build (List ClassMember)}
    (hSuper : ∀ v ∈ superClass, Known Good T (.cat .classHeritage) v)
    (hBody : Known Good T (.cat .classBody) body) :
    IfBuilt (fun c => Good (.cls c)) (makeClass s superClass body) := by
  have hSuper : IfBuilt (fun o => ∀ e ∈ o, Good (.expr e) ∧ lhsLevel ≤ e.level)
      (optional superClass) :=
    IfBuilt.optional fun v hv => IfBuilt.both (hSuper v hv)
  refine hSuper.bind fun o ho => IfBuilt.bind hBody.1 fun ms hms => ?_
  refine h.phrase hBegins _ rfl rfl ⟨?_, ?_, trivial, rfl⟩ ?_
  · cases o with
    | none => trivial
    | some e => exact (ho e rfl).2
  · exact all_isExpr fun e he => Nat.lt_of_lt_of_le (by decide : 0 < lhsLevel) (ho e he).2
  · exact List.forall_mem_append.mpr
      ⟨forall_optional fun e he => (ho e he).1, List.forall_mem_map.mpr hms⟩

theorem each_makeMethod (kind : MethodKind) (hKind : kind ≠ .constructor)
    (isAsync isGenerator : Bool)
    {key : Build PropName} {params : Build (List Pat)} {body : Build Block}
    (hKey : Known Good T (.cat .propName) key) (hParams : Known Good T (.cat .params) params)
    (hBody : Known Good T (.cat .blockStmt) body) :
    Category.Each Good .methodLike (makeMethod s kind isAsync isGenerator key params body) := by
  refine IfBuilt.bind hKey.1 fun k hk =>
    (each_makeFunction h hBegins hParams hBody isAsync isGenerator).bind fun f hf => ?_
  refine ⟨hk, hf, h.phrase hBegins _ rfl rfl ⟨trivial, trivial, hKind, rfl⟩ ?_⟩
  exact List.forall_mem_cons.mpr ⟨hk, List.forall_mem_singleton.mpr hf⟩

end Functions

theorem each_fnDecl (h : Closed .fnDecl s T Good) :
    Yields (Known Good T) s fnDecl (Category.Each Good .fnDecl) := by
  dsimp only [fnDecl, tok, cat]
  simp only [yields_seqLeft, yields_seq, yields_map, yields_span, yields_tok, yields_cat]
  refine yields_flag fun _ _ _ => yields_flag fun _ i hIdent params hParams body hBody => ?_
  refine (each_makeFunction h rfl hParams hBody _ _).bind fun f hf => ?_
  refine h.phrase rfl _ rfl rfl ⟨trivial, trivial, trivial, rfl⟩ ?_
  exact List.forall_mem_cons.mpr ⟨hIdent.1, List.forall_mem_singleton.mpr hf⟩

theorem each_fnExpr (h : Closed .fnExpr s T Good) :
    Yields (Known Good T) s fnExpr (Category.Each Good .fnExpr) := by
  dsimp only [fnExpr, tok, cat]
  simp only [yields_seqLeft, yields_seq, yields_map, yields_span, yields_tok, yields_cat]
  refine yields_flag fun _ _ _ => yields_flag fun _ => ?_
  refine Yields.opt (yields_cat.mpr fun _ hIdent => hIdent.1) fun i hi params hParams body hBody => ?_
  refine (each_makeFunction h rfl hParams hBody _ _).bind fun f hf => ?_
  refine h.phrase rfl _ rfl rfl ⟨trivial, trivial, trivial, rfl⟩ ?_
  exact List.forall_mem_append.mpr ⟨forall_optional hi, List.forall_mem_singleton.mpr hf⟩

theorem each_classDecl (h : Closed .classDecl s T Good) :
    Yields (Known Good T) s classDecl (Category.Each Good .classDecl) := by
  dsimp only [classDecl, tok, cat]
  simp only [yields_seqLeft, yields_seq, yields_map, yields_span, yields_tok, yields_cat]
  intro _ _ i hIdent
  refine Yields.opt (yields_cat.mpr fun _ => id) fun superClass hSuper body hBody => ?_
  refine (each_makeClass h rfl hSuper hBody).bind fun c hc => ?_
  refine h.phrase rfl _ rfl rfl ⟨trivial, trivial, trivial, rfl⟩ ?_
  exact List.forall_mem_cons.mpr ⟨hIdent.1, List.forall_mem_singleton.mpr hc⟩

theorem each_classExpr (h : Closed .classExpr s T Good) :
    Yields (Known Good T) s classExpr (Category.Each Good .classExpr) := by
  dsimp only [classExpr, tok, cat]
  simp only [yields_seqLeft, yields_seq, yields_map, yields_span, yields_tok, yields_cat]
  intro _ _
  refine Yields.opt (yields_cat.mpr fun _ hIdent => hIdent.1) fun i hi => ?_
  refine Yields.opt (yields_cat.mpr fun _ => id) fun superClass hSuper body hBody => ?_
  refine (each_makeClass h rfl hSuper hBody).bind fun c hc => ?_
  refine h.phrase rfl _ rfl rfl ⟨trivial, trivial, trivial, rfl⟩ ?_
  exact List.forall_mem_append.mpr ⟨forall_optional hi, List.forall_mem_singleton.mpr hc⟩

theorem each_arrowFn (h : Closed .arrowFn s T Good) :
    Yields (Known Good T) s arrowFn (Category.Each Good .arrowFn) := by
  have hBody : Yields (Known Good T) s arrowBody (IfBuilt fun b => Good (.arrowBody b)) := by
    dsimp only [arrowBody, cat]
    simp only [yields_orElse, yields_map, yields_cat]
    refine ⟨fun b hb => IfBuilt.map hb.1 fun b hb => ?_,
      fun e he => IfBuilt.map (IfBuilt.both he) fun e he => ?_⟩
    · exact h.wrapper _ _ rfl rfl rfl ⟨trivial, trivial, trivial, rfl⟩ hb
    · exact h.wrapper _ _ rfl rfl rfl ⟨trivial, Expr.isExpr_of_level he.2, trivial, rfl⟩ he.1
  dsimp only [arrowFn, tok, cat]
  simp only [yields_seqLeft, yields_seq, yields_map, yields_span, yields_tok, yields_cat]
  refine yields_flag fun _ params hParams _ _ => hBody.imp fun b hb => ?_
  refine IfBuilt.bind (IfBuilt.both hParams) fun ps hps => IfBuilt.bind hb fun b hb => ?_
  refine h.phrase rfl _ rfl rfl ⟨trivial, hps.2, trivial, rfl⟩ ?_
  exact List.forall_mem_append.mpr
    ⟨List.forall_mem_map.mpr hps.1, List.forall_mem_singleton.mpr hb⟩

theorem each_methodDef (h : Closed .methodDef s T Good) :
    Yields (Known Good T) s methodDef (Category.Each Good .methodDef) := by
  dsimp only [methodDef, tok, cat]
  simp only [yields_seq, yields_map, yields_span, yields_cat]
  refine yields_flag fun _ => yields_flag fun _ key hKey params hParams body hBody => ?_
  exact each_makeMethod h rfl .method (by decide) _ _ hKey hParams hBody

theorem each_getterDef (h : Closed .getterDef s T Good) :
    Yields (Known Good T) s getterDef (Category.Each Good .getterDef) := by
  dsimp only [getterDef, tok, cat]
  simp only [yields_seqLeft, yields_seq, yields_map, yields_span, yields_tok, yields_cat]
  intro _ _ key hKey _ _ _ _ body hBody
  have hNone : Known Good T (.cat .params) (.ok []) :=
    ⟨List.forall_mem_nil _, List.forall_mem_nil _⟩
  exact each_makeMethod h rfl .get (by decide) _ _ hKey hNone hBody

theorem each_setterDef (h : Closed .setterDef s T Good) :
    Yields (Known Good T) s setterDef (Category.Each Good .setterDef) := by
  dsimp only [setterDef, tok, cat]
  simp only [yields_seqLeft, yields_seq, yields_map, yields_span, yields_tok, yields_cat]
  intro _ _ key hKey params hParams body hBody
  exact each_makeMethod h rfl .set (by decide) _ _ hKey hParams hBody

/-- A plain method is the constructor of its class exactly when it is called so and not static. -/
theorem memberKind_eq_constructor_iff {isStatic : Bool} {m : MethodParts}
    (hKind : m.kind ≠ .constructor) :
    memberKind isStatic m = .constructor ↔
      isStatic = false ∧ memberKind isStatic m ≠ .get ∧ memberKind isStatic m ≠ .set ∧
        ∃ i : Ident, m.key = .ident i ∧ i.sym = Text.ofString "constructor" := by
  obtain ⟨key, function, kind, span⟩ := m
  cases kind with
  | constructor => exact absurd rfl hKind
  | get => simp [memberKind]
  | set => simp [memberKind]
  | method =>
    cases key with
    | ident i =>
      by_cases hName : !isStatic && i.sym = Text.ofString "constructor"
      · simp_all [memberKind]
      · simp_all [memberKind]
    | str l => simp [memberKind]
    | num l => simp [memberKind]
    | computed e s => simp [memberKind]
    | invalid s => simp [memberKind]

theorem each_classMethod (h : Closed .classMethod s T Good) :
    Yields (Known Good T) s classMethod (Category.Each Good .classMethod) := by
  dsimp only [classMethod, tok, cat]
  simp only [yields_seq, yields_map, yields_span, yields_cat]
  refine yields_flag fun isStatic m hMethod => IfBuilt.bind (IfBuilt.both hMethod) fun m hm => ?_
  refine h.phrase rfl _ rfl rfl ⟨trivial, trivial, memberKind_eq_constructor_iff hm.2, rfl⟩ ?_
  exact List.forall_mem_cons.mpr ⟨hm.1.1, List.forall_mem_singleton.mpr hm.1.2.1⟩

theorem each_classProp (h : Closed .classProp s T Good) :
    Yields (Known Good T) s classProp (Category.Each Good .classProp) := by
  dsimp only [classProp, tok, cat]
  simp only [yields_seqLeft, yields_seq, yields_map, yields_span, yields_cat]
  refine yields_flag fun _ key hKey => ?_
  refine Yields.opt (yields_seqRight.mpr (yields_tok.mpr fun _ _ => yields_cat.mpr fun _ hValue =>
    IfBuilt.both hValue)) fun v hv _ _ => ?_
  refine (IfBuilt.optional hv).bind fun v hv => IfBuilt.bind hKey.1 fun k hk => ?_
  refine h.phrase rfl _ rfl rfl ⟨trivial, all_isExpr fun e he => (hv e he).2, trivial, rfl⟩ ?_
  exact List.forall_mem_cons.mpr ⟨hk, forall_optional fun e he => (hv e he).1⟩

-- ---------------------------------------------------------------------------------------------
-- Expressions
-- ---------------------------------------------------------------------------------------------

theorem each_assign (h : Closed .assign s T Good) :
    Yields (Known Good T) s assign (Category.Each Good .assign) := by
  dsimp only [assign, cat]
  simp only [yields_orElse, yields_seq, yields_map, yields_span, yields_cat]
  refine ⟨fun _ hCond => hCond.1, fun _ hArrow => hArrow.1, fun left hLeft op _ right hRight => ?_⟩
  refine IfBuilt.bind (IfBuilt.both hLeft) fun l hl =>
    IfBuilt.bind (IfBuilt.both hRight) fun r hr => ?_
  have hTarget : Good (.target (.expr l)) :=
    h.wrapper _ _ rfl rfl rfl ⟨trivial, Expr.isExpr_of_lhs hl.2, trivial, rfl⟩ hl.1
  refine h.phrase rfl _ rfl rfl ⟨⟨l, rfl, hl.2⟩, Expr.isExpr_of_level hr.2, trivial, rfl⟩ ?_
  exact List.forall_mem_cons.mpr ⟨hTarget, List.forall_mem_singleton.mpr hr.1⟩

/-- What may be accessed, called or tagged: an instantiation without arguments may not. -/
def Accessible (Good : Node → Prop) (e : Expr) : Prop :=
  Good (.expr e) ∧ lhsLevel ≤ e.level ∧ e.isNewBare = false

theorem each_accesses (h : Closed c s T Good) (hBegins : beginsWithCode c = true)
    {obj : R (Build Expr)} (hObj : Yields (Known Good T) s obj (IfBuilt (Accessible Good))) :
    Yields (Known Good T) s (accesses obj) (IfBuilt fun e => Good (.expr e)) := by
  dsimp only [accesses, tok, cat]
  simp only [yields_orElse, yields_seqLeft, yields_seq, yields_map, yields_span, yields_tok,
    yields_cat]
  refine ⟨hObj.imp fun o ho _ _ i hIdent => ?_, hObj.imp fun o ho _ _ key hKey _ _ => ?_,
    hObj.imp fun o ho t hTemplate => ?_⟩
  · refine ho.bind fun o ho => ?_
    have hMember : Good (.memberKey (.ident i)) :=
      h.wrapper _ _ rfl rfl rfl ⟨trivial, trivial, trivial, rfl⟩ hIdent.1
    refine h.phrase hBegins _ rfl rfl ⟨ho.2, Expr.isExpr_of_lhs ho.2.1, trivial, rfl⟩ ?_
    exact List.forall_mem_cons.mpr ⟨ho.1, List.forall_mem_singleton.mpr hMember⟩
  · refine IfBuilt.bind (IfBuilt.both hKey) fun k hk => ho.bind fun o ho => ?_
    have hMember : Good (.memberKey (.computed k k.span)) :=
      h.wrapper _ _ rfl rfl rfl ⟨trivial, Expr.isExpr_of_level hk.2, trivial, rfl⟩ hk.1
    refine h.phrase hBegins _ rfl rfl ⟨ho.2, Expr.isExpr_of_lhs ho.2.1, trivial, rfl⟩ ?_
    exact List.forall_mem_cons.mpr ⟨ho.1, List.forall_mem_singleton.mpr hMember⟩
  · refine ho.bind fun o ho => IfBuilt.bind hTemplate.1 fun t ht => ?_
    refine h.phrase hBegins _ rfl rfl ⟨ho.2, Expr.isExpr_of_lhs ho.2.1, trivial, rfl⟩ ?_
    exact List.forall_mem_cons.mpr ⟨ho.1, List.forall_mem_singleton.mpr ht⟩

theorem accessible_member {v : Build Expr} (hv : Known Good T (.cat .member) v) :
    IfBuilt (Accessible Good) v := by
  cases v with
  | error e => trivial
  | ok e => exact ⟨hv.1, hv.2.1, hv.2.2.2⟩

theorem accessible_call {v : Build Expr} (hv : Known Good T (.cat .call) v) :
    IfBuilt (Accessible Good) v := by
  cases v with
  | error e => trivial
  | ok e => exact hv

theorem each_member (h : Closed .member s T Good) :
    Yields (Known Good T) s member (Category.Each Good .member) := by
  refine yields_orElse.mpr ⟨yields_cat.mpr fun _ hPrimary => hPrimary.1, yields_orElse.mpr
    ⟨each_accesses h rfl (yields_cat.mpr fun _ => accessible_member), ?_⟩⟩
  dsimp only [tok, cat]
  simp only [yields_seqLeft, yields_seq, yields_map, yields_span, yields_tok, yields_cat]
  intro _ _ callee hCallee args hArgs
  refine IfBuilt.bind (IfBuilt.both hCallee) fun e he =>
    IfBuilt.bind (IfBuilt.both hArgs) fun es hes => ?_
  refine h.phrase rfl _ rfl rfl
    ⟨he.2.2.1, ⟨Expr.isExpr_of_lhs he.2.1, hes.2⟩, trivial, rfl⟩ ?_
  exact List.forall_mem_cons.mpr ⟨he.1, List.forall_mem_map.mpr hes.1⟩

theorem each_makeCall (h : Closed c s T Good) (hBegins : beginsWithCode c = true)
    {callee : Build Expr} {args : Build (List Expr)} (hCallee : IfBuilt (Accessible Good) callee)
    (hArgs : Known Good T (.cat .arguments) args) :
    IfBuilt (fun e => Good (.expr e)) (makeCall s callee args) := by
  refine hCallee.bind fun e he => IfBuilt.bind (IfBuilt.both hArgs) fun es hes => ?_
  refine h.phrase hBegins _ rfl rfl
    ⟨he.2, ⟨Expr.isExpr_of_lhs he.2.1, hes.2⟩, trivial, rfl⟩ ?_
  exact List.forall_mem_cons.mpr ⟨he.1, List.forall_mem_map.mpr hes.1⟩

theorem each_call (h : Closed .call s T Good) :
    Yields (Known Good T) s call (Category.Each Good .call) := by
  have hImport : Good (.expr (.importExpr s)) :=
    h.phrase rfl _ rfl rfl ⟨trivial, trivial, trivial, rfl⟩ (List.forall_mem_nil _)
  refine yields_orElse.mpr ⟨?_, yields_orElse.mpr ⟨?_, yields_orElse.mpr
    ⟨?_, each_accesses h rfl (yields_cat.mpr fun _ => accessible_call)⟩⟩⟩
  all_goals
    dsimp only [tok, cat]
    simp only [yields_seqLeft, yields_seq, yields_map, yields_span, yields_tok, yields_cat]
  · exact fun _ hCallee _ hArgs => each_makeCall h rfl (accessible_member hCallee) hArgs
  · exact fun _ _ _ hArgs => each_makeCall h rfl ⟨hImport, Nat.le_refl _, rfl⟩ hArgs
  · exact fun _ hCallee _ hArgs => each_makeCall h rfl (accessible_call hCallee) hArgs

theorem each_level (h : Closed c s T Good) (hBegins : beginsWithCode c = true) {k : Nat}
    {this next : R (Build Expr)} {ops : List Terminal}
    (hOps : ∀ t ∈ ops, t.isBinary = true ∧ binaryLevel t = k + 1)
    (hThis : Yields (Known Good T) s this fun v =>
      IfBuilt (fun e => Good (.expr e)) v ∧ AtLeast (k + 1) v)
    (hNext : Yields (Known Good T) s next fun v =>
      IfBuilt (fun e => Good (.expr e)) v ∧ AtLeast (k + 2) v) :
    Yields (Known Good T) s (level this ops next) (IfBuilt fun e => Good (.expr e)) := by
  unfold level
  simp only [yields_orElse, yields_seq, yields_map, yields_span, yields_oneOf]
  refine ⟨hNext.imp fun v hv => hv.1, hThis.imp fun l hl t ht op hOp => hNext.imp fun r hr => ?_⟩
  refine IfBuilt.bind (IfBuilt.both hl) fun l hl => IfBuilt.bind (IfBuilt.both hr) fun r hr => ?_
  have hLevel : operatorLevel? op.text = some (k + 1) := by
    rw [operatorLevel_of_admits (hOps t ht).1 hOp.2, (hOps t ht).2]
  refine h.phrase hBegins _ rfl rfl ⟨⟨k + 1, hLevel, hl.2, hr.2⟩,
    ⟨Expr.isExpr_of_level hl.2, Expr.isExpr_of_level hr.2⟩, trivial, rfl⟩ ?_
  exact List.forall_mem_cons.mpr ⟨hl.1, List.forall_mem_singleton.mpr hr.1⟩

theorem each_parenExpr (h : Closed .parenExpr s T Good) :
    Yields (Known Good T) s parenExpr (Category.Each Good .parenExpr) := by
  dsimp only [parenExpr, tok, cat]
  simp only [yields_seqLeft, yields_seq, yields_map, yields_span, yields_tok, yields_cat]
  intro _ _ e hExpr _ _
  exact each_ofExpr hExpr fun e he hIs =>
    h.phrase rfl _ rfl rfl ⟨trivial, hIs, trivial, rfl⟩ (List.forall_mem_singleton.mpr he)

theorem each_objectLit (h : Closed .objectLit s T Good) :
    Yields (Known Good T) s objectLit (Category.Each Good .objectLit) := by
  unfold objectLit
  simp only [yields_seq, yields_map, yields_span]
  refine (yields_bracketed (each_cat .props)).imp fun ps hps => IfBuilt.bind hps fun ps hps => ?_
  refine h.phrase rfl _ rfl rfl ⟨trivial, trivial, trivial, rfl⟩ ?_
  exact List.forall_mem_map.mpr hps

theorem each_arrayLit (h : Closed .arrayLit s T Good) :
    Yields (Known Good T) s arrayLit (Category.Each Good .arrayLit) := by
  have hArgs : Yields (Known Good T) s (cat .args)
      (IfBuilt fun es => ∀ e ∈ es, Good (.expr e) ∧ e.isArgument = true) :=
    yields_cat.mpr fun _ hArgs => (IfBuilt.both hArgs).imp fun _ h e he => ⟨h.1 e he, h.2 e he⟩
  unfold arrayLit
  simp only [yields_seq, yields_map, yields_span]
  refine (yields_bracketed hArgs).imp fun es hes => IfBuilt.bind hes fun es hes => ?_
  refine h.phrase rfl _ rfl rfl ⟨trivial, fun e he => .inl (hes e he).2, trivial, rfl⟩ ?_
  exact List.forall_mem_map.mpr fun e he => (hes e he).1

/-- A word that stands for itself. -/
theorem each_word {t : Terminal} {f : Span → Expr} (h : Good (.expr (f s))) :
    Yields (Known Good T) s ((fun s => .ok (f s)) <$> Rule.span <* tok t)
      (IfBuilt fun e => Good (.expr e)) :=
  yields_seqLeft.mpr (yields_map.mpr (yields_span.mpr (yields_tok.mpr fun _ _ => h)))

theorem each_primary (h : Closed .primary s T Good) :
    Yields (Known Good T) s primary (Category.Each Good .primary) := by
  have hJsx : Wraps Node.jsx Node.expr Expr.jsx :=
    ⟨fun _ => rfl, fun _ => rfl, fun _ => rfl, fun _ => ⟨trivial, trivial, trivial, rfl⟩⟩
  have hRegex : Yields (Known Good T) s
      ((fun s t => .ok (makeRegex s t)) <$> Rule.span <*> tok .regex)
      (IfBuilt fun e => Good (.expr e)) := by
    dsimp only [tok]
    simp only [yields_seq, yields_map, yields_span, yields_tok]
    intro _ _
    exact h.phrase rfl _ rfl rfl ⟨trivial, trivial, trivial, rfl⟩ (List.forall_mem_nil _)
  unfold primary
  simp only [yields_orElse]
  refine ⟨each_named h (each_cat .ident) ?_, each_wrapped h (each_cat .strLit) ?_,
    each_wrapped h (each_cat .numLit) ?_, each_wrapped h (each_cat .tplLit) ?_, hRegex,
    each_word ?_, each_word ?_, each_word ?_, each_word ?_, each_word ?_, each_cat .arrayLit,
    each_cat .objectLit, each_cat .fnExpr, each_cat .classExpr, each_cat .parenExpr,
    each_wrapped h (each_cat .jsxElement) hJsx, each_wrapped h (each_cat .jsxFragment) hJsx⟩
  -- a name, the three sorts of literals, and the five words
  iterate 4
    exact ⟨fun _ => rfl, fun _ => rfl, fun _ => rfl, fun _ => ⟨trivial, trivial, trivial, rfl⟩⟩
  iterate 5
    exact h.phrase rfl _ rfl rfl ⟨trivial, trivial, trivial, rfl⟩ (List.forall_mem_nil _)

theorem each_newOnly (h : Closed .newOnly s T Good) :
    Yields (Known Good T) s newOnly (Category.Each Good .newOnly) := by
  dsimp only [newOnly, tok, cat]
  simp only [yields_orElse, yields_seqLeft, yields_seq, yields_map, yields_span, yields_tok,
    yields_cat]
  refine ⟨fun _ hMember => hMember.1, fun _ _ e hCallee => ?_⟩
  refine IfBuilt.bind (IfBuilt.both hCallee) fun e he => ?_
  refine h.phrase rfl _ rfl rfl ⟨he.2.2, Expr.isExpr_of_lhs he.2.1, trivial, rfl⟩ ?_
  exact List.forall_mem_singleton.mpr he.1

theorem each_unary (h : Closed .unary s T Good) :
    Yields (Known Good T) s unary (Category.Each Good .unary) := by
  dsimp only [unary, tok, cat]
  simp only [yields_orElse, yields_seqLeft, yields_seq, yields_map, yields_span, yields_tok,
    yields_cat, yields_oneOf]
  refine ⟨fun _ hLhs => hLhs.1, fun _ _ _ _ e hOperand => ?_, fun _ _ e hOperand => ?_⟩
  · refine IfBuilt.bind (IfBuilt.both hOperand) fun e he => ?_
    refine h.phrase rfl _ rfl rfl ⟨he.2, Expr.isExpr_of_level he.2, trivial, rfl⟩ ?_
    exact List.forall_mem_singleton.mpr he.1
  · refine IfBuilt.bind (IfBuilt.both hOperand) fun e he => ?_
    refine h.phrase rfl _ rfl rfl ⟨he.2, Expr.isExpr_of_level he.2, trivial, rfl⟩ ?_
    exact List.forall_mem_singleton.mpr he.1

theorem each_cond (h : Closed .cond s T Good) :
    Yields (Known Good T) s cond (Category.Each Good .cond) := by
  dsimp only [cond, tok, cat]
  simp only [yields_orElse, yields_seqLeft, yields_seq, yields_map, yields_span, yields_tok,
    yields_cat]
  refine ⟨fun _ hOr => hOr.1, fun test hTest _ _ cons hCons _ _ alt hAlt => ?_⟩
  refine IfBuilt.bind (IfBuilt.both hTest) fun t ht => IfBuilt.bind (IfBuilt.both hCons) fun c hc =>
    IfBuilt.bind (IfBuilt.both hAlt) fun a ha => ?_
  refine h.phrase rfl _ rfl rfl ⟨Expr.isLoose_of_level ht.2, ⟨Expr.isExpr_of_level ht.2,
    Expr.isExpr_of_level hc.2, Expr.isExpr_of_level ha.2⟩, trivial, rfl⟩ ?_
  exact List.forall_mem_cons.mpr ⟨ht.1, List.forall_mem_cons.mpr
    ⟨hc.1, List.forall_mem_singleton.mpr ha.1⟩⟩

theorem each_spread (h : Closed .spread s T Good) :
    Yields (Known Good T) s spread (Category.Each Good .spread) := by
  dsimp only [spread, tok, cat]
  simp only [yields_seqLeft, yields_seq, yields_map, yields_span, yields_tok, yields_cat]
  intro _ _ e hExpr
  refine IfBuilt.bind (IfBuilt.both hExpr) fun e he => ?_
  have hIs : e.isExpr = true := Expr.isExpr_of_level he.2
  refine ⟨he.1, h.phrase rfl _ rfl rfl ⟨trivial, hIs, trivial, rfl⟩ ?_,
    h.phrase rfl _ rfl rfl ⟨trivial, hIs, trivial, rfl⟩ ?_⟩
  · exact List.forall_mem_singleton.mpr he.1
  · exact List.forall_mem_singleton.mpr he.1

theorem each_arg : Yields (Known Good T) s arg (Category.Each Good .arg) :=
  yields_orElse.mpr ⟨each_cat .assign, yields_map.mpr ((each_cat .spread).imp fun _ hSpread =>
    IfBuilt.map hSpread fun _ h => h.2.1)⟩

-- ---------------------------------------------------------------------------------------------
-- Statements and patterns
-- ---------------------------------------------------------------------------------------------

theorem each_exprStmt (h : Closed .exprStmt s T Good) :
    Yields (Known Good T) s exprStmt (Category.Each Good .exprStmt) := by
  dsimp only [exprStmt, cat]
  simp only [yields_seqLeft, yields_seq, yields_map, yields_span, yields_cat]
  intro e hExpr _ _
  exact each_ofExpr hExpr fun e he hIs =>
    h.phrase rfl _ rfl rfl ⟨trivial, hIs, trivial, rfl⟩ (List.forall_mem_singleton.mpr he)

theorem each_throwStmt (h : Closed .throwStmt s T Good) :
    Yields (Known Good T) s throwStmt (Category.Each Good .throwStmt) := by
  dsimp only [throwStmt, tok, cat]
  simp only [yields_seqLeft, yields_seq, yields_map, yields_span, yields_tok, yields_cat]
  intro _ _ e hExpr _ _
  exact each_ofExpr hExpr fun e he hIs =>
    h.phrase rfl _ rfl rfl ⟨trivial, hIs, trivial, rfl⟩ (List.forall_mem_singleton.mpr he)

theorem each_returnStmt (h : Closed .returnStmt s T Good) :
    Yields (Known Good T) s returnStmt (Category.Each Good .returnStmt) := by
  dsimp only [returnStmt, tok, cat]
  simp only [yields_seqLeft, yields_seq, yields_map, yields_span, yields_tok, yields_cat]
  intro _ _
  refine Yields.opt (yields_cat.mpr fun _ hValue => IfBuilt.both hValue) fun e hExpr _ _ => ?_
  refine (IfBuilt.optional hExpr).bind fun e he => ?_
  refine h.phrase rfl _ rfl rfl
    ⟨trivial, all_isExpr fun e' he' => (he e' he').2, trivial, rfl⟩ ?_
  exact forall_optional fun e' he' => (he e' he').1

theorem each_emptyStmt (h : Closed .emptyStmt s T Good) :
    Yields (Known Good T) s emptyStmt (Category.Each Good .emptyStmt) := by
  dsimp only [emptyStmt, tok]
  simp only [yields_seqLeft, yields_map, yields_span, yields_tok]
  intro _ _
  exact h.phrase rfl _ rfl rfl ⟨trivial, trivial, trivial, rfl⟩ (List.forall_mem_nil _)

theorem each_whileStmt (h : Closed .whileStmt s T Good) :
    Yields (Known Good T) s whileStmt (Category.Each Good .whileStmt) := by
  dsimp only [whileStmt, tok, cat]
  simp only [yields_seqLeft, yields_seq, yields_map, yields_span, yields_tok, yields_cat]
  intro _ _ _ _ test hTest _ _ body hBody
  refine IfBuilt.bind (IfBuilt.both hTest) fun t ht => IfBuilt.bind hBody.1 fun b hb => ?_
  refine h.phrase rfl _ rfl rfl ⟨trivial, Expr.isExpr_of_level ht.2, trivial, rfl⟩ ?_
  exact List.forall_mem_cons.mpr ⟨ht.1, List.forall_mem_singleton.mpr hb⟩

theorem each_varDeclarator (h : Closed .varDeclarator s T Good) :
    Yields (Known Good T) s varDeclarator (Category.Each Good .varDeclarator) := by
  dsimp only [varDeclarator, tok, cat]
  simp only [yields_seq, yields_map, yields_span, yields_cat]
  intro name hName
  refine Yields.opt (yields_seqRight.mpr (yields_tok.mpr fun _ _ => yields_cat.mpr fun _ hInit =>
    IfBuilt.both hInit)) fun init hInit => ?_
  refine (IfBuilt.optional hInit).bind fun init hInit =>
    IfBuilt.bind (IfBuilt.both hName) fun p hp => ?_
  refine h.phrase rfl _ rfl rfl
    ⟨trivial, ⟨hp.2, all_isExpr fun e he => (hInit e he).2⟩, trivial, rfl⟩ ?_
  exact List.forall_mem_cons.mpr ⟨hp.1, forall_optional fun e he => (hInit e he).1⟩

theorem each_varDecl (h : Closed .varDecl s T Good) :
    Yields (Known Good T) s varDecl (Category.Each Good .varDecl) := by
  dsimp only [varDecl, cat]
  simp only [yields_seqLeft, yields_seq, yields_map, yields_span, yields_cat]
  intro _ _ ds hDeclarators _ _
  refine IfBuilt.bind hDeclarators.1 fun ds hds => ?_
  refine h.phrase rfl _ rfl rfl ⟨trivial, trivial, trivial, rfl⟩ ?_
  exact List.forall_mem_map.mpr hds

theorem each_blockStmt (h : Closed .blockStmt s T Good) :
    Yields (Known Good T) s blockStmt (Category.Each Good .blockStmt) := by
  dsimp only [blockStmt, tok]
  simp only [yields_seqLeft, yields_seq, yields_map, yields_span, yields_tok]
  intro _ _
  refine Yields.opt (each_cat .blockItems) fun ss hss _ _ => ?_
  refine (IfBuilt.orEmpty hss).bind fun ss hss => ?_
  refine h.phrase rfl _ rfl rfl ⟨trivial, trivial, trivial, rfl⟩ ?_
  exact List.forall_mem_map.mpr hss

theorem each_blockItem : Yields (Known Good T) s blockItem (Category.Each Good .blockItem) :=
  yields_orElse.mpr ⟨yields_map.mpr ((each_cat .stmt).imp fun _ => ifBuilt_single),
    yields_map.mpr (yields_tok.mpr fun _ _ => List.forall_mem_nil _)⟩

theorem each_stmt (h : Closed .stmt s T Good) :
    Yields (Known Good T) s stmt (Category.Each Good .stmt) := by
  have hBlock : Wraps Node.block Node.stmt Stmt.blockStmt :=
    ⟨fun _ => rfl, fun _ => rfl, fun _ => rfl, fun _ => ⟨trivial, trivial, trivial, rfl⟩⟩
  unfold stmt
  simp only [yields_orElse]
  exact ⟨each_wrapped h (each_cat .blockStmt) hBlock, each_cat .emptyStmt, each_cat .varDecl,
    each_cat .fnDecl, each_cat .classDecl, each_cat .returnStmt, each_cat .throwStmt,
    each_cat .ifStmt, each_cat .whileStmt, each_cat .exprStmt⟩

/-- The conditional statement of a phrase has any property that follows from what is known of its
parts. -/
theorem each_ifStmt {Q : Stmt → Prop}
    (hBranch : ∀ test cons alt, (Node.stmt (.ifStmt test cons alt s)).Regular →
      (∀ p ∈ (Node.stmt (.ifStmt test cons alt s)).parts, Good p) → Q (.ifStmt test cons alt s)) :
    Yields (Known Good T) s ifStmt (IfBuilt Q) := by
  dsimp only [ifStmt, tok, cat]
  simp only [yields_seqLeft, yields_seq, yields_map, yields_span, yields_tok, yields_cat]
  intro _ _ _ _ test hTest _ _ cons hCons
  refine Yields.opt (yields_seqRight.mpr (yields_tok.mpr fun _ _ => yields_cat.mpr fun _ hAlt =>
    hAlt.1)) fun alt hAlt => ?_
  refine (IfBuilt.optional hAlt).bind fun alt hAlt => ?_
  refine IfBuilt.bind (IfBuilt.both hTest) fun test hTest => IfBuilt.bind hCons.1 fun cons hCons => ?_
  refine hBranch test cons alt ⟨trivial, Expr.isExpr_of_level hTest.2, trivial, rfl⟩ ?_
  refine List.forall_mem_append.mpr ⟨?_, forall_optional hAlt⟩
  exact List.forall_mem_cons.mpr ⟨hTest.1, List.forall_mem_singleton.mpr hCons⟩

theorem each_pat (h : Closed .pat s T Good) :
    Yields (Known Good T) s pat (Category.Each Good .pat) := by
  have hIdent : Wraps Node.ident Node.pat Pat.ident :=
    ⟨fun _ => rfl, fun _ => rfl, fun _ => rfl, fun _ => ⟨trivial, trivial, trivial, rfl⟩⟩
  unfold pat
  simp only [yields_orElse]
  exact ⟨each_named h (each_cat .ident) hIdent, each_cat .objectPat, each_cat .arrayPat⟩

theorem each_objectPat (h : Closed .objectPat s T Good) :
    Yields (Known Good T) s objectPat (Category.Each Good .objectPat) := by
  unfold objectPat
  simp only [yields_seq, yields_map, yields_span]
  refine (yields_bracketed (each_cat .patProps)).imp fun ps hps => IfBuilt.bind hps fun ps hps => ?_
  refine h.phrase rfl _ rfl rfl ⟨trivial, trivial, trivial, rfl⟩ ?_
  exact List.forall_mem_map.mpr hps

theorem each_arrayPat (h : Closed .arrayPat s T Good) :
    Yields (Known Good T) s arrayPat (Category.Each Good .arrayPat) := by
  have hElems : Yields (Known Good T) s (cat .patElems)
      (IfBuilt fun ps => ∀ p ∈ ps, Good (.pat p) ∧ p.isPat = true) :=
    yields_cat.mpr fun _ hElems => (IfBuilt.both hElems).imp fun _ h p hp => ⟨h.1 p hp, h.2 p hp⟩
  unfold arrayPat
  simp only [yields_seq, yields_map, yields_span]
  refine (yields_bracketed hElems).imp fun ps hps => IfBuilt.bind hps fun ps hps => ?_
  refine h.phrase rfl _ rfl rfl ⟨trivial, fun p hp => .inl (hps p hp).2, trivial, rfl⟩ ?_
  exact List.forall_mem_map.mpr fun p hp => (hps p hp).1

theorem each_assignPat (h : Closed .assignPat s T Good) :
    Yields (Known Good T) s assignPat (Category.Each Good .assignPat) := by
  dsimp only [assignPat, tok, cat]
  simp only [yields_seqLeft, yields_seq, yields_map, yields_span, yields_tok, yields_cat]
  intro left hLeft _ _ right hRight
  refine IfBuilt.bind (IfBuilt.both hLeft) fun p hp =>
    IfBuilt.bind (IfBuilt.both hRight) fun e he => ?_
  refine h.phrase rfl _ rfl rfl ⟨trivial, ⟨hp.2, Expr.isExpr_of_level he.2⟩, trivial, rfl⟩ ?_
  exact List.forall_mem_cons.mpr ⟨hp.1, List.forall_mem_singleton.mpr he.1⟩

theorem each_restPat (h : Closed .restPat s T Good) :
    Yields (Known Good T) s restPat (Category.Each Good .restPat) := by
  dsimp only [restPat, tok, cat]
  simp only [yields_seqLeft, yields_seq, yields_map, yields_span, yields_tok, yields_cat]
  intro _ _ p hPat
  refine IfBuilt.bind (IfBuilt.both hPat) fun p hp => ?_
  refine h.phrase rfl _ rfl rfl ⟨trivial, hp.2, trivial, rfl⟩ ?_
  exact List.forall_mem_singleton.mpr hp.1

theorem each_assignPatProp (h : Closed .assignPatProp s T Good) :
    Yields (Known Good T) s assignPatProp (Category.Each Good .assignPatProp) := by
  dsimp only [assignPatProp, tok, cat]
  simp only [yields_seq, yields_map, yields_span, yields_cat]
  intro i hIdent
  refine Yields.opt (yields_seqRight.mpr (yields_tok.mpr fun _ _ => yields_cat.mpr fun _ hValue =>
    IfBuilt.both hValue)) fun v hValue => ?_
  refine (IfBuilt.optional hValue).bind fun v hv => ?_
  refine h.phrase rfl _ rfl rfl ⟨trivial, all_isExpr fun e he => (hv e he).2, trivial, rfl⟩ ?_
  exact List.forall_mem_cons.mpr ⟨hIdent.1, forall_optional fun e he => (hv e he).1⟩

theorem each_keyValuePatProp (h : Closed .keyValuePatProp s T Good) :
    Yields (Known Good T) s keyValuePatProp (Category.Each Good .keyValuePatProp) := by
  dsimp only [keyValuePatProp, tok, cat]
  simp only [yields_seqLeft, yields_seq, yields_map, yields_span, yields_tok, yields_cat]
  intro key hKey _ _ value hValue
  refine IfBuilt.bind hKey.1 fun k hk => IfBuilt.bind (IfBuilt.both hValue) fun p hp => ?_
  refine h.phrase rfl _ rfl rfl ⟨trivial, hp.2, trivial, rfl⟩ ?_
  exact List.forall_mem_cons.mpr ⟨hk, List.forall_mem_singleton.mpr hp.1⟩

theorem each_patProp (h : Closed .patProp s T Good) :
    Yields (Known Good T) s patProp (Category.Each Good .patProp) := by
  have hRest : Yields (Known Good T) s ((fun (p : Build Pat) => PatProp.pat <$> p) <$> cat .restPat)
      (IfBuilt fun p => Good (.patProp p)) := by
    refine yields_map.mpr (yields_cat.mpr fun _ hRest => IfBuilt.map (IfBuilt.both hRest) ?_)
    exact fun p hp => h.wrapper _ _ rfl rfl rfl ⟨trivial, hp.2, trivial, rfl⟩ hp.1
  exact yields_orElse.mpr
    ⟨each_cat .assignPatProp, yields_orElse.mpr ⟨each_cat .keyValuePatProp, hRest⟩⟩

-- ---------------------------------------------------------------------------------------------
-- Properties
-- ---------------------------------------------------------------------------------------------

theorem each_computedProp (h : Closed .computedProp s T Good) :
    Yields (Known Good T) s computedProp (Category.Each Good .computedProp) := by
  dsimp only [computedProp, tok, cat]
  simp only [yields_seqLeft, yields_seq, yields_map, yields_span, yields_tok, yields_cat]
  intro _ _ e hExpr _ _
  exact each_ofExpr hExpr fun e he hIs =>
    h.phrase rfl _ rfl rfl ⟨trivial, hIs, trivial, rfl⟩ (List.forall_mem_singleton.mpr he)

theorem each_propName (h : Closed .propName s T Good) :
    Yields (Known Good T) s propName (Category.Each Good .propName) := by
  unfold propName
  simp only [yields_orElse]
  refine ⟨each_named h (each_cat .propIdent) ?_, each_wrapped h (each_cat .strLit) ?_,
    each_wrapped h (each_cat .numLit) ?_, each_cat .computedProp⟩
  iterate 3
    exact ⟨fun _ => rfl, fun _ => rfl, fun _ => rfl, fun _ => ⟨trivial, trivial, trivial, rfl⟩⟩

theorem each_exportName (h : Closed .exportName s T Good) :
    Yields (Known Good T) s exportName (Category.Each Good .exportName) := by
  unfold exportName
  simp only [yields_orElse]
  refine ⟨each_named h (each_cat .propIdent) ?_, each_wrapped h (each_cat .strLit) ?_⟩
  iterate 2
    exact ⟨fun _ => rfl, fun _ => rfl, fun _ => rfl, fun _ => ⟨trivial, trivial, trivial, rfl⟩⟩

theorem each_keyValueProp (h : Closed .keyValueProp s T Good) :
    Yields (Known Good T) s keyValueProp (Category.Each Good .keyValueProp) := by
  dsimp only [keyValueProp, tok, cat]
  simp only [yields_seqLeft, yields_seq, yields_map, yields_span, yields_tok, yields_cat]
  intro key hKey _ _ value hValue
  refine IfBuilt.bind hKey.1 fun k hk => IfBuilt.bind (IfBuilt.both hValue) fun e he => ?_
  refine h.phrase rfl _ rfl rfl ⟨trivial, Expr.isExpr_of_level he.2, trivial, rfl⟩ ?_
  exact List.forall_mem_cons.mpr ⟨hk, List.forall_mem_singleton.mpr he.1⟩

theorem each_shorthandProp (h : Closed .shorthandProp s T Good) :
    Yields (Known Good T) s shorthandProp (Category.Each Good .shorthandProp) := by
  dsimp only [shorthandProp, cat]
  simp only [yields_seq, yields_map, yields_span, yields_cat]
  intro i hIdent
  refine h.phrase rfl _ rfl rfl ⟨trivial, trivial, trivial, rfl⟩ ?_
  exact List.forall_mem_singleton.mpr hIdent.1

/-- A method and a spread expression bring the property with them. -/
theorem each_prop : Yields (Known Good T) s prop (Category.Each Good .prop) := by
  unfold prop
  simp only [yields_orElse, yields_map]
  refine ⟨each_cat .keyValueProp, each_cat .shorthandProp, (each_cat .methodLike).imp fun _ h => ?_,
    (each_cat .spread).imp fun _ h => ?_⟩
  · exact IfBuilt.bind h fun _ hm => hm.2.2
  · exact IfBuilt.map h fun _ hp => hp.2.2

theorem each_classBody : Yields (Known Good T) s classBody (Category.Each Good .classBody) := by
  dsimp only [classBody, tok]
  simp only [yields_seqLeft, yields_seqRight, yields_map, yields_tok]
  intro _ _
  exact Yields.opt (each_cat .classItems) fun _ hItems _ _ => IfBuilt.orEmpty hItems

theorem each_classItem : Yields (Known Good T) s classItem (Category.Each Good .classItem) := by
  dsimp only [classItem, tok]
  simp only [yields_orElse, yields_map, yields_tok]
  exact ⟨(each_cat .classMethod).imp fun _ => ifBuilt_single,
    (each_cat .classProp).imp fun _ => ifBuilt_single,
    fun _ _ => List.forall_mem_nil _, fun _ _ => List.forall_mem_nil _⟩

theorem each_arrowParams (h : Closed .arrowParams s T Good) :
    Yields (Known Good T) s arrowParams (Category.Each Good .arrowParams) := by
  dsimp only [arrowParams, cat]
  simp only [yields_orElse, yields_map, yields_cat]
  refine ⟨fun i hIdent => List.forall_mem_singleton.mpr ?_, fun _ hParams => hParams.1⟩
  exact h.wrapper _ _ rfl rfl rfl ⟨trivial, trivial, trivial, rfl⟩ hIdent.1

-- ---------------------------------------------------------------------------------------------
-- Elements
-- ---------------------------------------------------------------------------------------------

theorem each_jsxName (h : Closed .jsxName s T Good) :
    Yields (Known Good T) s jsxName (Category.Each Good .jsxName) := by
  dsimp only [jsxName, tok, cat]
  simp only [yields_orElse, yields_seqLeft, yields_seq, yields_map, yields_span, yields_tok]
  refine ⟨fun _ _ => Yields.opt (yields_cat.mpr fun _ _ => trivial) fun _ _ => ?_,
    fun _ _ _ _ _ _ => ?_⟩
  · exact h.phrase rfl _ rfl rfl ⟨trivial, trivial, trivial, rfl⟩ (List.forall_mem_nil _)
  · exact h.phrase rfl _ rfl rfl ⟨trivial, trivial, trivial, rfl⟩ (List.forall_mem_nil _)

theorem each_makeTag {name : TagName} {attrs : Option (Build (List JsxAttr))}
    (hName : Good (.jsxName name.name))
    (hAttrs : ∀ v ∈ attrs, IfBuilt (fun as => ∀ a ∈ as, Good (.attr a)) v) :
    Category.Each Good .jsxOpening (makeTag name attrs) :=
  IfBuilt.bind (IfBuilt.orEmpty hAttrs) fun _ has => ⟨hName, has⟩

theorem each_jsxOpening : Yields (Known Good T) s jsxOpening (Category.Each Good .jsxOpening) := by
  dsimp only [jsxOpening, tok, cat]
  simp only [yields_seqLeft, yields_seqRight, yields_seq, yields_map, yields_tok, yields_cat]
  intro _ _ name hName
  refine Yields.opt (yields_cat.mpr fun _ hAttrs => hAttrs.1) fun attrs hAttrs _ _ => ?_
  exact each_makeTag hName.1 hAttrs

theorem each_jsxSelfClosing :
    Yields (Known Good T) s jsxSelfClosing (Category.Each Good .jsxSelfClosing) := by
  dsimp only [jsxSelfClosing, tok, cat]
  simp only [yields_seqLeft, yields_seqRight, yields_seq, yields_map, yields_tok, yields_cat]
  intro _ _ name hName
  refine Yields.opt (yields_cat.mpr fun _ hAttrs => hAttrs.1) fun attrs hAttrs _ _ _ _ => ?_
  exact each_makeTag hName.1 hAttrs

theorem each_jsxElement (h : Closed .jsxElement s T Good) :
    Yields (Known Good T) s jsxElement (Category.Each Good .jsxElement) := by
  dsimp only [jsxElement, cat]
  simp only [yields_orElse, yields_seq, yields_map, yields_span, yields_cat]
  refine ⟨fun tag hTag => IfBuilt.bind hTag.1 fun tag hTag => ?_, fun tag hTag => ?_⟩
  · refine h.phrase rfl _ rfl rfl ⟨trivial, trivial, fun _ => rfl, rfl⟩ ?_
    refine List.forall_mem_cons.mpr ⟨hTag.1, List.forall_mem_append.mpr ⟨?_, List.forall_mem_nil _⟩⟩
    exact List.forall_mem_map.mpr hTag.2
  · refine Yields.opt (yields_cat.mpr fun _ hChildren => hChildren.1) fun cs hcs closing _ => ?_
    refine IfBuilt.bind hTag.1 fun tag hTag => ?_
    by_cases hName : closing.name.text = tag.name.text
    · rw [if_pos hName]
      refine IfBuilt.bind (IfBuilt.orEmpty hcs) fun cs hcs => ?_
      refine h.phrase rfl _ rfl rfl ⟨trivial, trivial, fun h => (by cases h), rfl⟩ ?_
      refine List.forall_mem_cons.mpr ⟨hTag.1, List.forall_mem_append.mpr ⟨?_, ?_⟩⟩
      · exact List.forall_mem_map.mpr hTag.2
      · exact List.forall_mem_map.mpr hcs
    · rw [if_neg hName]
      trivial

theorem each_jsxAttrValue (h : Closed .jsxAttrValue s T Good) :
    Yields (Known Good T) s jsxAttrValue (Category.Each Good .jsxAttrValue) := by
  have hNode : ∀ n : JsxNode, Good (.jsx n) → Good (.attrValue (.child (.node n))) := by
    intro n hn
    have hChild : Good (.child (.node n)) :=
      h.wrapper _ _ rfl rfl rfl ⟨trivial, trivial, trivial, rfl⟩ hn
    exact h.wrapper _ _ rfl rfl rfl ⟨trivial, rfl, trivial, rfl⟩ hChild
  dsimp only [jsxAttrValue, cat]
  simp only [yields_orElse, yields_map, yields_cat]
  refine ⟨fun l hl => IfBuilt.map hl.1 fun l hl => ?_,
    fun c hc => IfBuilt.map (IfBuilt.both hc) fun c hc => ?_,
    fun n hn => IfBuilt.map hn.1 hNode, fun n hn => IfBuilt.map hn.1 hNode⟩
  · exact h.wrapper _ _ rfl rfl rfl ⟨trivial, trivial, trivial, rfl⟩ hl
  · exact h.wrapper _ _ rfl rfl rfl ⟨trivial, hc.2, trivial, rfl⟩ hc.1

theorem each_jsxAttrs : Yields (Known Good T) s jsxAttrs (Category.Each Good .jsxAttrs) := by
  refine yields_plainList (yields_cat.mpr fun _ hAttrs => hAttrs.1) ?_
  dsimp only [cat]
  simp only [yields_map, yields_orElse, yields_cat]
  exact ⟨fun _ hAttr => ifBuilt_single hAttr.1, fun _ hAttr => ifBuilt_single hAttr.1⟩

theorem each_jsxChildren :
    Yields (Known Good T) s jsxChildren (Category.Each Good .jsxChildren) := by
  refine yields_plainList (yields_cat.mpr fun _ hChildren => hChildren.1) ?_
  dsimp only [cat]
  simp only [yields_map, yields_cat]
  exact fun _ hChild => ifBuilt_single hChild.1

theorem each_jsxText (h : Closed .jsxText s T Good) :
    Yields (Known Good T) s jsxText (Category.Each Good .jsxText) := by
  dsimp only [jsxText, tok]
  simp only [yields_seq, yields_map, yields_span, yields_tok]
  intro _ _
  exact h.phrase rfl _ rfl rfl ⟨trivial, trivial, trivial, rfl⟩ (List.forall_mem_nil _)

theorem each_jsxClosing : Yields (Known Good T) s jsxClosing (Category.Each Good .jsxClosing) := by
  dsimp only [jsxClosing, tok, cat]
  simp only [yields_seqLeft, yields_seqRight, yields_tok, yields_cat]
  exact fun _ _ _ _ _ hName _ _ => hName.1

theorem each_jsxFragment (h : Closed .jsxFragment s T Good) :
    Yields (Known Good T) s jsxFragment (Category.Each Good .jsxFragment) := by
  dsimp only [jsxFragment, tok]
  simp only [yields_seqLeft, yields_seq, yields_map, yields_span, yields_tok]
  intro _ _ _ _
  refine Yields.opt (each_cat .jsxChildren) fun cs hcs _ _ _ _ _ _ => ?_
  refine (IfBuilt.orEmpty hcs).bind fun cs hcs => ?_
  refine h.phrase rfl _ rfl rfl ⟨trivial, trivial, trivial, rfl⟩ ?_
  exact List.forall_mem_map.mpr hcs

theorem each_jsxContainer (h : Closed .jsxContainer s T Good) :
    Yields (Known Good T) s jsxContainer (Category.Each Good .jsxContainer) := by
  dsimp only [jsxContainer, tok, cat]
  simp only [yields_seqLeft, yields_seq, yields_map, yields_span, yields_tok]
  intro _ _
  refine Yields.opt (yields_cat.mpr fun _ hValue => IfBuilt.both hValue) fun e hExpr _ _ => ?_
  refine (IfBuilt.optional hExpr).bind fun e he => ?_
  refine h.phrase rfl _ rfl rfl
    ⟨trivial, all_isExpr fun e' he' => (he e' he').2, trivial, rfl⟩ ?_
  exact forall_optional fun e' he' => (he e' he').1

theorem each_jsxSpreadChild (h : Closed .jsxSpreadChild s T Good) :
    Yields (Known Good T) s jsxSpreadChild (Category.Each Good .jsxSpreadChild) := by
  dsimp only [jsxSpreadChild, tok, cat]
  simp only [yields_seqLeft, yields_seq, yields_map, yields_span, yields_tok, yields_cat]
  intro _ _ _ _ e hExpr _ _
  exact each_ofExpr hExpr fun e he hIs =>
    h.phrase rfl _ rfl rfl ⟨trivial, hIs, trivial, rfl⟩ (List.forall_mem_singleton.mpr he)

theorem each_jsxChild (h : Closed .jsxChild s T Good) :
    Yields (Known Good T) s jsxChild (Category.Each Good .jsxChild) := by
  have hNode : Wraps Node.jsx Node.child JsxChild.node :=
    ⟨fun _ => rfl, fun _ => rfl, fun _ => rfl, fun _ => ⟨trivial, trivial, trivial, rfl⟩⟩
  unfold jsxChild
  simp only [yields_orElse]
  exact ⟨each_cat .jsxText, each_cat .jsxContainer, each_cat .jsxSpreadChild,
    each_wrapped h (each_cat .jsxElement) hNode, each_wrapped h (each_cat .jsxFragment) hNode⟩

theorem each_jsxAttr (h : Closed .jsxAttr s T Good) :
    Yields (Known Good T) s jsxAttr (Category.Each Good .jsxAttr) := by
  dsimp only [jsxAttr, tok, cat]
  simp only [yields_seq, yields_map, yields_span, yields_cat]
  intro _ _
  refine Yields.opt (yields_seqRight.mpr (yields_tok.mpr fun _ _ => each_cat .jsxAttrValue))
    fun v hValue => ?_
  refine (IfBuilt.optional hValue).bind fun v hv => ?_
  exact h.phrase rfl _ rfl rfl ⟨trivial, trivial, trivial, rfl⟩ (forall_optional hv)

theorem each_jsxSpreadAttr (h : Closed .jsxSpreadAttr s T Good) :
    Yields (Known Good T) s jsxSpreadAttr (Category.Each Good .jsxSpreadAttr) := by
  dsimp only [jsxSpreadAttr, tok, cat]
  simp only [yields_seqLeft, yields_seq, yields_map, yields_span, yields_tok, yields_cat]
  intro _ _ _ _ e hExpr _ _
  exact each_ofExpr hExpr fun e he hIs =>
    h.phrase rfl _ rfl rfl ⟨trivial, hIs, trivial, rfl⟩ (List.forall_mem_singleton.mpr he)

-- ---------------------------------------------------------------------------------------------
-- Modules
-- ---------------------------------------------------------------------------------------------

theorem each_importClause (h : Closed c s T Good) :
    Yields (Known Good T) s importClause
      (IfBuilt fun is => ∀ i ∈ is, Good (.importSpecifier i)) := by
  have hDefault : Yields (Known Good T) s defaultSpec
      (IfBuilt fun is => ∀ i ∈ is, Good (.importSpecifier i)) := by
    dsimp only [defaultSpec, cat]
    simp only [yields_map, yields_cat]
    refine fun i hIdent => List.forall_mem_singleton.mpr ?_
    exact h.wrapper _ _ rfl rfl rfl ⟨trivial, trivial, trivial, rfl⟩ hIdent.1
  have hNamespace : Yields (Known Good T) s namespaceImport
      (IfBuilt fun is => ∀ i ∈ is, Good (.importSpecifier i)) := by
    dsimp only [namespaceImport, cat]
    simp only [yields_map, yields_cat]
    exact fun i hSpec => List.forall_mem_singleton.mpr hSpec.1
  have hNamed : Yields (Known Good T) s namedImports
      (IfBuilt fun is => ∀ i ∈ is, Good (.importSpecifier i)) :=
    yields_bracketed (yields_cat.mpr fun _ hSpecs => hSpecs.1)
  dsimp only [importClause, tok]
  simp only [yields_orElse, yields_seqLeft, yields_seq, yields_map, yields_tok]
  exact ⟨hDefault,
    hDefault.imp fun _ hd _ _ => hNamespace.imp fun _ hn => ifBuilt_append hd hn,
    hDefault.imp fun _ hd _ _ => hNamed.imp fun _ hn => ifBuilt_append hd hn,
    hNamespace, hNamed⟩

theorem each_makeImport (h : Closed c s T Good) (hBegins : beginsWithCode c = true)
    {specifiers : Build (List ImportSpecifier)} {src : Build StrLit}
    (hSpecifiers : IfBuilt (fun is => ∀ i ∈ is, Good (.importSpecifier i)) specifiers)
    (hSrc : Known Good T (.cat .strLit) src) :
    IfBuilt (fun i => Good (.item i)) (makeImport s specifiers src) := by
  refine hSpecifiers.bind fun is his => IfBuilt.bind hSrc.1 fun l hl => ?_
  refine h.phrase hBegins _ rfl rfl ⟨trivial, trivial, trivial, rfl⟩ ?_
  exact List.forall_mem_append.mpr
    ⟨List.forall_mem_map.mpr his, List.forall_mem_singleton.mpr hl⟩

theorem each_importDecl (h : Closed .importDecl s T Good) :
    Yields (Known Good T) s importDecl (Category.Each Good .importDecl) := by
  dsimp only [importDecl, tok, cat]
  simp only [yields_seqLeft, yields_seq, yields_map, yields_span, yields_tok, yields_cat]
  refine fun _ _ => (each_importClause h).imp fun specifiers hSpecifiers _ _ src hSrc _ _ => ?_
  exact each_makeImport h rfl hSpecifiers hSrc

theorem each_importBare (h : Closed .importBare s T Good) :
    Yields (Known Good T) s importBare (Category.Each Good .importBare) := by
  dsimp only [importBare, tok, cat]
  simp only [yields_seqLeft, yields_seq, yields_map, yields_span, yields_tok, yields_cat]
  intro _ _ src hSrc _ _
  exact each_makeImport h rfl (List.forall_mem_nil _) hSrc

theorem each_namedExport (h : Closed .namedExport s T Good) :
    Yields (Known Good T) s namedExport (Category.Each Good .namedExport) := by
  have hSpecs : Yields (Known Good T) s (bracketed .lbrace .rbrace (cat .exportSpecs))
      (IfBuilt fun es => ∀ e ∈ es, Good (.exportSpecifier e)) :=
    yields_bracketed (yields_cat.mpr fun _ hSpecs => hSpecs.1)
  dsimp only [namedExport, tok, cat] at hSpecs ⊢
  simp only [yields_seqLeft, yields_seq, yields_map, yields_span, yields_tok, yields_cat]
  refine fun _ _ => hSpecs.imp fun specifiers hSpecifiers => ?_
  refine Yields.opt (yields_seqRight.mpr (yields_tok.mpr fun _ _ => yields_cat.mpr fun _ hSrc =>
    hSrc.1)) fun src hSrc _ _ => ?_
  refine hSpecifiers.bind fun es hes => (IfBuilt.optional hSrc).bind fun src hSrc => ?_
  refine h.phrase rfl _ rfl rfl ⟨trivial, trivial, trivial, rfl⟩ ?_
  exact List.forall_mem_append.mpr ⟨List.forall_mem_map.mpr hes, forall_optional hSrc⟩

theorem each_item (h : Closed .item s T Good) :
    Yields (Known Good T) s item (Category.Each Good .item) := by
  dsimp only [item, tok, cat]
  simp only [yields_orElse, yields_map, yields_tok, yields_cat]
  refine ⟨fun v hStmt => ifBuilt_single (IfBuilt.map hStmt.1 fun s hs => ?_),
    fun v hDecl => ifBuilt_single hDecl.1, fun _ _ => List.forall_mem_nil _⟩
  exact h.wrapper _ _ rfl rfl rfl ⟨trivial, trivial, trivial, rfl⟩ hs

theorem each_namespaceSpec (h : Closed .namespaceSpec s T Good) :
    Yields (Known Good T) s namespaceSpec (Category.Each Good .namespaceSpec) := by
  dsimp only [namespaceSpec, tok, cat]
  simp only [yields_seqLeft, yields_seq, yields_map, yields_span, yields_tok, yields_cat]
  intro _ _ _ _ i hIdent
  refine h.phrase rfl _ rfl rfl ⟨trivial, trivial, trivial, rfl⟩ ?_
  exact List.forall_mem_singleton.mpr hIdent.1

theorem each_namedSpec (h : Closed .namedSpec s T Good) :
    Yields (Known Good T) s namedSpec (Category.Each Good .namedSpec) := by
  dsimp only [namedSpec, tok, cat]
  simp only [yields_orElse, yields_seqLeft, yields_seq, yields_map, yields_span, yields_tok,
    yields_cat]
  refine ⟨fun i hIdent => ?_, fun imported hImported _ _ i hIdent => ?_⟩
  · refine h.phrase rfl _ rfl rfl ⟨trivial, trivial, trivial, rfl⟩ ?_
    exact List.forall_mem_singleton.mpr hIdent.1
  · refine IfBuilt.bind hImported.1 fun n hn => ?_
    refine h.phrase rfl _ rfl rfl ⟨trivial, trivial, trivial, rfl⟩ ?_
    exact List.forall_mem_cons.mpr ⟨hn, List.forall_mem_singleton.mpr hIdent.1⟩

theorem each_exportSpec (h : Closed .exportSpec s T Good) :
    Yields (Known Good T) s exportSpec (Category.Each Good .exportSpec) := by
  dsimp only [exportSpec, tok, cat]
  simp only [yields_seq, yields_map, yields_span, yields_cat]
  intro orig hOrig
  refine Yields.opt (yields_seqRight.mpr (yields_tok.mpr fun _ _ => each_cat .exportName))
    fun exported hExported => ?_
  refine IfBuilt.bind hOrig.1 fun o ho => (IfBuilt.optional hExported).bind fun e he => ?_
  refine h.phrase rfl _ rfl rfl ⟨trivial, trivial, trivial, rfl⟩ ?_
  exact List.forall_mem_cons.mpr ⟨ho, forall_optional he⟩

theorem each_exportAll (h : Closed .exportAll s T Good) :
    Yields (Known Good T) s exportAll (Category.Each Good .exportAll) := by
  dsimp only [exportAll, tok, cat]
  simp only [yields_seqLeft, yields_seq, yields_map, yields_span, yields_tok, yields_cat]
  intro _ _ _ _
  refine Yields.opt (yields_seqRight.mpr (yields_tok.mpr fun _ _ => each_cat .exportName))
    fun name hName _ _ src hSrc _ _ => ?_
  refine IfBuilt.bind hSrc.1 fun l hl => (IfBuilt.optional hName).bind fun n hn => ?_
  refine h.phrase rfl _ rfl rfl ⟨trivial, trivial, trivial, rfl⟩ ?_
  exact List.forall_mem_append.mpr ⟨forall_optional hn, List.forall_mem_singleton.mpr hl⟩

theorem each_exportDefaultDecl (h : Closed .exportDefaultDecl s T Good) :
    Yields (Known Good T) s exportDefaultDecl (Category.Each Good .exportDefaultDecl) := by
  -- both alternatives build an expression with what is expected of a function or a class
  have hMade : ∀ e : Build Expr, IfBuilt (fun e => Good (.expr e)) e ∧
      IfBuilt (fun e => primaryLevel ≤ e.level ∧ e.isFunctionOrClass = true) e →
      IfBuilt (fun i => Good (.item i)) (e >>= fun e => pure (.exportDefaultDecl e s)) := by
    intro e hExpr
    refine IfBuilt.bind (IfBuilt.both hExpr) fun e he => ?_
    refine h.phrase rfl _ rfl rfl ⟨trivial, he.2.2, trivial, rfl⟩ ?_
    exact List.forall_mem_singleton.mpr he.1
  dsimp only [exportDefaultDecl, tok, cat]
  simp only [yields_orElse, yields_seqLeft, yields_seq, yields_map, yields_span, yields_tok,
    yields_cat]
  exact fun _ _ _ _ => ⟨hMade, hMade⟩

theorem each_exportDefaultExpr (h : Closed .exportDefaultExpr s T Good) :
    Yields (Known Good T) s exportDefaultExpr (Category.Each Good .exportDefaultExpr) := by
  dsimp only [exportDefaultExpr, tok, cat]
  simp only [yields_seqLeft, yields_seq, yields_map, yields_span, yields_tok, yields_cat]
  intro _ _ _ _ e hExpr _ _
  exact each_ofExpr hExpr fun e he hIs =>
    h.phrase rfl _ rfl rfl ⟨trivial, hIs, trivial, rfl⟩ (List.forall_mem_singleton.mpr he)

theorem each_exportNamedDecl (h : Closed .exportNamedDecl s T Good) :
    Yields (Known Good T) s exportNamedDecl (Category.Each Good .exportNamedDecl) := by
  have hMade : ∀ d : Build Stmt, IfBuilt (fun d => Good (.stmt d)) d ∧
      IfBuilt (fun d => d.isDeclaration = true) d →
      IfBuilt (fun i => Good (.item i)) (d >>= fun d => pure (.exportDecl d s)) := by
    intro d hDecl
    refine IfBuilt.bind (IfBuilt.both hDecl) fun d hd => ?_
    refine h.phrase rfl _ rfl rfl ⟨trivial, hd.2, trivial, rfl⟩ ?_
    exact List.forall_mem_singleton.mpr hd.1
  dsimp only [exportNamedDecl, tok, cat]
  simp only [yields_orElse, yields_seqLeft, yields_seq, yields_map, yields_span, yields_tok,
    yields_cat]
  exact fun _ _ => ⟨hMade, hMade, hMade⟩

theorem each_moduleDecl : Yields (Known Good T) s moduleDecl (Category.Each Good .moduleDecl) := by
  unfold moduleDecl
  simp only [yields_orElse]
  exact ⟨each_cat .importDecl, each_cat .importBare, each_cat .exportDefaultDecl,
    each_cat .exportDefaultExpr, each_cat .exportNamedDecl, each_cat .namedExport,
    each_cat .exportAll⟩

-- ---------------------------------------------------------------------------------------------
-- All rules
-- ---------------------------------------------------------------------------------------------

/-- A property that passes to new nodes passes from the parts of a phrase to its value. -/
theorem each_rule {c : Category} (hIf : c ≠ .ifStmt) (h : Closed c s T Good) :
    Yields (Known Good T) s (rule c) (c.Each Good) := by
  have hAll : ∀ c, Yields (Known Good T) s (cat c) fun v => c.Each Good v ∧ c.Expects v :=
    fun c => yields_cat.mpr fun _ hPart => hPart
  cases c
  case ifStmt => exact absurd rfl hIf
  case stmtEnd | jsxNameRest | jsxAttrName | assignOp | varKind => exact fun _ _ _ _ => trivial
  case ident => exact each_ident h
  case propIdent => exact each_propIdent h
  case strLit => exact each_strLit h
  case numLit => exact each_numLit h
  case jsxStr => exact each_jsxStr h
  case tplRest => exact each_tplRest
  case tplLit => exact each_tplLit h
  case params => exact yields_bracketed (each_cat .paramList)
  case paramList => exact yields_commaList (each_cat .paramList) (each_cat .param)
  case arguments => exact yields_bracketed (each_cat .args)
  case args => exact yields_commaList (each_cat .args) (each_cat .arg)
  case patElems => exact yields_commaList (each_cat .patElems) (each_cat .patElem)
  case patProps => exact yields_commaList (each_cat .patProps) (each_cat .patProp)
  case props => exact yields_commaList (each_cat .props) (each_cat .prop)
  case varDeclarators => exact yields_commaList (each_cat .varDeclarators) (each_cat .varDeclarator)
  case namedSpecs => exact yields_commaList (each_cat .namedSpecs) (each_cat .namedSpec)
  case exportSpecs => exact yields_commaList (each_cat .exportSpecs) (each_cat .exportSpec)
  case classItems => exact yields_plainList (each_cat .classItems) (each_cat .classItem)
  case blockItems => exact yields_plainList (each_cat .blockItems) (each_cat .blockItem)
  case items => exact yields_plainList (each_cat .items) (each_cat .item)
  case fnDecl => exact each_fnDecl h
  case fnExpr => exact each_fnExpr h
  case classDecl => exact each_classDecl h
  case classExpr => exact each_classExpr h
  case arrowFn => exact each_arrowFn h
  case arrowParams => exact each_arrowParams h
  case methodDef => exact each_methodDef h
  case getterDef => exact each_getterDef h
  case setterDef => exact each_setterDef h
  case classMethod => exact each_classMethod h
  case classProp => exact each_classProp h
  case assign => exact each_assign h
  case member => exact each_member h
  case call => exact each_call h
  case multiplicative | additive | shift | relational | equality | bitAnd | bitXor | bitOr
      | logicAnd | logicOr =>
    exact each_level h rfl (by decide) (hAll _) (hAll _)
  case classHeritage => exact yields_seqRight.mpr (yields_tok.mpr fun _ _ => each_cat .lhs)
  case objectLit => exact each_objectLit h
  case arrayLit => exact each_arrayLit h
  case parenExpr => exact each_parenExpr h
  case primary => exact each_primary h
  case newOnly => exact each_newOnly h
  case lhs => exact yields_orElse.mpr ⟨each_cat .newOnly, each_cat .call⟩
  case unary => exact each_unary h
  case cond => exact each_cond h
  case expr => exact each_cat .assign
  case spread => exact each_spread h
  case arg => exact each_arg
  case varDecl => exact each_varDecl h
  case varDeclarator => exact each_varDeclarator h
  case returnStmt => exact each_returnStmt h
  case throwStmt => exact each_throwStmt h
  case whileStmt => exact each_whileStmt h
  case exprStmt => exact each_exprStmt h
  case emptyStmt => exact each_emptyStmt h
  case blockStmt => exact each_blockStmt h
  case blockItem => exact each_blockItem
  case stmt => exact each_stmt h
  case objectPat => exact each_objectPat h
  case arrayPat => exact each_arrayPat h
  case pat => exact each_pat h
  case assignPat => exact each_assignPat h
  case restPat => exact each_restPat h
  case patElem => exact yields_orElse.mpr ⟨each_cat .pat, each_cat .assignPat⟩
  case assignPatProp => exact each_assignPatProp h
  case keyValuePatProp => exact each_keyValuePatProp h
  case patProp => exact each_patProp h
  case param =>
    exact yields_orElse.mpr
      ⟨each_cat .pat, yields_orElse.mpr ⟨each_cat .assignPat, each_cat .restPat⟩⟩
  case exportName => exact each_exportName h
  case computedProp => exact each_computedProp h
  case propName => exact each_propName h
  case keyValueProp => exact each_keyValueProp h
  case shorthandProp => exact each_shorthandProp h
  case methodLike =>
    exact yields_orElse.mpr
      ⟨each_cat .methodDef, yields_orElse.mpr ⟨each_cat .getterDef, each_cat .setterDef⟩⟩
  case prop => exact each_prop
  case classBody => exact each_classBody
  case classItem => exact each_classItem
  case jsxName => exact each_jsxName h
  case jsxOpening => exact each_jsxOpening
  case jsxSelfClosing => exact each_jsxSelfClosing
  case jsxElement => exact each_jsxElement h
  case jsxAttrValue => exact each_jsxAttrValue h
  case jsxAttrs => exact each_jsxAttrs
  case jsxChildren => exact each_jsxChildren
  case jsxText => exact each_jsxText h
  case jsxClosing => exact each_jsxClosing
  case jsxFragment => exact each_jsxFragment h
  case jsxContainer => exact each_jsxContainer h
  case jsxSpreadChild => exact each_jsxSpreadChild h
  case jsxChild => exact each_jsxChild h
  case jsxAttr => exact each_jsxAttr h
  case jsxSpreadAttr => exact each_jsxSpreadAttr h
  case importDecl => exact each_importDecl h
  case importBare => exact each_importBare h
  case namedExport => exact each_namedExport h
  case item => exact each_item h
  case namespaceSpec => exact each_namespaceSpec h
  case namedSpec => exact each_namedSpec h
  case exportSpec => exact each_exportSpec h
  case exportDefaultDecl => exact each_exportDefaultDecl h
  case exportDefaultExpr => exact each_exportDefaultExpr h
  case exportNamedDecl => exact each_exportNamedDecl h
  case exportAll => exact each_exportAll h
  case moduleDecl => exact each_moduleDecl

end ModuleGrammar

-- ---------------------------------------------------------------------------------------------
-- All trees
-- ---------------------------------------------------------------------------------------------

theorem Category.Each.imp {Good Good' : Node → Prop} (hImp : ∀ n, Good n → Good' n) {c : Category}
    {v : c.Value} (h : c.Each Good v) : c.Each Good' v := by
  cases c
  all_goals
    first
      | trivial
      | exact hImp _ h
      | exact IfBuilt.imp h fun _ => hImp _
      | exact IfBuilt.imp h fun _ ha x hx => hImp _ (ha x hx)
      | exact IfBuilt.imp h fun _ ha => ⟨hImp _ ha.1, fun x hx => hImp _ (ha.2 x hx)⟩
      | exact IfBuilt.imp h fun _ ha => ⟨hImp _ ha.1, hImp _ ha.2.1, hImp _ ha.2.2⟩

theorem Known.imp {Good Good' : Node → Prop} {T T' : Token → Prop} (hNode : ∀ n, Good n → Good' n)
    (hToken : ∀ t, T t → T' t) {s : Symbol Category} {v : SymbolValue Category.Value s}
    (h : Known Good T s v) : Known Good' T' s v := by
  cases s with
  | tok t => exact ⟨hToken _ h.1, h.2⟩
  | cat c => exact ⟨Category.Each.imp hNode h.1, h.2⟩

/-- What a property of nodes and of the tokens they come from must satisfy to hold of all nodes in the
values of trees of a kind: it is not lost when there are more tokens, and it passes to the nodes that
are made of a phrase, of which the conditional statements are looked at with their trees. -/
structure Inherited (file : Option Text) (all : List Token)
    (Ok : (s : Symbol Category) → Tree moduleGrammar s → Prop) (Good : List Token → Node → Prop) :
    Prop where
  more : ∀ (us ts : List Token) (n : Node), us <:+: ts → Good us n → Good ts n
  down : ∀ (c : Category) (i : Fin (moduleGrammar.rule c).alternatives.length)
    (children : Forest moduleGrammar ((moduleGrammar.rule c).alternatives.get i).symbols),
    Ok (.cat c) (.node c i children) → children.Each Ok
  closed : ∀ (c : Category) (tree : ModuleTree c), tree.yield <:+: all →
    Closed c (spanOf file tree.yield) (· ∈ tree.yield) (Good tree.yield)
  branch : ∀ tree : ModuleTree .ifStmt, Ok _ tree → tree.yield <:+: all →
    ∀ test cons alt, tree.value file = .ok (.ifStmt test cons alt (spanOf file tree.yield)) →
      (Node.stmt (.ifStmt test cons alt (spanOf file tree.yield))).Regular →
      (∀ p ∈ (Node.stmt (.ifStmt test cons alt (spanOf file tree.yield))).parts,
        Good tree.yield p) →
      Good tree.yield (.stmt (.ifStmt test cons alt (spanOf file tree.yield)))

section Trees

variable {file : Option Text} {all : List Token} {Good : List Token → Node → Prop}
  {Ok : (s : Symbol Category) → Tree moduleGrammar s → Prop}

theorem Inherited.node (h : Inherited file all Ok Good) {c : Category}
    {i : Fin (moduleGrammar.rule c).alternatives.length}
    {children : Forest moduleGrammar ((moduleGrammar.rule c).alternatives.get i).symbols}
    (hOk : Ok (.cat c) (.node c i children)) (hAll : children.yield <:+: all)
    (hParts : ∀ p ∈ ofParts (Known (Good children.yield) (· ∈ children.yield)) _
      (children.values file), p) :
    c.Each (Good children.yield) ((Grammar.Tree.node c i children).value file) := by
  by_cases hIf : c = .ifStmt
  · subst hIf
    -- the value is there already, so what is shown of a conditional statement may use it
    have hEach : IfBuilt
        (fun st => (Grammar.Tree.node Category.ifStmt i children).value file = .ok st →
          Good children.yield (.stmt st))
        ((Grammar.Tree.node Category.ifStmt i children).value file) :=
      Yields.node (ModuleGrammar.each_ifStmt fun test cons alt hRegular hGood hValue =>
        h.branch (Grammar.Tree.node Category.ifStmt i children) hOk hAll test cons alt hValue hRegular
          hGood) hParts
    show IfBuilt (fun st => Good children.yield (.stmt st)) _
    cases hValue : (Grammar.Tree.node Category.ifStmt i children).value file with
    | error e => trivial
    | ok st =>
      rw [hValue] at hEach
      exact hEach rfl
  · exact Yields.node (ModuleGrammar.each_rule hIf (h.closed c (.node c i children) hAll)) hParts

/-- A property that is inherited in this way holds of all nodes in the value of a tree. -/
theorem Tree.each_value (hAdmits : ∀ t ∈ all, t.kind.Admits t.text)
    (h : Inherited file all Ok Good) {c : Category} (tree : ModuleTree c) (hOk : Ok (.cat c) tree)
    (hYield : tree.yield <:+: all) : c.Each (Good tree.yield) (tree.value file) := by
  -- what is expected of a value goes along, since the rules need it of their parts
  have hKnown : tree.yield <:+: all →
      Known (Good tree.yield) (· ∈ tree.yield) (.cat c) (tree.value file) := by
    refine Tree.holds_value (P := fun ts s v => ts <:+: all → Known (Good ts) (· ∈ ts) s v)
      ?_ ?_ h.down ?_ tree hOk
    · intro us ts s v hSub hPart hAll
      exact (hPart (hSub.trans hAll)).imp (fun n => h.more us ts n hSub) fun _ ht => hSub.subset ht
    · intro token hAll
      have hMem := List.mem_singleton_self token
      exact ⟨hMem, hAdmits token (hAll.subset hMem)⟩
    · intro c i children hOk hParts hAll
      have hParts := forall_ofParts_imp (fun _ _ hPart => hPart hAll) hParts
      exact ⟨h.node hOk hAll hParts, Yields.node (ModuleGrammar.expects_rule c _) hParts⟩
  exact (hKnown hYield).1

end Trees

/-- The same for the items of a source that is read. -/
theorem ReadFrom.each_item {source : Text} {file : Option Text} {parsed : ParsedModule}
    {tree : Option ItemsTree} (hRead : ReadFrom source file parsed tree)
    {Ok : (s : Symbol Category) → Tree moduleGrammar s → Prop} {Good : List Token → Node → Prop}
    (h : Inherited file (lex source).statements Ok Good) (hOk : ∀ t ∈ tree, Ok _ t) :
    ∀ i ∈ parsed.module.body, Good (lex source).statements (.item i) := by
  have hBuilt := hRead.built
  cases tree with
  | none =>
    rw [← Except.ok.inj hBuilt]
    exact List.forall_mem_nil _
  | some tree =>
    have hTokens : tree.yield = (lex source).statements := hRead.tokens
    have hYield : tree.yield <:+: (lex source).statements := hTokens ▸ List.infix_rfl
    have hEach : IfBuilt (fun is => ∀ i ∈ is, Good tree.yield (.item i)) (tree.value file) :=
      Tree.each_value (admits_statements hRead.lexed) h tree (hOk tree rfl) hYield
    have hValue : tree.value file = .ok parsed.module.body := hBuilt
    rw [hValue, hTokens] at hEach
    exact hEach

end ClientBoundary
