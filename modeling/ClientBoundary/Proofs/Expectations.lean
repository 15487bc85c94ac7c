import ClientBoundary.Proofs.RegularNodes

/-!
# What is known of a phrase from its category

Which nodes may stand where follows from the categories of phrases: the operands of an operator bind
at least as tightly as it does because they are phrases of higher categories, a rest pattern comes
from one category only, and a getter is never a constructor. `Category.Expects` says for each
category what is known of its values in this way.

* `ModuleGrammar.operatorLevel_of_admits` — the text of an operator fixes the level of the category it stands in.
* `ModuleGrammar.expects_rule` — a rule makes what is expected of its category from parts that are
  what is expected of theirs.
-/

namespace ClientBoundary

open Grammar

/-- An expression of at least a level, if one is built. -/
abbrev AtLeast (k : Nat) : Build Expr → Prop := IfBuilt fun e => k ≤ e.level

/-- What is known of the value of a phrase from its category alone, beyond the nodes it consists of. -/
def Category.Expects : (c : Category) → c.Value → Prop
  | .arrowFn | .assign | .expr => AtLeast 1
  | .cond => AtLeast 2
  | .logicOr => AtLeast 3
  | .logicAnd => AtLeast 4
  | .bitOr => AtLeast 5
  | .bitXor => AtLeast 6
  | .bitAnd => AtLeast 7
  | .equality => AtLeast 8
  | .relational => AtLeast 9
  | .shift => AtLeast 10
  | .additive => AtLeast 11
  | .multiplicative => AtLeast 12
  | .unary => AtLeast unaryLevel
  | .lhs | .classHeritage => AtLeast lhsLevel
  | .newOnly => IfBuilt fun e => lhsLevel ≤ e.level ∧ e.hasCallInSpine = false
  | .call => IfBuilt fun e => lhsLevel ≤ e.level ∧ e.isNewBare = false
  | .member => IfBuilt fun e =>
    lhsLevel ≤ e.level ∧ e.hasCallInSpine = false ∧ e.isNewBare = false
  | .primary | .objectLit | .arrayLit | .parenExpr => AtLeast primaryLevel
  | .fnExpr | .classExpr => IfBuilt fun e => primaryLevel ≤ e.level ∧ e.isFunctionOrClass = true
  | .arg => IfBuilt fun e => e.isArgument = true
  | .args | .arguments => IfBuilt fun es => ∀ e ∈ es, e.isArgument = true
  | .spread => IfBuilt fun p => p.expr.isExpr = true
  | .tplRest => IfBuilt fun ps => ∀ p ∈ ps, p.2.isExpr = true ∧ ChunkText p.1
  | .objectPat | .arrayPat | .pat | .assignPat | .patElem | .param =>
    IfBuilt fun p => p.isPat = true
  | .restPat => IfBuilt fun p => p.isRest = true
  | .params | .paramList | .arrowParams | .patElems => IfBuilt fun ps => ∀ p ∈ ps, p.isPat = true
  | .methodDef | .getterDef | .setterDef | .methodLike => IfBuilt fun m => m.kind ≠ .constructor
  | .jsxContainer => IfBuilt fun c => c.isValue = true
  | .varDecl | .fnDecl | .classDecl => IfBuilt fun d => d.isDeclaration = true
  | _ => fun _ => True

/-- What is known of a part of a phrase. -/
def Known (Good : Node → Prop) (T : Token → Prop) :
    (s : Symbol Category) → SymbolValue Category.Value s → Prop
  | .tok t, token => T token ∧ t.Admits token.text
  | .cat c, v => c.Each Good v ∧ c.Expects v

namespace Expr

variable {e : Expr} {k : Nat}

theorem isExpr_of_level (h : k < e.level) : e.isExpr = true := by
  cases e <;> first | rfl | exact absurd h (Nat.not_lt_zero k)

theorem isExpr_of_lhs (h : lhsLevel ≤ e.level) : e.isExpr = true :=
  isExpr_of_level (Nat.lt_of_lt_of_le (by decide : 0 < lhsLevel) h)

theorem isArgument_of_isExpr (h : e.isExpr = true) : e.isArgument = true := by
  cases e <;> first | rfl | cases h

theorem isLoose_of_level (h : 2 < e.level) : e.isLoose = false := by
  cases e <;> first | rfl | simp [level] at h

theorem of_primary (h : primaryLevel ≤ e.level) :
    lhsLevel ≤ e.level ∧ e.hasCallInSpine = false ∧ e.isNewBare = false := by
  refine ⟨Nat.le_trans (by decide) h, ?_⟩
  cases e <;> first | exact ⟨rfl, rfl⟩ | simp [level, primaryLevel, lhsLevel] at h

end Expr

theorem Pat.isPat_of_isRest {p : Pat} (h : p.isRest = true) : p.isPat = true := by
  cases p <;> first | rfl | cases h

namespace ModuleGrammar

variable {Good : Node → Prop} {T : Token → Prop} {s : Span}

/-- The level of the operators of a kind. -/
def binaryLevel : Terminal → Nat
  | .orOp | .nullish => 3
  | .andOp => 4
  | .pipe => 5
  | .caret => 6
  | .amp => 7
  | .eqOp => 8
  | .relOp | .kwIn | .kwInstanceof => 9
  | .shiftOp => 10
  | .addOp => 11
  | .star | .mulOp => 12
  | _ => 0

theorem operatorLevel_of_admits {t : Terminal} {text : Text} (hBinary : t.isBinary = true)
    (h : t.Admits text) : operatorLevel? text = some (binaryLevel t) := by
  have hAll : ∀ t ∈ Terminal.all, t.isBinary = true → ∀ text ∈ t.fixedTexts,
      operatorLevel? text = some (binaryLevel t) := by decide +kernel
  refine hAll t (Terminal.mem_all t) hBinary text ?_
  unfold Terminal.Admits at h
  split at h
  all_goals first | cases hBinary | exact h hBinary

theorem atLeast_level {k : Nat} {this next : R (Build Expr)} {ops : List Terminal}
    (hOps : ∀ t ∈ ops, t.isBinary = true ∧ binaryLevel t = k)
    (hThis : Yields (Known Good T) s this fun _ => True)
    (hNext : Yields (Known Good T) s next (AtLeast (k + 1))) :
    Yields (Known Good T) s (level this ops next) (AtLeast k) := by
  unfold level
  simp only [yields_orElse, yields_seq, yields_map, yields_span, yields_oneOf]
  refine ⟨hNext.imp fun e he => ?_, hThis.imp fun l _ t ht op hOp => hNext.imp fun r _ => ?_⟩
  · cases e with
    | error e => trivial
    | ok e => exact Nat.le_of_succ_le he
  · cases l with
    | error e => trivial
    | ok l =>
      cases r with
      | error e => trivial
      | ok r =>
        have hLevel := operatorLevel_of_admits (hOps t ht).1 hOp.2
        show k ≤ (operatorLevel? op.text).getD 1
        rw [hLevel, (hOps t ht).2]
        exact Nat.le_refl k

theorem inner_of_mark (c : CodePoint) (body mark : Text) :
    inner mark.length (c :: (body ++ mark)) = body := by
  have hLength : (c :: (body ++ mark)).length - mark.length = body.length + 1 := by
    simp only [List.length_cons, List.length_append]
    omega
  rw [inner, hLength, List.take_succ_cons, List.take_left]
  rfl

theorem chunkText_inner {t : Text} {opening : Char} {last : Pattern.ChunkEnd}
    (h : t.IsChunk opening last) : ChunkText (inner last.mark.length t) := by
  obtain ⟨body, hBody, rfl⟩ := h
  rw [inner_of_mark]
  exact hBody

theorem expects_tplRest : Yields (Known Good T) s tplRest (Category.Expects .tplRest) := by
  refine yields_plainList (yields_cat.mpr fun _ h => h.2) ?_
  dsimp only [tok, cat]
  simp only [yields_seq, yields_map, yields_tok, yields_cat]
  intro token hToken e hExpr
  cases e with
  | error e => trivial
  | ok e =>
    have hChunk : ChunkText (inner 2 token.text) := chunkText_inner hToken.2
    exact List.forall_mem_singleton.mpr ⟨Expr.isExpr_of_level hExpr.2, hChunk⟩

theorem expects_cat (c : Category) : Yields (Known Good T) s (cat c) c.Expects :=
  yields_cat.mpr fun _ hPart => hPart.2

/-- A phrase of one category may be expected to be less as a phrase of another. -/
theorem yields_weaker {α : Type} {A B : α → Prop} {r : R (Build α)}
    (h : Yields (Known Good T) s r (IfBuilt A)) (hImp : ∀ a, A a → B a) :
    Yields (Known Good T) s r (IfBuilt B) :=
  h.imp fun _ hv => hv.imp hImp

/-- What is made from the value of a phrase is what is expected, whatever that value is. -/
theorem yields_made {α β : Type} {B : β → Prop} {r : R (Build α)} {f : α → β}
    (hB : ∀ a, B (f a)) : Yields (Known Good T) s ((fun x => f <$> x) <$> r) (IfBuilt B) :=
  yields_map.mpr fun _ _ _ _ => ifBuilt_map.mpr (IfBuilt.of_forall hB)

theorem expects_primary : Yields (Known Good T) s primary (Category.Expects .primary) := by
  have hName : Yields (Known Good T) s ((fun i => .ok (.ident i)) <$> cat .ident)
      (AtLeast primaryLevel) := yields_map.mpr (yields_cat.mpr fun _ _ => Nat.le_refl _)
  have hRegex : Yields (Known Good T) s
      ((fun s t => .ok (makeRegex s t)) <$> Rule.span <*> tok .regex) (AtLeast primaryLevel) :=
    Always.yields (.seq (.ofSpan fun _ _ => Nat.le_refl _))
  have hWord : ∀ {t : Terminal} {f : Span → Expr}, (∀ s, primaryLevel ≤ (f s).level) →
      Yields (Known Good T) s ((fun s => .ok (f s)) <$> Rule.span <* tok t)
        (AtLeast primaryLevel) :=
    fun hf => Always.yields (.seqLeft (.ofSpan hf))
  have hFunction : ∀ e : Expr, primaryLevel ≤ e.level ∧ e.isFunctionOrClass = true →
      primaryLevel ≤ e.level := fun _ he => he.1
  unfold primary
  simp only [yields_orElse]
  exact ⟨hName, yields_made fun _ => Nat.le_refl _, yields_made fun _ => Nat.le_refl _,
    yields_made fun _ => Nat.le_refl _, hRegex, hWord fun _ => Nat.le_refl _,
    hWord fun _ => Nat.le_refl _, hWord fun _ => Nat.le_refl _, hWord fun _ => Nat.le_refl _,
    hWord fun _ => Nat.le_refl _, expects_cat .arrayLit, expects_cat .objectLit,
    yields_weaker (expects_cat .fnExpr) hFunction,
    yields_weaker (expects_cat .classExpr) hFunction, expects_cat .parenExpr,
    yields_made fun _ => Nat.le_refl _, yields_made fun _ => Nat.le_refl _⟩

/-- An access is no instantiation, and there is a call in it where there is one in its object. -/
theorem expects_accesses {P : Bool → Prop} {obj : R (Build Expr)}
    (hObj : Yields (Known Good T) s obj (IfBuilt fun o => P o.hasCallInSpine)) :
    Yields (Known Good T) s (accesses obj)
      (IfBuilt fun e => lhsLevel ≤ e.level ∧ P e.hasCallInSpine ∧ e.isNewBare = false) := by
  dsimp only [accesses, tok, cat]
  simp only [yields_orElse, yields_seqLeft, yields_seq, yields_map, yields_span, yields_tok,
    yields_cat]
  refine ⟨hObj.imp fun o ho _ _ i _ => ?_, hObj.imp fun o ho _ _ key _ _ _ => ?_,
    hObj.imp fun o ho t _ => ?_⟩
  · exact ho.bind fun o ho => ⟨Nat.le_refl _, ho, rfl⟩
  · exact ifBuilt_of_bind fun key => ho.bind fun o ho => ⟨Nat.le_refl _, ho, rfl⟩
  · exact ho.bind fun o ho => ifBuilt_of_bind fun t => ⟨Nat.le_refl _, ho, rfl⟩

theorem expects_member : Yields (Known Good T) s member (Category.Expects .member) := by
  have hSpine : Yields (Known Good T) s (cat .member) (IfBuilt fun e => e.hasCallInSpine = false) :=
    yields_weaker (expects_cat .member) fun _ he => he.2.1
  have hNew : Yields (Known Good T) s
      (makeNew <$> Rule.span <* tok .kwNew <*> cat .member <*> cat .arguments)
      (Category.Expects .member) := by
    dsimp only [tok, cat]
    simp only [yields_seqLeft, yields_seq, yields_map, yields_span, yields_tok, yields_cat]
    intro _ _ callee hCallee _ _
    exact IfBuilt.bind hCallee.2 fun e he => ifBuilt_of_bind fun es => ⟨Nat.le_refl _, he.2.1, rfl⟩
  exact yields_orElse.mpr ⟨yields_weaker (expects_cat .primary) fun _ => Expr.of_primary,
    yields_orElse.mpr ⟨expects_accesses (P := (· = false)) hSpine, hNew⟩⟩

theorem expects_call : Yields (Known Good T) s call (Category.Expects .call) := by
  have hAny : Yields (Known Good T) s (cat .call) (IfBuilt fun _ => True) :=
    yields_weaker (expects_cat .call) fun _ _ => trivial
  refine yields_orElse.mpr ⟨?_, yields_orElse.mpr ⟨?_, yields_orElse.mpr ⟨?_, ?_⟩⟩⟩
  · exact Always.yields (.seq (.seq (.ofSpan fun _ _ _ =>
      ifBuilt_of_bind fun _ => ifBuilt_of_bind fun _ => ⟨Nat.le_refl _, rfl⟩)))
  · exact Always.yields (.seq (.seqLeft (.ofSpan fun _ _ =>
      ifBuilt_of_bind fun _ => ifBuilt_of_bind fun _ => ⟨Nat.le_refl _, rfl⟩)))
  · exact Always.yields (.seq (.seq (.ofSpan fun _ _ _ =>
      ifBuilt_of_bind fun _ => ifBuilt_of_bind fun _ => ⟨Nat.le_refl _, rfl⟩)))
  · exact yields_weaker (expects_accesses (P := fun _ => True) hAny) fun _ he => ⟨he.1, he.2.2⟩

theorem expects_newOnly : Yields (Known Good T) s newOnly (Category.Expects .newOnly) := by
  refine yields_orElse.mpr ⟨yields_weaker (expects_cat .member) fun _ he => ⟨he.1, he.2.1⟩, ?_⟩
  dsimp only [tok, cat]
  simp only [yields_seqLeft, yields_seq, yields_map, yields_span, yields_tok, yields_cat]
  intro _ _ callee hCallee
  exact IfBuilt.bind hCallee.2 fun e he => ⟨Nat.le_refl _, he.2⟩

theorem expects_unary : Yields (Known Good T) s unary (Category.Expects .unary) := by
  refine yields_orElse.mpr ⟨?_, yields_orElse.mpr ⟨?_, ?_⟩⟩
  · exact yields_weaker (expects_cat .lhs) fun _ he => Nat.le_trans (by decide) he
  · exact Always.yields (.seq (.seq (.ofSpan fun _ _ _ =>
      ifBuilt_of_bind fun _ => Nat.le_refl _)))
  · exact Always.yields (.seq (.seqLeft (.ofSpan fun _ _ =>
      ifBuilt_of_bind fun _ => Nat.le_refl _)))

theorem expects_cond : Yields (Known Good T) s cond (Category.Expects .cond) := by
  refine yields_orElse.mpr ⟨?_, ?_⟩
  · exact yields_weaker (expects_cat .logicOr) fun _ he => Nat.le_trans (by decide) he
  · exact Always.yields (.seq (.seqLeft (.seq (.seqLeft (.seq (.ofSpan fun _ _ _ _ =>
      ifBuilt_of_bind fun _ => ifBuilt_of_bind fun _ => ifBuilt_of_bind fun _ => Nat.le_refl _))))))

theorem expects_assign : Yields (Known Good T) s assign (Category.Expects .assign) := by
  refine yields_orElse.mpr ⟨?_, yields_orElse.mpr ⟨expects_cat .arrowFn, ?_⟩⟩
  · exact yields_weaker (expects_cat .cond) fun _ he => Nat.le_trans (by decide) he
  · exact Always.yields (.seq (.seq (.seq (.ofSpan fun _ _ _ _ =>
      ifBuilt_of_bind fun _ => ifBuilt_of_bind fun _ => Nat.le_refl _))))

theorem expects_spread : Yields (Known Good T) s spread (Category.Expects .spread) := by
  dsimp only [spread, tok, cat]
  simp only [yields_seqLeft, yields_seq, yields_map, yields_span, yields_tok, yields_cat]
  intro _ _ e hExpr
  exact IfBuilt.bind hExpr.2 fun e he => Expr.isExpr_of_level he

theorem expects_arg : Yields (Known Good T) s arg (Category.Expects .arg) :=
  yields_orElse.mpr ⟨yields_weaker (expects_cat .assign) fun _ he =>
    Expr.isArgument_of_isExpr (Expr.isExpr_of_level he), yields_made fun _ => rfl⟩

theorem expects_pat : Yields (Known Good T) s pat (Category.Expects .pat) :=
  yields_orElse.mpr ⟨yields_map.mpr (yields_cat.mpr fun _ _ => rfl),
    yields_orElse.mpr ⟨expects_cat .objectPat, expects_cat .arrayPat⟩⟩

theorem expects_arrowParams :
    Yields (Known Good T) s arrowParams (Category.Expects .arrowParams) :=
  yields_orElse.mpr ⟨yields_map.mpr (yields_cat.mpr fun _ _ => List.forall_mem_singleton.mpr rfl),
    expects_cat .params⟩

/-- The rules keep what is expected of their values. -/
theorem expects_rule (c : Category) (s : Span) :
    Yields (Known Good T) s (rule c) c.Expects := by
  have hAny : ∀ c, Yields (Known Good T) s (cat c) fun _ => True :=
    fun c => yields_cat.mpr fun _ _ => trivial
  cases c
  case logicOr | logicAnd | bitOr | bitXor | bitAnd | equality | relational | shift | additive
      | multiplicative =>
    exact atLeast_level (by decide) (hAny _) (expects_cat _)
  case args => exact yields_commaList (expects_cat .args) (expects_cat .arg)
  case paramList => exact yields_commaList (expects_cat .paramList) (expects_cat .param)
  case patElems => exact yields_commaList (expects_cat .patElems) (expects_cat .patElem)
  case arguments => exact yields_bracketed (expects_cat .args)
  case params => exact yields_bracketed (expects_cat .paramList)
  case tplRest => exact expects_tplRest
  case jsxContainer =>
    exact Always.yields (.seqLeft (.seq (.seqLeft (.ofSpan fun _ _ => ifBuilt_of_bind fun _ => rfl))))
  case fnExpr =>
    exact Always.yields (.seq (.seq (.seq (.seq (.seqLeft (.seq (.ofSpan fun _ _ _ _ _ _ =>
      ifBuilt_of_bind fun _ => ⟨Nat.le_refl _, rfl⟩)))))))
  case classExpr =>
    exact Always.yields (.seq (.seq (.seq (.seqLeft (.ofSpan fun _ _ _ _ =>
      ifBuilt_of_bind fun _ => ⟨Nat.le_refl _, rfl⟩)))))
  case objectLit | arrayLit =>
    exact Always.yields (.seq (.ofSpan fun _ _ => ifBuilt_of_bind fun _ => Nat.le_refl _))
  case parenExpr =>
    exact Always.yields (.seqLeft (.seq (.seqLeft (.ofSpan fun _ _ =>
      ifBuilt_of_bind fun _ => Nat.le_refl _))))
  case arrowFn =>
    exact Always.yields (.seq (.seqLeft (.seq (.seq (.ofSpan fun _ _ _ _ =>
      ifBuilt_of_bind fun _ => ifBuilt_of_bind fun _ => Nat.le_refl _)))))
  case objectPat | arrayPat =>
    exact Always.yields (.seq (.ofSpan fun _ _ => ifBuilt_of_bind fun _ => rfl))
  case assignPat =>
    exact Always.yields (.seq (.seqLeft (.seq (.ofSpan fun _ _ _ =>
      ifBuilt_of_bind fun _ => ifBuilt_of_bind fun _ => rfl))))
  case restPat =>
    exact Always.yields (.seq (.seqLeft (.ofSpan fun _ _ => ifBuilt_of_bind fun _ => rfl)))
  case methodDef =>
    exact Always.yields (.seq (.seq (.seq (.seq (.seq (.ofSpan fun _ _ _ _ _ _ =>
      ifBuilt_of_bind fun _ => ifBuilt_of_bind fun _ => nofun))))))
  case getterDef =>
    exact Always.yields (.seq (.seqLeft (.seqLeft (.seq (.seqLeft (.ofSpan fun _ _ _ =>
      ifBuilt_of_bind fun _ => ifBuilt_of_bind fun _ => nofun))))))
  case setterDef =>
    exact Always.yields (.seq (.seq (.seq (.seqLeft (.ofSpan fun _ _ _ _ =>
      ifBuilt_of_bind fun _ => ifBuilt_of_bind fun _ => nofun)))))
  case varDecl =>
    exact Always.yields (.seqLeft (.seq (.seq (.ofSpan fun _ _ _ => ifBuilt_of_bind fun _ => rfl))))
  case fnDecl =>
    exact Always.yields (.seq (.seq (.seq (.seq (.seqLeft (.seq (.ofSpan fun _ _ _ _ _ _ =>
      ifBuilt_of_bind fun _ => rfl)))))))
  case classDecl =>
    exact Always.yields (.seq (.seq (.seq (.seqLeft (.ofSpan fun _ _ _ _ =>
      ifBuilt_of_bind fun _ => rfl)))))
  case primary => exact expects_primary
  case member => exact expects_member
  case call => exact expects_call
  case newOnly => exact expects_newOnly
  case lhs =>
    exact yields_orElse.mpr ⟨yields_weaker (expects_cat .newOnly) fun _ he => he.1,
      yields_weaker (expects_cat .call) fun _ he => he.1⟩
  case classHeritage => exact yields_seqRight.mpr (yields_tok.mpr fun _ _ => expects_cat .lhs)
  case unary => exact expects_unary
  case cond => exact expects_cond
  case assign => exact expects_assign
  case expr => exact expects_cat .assign
  case spread => exact expects_spread
  case arg => exact expects_arg
  case pat => exact expects_pat
  case patElem => exact yields_orElse.mpr ⟨expects_cat .pat, expects_cat .assignPat⟩
  case param =>
    exact yields_orElse.mpr ⟨expects_cat .pat, yields_orElse.mpr ⟨expects_cat .assignPat,
      yields_weaker (expects_cat .restPat) fun _ => Pat.isPat_of_isRest⟩⟩
  case arrowParams => exact expects_arrowParams
  case methodLike =>
    exact yields_orElse.mpr ⟨expects_cat .methodDef,
      yields_orElse.mpr ⟨expects_cat .getterDef, expects_cat .setterDef⟩⟩
  -- of the values of other categories nothing is expected
  all_goals exact fun _ _ _ _ => trivial

end ModuleGrammar

end ClientBoundary
