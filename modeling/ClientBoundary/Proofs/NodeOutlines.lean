import ClientBoundary.Ast.Outline
import ClientBoundary.Proofs.Nodes

/-!
# The outline of a module has all its nodes

The outline of a module forgets the sorts of its nodes and puts the parts of each in the order in
which they are written down in its type. It was made for traversals; this module says that nothing
gets lost on the way from the nodes of a module to its outline, and that nothing is added.

* `Outline.at?` — the node at an address: the numbers of the parts that lead there from the root.
* `outlined` — for each sort of node: its outline has the outlines of its parts as parts, or the node
  only stands for one of another sort.
* `exists_address`, `exists_node` — every node of a module is at some address of its outline, and at
  every address is a node with as many parts as the outline shows.
-/

namespace ClientBoundary

open Outline

/-- The node at an address, which gives the number of a part at each level from the root. -/
def Outline.at? : Outline → (address : List Nat) → Option Outline
  | o, [] => some o
  | o, i :: address => o.parts[i]?.bind fun p => p.at? address

theorem Outline.at?_append (o : Outline) (a b : List Nat) :
    o.at? (a ++ b) = (o.at? a).bind fun p => p.at? b := by
  induction a generalizing o with
  | nil => rfl
  | cons i a ih =>
    rw [List.cons_append, Outline.at?, Outline.at?, Option.bind_assoc]
    exact congrArg _ (funext ih)

-- ---------------------------------------------------------------------------------------------
-- Outlines of nodes
-- ---------------------------------------------------------------------------------------------

/-- The outline of a node; a hole has none. -/
def Node.outline : Node → List Outline
  | .module m => [ofModule m]
  | .item i => [ofItem i]
  | .importSpecifier i => [ofImportSpecifier i]
  | .exportSpecifier e => [ofExportSpecifier e]
  | .exportName e => [ofExportName e]
  | .ident i => [ofIdent i]
  | .str l | .attrStr l => [ofStr l]
  | .num l => [ofNum l]
  | .expr e => ofExpr e
  | .template t => [ofTemplate t]
  | .property p => [ofProp p]
  | .propName n => [ofPropName n]
  | .memberKey k => [ofMemberKey k]
  | .target t => ofTarget t
  | .function f => [ofFunction f]
  | .arrowBody b => ofArrowBody b
  | .cls c => [ofClass c]
  | .classMember m => [ofMember m]
  | .pat p => ofPat p
  | .patProp p => ofPatProp p
  | .jsx n => [ofJsx n]
  | .jsxName n => [ofJsxName n]
  | .attr a => [ofAttr a]
  | .attrValue v => [ofAttrValue v]
  | .child c => [ofChild c]
  | .block b => [ofBlock b]
  | .stmt s => [ofStmt s]
  | .declarator d => [ofDeclarator d]

/-- How many nodes of other sorts a node may stand for, one for the other. -/
def Node.rank : Node → Nat
  | .item _ | .target _ | .arrowBody _ | .patProp _ | .attrValue _ => 2
  | .expr _ | .pat _ | .child _ | .propName _ | .memberKey _ | .exportName _ | .stmt _ => 1
  | _ => 0

/-- What the outline of a node is made from. -/
inductive Outlined (n : Node) : Prop where
  /-- The outlines of its parts, in some order. -/
  | own (kind : NodeKind) (label : Option Text) (parts : List Outline)
      (hOutline : n.outline = [.node kind label parts])
      (hParts : parts.Perm (n.parts.flatMap Node.outline))
  /-- The node only stands for another. -/
  | standsFor (p : Node) (hParts : n.parts = [p]) (hOutline : n.outline = p.outline)
      (hRank : p.rank < n.rank)
  | hole (hOutline : n.outline = []) (hParts : n.parts = [])

-- ---------------------------------------------------------------------------------------------
-- Parts in lists
-- ---------------------------------------------------------------------------------------------

/-- The outlines of the elements of a list, by the function that gives them for the whole list. -/
theorem flatMap_outline_map {α : Type} (sort : α → Node) (all : List α → List Outline)
    (hNil : all [] = []) (hCons : ∀ x xs, all (x :: xs) = (sort x).outline ++ all xs) (xs : List α) :
    (xs.map sort).flatMap Node.outline = all xs := by
  induction xs with
  | nil => exact hNil.symm
  | cons x xs ih => rw [hCons, ← ih]; rfl

/-- The outline of a part that may be missing. -/
theorem flatMap_outline_toList {α : Type} (sort : α → Node) (opt : Option α → List Outline)
    (hNone : opt none = []) (hSome : ∀ x, opt (some x) = (sort x).outline) (o : Option α) :
    (o.toList.map sort).flatMap Node.outline = opt o := by
  cases o with
  | none => exact hNone.symm
  | some x => exact (List.append_nil _).trans (hSome x).symm

@[simp] theorem flatMap_outline_exprs (es : List Expr) :
    (es.map Node.expr).flatMap Node.outline = ofExprs es :=
  flatMap_outline_map .expr ofExprs rfl (fun _ _ => rfl) es

@[simp] theorem flatMap_outline_pats (ps : List Pat) :
    (ps.map Node.pat).flatMap Node.outline = ofPats ps :=
  flatMap_outline_map .pat ofPats rfl (fun _ _ => rfl) ps

@[simp] theorem flatMap_outline_patProps (ps : List PatProp) :
    (ps.map Node.patProp).flatMap Node.outline = ofPatProps ps :=
  flatMap_outline_map .patProp ofPatProps rfl (fun _ _ => rfl) ps

@[simp] theorem flatMap_outline_props (ps : List Property) :
    (ps.map Node.property).flatMap Node.outline = ofProps ps :=
  flatMap_outline_map .property ofProps rfl (fun _ _ => rfl) ps

@[simp] theorem flatMap_outline_members (ms : List ClassMember) :
    (ms.map Node.classMember).flatMap Node.outline = ofMembers ms :=
  flatMap_outline_map .classMember ofMembers rfl (fun _ _ => rfl) ms

@[simp] theorem flatMap_outline_attrs (as : List JsxAttr) :
    (as.map Node.attr).flatMap Node.outline = ofAttrs as :=
  flatMap_outline_map .attr ofAttrs rfl (fun _ _ => rfl) as

@[simp] theorem flatMap_outline_children (cs : List JsxChild) :
    (cs.map Node.child).flatMap Node.outline = ofChildren cs :=
  flatMap_outline_map .child ofChildren rfl (fun _ _ => rfl) cs

@[simp] theorem flatMap_outline_stmts (ss : List Stmt) :
    (ss.map Node.stmt).flatMap Node.outline = ofStmts ss :=
  flatMap_outline_map .stmt ofStmts rfl (fun _ _ => rfl) ss

@[simp] theorem flatMap_outline_declarators (ds : List Declarator) :
    (ds.map Node.declarator).flatMap Node.outline = ofDeclarators ds :=
  flatMap_outline_map .declarator ofDeclarators rfl (fun _ _ => rfl) ds

@[simp] theorem ofExprs_toList (e : Option Expr) : ofExprs e.toList = ofOptExpr e := by
  rw [← flatMap_outline_exprs]
  exact flatMap_outline_toList .expr ofOptExpr rfl (fun _ => rfl) e

@[simp] theorem ofStmts_toList (s : Option Stmt) : ofStmts s.toList = ofOptStmt s := by
  rw [← flatMap_outline_stmts]
  exact flatMap_outline_toList .stmt ofOptStmt rfl (fun _ => rfl) s

@[simp] theorem flatMap_outline_optAttrValue (v : Option JsxAttrValue) :
    (v.toList.map Node.attrValue).flatMap Node.outline = ofOptAttrValue v :=
  flatMap_outline_toList .attrValue ofOptAttrValue rfl (fun _ => rfl) v

@[simp] theorem flatMap_outline_optIdent (i : Option Ident) :
    (i.toList.map Node.ident).flatMap Node.outline = ofOptIdent i :=
  flatMap_outline_toList .ident ofOptIdent rfl (fun _ => rfl) i

@[simp] theorem flatMap_outline_optExportName (e : Option ExportName) :
    (e.toList.map Node.exportName).flatMap Node.outline = ofOptExportName e :=
  flatMap_outline_toList .exportName ofOptExportName rfl (fun _ => rfl) e

theorem flatMap_outline_singletons {α : Type} (sort : α → Node) (one : α → Outline)
    (h : ∀ x, (sort x).outline = [one x]) (xs : List α) :
    (xs.map sort).flatMap Node.outline = xs.map one :=
  flatMap_outline_map sort (·.map one) rfl (fun x _ => by rw [h x]; rfl) xs

-- ---------------------------------------------------------------------------------------------
-- Sort by sort
-- ---------------------------------------------------------------------------------------------

/-- The outline of a node has the outlines of its parts in their order. -/
theorem outlined_of_eq {n : Node} {kind : NodeKind} {label : Option Text} {parts : List Outline}
    (hOutline : n.outline = [.node kind label parts])
    (hParts : parts = n.parts.flatMap Node.outline) : Outlined n :=
  .own kind label parts hOutline (.of_eq hParts)

theorem outlined_expr (e : Expr) : Outlined (.expr e) := by
  cases e
  case ident i => exact .standsFor (.ident i) rfl rfl Nat.zero_lt_one
  case str l => exact .standsFor (.str l) rfl rfl Nat.zero_lt_one
  case num l => exact .standsFor (.num l) rfl rfl Nat.zero_lt_one
  case tpl t => exact .standsFor (.template t) rfl rfl Nat.zero_lt_one
  case jsx n => exact .standsFor (.jsx n) rfl rfl Nat.zero_lt_one
  case elision => exact .hole rfl rfl
  all_goals
    refine outlined_of_eq rfl ?_
    simp [Node.parts, Node.exprParts, Node.outline]

theorem outlined_stmt (s : Stmt) : Outlined (.stmt s) := by
  cases s
  case blockStmt b => exact .standsFor (.block b) rfl rfl Nat.zero_lt_one
  all_goals
    refine outlined_of_eq rfl ?_
    simp [Node.parts, Node.stmtParts, Node.outline]

theorem outlined_pat (p : Pat) : Outlined (.pat p) := by
  cases p
  case ident i => exact .standsFor (.ident i) rfl rfl Nat.zero_lt_one
  case elision => exact .hole rfl rfl
  all_goals
    refine outlined_of_eq rfl ?_
    simp [Node.parts, Node.patParts, Node.outline]

theorem outlined_item (i : ModuleItem) : Outlined (.item i) := by
  cases i with
  | stmt s => exact .standsFor (.stmt s) rfl rfl Nat.one_lt_two
  | importDecl specifiers src span =>
    refine outlined_of_eq rfl ?_
    simp [Node.parts, Node.itemParts,
      flatMap_outline_singletons .importSpecifier ofImportSpecifier fun _ => rfl, Node.outline]
  | namedExport specifiers src span =>
    refine outlined_of_eq rfl ?_
    have hSrc : (src.map ofStr).toList = (src.toList.map Node.str).flatMap Node.outline := by
      cases src <;> rfl
    simp [Node.parts, Node.itemParts, hSrc,
      flatMap_outline_singletons .exportSpecifier ofExportSpecifier fun _ => rfl]
  | exportAll src name span =>
    -- the source is written down before the name, and stands after it
    have hParts : (Node.item (.exportAll src name span)).parts.flatMap Node.outline =
        ofOptExportName name ++ [ofStr src] := by
      simp [Node.parts, Node.itemParts, Node.outline]
    exact .own _ _ _ rfl (hParts ▸ (List.perm_append_singleton _ _).symm)
  | exportDecl d span | exportDefaultDecl e span | exportDefaultExpr e span =>
    refine outlined_of_eq rfl ?_
    simp [Node.parts, Node.itemParts, Node.outline]

/-- Each node of a module has an outline made from those of its parts, or stands for another. -/
theorem outlined (n : Node) : Outlined n := by
  cases n with
  | item i => exact outlined_item i
  | expr e => exact outlined_expr e
  | stmt s => exact outlined_stmt s
  | pat p => exact outlined_pat p
  | module m =>
    exact outlined_of_eq rfl (flatMap_outline_singletons .item ofItem (fun _ => rfl) m.body).symm
  | importSpecifier i =>
    cases i with
    | named i imported span =>
      have hParts : (Node.importSpecifier (.named i imported span)).parts.flatMap Node.outline =
          ofOptExportName imported ++ [ofIdent i] := by
        simp [Node.parts, Node.outline]
      exact .own _ _ _ rfl (hParts ▸ (List.perm_append_singleton _ _).symm)
    | default i span | starAs i span => exact outlined_of_eq rfl rfl
  | exportSpecifier e =>
    refine outlined_of_eq rfl ?_
    simp [Node.parts, Node.outline]
  | exportName e =>
    cases e with
    | ident i => exact .standsFor (.ident i) rfl rfl Nat.zero_lt_one
    | str l => exact .standsFor (.str l) rfl rfl Nat.zero_lt_one
  | propName n =>
    cases n with
    | ident i => exact .standsFor (.ident i) rfl rfl Nat.zero_lt_one
    | str l => exact .standsFor (.str l) rfl rfl Nat.zero_lt_one
    | num l => exact .standsFor (.num l) rfl rfl Nat.zero_lt_one
    | computed e span => exact outlined_of_eq rfl (List.append_nil _).symm
    | invalid span => exact outlined_of_eq rfl rfl
  | memberKey k =>
    cases k with
    | ident i => exact .standsFor (.ident i) rfl rfl Nat.zero_lt_one
    | computed e span => exact outlined_of_eq rfl (List.append_nil _).symm
  | target t =>
    cases t with
    | expr e => exact .standsFor (.expr e) rfl rfl Nat.one_lt_two
    | pat p => exact .standsFor (.pat p) rfl rfl Nat.one_lt_two
  | arrowBody b =>
    cases b with
    | block b => exact .standsFor (.block b) rfl rfl Nat.zero_lt_two
    | expr e => exact .standsFor (.expr e) rfl rfl Nat.one_lt_two
  | patProp p =>
    cases p with
    | pat p => exact .standsFor (.pat p) rfl rfl Nat.one_lt_two
    | assign k v span | keyValue k v span =>
      refine outlined_of_eq rfl ?_
      simp [Node.parts, Node.outline]
  | attrValue v =>
    cases v with
    | str l => exact .standsFor (.attrStr l) rfl rfl Nat.zero_lt_two
    | child c => exact .standsFor (.child c) rfl rfl Nat.one_lt_two
  | child c =>
    cases c with
    | node n => exact .standsFor (.jsx n) rfl rfl Nat.zero_lt_one
    | text raw span | container e span | spread e span =>
      refine outlined_of_eq rfl ?_
      simp [Node.parts, Node.outline]
  | jsx n =>
    cases n
    all_goals
      refine outlined_of_eq rfl ?_
      simp [Node.parts, Node.outline]
  | jsxName n => cases n <;> exact outlined_of_eq rfl rfl
  | ident i | str l | attrStr l | num l => exact outlined_of_eq rfl rfl
  | template t | property t | function t | cls t | classMember t | attr t | block t | declarator t =>
    cases t
    all_goals
      refine outlined_of_eq rfl ?_
      simp [Node.parts, Node.outline]

-- ---------------------------------------------------------------------------------------------
-- Nodes and addresses
-- ---------------------------------------------------------------------------------------------

theorem Node.Within.trans {root n p : Node} (h : Node.Within root n) (hPart : Node.Within n p) :
    Node.Within root p := by
  induction hPart with
  | self => exact h
  | part _ hPart ih => exact .part ih hPart

theorem Node.Within.of_part {n p q : Node} (hPart : p ∈ n.parts) (h : Node.Within p q) :
    Node.Within n q :=
  Node.Within.trans (.part .self hPart) h

/-- A node has an outline of its own, whose parts are the outlines of its parts. -/
def Node.HasOutline (n : Node) (o : Outline) : Prop :=
  n.outline = [o] ∧ o.parts.Perm (n.parts.flatMap Node.outline)

/-- An outline is that of a node below, if not of the node itself. -/
theorem exists_hasOutline {o : Outline} (n : Node) (ho : o ∈ n.outline) :
    ∃ q, Node.Within n q ∧ q.HasOutline o := by
  cases outlined n with
  | own kind label parts hOutline hParts =>
    rw [hOutline, List.mem_singleton] at ho
    subst ho
    exact ⟨n, .self, hOutline, hParts⟩
  | standsFor p hParts hOutline hRank =>
    obtain ⟨q, hWithin, hq⟩ := exists_hasOutline p (hOutline ▸ ho)
    exact ⟨q, .of_part (by rw [hParts]; exact List.mem_singleton_self p) hWithin, hq⟩
  | hole hOutline =>
    rw [hOutline] at ho
    cases ho
termination_by n.rank

/-- Every node of a module is at some address of its outline. -/
theorem exists_address {m : Module} {n : Node} (h : Node.Within (.module m) n) :
    ∀ o ∈ n.outline, ∃ address, (ofModule m).at? address = some o := by
  induction h with
  | self =>
    intro o ho
    exact ⟨[], congrArg some (List.mem_singleton.mp ho).symm⟩
  | @part n p _ hPart ih =>
    intro o ho
    have hMem : o ∈ n.parts.flatMap Node.outline := List.mem_flatMap.mpr ⟨p, hPart, ho⟩
    cases outlined n with
    | own kind label parts hOutline hParts =>
      obtain ⟨address, hAddress⟩ := ih (.node kind label parts) (by rw [hOutline]; simp)
      obtain ⟨i, hi⟩ := List.mem_iff_getElem?.mp (hParts.mem_iff.mpr hMem)
      refine ⟨address ++ [i], ?_⟩
      rw [Outline.at?_append, hAddress]
      exact (congrArg (Option.bind · _) hi).trans rfl
    | standsFor q hParts hOutline =>
      rw [hParts, List.flatMap_singleton, ← hOutline] at hMem
      exact ih o hMem
    | hole _ hParts =>
      rw [hParts] at hPart
      cases hPart

/-- At every address of the outline of a node is the outline of a node below it. -/
theorem Node.HasOutline.exists_within {address : List Nat} {n : Node} {root o : Outline}
    (h : n.HasOutline root) (hAt : root.at? address = some o) :
    ∃ q, Node.Within n q ∧ q.HasOutline o := by
  induction address generalizing n root with
  | nil =>
    obtain rfl := Option.some.inj hAt
    exact ⟨n, .self, h⟩
  | cons i address ih =>
    obtain ⟨part, hPart, hRest⟩ := Option.bind_eq_some_iff.mp hAt
    have hMem := h.2.mem_iff.mp (List.mem_of_getElem? hPart)
    obtain ⟨p, hp, hOutline⟩ := List.mem_flatMap.mp hMem
    obtain ⟨q, hWithin, hq⟩ := exists_hasOutline p hOutline
    obtain ⟨r, hBelow, hr⟩ := ih hq hRest
    exact ⟨r, .of_part hp (hWithin.trans hBelow), hr⟩

/-- At every address of the outline of a module is one of its nodes. -/
theorem exists_node {m : Module} {address : List Nat} {o : Outline}
    (h : (ofModule m).at? address = some o) :
    ∃ n, Node.Within (.module m) n ∧ n.HasOutline o := by
  obtain ⟨q, hWithin, hq⟩ := exists_hasOutline (.module m) (List.mem_singleton_self (ofModule m))
  obtain ⟨n, hBelow, hn⟩ := hq.exists_within h
  exact ⟨n, hWithin.trans hBelow, hn⟩

end ClientBoundary
