import ClientBoundary.Proofs.DanglingElse
import ClientBoundary.Proofs.NodePlaces

/-!
# The shape of modules that are read

A module that is read is a tree that could be written down again: its operands stand where they stand
without parentheses, its fields hold what belongs there, and its literals and templates are what their
texts say. None of this needs more than the grammar, except for the statements with `else`, for which
the source must have been read with the preferred tree.

* `inherited_regular` — regularity passes through all trees of a source.
* `operands_bind` — operands bind as tightly as their places ask for, and an `else` belongs to the
  outermost `if`.
* `nodes_sorted_and_faithful` — fields, literals, templates, elements and methods are in order, and no
  node is one that cannot be printed.
-/

namespace ClientBoundary

open Grammar

/-- A node that is in order by itself and in the `else`s that it has. -/
def Node.InShape (n : Node) : Prop := n.Regular ∧ n.Settled

/-- The nodes of the values of chosen trees are in shape. -/
theorem inherited_regular (file : Option Text) (tokens : List Token) :
    Inherited file tokens (Tree.Chosen .items tokens) fun _ => Node.All Node.InShape where
  more _ _ _ _ h := h
  down _ _ _ h := h.children
  closed _ _ _ :=
    { phrase := fun _ _ _ hPlain hRegular hParts =>
        .mk ⟨hRegular, Node.settled_of_isPlain hPlain⟩ hParts
      wrapper := fun n p hParts _ hPlain hRegular hPart => by
        refine .mk ⟨hRegular, Node.settled_of_isPlain hPlain⟩ ?_
        rw [hParts]
        exact List.forall_mem_singleton.mpr hPart
      literal := fun _ n _ _ _ hParts _ hRegular => by
        refine .of_leaf ⟨hRegular, ?_⟩ hParts
        unfold Node.Settled
        split
        · cases hParts
        · cases hParts
        · trivial }
  branch tree hChosen _ test cons alt hValue hRegular hParts := by
    have hSettled : IfBuilt (fun s => (Node.stmt s).Settled) (tree.value file) :=
      settled_of_chosen hChosen
    rw [hValue] at hSettled
    exact .mk ⟨hRegular, hSettled⟩ hParts

theorem ReadFrom.chosen {source : Text} {file : Option Text} {parsed : ParsedModule}
    {tree : Option ItemsTree} (h : ReadFrom source file parsed tree) :
    ∀ t ∈ tree, Tree.Chosen .items (lex source).statements _ t := by
  intro t ht
  obtain rfl := Option.mem_def.mp ht
  obtain ⟨-, hYield, hPreferred⟩ := syntaxTree_eq_some_iff.mp h.matched
  refine ⟨0, fun n hn => ?_, hYield ▸ List.prefix_rfl, hPreferred⟩
  cases hn
  exact .inl ⟨rfl, rfl⟩

/-- All nodes of a module that is read are in shape. -/
theorem inShape_of_parseModule {source : Text} {file : Option Text} {parsed : ParsedModule}
    (h : parseModule source file = .ok parsed) :
    (Node.module parsed.module).All Node.InShape := by
  obtain ⟨tree, hRead⟩ := parseModule_eq_ok h
  refine .mk ⟨⟨trivial, trivial, trivial, rfl⟩, trivial⟩ (List.forall_mem_map.mpr ?_)
  exact hRead.each_item (inherited_regular file _) hRead.chosen

-- ---------------------------------------------------------------------------------------------
-- Operands and `else`
-- ---------------------------------------------------------------------------------------------

/-- The branch before `else` of the one statement that a module consists of. -/
def Module.beforeElse? (m : Module) : Option Stmt :=
  match m.body with
  | [.stmt (.ifStmt _ cons (some _) _)] => some cons
  | _ => none

/-- In a module that is read, every operand binds as tightly as its place asks for: no parentheses have
to be added. An `else` belongs to the outermost `if` that it can belong to. -/
theorem operands_bind {source : Text} {file : Option Text} {parsed : ParsedModule}
    (h : parseModule source file = .ok parsed) :
    ∀ n, Node.Within (.module parsed.module) n → n.Binds ∧ n.Settled := by
  intro n hn
  have hShape := (inShape_of_parseModule h).of_within hn
  exact ⟨hShape.1.binds, hShape.2⟩

set_option maxRecDepth 100000 in
/-- Of two nested `if`s it is the outer one that has the `else`: its branch ends in an `if` without. -/
theorem operands_bind_under_outer_else :
    ∃ parsed cons, parseModule "if (a) if (b) c; else d" none = .ok parsed ∧
      parsed.module.beforeElse? = some cons ∧ cons.endsOpen = true ∧
      ∀ n, Node.Within (.module parsed.module) n → n.Binds ∧ n.Settled := by
  have hReads : readsAs "if (a) if (b) c; else d"
      (fun parsed => parsed.module.beforeElse?.any Stmt.endsOpen) = true := by
    decide +kernel
  obtain ⟨parsed, hRead, hAny⟩ := exists_of_readsAs hReads
  obtain ⟨cons, hCons, hOpen⟩ := (Option.any_eq_true _ _).mp hAny
  exact ⟨parsed, cons, hRead, hCons, hOpen, operands_bind hRead⟩

-- ---------------------------------------------------------------------------------------------
-- Fields and literals
-- ---------------------------------------------------------------------------------------------

/-- In a module that is read, every field of every node holds something of a sort that belongs there,
literals, templates, elements and methods agree with what they were read from, and there is no node for
which the printer has nothing but a fallback. -/
theorem nodes_sorted_and_faithful {source : Text} {file : Option Text} {parsed : ParsedModule}
    (h : parseModule source file = .ok parsed) :
    ∀ n, Node.Within (.module parsed.module) n → n.Sorted ∧ n.Faithful ∧ n.fallback? = none := by
  intro n hn
  have hRegular := ((inShape_of_parseModule h).of_within hn).1
  exact ⟨hRegular.sorted, hRegular.faithful, hRegular.printed⟩

set_option maxRecDepth 100000 in
/-- A static method that is called as the constructor is, and a string with an escape. -/
theorem nodes_sorted_and_faithful_in_class :
    ∃ parsed, parseModule "class C \x7b static constructor() \x7b\x7d \x7d '\\x41'" none =
        .ok parsed ∧
      parsed.module.body.length = 2 ∧
      ∀ n, Node.Within (.module parsed.module) n → n.Sorted ∧ n.Faithful ∧ n.fallback? = none := by
  have hReads : readsAs "class C \x7b static constructor() \x7b\x7d \x7d '\\x41'"
      (fun parsed => parsed.module.body.length = 2) = true := by
    decide +kernel
  obtain ⟨parsed, hRead, hLength⟩ := exists_of_readsAs hReads
  exact ⟨parsed, hRead, of_decide_eq_true hLength, nodes_sorted_and_faithful hRead⟩

end ClientBoundary
