import ClientBoundary.Ast.Traversal
import ClientBoundary.Proofs.NodeOutlines

/-!
# What a traversal visits and what it leaves

A traversal takes items out of the body of a module while it walks over it. This does not disturb the
walk. Which nodes are visited is said here by their addresses alone, without a walk: those with a
handler and with no node above them whose handler stops.

* `Called` — a handler is called on the node at an address.
* `Outline.calls` — the calls in the order in which they are made; `mem_calls` and `pairwise_calls` say
  that they are the right ones, each once and in order.
* `walk_eq` — a walk on its way records these calls and takes out the items among them that it has to.
* `traversal_is_complete` — the whole.
-/

namespace ClientBoundary

open Outline

/-- A handler does not go on into the parts of a node. -/
def Handlers.StopsAt (handlers : Handlers) (kind : NodeKind) : Prop :=
  handlers kind = some .stop ∨ handlers kind = some .remove

/-- The same handlers, but none of them takes anything out. -/
def Handlers.stopping (handlers : Handlers) : Handlers := fun kind =>
  match handlers kind with
  | some .remove => some .stop
  | handler => handler

/-- A handler is called on the node at an address: there is one for its kind, and no handler of a
node above it stops. -/
structure Called (handlers : Handlers) (root : Outline) (address : List Nat) : Prop where
  handled : ∃ o, root.at? address = some o ∧ handlers o.kind ≠ none
  reached : ∀ above o, above <+: address → above ≠ address → root.at? above = some o →
    ¬ handlers.StopsAt o.kind

theorem called_nil {handlers : Handlers} {root : Outline} :
    Called handlers root [] ↔ handlers root.kind ≠ none := by
  constructor
  · intro h
    obtain ⟨o, hAt, hHandled⟩ := h.handled
    rwa [← Option.some.inj hAt] at hHandled
  · intro h
    exact ⟨⟨root, rfl, h⟩, fun above o hAbove hNe => absurd (List.prefix_nil.mp hAbove) hNe⟩

theorem called_cons {handlers : Handlers} {root : Outline} {i : Nat} {address : List Nat} :
    Called handlers root (i :: address) ↔
      ¬ handlers.StopsAt root.kind ∧ ∃ p, root.parts[i]? = some p ∧ Called handlers p address := by
  constructor
  · intro h
    obtain ⟨o, hAt, hHandled⟩ := h.handled
    obtain ⟨p, hPart, hRest⟩ := Option.bind_eq_some_iff.mp hAt
    refine ⟨h.reached [] root List.nil_prefix (List.cons_ne_nil _ _).symm rfl, p, hPart,
      ⟨o, hRest, hHandled⟩, fun above o hAbove hNe hAt => ?_⟩
    refine h.reached (i :: above) o (List.cons_prefix_cons.mpr ⟨rfl, hAbove⟩) (by simpa using hNe) ?_
    exact Option.bind_eq_some_iff.mpr ⟨p, hPart, hAt⟩
  · rintro ⟨hRoot, p, hPart, h⟩
    obtain ⟨o, hRest, hHandled⟩ := h.handled
    refine ⟨⟨o, Option.bind_eq_some_iff.mpr ⟨p, hPart, hRest⟩, hHandled⟩, ?_⟩
    intro above o hAbove hNe hAt
    cases above with
    | nil => exact Option.some.inj hAt ▸ hRoot
    | cons j above =>
      obtain ⟨rfl, hBelow⟩ := List.cons_prefix_cons.mp hAbove
      obtain ⟨q, hq, hAt⟩ := Option.bind_eq_some_iff.mp hAt
      obtain rfl := Option.some.inj (hPart.symm.trans hq)
      exact h.reached above o hBelow (by simpa using hNe) hAt

-- ---------------------------------------------------------------------------------------------
-- Calls in order
-- ---------------------------------------------------------------------------------------------

namespace Outline

mutual

/-- The nodes that handlers are called on with their addresses, in the order of the calls. -/
def calls (handlers : Handlers) : Outline → List (List Nat × Outline)
  | .node kind label parts =>
    match handlers kind with
    | none => partCalls handlers parts 0
    | some .descend => ([], .node kind label parts) :: partCalls handlers parts 0
    | some .stop => [([], .node kind label parts)]
    | some .remove => [([], .node kind label parts)]

/-- The calls in parts of a node, the first of them being number `i`. -/
def partCalls (handlers : Handlers) : List Outline → (i : Nat) → List (List Nat × Outline)
  | [], _ => []
  | o :: os, i => (calls handlers o).map (fun c => (i :: c.1, c.2)) ++ partCalls handlers os (i + 1)

end

/-- What a handler records of a node. -/
def visit (o : Outline) : Visit := ⟨o.kind, o.label⟩

end Outline

variable {handlers : Handlers}

theorem mem_partCalls {os : List Outline} {i : Nat} {c : List Nat × Outline} :
    c ∈ partCalls handlers os i ↔
      ∃ j o, os[j]? = some o ∧ ∃ d ∈ calls handlers o, c = ((i + j) :: d.1, d.2) := by
  induction os generalizing i with
  | nil => simp [partCalls]
  | cons o os ih =>
    rw [partCalls, List.mem_append, List.mem_map, ih]
    constructor
    · rintro (⟨d, hd, rfl⟩ | ⟨j, p, hp, d, hd, rfl⟩)
      · exact ⟨0, o, rfl, d, hd, rfl⟩
      · exact ⟨j + 1, p, hp, d, hd, by rw [Nat.add_right_comm, Nat.add_assoc]⟩
    · rintro ⟨j, p, hp, d, hd, rfl⟩
      cases j with
      | zero =>
        obtain rfl := Option.some.inj hp
        exact .inl ⟨d, hd, rfl⟩
      | succ j => exact .inr ⟨j, p, hp, d, hd, by rw [Nat.add_right_comm, Nat.add_assoc]⟩

theorem mem_calls {address : List Nat} {root o : Outline} :
    (address, o) ∈ calls handlers root ↔ Called handlers root address ∧ root.at? address = some o := by
  induction address generalizing root with
  | nil =>
    have hNone : ∀ os i, ([], o) ∉ partCalls handlers os i := by
      intro os i hMem
      obtain ⟨_, _, _, _, _, hEq⟩ := mem_partCalls.mp hMem
      cases hEq
    obtain ⟨kind, label, parts⟩ := root
    rw [called_nil, Outline.at?, Option.some.injEq, calls, Outline.kind]
    split <;> simp_all [eq_comm]
  | cons i address ih =>
    have hPart : ∀ parts : List Outline, (i :: address, o) ∈ partCalls handlers parts 0 ↔
        ∃ p, parts[i]? = some p ∧ (address, o) ∈ calls handlers p := by
      intro parts
      rw [mem_partCalls]
      constructor
      · rintro ⟨j, p, hp, d, hd, hEq⟩
        obtain ⟨hAddress, rfl⟩ := Prod.mk.inj hEq
        obtain ⟨rfl, rfl⟩ := List.cons.inj hAddress
        exact ⟨p, by simpa using hp, hd⟩
      · rintro ⟨p, hp, hd⟩
        exact ⟨i, p, hp, _, hd, by rw [Nat.zero_add]⟩
    obtain ⟨kind, label, parts⟩ := root
    have hAt : (∃ p, parts[i]? = some p ∧ (address, o) ∈ calls handlers p) ↔
        (∃ p, parts[i]? = some p ∧ Called handlers p address) ∧
          (Outline.node kind label parts).at? (i :: address) = some o := by
      simp only [ih, Outline.at?, Outline.parts]
      cases parts[i]? <;> simp
    rw [called_cons, and_assoc, Outline.parts, ← hAt, ← hPart, Outline.kind, Handlers.StopsAt, calls]
    split <;> simp_all

/-- Addresses are ordered as a text goes: a node before its parts, and parts by their numbers. -/
abbrev Precedes : List Nat → List Nat → Prop := List.Lex (· < ·)

mutual

/-- Each call is made once, and a node comes before its parts and a part before the next. -/
theorem pairwise_calls : (o : Outline) →
    (calls handlers o).Pairwise fun c d => Precedes c.1 d.1
  | .node kind label parts => by
    have hParts := pairwise_partCalls parts 0
    rw [calls]
    split
    · exact hParts
    · refine List.pairwise_cons.mpr ⟨fun c hc => ?_, hParts⟩
      obtain ⟨_, _, _, _, _, rfl⟩ := mem_partCalls.mp hc
      exact .nil
    · exact List.pairwise_singleton _ _
    · exact List.pairwise_singleton _ _

theorem pairwise_partCalls : (os : List Outline) → (i : Nat) →
    (partCalls handlers os i).Pairwise fun c d => Precedes c.1 d.1
  | [], _ => List.Pairwise.nil
  | o :: os, i => by
    rw [partCalls]
    refine List.pairwise_append.mpr ⟨?_, pairwise_partCalls os (i + 1), ?_⟩
    · exact List.pairwise_map.mpr ((pairwise_calls o).imp .cons)
    · intro c hc d hd
      obtain ⟨_, _, rfl⟩ := List.mem_map.mp hc
      obtain ⟨_, _, _, _, _, rfl⟩ := mem_partCalls.mp hd
      exact .rel (by omega)

end

mutual

/-- Whether a handler takes its node out or only stops makes no difference to the calls. -/
theorem calls_stopping : (o : Outline) → calls handlers.stopping o = calls handlers o
  | .node kind label parts => by
    have hParts := partCalls_stopping parts 0
    rcases hKind : handlers kind with - | - | - | -
    all_goals simp only [calls, Handlers.stopping, hKind]
    · exact hParts
    · exact congrArg _ hParts

theorem partCalls_stopping : (os : List Outline) → (i : Nat) →
    partCalls handlers.stopping os i = partCalls handlers os i
  | [], _ => rfl
  | o :: os, i => by rw [partCalls, partCalls, calls_stopping o, partCalls_stopping os (i + 1)]

end

-- ---------------------------------------------------------------------------------------------
-- The walk
-- ---------------------------------------------------------------------------------------------

/-- An item is left after some calls, at addresses below `address`: none of them takes it out. -/
def leftAfter (handlers : Handlers) (address : List Nat) (cs : List (List Nat × Outline))
    (item : Nat × ModuleItem) : Bool :=
  cs.all fun c => !(handlers c.2.kind = some .remove && address ++ c.1 = [item.1])

/-- A walk after some further calls. -/
def Walk.after (w : Walk) (handlers : Handlers) (address : List Nat)
    (cs : List (List Nat × Outline)) : Walk :=
  ⟨w.visits ++ cs.map fun c => c.2.visit, w.body.filter (leftAfter handlers address cs)⟩

theorem after_nil (w : Walk) (address : List Nat) : w.after handlers address [] = w := by
  have hAll : leftAfter handlers address [] = fun _ => true := rfl
  rw [Walk.after, hAll, List.filter_true, List.map_nil, List.append_nil]

theorem after_append (w : Walk) (address : List Nat) (cs ds : List (List Nat × Outline)) :
    w.after handlers address (cs ++ ds) = (w.after handlers address cs).after handlers address ds := by
  have hBoth : leftAfter handlers address (cs ++ ds) = fun item =>
      leftAfter handlers address ds item && leftAfter handlers address cs item :=
    funext fun _ => List.all_append.trans (Bool.and_comm _ _)
  simp only [Walk.after, hBoth, List.filter_filter, List.map_append, List.append_assoc]

/-- The calls in a part, seen from the node above. -/
theorem after_part (w : Walk) (address : List Nat) (i : Nat) (cs : List (List Nat × Outline)) :
    w.after handlers address (cs.map fun c => (i :: c.1, c.2)) =
      w.after handlers (address ++ [i]) cs := by
  have hSame : leftAfter handlers address (cs.map fun c => (i :: c.1, c.2)) =
      leftAfter handlers (address ++ [i]) cs := by
    funext item
    simp [leftAfter, List.all_map, Function.comp_def]
  rw [Walk.after, Walk.after, hSame, List.map_map]
  rfl

/-- A single call. -/
theorem after_call (w : Walk) (address : List Nat) (o : Outline) :
    w.after handlers address [([], o)] =
      if handlers o.kind = some .remove then (w.record o.visit).takeOut address
      else w.record o.visit := by
  have hLeft : leftAfter handlers address [([], o)] = fun item =>
      !(handlers o.kind = some .remove && address = [item.1]) := by
    funext item
    simp [leftAfter]
  by_cases hRemove : handlers o.kind = some .remove
  · simp [Walk.after, Walk.record, Walk.takeOut, hLeft, hRemove]
  · simp [Walk.after, Walk.record, hLeft, hRemove]

mutual

/-- One node: the walk goes on as its calls say, whatever the body has become on the way. -/
theorem walk_eq : (o : Outline) → (address : List Nat) → (w : Walk) →
    o.walk handlers address w = w.after handlers address (calls handlers o)
  | .node kind label parts, address, w => by
    have hParts := fun w => walkParts_eq parts address 0 w
    have hCall : w.after handlers address [([], .node kind label parts)] = _ := after_call w address _
    rcases hKind : handlers kind with - | - | - | -
    all_goals simp only [walk, calls, hKind]
    · exact hParts w
    · rw [← List.singleton_append, after_append, hCall, if_neg (by simp [Outline.kind, hKind])]
      exact hParts _
    · rw [hCall, if_neg (by simp [Outline.kind, hKind])]
      rfl
    · rw [hCall, if_pos (by simp [Outline.kind, hKind])]
      rfl

/-- The parts of a node, one after the other. -/
theorem walkParts_eq : (os : List Outline) → (address : List Nat) → (i : Nat) → (w : Walk) →
    walkParts handlers os address i w = w.after handlers address (partCalls handlers os i)
  | [], address, _, w => (after_nil w address).symm
  | o :: os, address, i, w => by
    rw [walkParts, walkParts_eq os, walk_eq o, partCalls, after_append, after_part]

end

-- ---------------------------------------------------------------------------------------------
-- Modules
-- ---------------------------------------------------------------------------------------------

/-- The list has what `f` gives at the places that satisfy `P`, each once and in their order. -/
def Enumerates {ι α : Type} (order : ι → ι → Prop) (P : ι → Prop) (f : ι → Option α)
    (xs : List α) : Prop :=
  ∃ places : List ι, places.Pairwise order ∧ (∀ p, p ∈ places ↔ P p) ∧ xs.map some = places.map f

/-- The item with a number is reached by a handler that takes it out. -/
def Module.TakesOut (m : Module) (handlers : Handlers) (i : Nat) : Prop :=
  Called handlers (ofModule m) [i] ∧
    ∃ o, (ofModule m).at? [i] = some o ∧ handlers o.kind = some .remove

theorem mem_numbered {m : Module} {i : Nat} {item : ModuleItem} :
    (i, item) ∈ m.numbered ↔ m.body[i]? = some item := by
  rw [Module.numbered, List.mem_map]
  constructor
  · rintro ⟨⟨_, _⟩, hMem, hSwap⟩
    obtain ⟨rfl, rfl⟩ := Prod.mk.inj hSwap
    exact List.mem_zipIdx_iff_getElem?.mp hMem
  · intro h
    exact ⟨(item, i), List.mem_zipIdx_iff_getElem?.mpr h, rfl⟩

theorem map_fst_numbered (m : Module) : m.numbered.map (·.1) = List.range' 0 m.body.length := by
  rw [Module.numbered, List.map_map, ← List.zipIdx_map_snd]
  rfl

theorem leftAfter_iff {m : Module} {i : Nat} {item : ModuleItem} :
    leftAfter handlers [] (calls handlers (ofModule m)) (i, item) = true ↔
      ¬ m.TakesOut handlers i := by
  have hAll : leftAfter handlers [] (calls handlers (ofModule m)) (i, item) = true ↔
      ∀ c ∈ calls handlers (ofModule m), handlers c.2.kind = some .remove → c.1 ≠ [i] := by
    simp [leftAfter, imp_iff_not_or]
  rw [hAll]
  constructor
  · rintro h ⟨hCalled, o, hAt, hRemove⟩
    exact h ([i], o) (mem_calls.mpr ⟨hCalled, hAt⟩) hRemove rfl
  · rintro h ⟨address, o⟩ hMem hRemove rfl
    obtain ⟨hCalled, hAt⟩ := mem_calls.mp hMem
    exact h ⟨hCalled, o, hAt, hRemove⟩

theorem traverse_eq (handlers : Handlers) (m : Module) :
    m.traverse handlers = ((calls handlers (ofModule m)).map fun c => c.2.visit,
      { m with body := (m.numbered.filter
        (leftAfter handlers [] (calls handlers (ofModule m)))).map (·.2) }) := by
  rw [Module.traverse, walk_eq, Walk.after, List.nil_append]

/-- Without handlers there is no call. -/
theorem calls_none (o : Outline) : calls (fun _ => none) o = [] := by
  refine List.eq_nil_iff_forall_not_mem.mpr fun c hc => ?_
  obtain ⟨_, -, hHandled⟩ := (mem_calls.mp hc).1.handled
  exact hHandled rfl

/-- Without handlers nothing is taken out. -/
theorem traverse_none (m : Module) : (m.traverse fun _ => none).2 = m := by
  have hBody : m.numbered.map (·.2) = m.body := by
    rw [Module.numbered, List.map_map]
    exact List.zipIdx_map_fst 0 m.body
  rw [traverse_eq, calls_none, show leftAfter (fun _ => none) [] [] = fun _ => true from rfl,
    List.filter_true, hBody]

theorem enumerates_visits (handlers : Handlers) (root : Outline) :
    Enumerates Precedes (Called handlers root) (fun address => (root.at? address).map Outline.visit)
      ((calls handlers root).map fun c => c.2.visit) := by
  refine ⟨(calls handlers root).map (·.1), List.pairwise_map.mpr (pairwise_calls root), ?_, ?_⟩
  · intro address
    rw [List.mem_map]
    constructor
    · rintro ⟨⟨_, o⟩, hMem, rfl⟩
      exact (mem_calls.mp hMem).1
    · intro h
      obtain ⟨o, hAt, -⟩ := h.handled
      exact ⟨(address, o), mem_calls.mpr ⟨h, hAt⟩, rfl⟩
  · rw [List.map_map, List.map_map]
    refine List.map_congr_left fun c hc => ?_
    have hAt : root.at? c.1 = some c.2 := (mem_calls.mp hc).2
    simp [hAt]

theorem enumerates_rest (handlers : Handlers) (m : Module) :
    Enumerates (· < ·) (fun i => i < m.body.length ∧ ¬ m.TakesOut handlers i) (m.body[·]?)
      (m.traverse handlers).2.body := by
  rw [traverse_eq]
  refine ⟨(m.numbered.filter (leftAfter handlers [] (calls handlers (ofModule m)))).map (·.1),
    ?_, ?_, ?_⟩
  · have hSorted : (m.numbered.map (·.1)).Pairwise (· < ·) := by
      rw [map_fst_numbered]
      exact List.pairwise_lt_range'
    exact hSorted.sublist (List.filter_sublist.map _)
  · intro i
    rw [List.mem_map]
    constructor
    · rintro ⟨⟨_, item⟩, hMem, rfl⟩
      obtain ⟨hItem, hLeft⟩ := List.mem_filter.mp hMem
      exact ⟨(List.getElem?_eq_some_iff.mp (mem_numbered.mp hItem)).1, leftAfter_iff.mp hLeft⟩
    · rintro ⟨hLt, hLeft⟩
      refine ⟨(i, m.body.get ⟨i, hLt⟩), List.mem_filter.mpr ⟨?_, leftAfter_iff.mpr hLeft⟩, rfl⟩
      exact mem_numbered.mpr (List.getElem?_eq_getElem hLt)
  · rw [List.map_map, List.map_map]
    refine List.map_congr_left fun c hc => ?_
    exact (mem_numbered.mp (List.mem_filter.mp hc).1).symm

/-- A traversal is complete and does not mind that items are taken out on the way. All nodes of the
module are in its outline with all their parts. Handlers are called on the nodes that have one and
are below no node whose handler stops, each once and from the outside in and left to right; the
calls are the same when nothing is taken out; and the items that are left are those not reached by a
handler that takes them out, in their order. -/
theorem traversal_is_complete (handlers : Handlers) (m : Module) :
    let root := ofModule m
    let (visits, rest) := m.traverse handlers
    (∀ n, Node.Within (.module m) n → ∀ o ∈ n.outline, ∃ address, root.at? address = some o) ∧
    (∀ address o, root.at? address = some o → ∃ n, Node.Within (.module m) n ∧ n.HasOutline o) ∧
    Enumerates Precedes (Called handlers root) (fun address => (root.at? address).map Outline.visit)
      visits ∧
    (m.traverse handlers.stopping).1 = visits ∧
    Enumerates (· < ·) (fun i => i < m.body.length ∧ ¬ m.TakesOut handlers i) (m.body[·]?)
      rest.body ∧
    rest.span = m.span := by
  have hVisits : (m.traverse handlers).1 = (calls handlers (ofModule m)).map fun c => c.2.visit :=
    congrArg Prod.fst (traverse_eq handlers m)
  refine ⟨fun n => exists_address, fun address o => exists_node, ?_, ?_, enumerates_rest handlers m, rfl⟩
  · change Enumerates _ _ _ (m.traverse handlers).1
    rw [hVisits]
    exact enumerates_visits handlers (ofModule m)
  · rw [traverse_eq, calls_stopping]
    exact hVisits.symm

end ClientBoundary
