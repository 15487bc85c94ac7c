import ClientBoundary.Ast.Outline

/-!
# Traversing a module

A traversal walks over the nodes of a module from the outside in and from left to right. For
each kind of node it may have a handler. A handler records the node, and then goes on into its
parts, leaves them alone, or leaves them alone and takes the node out of the body of the module
if it is one of its items. Nodes without a handler are passed through.

The body shrinks while the walk is on its way over it. Items are walked over as they were at the
start: taking one out does not make the walk miss the next one.
-/

namespace ClientBoundary

/-- What a traversal does at a node. -/
inductive Handler where
  | descend
  | stop
  | remove
deriving DecidableEq, Repr, Inhabited

/-- The handlers of a traversal. -/
abbrev Handlers := NodeKind → Option Handler

/-- A node that a handler was called on. -/
structure Visit where
  kind : NodeKind
  label : Option Text
deriving DecidableEq, Repr, Inhabited

/-- How far a traversal has come: the nodes that handlers were called on, in order, and the items
that are left in the body, each with the number it had at the start. -/
structure Walk where
  visits : List Visit := []
  body : List (Nat × ModuleItem)

namespace Walk

/-- A handler was called on a node. -/
def record (w : Walk) (v : Visit) : Walk := { w with visits := w.visits ++ [v] }

/-- Take the node at an address out of the body. Only items are there; the address of an item is
its number. -/
def takeOut (w : Walk) (address : List Nat) : Walk :=
  { w with body := w.body.filter fun item => address ≠ [item.1] }

end Walk

namespace Outline

mutual

/-- Walk over the node at an address. -/
def walk (handlers : Handlers) : Outline → (address : List Nat) → Walk → Walk
  | .node kind label parts, address, w =>
    match handlers kind with
    | none => walkParts handlers parts address 0 w
    | some .descend => walkParts handlers parts address 0 (w.record ⟨kind, label⟩)
    | some .stop => w.record ⟨kind, label⟩
    | some .remove => (w.record ⟨kind, label⟩).takeOut address

/-- Walk over parts of the node at an address, the first of them being number `i`. -/
def walkParts (handlers : Handlers) : List Outline → (address : List Nat) → (i : Nat) → Walk → Walk
  | [], _, _, w => w
  | o :: os, address, i, w =>
    walkParts handlers os address (i + 1) (walk handlers o (address ++ [i]) w)

end

end Outline

namespace Module

/-- The items of a module with their numbers. -/
def numbered (m : Module) : List (Nat × ModuleItem) := m.body.zipIdx.map Prod.swap

/-- Walk over a module: the nodes that handlers are called on, and the module without the items
that were taken out. -/
def traverse (handlers : Handlers) (m : Module) : List Visit × Module :=
  let w := (Outline.ofModule m).walk handlers [] { body := m.numbered }
  (w.visits, { m with body := w.body.map (·.2) })

end Module

end ClientBoundary
