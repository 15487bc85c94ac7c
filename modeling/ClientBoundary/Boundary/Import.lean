import ClientBoundary.Ast.Basic

/-!
# Imports of a module

What the check of the import graph has to know of an import declaration: where from, and which
names. It does not matter under what local names they go, nor how a name or the source is spelt.
-/

namespace ClientBoundary

/-- A name that is imported, with its place. The default export has the empty name, the name
space of a module the name `*`. -/
structure ImportedName where
  name : Text
  span : Span
deriving DecidableEq, Repr, Inhabited

/-- An import declaration: its source, its own place, and the names. -/
structure ImportRecord where
  source : Text
  span : Span := {}
  names : List ImportedName := []
deriving DecidableEq, Repr, Inhabited

namespace ImportedName

/-- The name that a specifier imports. -/
def ofSpecifier : ImportSpecifier → ImportedName
  | .named i none _ => ⟨i.sym, i.span⟩
  | .named _ (some (.ident i)) _ => ⟨i.sym, i.span⟩
  | .named _ (some (.str l)) _ => ⟨l.value, l.span⟩
  | .default _ s => ⟨[], s⟩
  | .starAs _ s => ⟨"*", s⟩

end ImportedName

namespace ImportRecord

/-- The record of an item that is an import declaration. -/
def ofItem? : ModuleItem → Option ImportRecord
  | .importDecl specifiers src span => some ⟨src.value, span, specifiers.map .ofSpecifier⟩
  | _ => none

end ImportRecord

end ClientBoundary
