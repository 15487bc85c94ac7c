import ClientBoundary.Path.Basic

/-!
# Where outputs go

Several sources are written to one directory in the layout that they have among themselves: the
deepest directory that holds all of them is dropped from each.

Places are lists of names from the root on, the last of which is the file.
-/

namespace ClientBoundary

namespace Layout

/-- The longest list that two lists begin with. -/
def commonPrefix : List Text → List Text → List Text
  | a :: as, b :: bs => if a = b then a :: commonPrefix as bs else []
  | _, _ => []

/-- The deepest directory that holds all of some places. -/
def commonDirectory : List (List Text) → List Text
  | [] => []
  | [place] => place.dropLast
  | place :: places => commonPrefix place.dropLast (commonDirectory places)

/-- The names below a directory that lead to a place in it. -/
def relativeTo (directory place : List Text) : List Text := place.drop directory.length

end Layout

/-- Where the outputs for sources at some places go below a directory. -/
def outputPaths (output : Path) (places : List (List Text)) : List Path :=
  let directory := Layout.commonDirectory places
  places.map fun place => output.below (Layout.relativeTo directory place)

end ClientBoundary
