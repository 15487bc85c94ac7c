import ClientBoundary.Text.CodePoint

/-!
# Paths

A path is a list of names below a root, or below the working directory when it has no root. It is
kept without empty names and without the name `.`, which lead nowhere; the name `..` stays, since
where it leads depends on the disk.
-/

namespace ClientBoundary

/-- What a path starts from. Two slashes at the start are kept apart from one and from more. -/
inductive PathRoot where
  | working
  | slash
  | twoSlashes
deriving DecidableEq, Repr, Inhabited

/-- A path. -/
structure Path where
  root : PathRoot := .working
  names : List Text
deriving DecidableEq, Repr, Inhabited

namespace PathRoot

/-- The slashes of a root. -/
def text : PathRoot → Text
  | .working => ""
  | .slash => "/"
  | .twoSlashes => "//"

/-- The root of a path that is written with a number of slashes at the start. -/
def ofSlashes : Nat → PathRoot
  | 0 => .working
  | 2 => .twoSlashes
  | _ => .slash

end PathRoot

namespace Path

/-- The name of the directory above. -/
def up : Text := ".."

/-- Whether a name leads somewhere. -/
def isName (t : Text) : Bool := !t.isEmpty && t ≠ Text.ofString "."

/-- The path that a text writes. -/
def ofText (t : Text) : Path where
  root := .ofSlashes (t.takeWhile (· = .char '/')).length
  names := (Text.splitOn (.char '/') t).filter isName

/-- The text of a path; the working directory is written as a point. -/
def text (p : Path) : Text :=
  match p.root.text ++ Text.join "/" p.names with
  | [] => "."
  | t => t

/-- The directory that holds what a path leads to, as far as names tell. -/
def parent (p : Path) : Path := { p with names := p.names.dropLast }

/-- The path of names below a path. -/
def below (p : Path) (names : List Text) : Path := { p with names := p.names ++ names }

/-- Follow a name from a place, given by the names from the root on. -/
def follow (place : List Text) (name : Text) : List Text :=
  if name = up then place.dropLast else place ++ [name]

/-- Where a path leads from a working directory if all directories on the way exist. -/
def place (working : List Text) (p : Path) : List Text :=
  p.names.foldl follow (match p.root with
    | .working => working
    | _ => [])

end Path

end ClientBoundary
