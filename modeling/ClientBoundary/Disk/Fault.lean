import ClientBoundary.Text.Shown
import ClientBoundary.Path.Basic

/-!
# What can go wrong on a disk

An operation on a disk fails for one of a few reasons, each of which has a number and a text. The
message names the path that the operation was asked for.
-/

namespace ClientBoundary

/-- Why an operation on a disk failed. -/
inductive DiskFault where
  | notFound
  | permissionDenied
  | alreadyExists
  | notADirectory
  | isADirectory
  | other (number : Nat) (text : Text)
deriving DecidableEq, Repr, Inhabited

namespace DiskFault

/-- The number of a fault. -/
def number : DiskFault → Nat
  | .notFound => 2
  | .permissionDenied => 13
  | .alreadyExists => 17
  | .notADirectory => 20
  | .isADirectory => 21
  | .other n _ => n

/-- The text of a fault. -/
def text : DiskFault → Text
  | .notFound => "No such file or directory"
  | .permissionDenied => "Permission denied"
  | .alreadyExists => "File exists"
  | .notADirectory => "Not a directory"
  | .isADirectory => "Is a directory"
  | .other _ t => t

/-- The message for a fault at a path. -/
def message (f : DiskFault) (p : Path) : Text :=
  "[Errno " ++ Text.ofNat f.number ++ "] " ++ f.text ++ ": " ++ p.text.shown

end DiskFault

end ClientBoundary
