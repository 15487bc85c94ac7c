import ClientBoundary.Disk.Fault

/-!
# Access to a disk

What the program asks of a disk: to read a file, to tell what a path leads to, to make a
directory, and to write a file. Everything else is built from these.
-/

namespace ClientBoundary

/-- What a path leads to. -/
inductive DiskEntry where
  | file
  | directory
deriving DecidableEq, Repr, Inhabited

/-- A monad with a disk. -/
class MonadDisk (m : Type → Type) where
  /-- The bytes of a file. -/
  read : Path → m (Except DiskFault ByteArray)
  /-- What a path leads to, if anything. -/
  status : Path → m (Option DiskEntry)
  /-- The place that a path leads to, by the names from the root on. -/
  place : Path → m (List Text)
  /-- Make a directory in a directory that exists. -/
  makeDirectory : Path → m (Except DiskFault Unit)
  /-- Write a file in a directory that exists. -/
  write : Path → ByteArray → m (Except DiskFault Unit)

namespace MonadDisk

variable {m : Type → Type} [Monad m] [MonadDisk m]

/-- Whether a path leads to a directory. -/
def isDirectory (p : Path) : m Bool := return (← status p) = some .directory

/-- Make a directory unless there is one. -/
def makeOne (p : Path) : m (Except DiskFault Unit) := do
  match ← makeDirectory p with
  | .ok _ => return .ok ()
  | .error fault => if ← isDirectory p then return .ok () else return .error fault

/-- Make a directory and, as far as they are missing, those above it, of which `above` counts how
many there may be. -/
def makeAbove : (above : Nat) → Path → m (Except DiskFault Unit)
  | 0, p => makeOne p
  | above + 1, p => do
    match ← makeDirectory p with
    | .error .notFound =>
      match ← makeAbove above p.parent with
      | .ok _ => makeOne p
      | .error fault => return .error fault
    | .ok _ => return .ok ()
    | .error fault => if ← isDirectory p then return .ok () else return .error fault

/-- Make a directory and all directories above it that are missing. -/
def makeDirectories (p : Path) : m (Except DiskFault Unit) := makeAbove p.names.length p

end MonadDisk

end ClientBoundary
