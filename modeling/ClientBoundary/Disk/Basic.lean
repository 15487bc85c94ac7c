import ClientBoundary.Disk.Access

/-!
# A disk in memory

A disk is a list of what there is at places, a place being the list of names that leads to it
from the root. The root itself is always a directory. A path is followed name by name, through
directories that exist; only what the last name leads to may be missing.
-/

namespace ClientBoundary

/-- What there is at a place of a disk. -/
inductive DiskNode where
  | file (content : ByteArray)
  | directory
deriving Inhabited

/-- A disk, and the place of the working directory. -/
structure Disk where
  working : List Text := []
  nodes : List (List Text × DiskNode) := []
deriving Inhabited

namespace Disk

/-- What there is at a place. -/
def node? (d : Disk) (place : List Text) : Option DiskNode :=
  if place.isEmpty then some .directory else (d.nodes.find? (·.1 = place)).map (·.2)

/-- Put something at a place. -/
def put (d : Disk) (place : List Text) (node : DiskNode) : Disk :=
  { d with nodes := d.nodes.filter (·.1 ≠ place) ++ [(place, node)] }

/-- Follow a name from a place, which has to be a directory. -/
def enter (d : Disk) (place : List Text) (name : Text) : Except DiskFault (List Text) :=
  match d.node? place with
  | none => .error .notFound
  | some (.file _) => .error .notADirectory
  | some .directory => .ok (Path.follow place name)

/-- The place that a path leads to. -/
def locate (d : Disk) (p : Path) : Except DiskFault (List Text) :=
  p.names.foldlM d.enter (match p.root with
    | .working => d.working
    | _ => [])

/-- The bytes of the file that a path leads to. -/
def read (d : Disk) (p : Path) : Except DiskFault ByteArray := do
  match d.node? (← d.locate p) with
  | none => .error .notFound
  | some .directory => .error .isADirectory
  | some (.file content) => .ok content

/-- What a path leads to, if anything. -/
def status (d : Disk) (p : Path) : Option DiskEntry :=
  match d.locate p with
  | .error _ => none
  | .ok place => match d.node? place with
    | none => none
    | some (.file _) => some .file
    | some .directory => some .directory

/-- The disk with a new directory. -/
def makeDirectory (d : Disk) (p : Path) : Except DiskFault Disk := do
  let place ← d.locate p
  match d.node? place with
  | some _ => .error .alreadyExists
  | none => .ok (d.put place .directory)

/-- The disk with a file written. -/
def write (d : Disk) (p : Path) (content : ByteArray) : Except DiskFault Disk := do
  let place ← d.locate p
  match d.node? place with
  | some .directory => .error .isADirectory
  | _ => .ok (d.put place (.file content))

/-- Do something that changes the disk unless it fails. -/
def attempt (change : Disk → Except DiskFault Disk) : StateM Disk (Except DiskFault Unit) :=
  fun d => match change d with
    | .ok d' => (.ok (), d')
    | .error fault => (.error fault, d)

instance : MonadDisk (StateM Disk) where
  read p := return (← get).read p
  status p := return (← get).status p
  place p := return p.place (← get).working
  makeDirectory p := attempt (·.makeDirectory p)
  write p content := attempt (·.write p content)

/-- The disk with directories along names that lead on from a place. -/
def withDirectories (d : Disk) (place : List Text) : (names : List Text) → Disk
  | [] => d
  | name :: names =>
    let next := place ++ [name]
    let d := if (d.node? next).isSome then d else d.put next .directory
    d.withDirectories next names

/-- The disk with a directory at a place, and all directories above it. -/
def withDirectory (d : Disk) (place : List Text) : Disk := d.withDirectories [] place

/-- The disk with a file at a place, and all directories above it. -/
def withFile (d : Disk) (place : List Text) (content : ByteArray) : Disk :=
  (d.withDirectory place.dropLast).put place (.file content)

/-- The files of a disk with their places. -/
def files (d : Disk) : List (List Text × ByteArray) :=
  d.nodes.filterMap fun n => match n.2 with
    | .file content => some (n.1, content)
    | .directory => none

end Disk

end ClientBoundary
