import ClientBoundary.CommandLine.Usage
import ClientBoundary.Text.Integer

/-!
# Reading the arguments

Each argument is first told apart by itself: an option, a plain argument, or the mark `--` after
which all arguments are plain. An option may be written in full, by a beginning of its long
spelling that no other option shares, or by its letter; a value may be attached to it, and letters
of options that take no value may be run together.

Then the arguments are taken in order. The first run of plain arguments is the list of sources,
and what else cannot be placed is reported at the end.
-/

namespace ClientBoundary

namespace CommandLine

/-- A value attached to an option, and whether an equals sign stands before it. -/
structure Attached where
  equals : Bool
  value : Text
deriving DecidableEq, Repr, Inhabited

/-- What an argument is. -/
inductive Argument where
  /-- The mark after which all arguments are plain. -/
  | mark
  | plain (text : Text)
  /-- An option, whether it is written by its letter, and what is attached to it. -/
  | option (flag : Flag) (letter : Bool) (attached : Option Attached)
  /-- Written like an option, but none that there is. -/
  | unknown (text : Text)
deriving DecidableEq, Repr, Inhabited

/-- What the arguments ask for. -/
structure Request where
  sources : List Path
  client : Bool := false
  config : Option Path := none
  output : Option Path := none
  json : Bool := false
  jobs : Int := 1
  verbose : Bool := false
deriving DecidableEq, Repr, Inhabited

/-- What the reading of arguments ends in when not in a request. -/
inductive Refusal where
  | help
  | usage (error : UsageError)
deriving DecidableEq, Repr, Inhabited

namespace Argument

-- ---------------------------------------------------------------------------------------------
-- Telling arguments apart
-- ---------------------------------------------------------------------------------------------

/-- A text up to the first equals sign, and the text after it if there is one. -/
def splitEquals : Text → Text × Option Text
  | [] => ([], none)
  | p :: t =>
    if p = .char '=' then ([], some t)
    else
      let (a, b) := splitEquals t
      (p :: a, b)

/-- Whether a text is written like a negative number. -/
def isNegativeNumber (t : Text) : Bool :=
  match t with
  | .char '-' :: digits =>
    -- a line feed at the very end does not count
    let digits := match digits.getLast? with
      | some (.char '\n') => digits.dropLast
      | _ => digits
    let whole := digits.takeWhile CodePoint.isDigit
    match digits.drop whole.length with
    | [] => !whole.isEmpty
    | .char '.' :: fraction => !fraction.isEmpty && fraction.all CodePoint.isDigit
    | _ => false
  | _ => false

/-- Whether a spelling is that of a letter. -/
def isLetter (spelling : Text) : Bool :=
  match spelling with
  | _ :: .char '-' :: _ => false
  | _ => true

/-- The options that a text can be read as. -/
def readings (t : Text) : List (Text × Argument) :=
  match t with
  | .char '-' :: .char '-' :: _ =>
    let (spelling, value) := splitEquals t
    (Flag.table.filter fun e => e.1.startsWith spelling).map fun (s, f) =>
      (s, .option f (isLetter s) (value.map (⟨true, ·⟩)))
  | _ =>
    Flag.table.filterMap fun (s, f) =>
      if s = t.take 2 then some (s, .option f true (some ⟨false, t.drop 2⟩))
      else if s.startsWith t then some (s, .option f (isLetter s) none)
      else none

/-- Read a text that is written like an option, but is no spelling of one. -/
def ofOptionLike (t : Text) : Except UsageError Argument :=
  match readings t with
  | [(_, a)] => .ok a
  | [] =>
    if isNegativeNumber t || t.contains (.char ' ') then .ok (.plain t) else .ok (.unknown t)
  | several => .error (.ambiguous t (several.map (·.1)))

/-- Tell an argument that stands before the mark. -/
def ofText (t : Text) : Except UsageError Argument :=
  match t with
  | .char '-' :: _ :: _ =>
    match Flag.ofSpelling? t with
    | some f => .ok (.option f (isLetter t) none)
    | none =>
      let (spelling, value) := splitEquals t
      match value, Flag.ofSpelling? spelling with
      | some v, some f => .ok (.option f (isLetter spelling) (some ⟨true, v⟩))
      | _, _ => ofOptionLike t
  | _ => .ok (.plain t)

/-- Tell all arguments. -/
def ofTexts : List Text → Except UsageError (List Argument)
  | [] => .ok []
  | t :: ts =>
    if t = Text.ofString "--" then .ok (.mark :: ts.map .plain)
    else do
      let a ← ofText t
      let as ← ofTexts ts
      return a :: as

end Argument

-- ---------------------------------------------------------------------------------------------
-- Taking arguments
-- ---------------------------------------------------------------------------------------------

/-- Options that were read from one argument: those without a value in order, then perhaps one
with an attached value or one that still waits for its value; and what could not be placed. -/
structure Cluster where
  flags : List (Flag × Option Text) := []
  waiting : Option Flag := none
  extras : List Text := []
deriving DecidableEq, Repr, Inhabited

namespace Cluster

/-- The cluster with an option without a value in front. -/
def withFlag (f : Flag) (c : Cluster) : Cluster := { c with flags := (f, none) :: c.flags }

/-- The options that run together in `letters`, which are attached to the letter of `flag`. -/
def ofLetters (flag : Flag) : (equals : Bool) → (letters : Text) → Except UsageError Cluster
  | equals, [] =>
    if flag.takesValue then .ok { flags := [(flag, some [])] }
    else if equals then .error (.ignoredValue flag [])
    else .ok { flags := [(flag, none)] }
  | equals, p :: rest =>
    if flag.takesValue then .ok { flags := [(flag, some (p :: rest))] }
    else if equals || p = .char '-' then .error (.ignoredValue flag (p :: rest))
    else
      match Flag.ofSpelling? [.char '-', p] with
      | none => .ok { flags := [(flag, none)], extras := [.char '-' :: p :: rest] }
      | some next =>
        match rest with
        | [] =>
          if next.takesValue then .ok { flags := [(flag, none)], waiting := some next }
          else .ok { flags := [(flag, none), (next, none)] }
        | .char '=' :: value => do
          if next.takesValue then return { flags := [(flag, none), (next, some value)] }
          else .error (.ignoredValue next value)
        | rest => (ofLetters next false rest).map (withFlag flag)

/-- The options of one argument. -/
def ofOption (flag : Flag) (letter : Bool) (attached : Option Attached) :
    Except UsageError Cluster :=
  match attached with
  | none =>
    if flag.takesValue then .ok { waiting := some flag } else .ok { flags := [(flag, none)] }
  | some a =>
    if flag.takesValue then .ok { flags := [(flag, some a.value)] }
    else if letter && !a.value.isEmpty then ofLetters flag a.equals a.value
    else .error (.ignoredValue flag a.value)

end Cluster

/-- What was taken so far. -/
structure Taken where
  request : Request := { sources := [] }
  /-- The options that were given. -/
  given : List Flag := []
  /-- Whether sources were found, and whether their run still goes on. -/
  found : Bool := false
  running : Bool := false
  /-- What could not be placed. -/
  extras : List Text := []
deriving DecidableEq, Repr, Inhabited

namespace Taken

/-- The request with an option set. -/
def set (r : Request) (flag : Flag) (value : Text) : Except UsageError Request :=
  match flag with
  | .help | .server => .ok r
  | .client => .ok { r with client := true }
  | .config => .ok { r with config := some (.ofText value) }
  | .output => .ok { r with output := some (.ofText value) }
  | .json => .ok { r with json := true }
  | .verbose => .ok { r with verbose := true }
  | .jobs => match value.toInt? with
    | some n => .ok { r with jobs := n }
    | none => .error (.invalidNumber .jobs value)

/-- An option given before that excludes an option. -/
def excluded? (given : List Flag) (flag : Flag) : Option Flag :=
  if flag ∈ Flag.exclusive then
    Flag.exclusive.find? fun other => other ≠ flag && given.contains other
  else none

/-- Take one option. -/
def takeFlag (s : Taken) (flag : Flag) (value : Text) : Except Refusal Taken := do
  let request ← (set s.request flag value).mapError .usage
  match excluded? s.given flag with
  | some other => .error (.usage (.notAllowedWith flag other))
  | none =>
    if flag = .help then .error .help
    else return { s with request, given := s.given ++ [flag] }

/-- Take several options. -/
def takeFlags (s : Taken) (flags : List (Flag × Option Text)) : Except Refusal Taken :=
  flags.foldlM (fun s (f, v) => s.takeFlag f (v.getD [])) s

/-- Take a plain argument. -/
def takePlain (s : Taken) (t : Text) : Taken :=
  if s.running || !s.found then
    { s with
      request := { s.request with sources := s.request.sources ++ [.ofText t] }
      found := true
      running := true }
  else { s with extras := s.extras ++ [t] }

/-- Take the mark. -/
def takeMark (s : Taken) : Taken :=
  if s.running || !s.found then s else { s with extras := s.extras ++ [Text.ofString "--"] }

/-- Take arguments in order. -/
def takeAll : Taken → List Argument → Except Refusal Taken
  | s, [] => .ok s
  | s, .mark :: as => takeAll s.takeMark as
  | s, .plain t :: as => takeAll (s.takePlain t) as
  | s, .unknown t :: as =>
    takeAll { s with running := false, extras := s.extras ++ [t] } as
  | s, .option flag letter attached :: as => do
    let cluster ← (Cluster.ofOption flag letter attached).mapError .usage
    let s := { s with running := false, extras := s.extras ++ cluster.extras }
    match cluster.waiting, as with
    | none, as => takeAll (← s.takeFlags cluster.flags) as
    | some waiting, .plain t :: as =>
      takeAll (← s.takeFlags (cluster.flags ++ [(waiting, some t)])) as
    | some waiting, _ => .error (.usage (.expectedValue waiting))

end Taken

/-- Read the arguments. -/
def request (argv : List Text) : Except Refusal Request := do
  let arguments ← (Argument.ofTexts argv).mapError .usage
  let taken ← Taken.takeAll {} arguments
  if !taken.found then .error (.usage .sourceMissing)
  else if !taken.extras.isEmpty then .error (.usage (.unrecognized taken.extras))
  else return taken.request

end CommandLine

end ClientBoundary
