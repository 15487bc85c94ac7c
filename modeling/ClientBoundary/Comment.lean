import ClientBoundary.Span

/-!
# Comments beside the tree

Comments are not part of the tree. They are filed in a table under the offset of the item they
lead, or under the end of the module when nothing follows them. The reader of a source fills the
table, the compilation moves and adds entries, and the printer reads it.

A `CommentTable` keeps for each side the entries in the order in which they were added. What is
filed at one position is the list of its entries in that order; taking them removes them.
-/

namespace ClientBoundary

/-- The two forms of a comment. -/
inductive CommentKind where
  | line
  | block
deriving DecidableEq, Repr, Inhabited

/-- A comment. The text is what stands between its delimiters. -/
structure Comment where
  kind : CommentKind
  text : Text
  span : Span := {}
deriving DecidableEq, Repr, Inhabited

namespace Comment

/-- The comment as it is written. -/
def render (c : Comment) : Text :=
  match c.kind with
  | .line => "//" ++ c.text
  | .block => "/*" ++ c.text ++ "*/"

end Comment

/-- The comments of one side of a table, in order of their addition. -/
abbrev CommentEntries := List (Int × Comment)

namespace CommentEntries

/-- The comments at a position. -/
def get (entries : CommentEntries) (pos : Int) : List Comment :=
  (entries.filter (·.1 = pos)).map (·.2)

/-- All entries but those at a position. -/
def erase (entries : CommentEntries) (pos : Int) : CommentEntries :=
  entries.filter (·.1 ≠ pos)

/-- The positions with a comment, in ascending order. -/
def positions (entries : CommentEntries) : List Int :=
  ((entries.map (·.1)).eraseDups).mergeSort

end CommentEntries

/-- A table of comments by position. -/
structure CommentTable where
  leading : CommentEntries := []
  trailing : CommentEntries := []
deriving DecidableEq, Repr, Inhabited

namespace CommentTable

/-- File a comment that leads the item at a position. -/
def addLeading (t : CommentTable) (pos : Int) (c : Comment) : CommentTable :=
  { t with leading := t.leading ++ [(pos, c)] }

/-- File a comment that trails what ends at a position. -/
def addTrailing (t : CommentTable) (pos : Int) (c : Comment) : CommentTable :=
  { t with trailing := t.trailing ++ [(pos, c)] }

/-- The comments that lead the item at a position; none at an unknown one. -/
def getLeading (t : CommentTable) : Option Int → List Comment
  | none => []
  | some pos => t.leading.get pos

/-- The comments that trail at a position; none at an unknown one. -/
def getTrailing (t : CommentTable) : Option Int → List Comment
  | none => []
  | some pos => t.trailing.get pos

/-- Whether some comment leads the item at a position. -/
def hasLeading (t : CommentTable) (pos : Option Int) : Bool := !(t.getLeading pos).isEmpty

/-- Take the leading comments of a position out of the table. -/
def takeLeading (t : CommentTable) (pos : Int) : List Comment × CommentTable :=
  (t.leading.get pos, { t with leading := t.leading.erase pos })

/-- Take the trailing comments of a position out of the table. -/
def takeTrailing (t : CommentTable) (pos : Int) : List Comment × CommentTable :=
  (t.trailing.get pos, { t with trailing := t.trailing.erase pos })

/-- File several comments that lead the item at a position. -/
def addAllLeading (t : CommentTable) (pos : Int) (cs : List Comment) : CommentTable :=
  cs.foldl (fun t c => t.addLeading pos c) t

/-- File several comments that trail at a position. -/
def addAllTrailing (t : CommentTable) (pos : Int) (cs : List Comment) : CommentTable :=
  cs.foldl (fun t c => t.addTrailing pos c) t

/-- The positions with leading comments, in ascending order. -/
def leadingPositions (t : CommentTable) : List Int := t.leading.positions

end CommentTable

end ClientBoundary
