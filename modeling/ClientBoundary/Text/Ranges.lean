import ClientBoundary.Text.CodePoint

/-!
# Classes of code points as ranges

A class of code points is listed as closed ranges of their numbers, in ascending order. The
modules beside this one each hold one class of the Unicode standard, version 14.
-/

namespace ClientBoundary.Text

/-- Whether `n` lies in one of the closed ranges. -/
def inRanges (ranges : List (Nat × Nat)) (n : Nat) : Bool :=
  ranges.any fun r => r.1 ≤ n && n ≤ r.2

end ClientBoundary.Text
