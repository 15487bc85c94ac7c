/-!
# Literals without a value

A literal may have the right shape and still denote nothing.
-/

namespace ClientBoundary

/-- Why a literal has no value. -/
inductive LiteralError where
  /-- A braced escape denotes a number above `0x10FFFF`, which is no code point. -/
  | escapeOutOfRange
  /-- A braced escape denotes a number above `0x7FFFFFFF`. -/
  | escapeTooWide
  /-- A hexadecimal number is larger than every double. -/
  | numberTooLarge
deriving DecidableEq, Repr, Inhabited

end ClientBoundary
