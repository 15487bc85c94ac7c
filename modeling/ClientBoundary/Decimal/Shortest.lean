import ClientBoundary.Decimal.Binary64
import ClientBoundary.Text.CodePoint

/-!
# The shortest decimal that reads back

A double is written with the fewest digits that read back as the same double; of several such
decimals the one nearest to the value. The decimals that read back as `m · 2^q` are those between
the midpoints to its two neighbours, the midpoints included when `m` is even.

`Binary64.shortest` gives digits and exponent, `Binary64.text` the written form: an integral
value in full, any other positionally when its exponent lies from -4 to 15 and in scientific form
elsewhere.
-/

namespace ClientBoundary

namespace Binary64

/-- Whether `a · 10^p` is at most `b · 2^q`. -/
def decimalLe (a : Nat) (p : Int) (b : Nat) (q : Int) : Bool :=
  a * Nat.pow 10 p.toNat * Nat.pow 2 (-q).toNat ≤ b * Nat.pow 2 q.toNat * Nat.pow 10 (-p).toNat

/-- Whether `a · 10^p` is less than `b · 2^q`. -/
def decimalLt (a : Nat) (p : Int) (b : Nat) (q : Int) : Bool :=
  a * Nat.pow 10 p.toNat * Nat.pow 2 (-q).toNat < b * Nat.pow 2 q.toNat * Nat.pow 10 (-p).toNat

/-- Whether the decimal `a · 10^p` reads back as `m · 2^q`. -/
def readsBack (m : Nat) (q : Int) (a : Nat) (p : Int) : Bool :=
  let below := if m = Nat.pow 2 52 ∧ -1074 < q then 1 else 2
  let low := 4 * m - below
  let high := 4 * m + 2
  if m % 2 = 0 then !decimalLt a p low (q - 2) && decimalLe a p high (q - 2)
  else !decimalLe a p low (q - 2) && decimalLt a p high (q - 2)

/-- The largest `a` with `a · 10^p ≤ m · 2^q`. -/
def decimalFloor (m : Nat) (q p : Int) : Nat :=
  (m * Nat.pow 2 q.toNat * Nat.pow 10 (-p).toNat) / (Nat.pow 2 (-q).toNat * Nat.pow 10 p.toNat)

/-- The decimal exponent of the leading digit of `m · 2^q`: the greatest `k` of the tried ones
with `10^k ≤ m · 2^q`. -/
def leadingExponent (m : Nat) (q : Int) : (tries : Nat) → (k : Int) → Int
  | 0, k => k
  | tries + 1, k => if decimalLe 1 k m q then k else leadingExponent m q tries (k - 1)

/-- The best decimal of `m · 2^q` on the grid `10^p`, if one of its two neighbours there reads
back. -/
def onGrid (m : Nat) (q p : Int) : Option Nat :=
  let a := decimalFloor m q p
  match readsBack m q a p, readsBack m q (a + 1) p with
  | false, false => none
  | true, false => some a
  | false, true => some (a + 1)
  | true, true =>
    -- the nearer of the two: compare the value with the middle between them
    if decimalLt (2 * a + 1) p m (q + 1) then some (a + 1)
    else if decimalLe (2 * a + 1) p m (q + 1) then some (if a % 2 = 0 then a else a + 1)
    else some a

/-- Try grids from coarse to fine. -/
def tryGrids (m : Nat) (q : Int) : (tries : Nat) → (p : Int) → Nat × Int
  | 0, p => (decimalFloor m q p, p)
  | tries + 1, p =>
    match onGrid m q p with
    | some a => (a, p)
    | none => tryGrids m q tries (p - 1)

/-- The shortest decimal `a · 10^p` that reads back as `m · 2^q`, for `0 < m`. -/
def shortest (m : Nat) (q : Int) : Nat × Int :=
  let k := leadingExponent m q 700 310
  tryGrids m q 20 k

/-- The digits of a number without the zeros at its end. -/
def trimZeros (digits : List Char) : List Char := (digits.reverse.dropWhile (· = '0')).reverse

/-- A sign and at least two digits. -/
def exponentText (e : Int) : List Char :=
  let digits := (toString e.natAbs).toList
  (if e < 0 then '-' else '+') :: (if digits.length < 2 then '0' :: digits else digits)

/-- A decimal that is not integral, from its digits and the exponent of the first of them. -/
def fractionText (digits : List Char) (e : Int) : List Char :=
  if -4 ≤ e ∧ e < 16 then
    if e < 0 then '0' :: '.' :: List.replicate ((-e).toNat - 1) '0' ++ digits
    else
      let whole := e.toNat + 1
      let padded := digits ++ List.replicate (whole - digits.length) '0'
      let rest := padded.drop whole
      padded.take whole ++ '.' :: (if rest.isEmpty then ['0'] else rest)
  else
    match digits with
    | [] => []
    | d :: ds =>
      d :: ((if ds.isEmpty then [] else '.' :: ds) ++ 'e' :: exponentText e)

/-- The integer that `m · 2^q` is, if it is one. -/
def integer? (m : Nat) (q : Int) : Option Nat :=
  match q with
  | .ofNat k => some (m * Nat.pow 2 k)
  | .negSucc k => if m % Nat.pow 2 (k + 1) = 0 then some (m / Nat.pow 2 (k + 1)) else none

/-- The written form of a double. Zero has no sign. -/
def text (x : Binary64) : Text :=
  let sign : Text := if x.isNegative then "-" else ""
  match x.magnitude with
  | .notANumber => "nan"
  | .infinite => sign ++ "inf"
  | .finite m q =>
    match integer? m q with
    | some 0 => "0"
    | some n => sign ++ Text.ofNat n
    | none =>
      let (a, p) := shortest m q
      let digits := (toString a).toList
      let e := p + (digits.length : Int) - 1
      sign ++ (fractionText (trimZeros digits) e).map CodePoint.char

end Binary64

end ClientBoundary
