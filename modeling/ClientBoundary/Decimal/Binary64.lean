/-!
# Binary floating point

A `Binary64` is the bit pattern of a double: a sign, eleven bits of exponent and fifty-two bits
of fraction. All arithmetic here is exact on natural numbers.

* `Binary64.parts` — the number a finite pattern stands for, as `m · 2^q`.
* `Binary64.ofRatio` — the double nearest to a ratio, the even one of two equally near.
* `Binary64.ofDecimal` — the double nearest to `m · 10^e`.
-/

namespace ClientBoundary

/-- The bit pattern of a double. -/
structure Binary64 where
  bits : UInt64
deriving DecidableEq, Repr, Inhabited

namespace Binary64

/-- What a pattern stands for, its sign apart. -/
inductive Magnitude where
  /-- The number `m · 2^q`. -/
  | finite (m : Nat) (q : Int)
  | infinite
  | notANumber
deriving DecidableEq, Repr

/-- Whether the sign bit is set. -/
def isNegative (x : Binary64) : Bool := Nat.pow 2 63 ≤ x.bits.toNat

/-- The magnitude of a pattern. The smallest exponent is shared by the numbers without a leading
bit. -/
def magnitude (x : Binary64) : Magnitude :=
  let n := x.bits.toNat % Nat.pow 2 63
  let exponent : Nat := n / Nat.pow 2 52
  let fraction : Nat := n % Nat.pow 2 52
  if exponent = 2047 then
    if fraction = 0 then .infinite else .notANumber
  else if exponent = 0 then .finite fraction (-1074)
  else .finite (Nat.pow 2 52 + fraction) ((exponent : Int) - 1075)

/-- Positive infinity. -/
def infinity : Binary64 := ⟨0x7ff0000000000000⟩

/-- Zero. -/
def zero : Binary64 := ⟨0⟩

/-- `a / b` rounded to the nearest natural number, the even one of two equally near. -/
def roundDiv (a b : Nat) : Nat :=
  let d := a / b
  let r := a % b
  if 2 * r < b then d
  else if b < 2 * r then d + 1
  else if d % 2 = 0 then d else d + 1

/-- `num / den · 2^(-q)` rounded to the nearest natural number. -/
def scaled (num den : Nat) (q : Int) : Nat :=
  match q with
  | .ofNat k => roundDiv num (den * Nat.pow 2 k)
  | .negSucc k => roundDiv (num * Nat.pow 2 (k + 1)) den

/-- The pattern of `m · 2^q` for `m ≤ 2^53` and `-1074 ≤ q`, where `m` has its leading bit unless
`q` is the smallest exponent. -/
def pack (m : Nat) (q : Int) : Binary64 :=
  let (m, q) := if m = Nat.pow 2 53 then (Nat.pow 2 52, q + 1) else (m, q)
  if m < Nat.pow 2 52 then ⟨UInt64.ofNat m⟩
  else
    let exponent := (q + 1075).toNat
    if 2047 ≤ exponent then infinity
    else ⟨UInt64.ofNat (exponent * Nat.pow 2 52 + (m - Nat.pow 2 52))⟩

/-- The double nearest to `num / den`, where `den` is not zero. A ratio too large for any finite
double gives infinity. -/
def ofRatio (num den : Nat) : Binary64 :=
  if num = 0 then zero
  else
    -- 2^(log2 num - log2 den - 1) < num / den < 2^(log2 num - log2 den + 1)
    let guess : Int := (num.log2 : Int) - (den.log2 : Int) - 53
    let q := max guess (-1074)
    let m := scaled num den q
    if m < Nat.pow 2 53 ∨ m = Nat.pow 2 53 then pack m q
    else
      let q := q + 1
      pack (scaled num den q) q

/-- The double nearest to `m · 10^e`. Exponents far out of range need no arithmetic. -/
def ofDecimal (m : Nat) (e : Int) : Binary64 :=
  let digits : Int := ((toString m).length : Int)
  if m = 0 then zero
  else if 400 < digits + e then infinity
  else if digits + e < -400 then zero
  else
    match e with
    | .ofNat k => ofRatio (m * Nat.pow 10 k) 1
    | .negSucc k => ofRatio m (Nat.pow 10 (k + 1))

end Binary64

end ClientBoundary
