import IonTrap.Number.Double

/-!
# Shortest decimals

The decimal written for a double has the fewest significant digits among those that lie closer to it
than to any other double, and among decimals of that length it is the nearest one.

A double of `u` steps owns the interval of reals that round to it. For one digit, two digits and so
on, only the two neighbours of the value on that decimal grid can be the nearest member of the
interval, so two candidates are tested per length. All comparisons are between natural numbers.
-/

namespace IonTrap.Double

/-- A positive decimal: the digits `digits` with the first one at `10 ^ exponent`. -/
structure Decimal where
  /-- Significant digits, most significant first. -/
  digits : List Nat
  /-- Power of ten of the first digit. -/
  exponent : Int
deriving DecidableEq, Repr

/-- Decimal digits of `n`, most significant first. -/
def decimalDigits (n : Nat) : List Nat :=
  (Nat.toDigits 10 n).map fun c => c.toNat - '0'.toNat

/-- Power of ten of the leading digit of a positive magnitude. -/
def leadingExponent (steps : Nat) : Int :=
  if twoPow stepBits ≤ steps then
    ((Nat.toDigits 10 (steps / twoPow stepBits)).length : Int) - 1
  else
    -- The least `j` with `10 ^ -j` at most the value; the smallest double is above `10 ^ -324`.
    let j := ((List.range 324).find? fun j => twoPow stepBits ≤ steps * tenPow j).getD 324
    Int.negOfNat j

/-- The interval of reals that round to a magnitude, in quarter steps, and whether its ends belong
to it. Below a power of two the neighbour is half as far away. -/
def interval (steps : Nat) : Nat × Nat × Bool :=
  let gap := twoPow (excess steps)
  let m := steps / gap
  let below := if m = twoPow (precision - 1) ∧ 1 < gap then gap else 2 * gap
  (4 * steps - below, 4 * steps + 2 * gap, m % 2 == 0)

/-- Whether `c * p / q` quarter steps lie in the interval. -/
def inInterval (iv : Nat × Nat × Bool) (c p q : Nat) : Bool :=
  let (lo, hi, closed) := iv
  if closed then lo * q ≤ c * p && c * p ≤ hi * q
  else lo * q < c * p && c * p < hi * q

/-- The member of the decimal grid of spacing `10 ^ k` that is written for the value, if the
interval holds one of the value's two neighbours there. -/
def onGrid (steps : Nat) (k : Int) : Option Nat :=
  let (p, q) := match k with
    | .ofNat n => (tenPow n * twoPow (stepBits + 2), 1)
    | .negSucc n => (twoPow (stepBits + 2), tenPow (n + 1))
  let iv := interval steps
  let v := 4 * steps * q
  let c := v / p
  match inInterval iv c p q, inInterval iv (c + 1) p q with
  | true, true =>
    let down := v - c * p
    let up := (c + 1) * p - v
    if down < up then some c else if up < down then some (c + 1)
    else if c % 2 = 0 then some c else some (c + 1)
  | true, false => some c
  | false, true => some (c + 1)
  | false, false => none

/-- Drops trailing zeros. -/
def stripZeros (ds : List Nat) : List Nat := (ds.reverse.dropWhile (· == 0)).reverse

/-- The decimal `c * 10 ^ k` in leading-digit form. -/
def Decimal.ofGrid (c : Nat) (k : Int) : Decimal :=
  let ds := decimalDigits c
  ⟨stripZeros ds, k + ((ds.length : Int) - 1)⟩

/-- The shortest decimal of a positive magnitude: the first of 1, 2, …, 17 digits that works.
Seventeen digits always suffice. -/
def shortest (steps : Nat) : Decimal :=
  let e := leadingExponent steps
  let tryDigits (n : Nat) := (onGrid steps (e - n)).map fun c => Decimal.ofGrid c (e - n)
  ((List.range 17).findSome? tryDigits).getD ⟨[0], 0⟩

end IonTrap.Double
