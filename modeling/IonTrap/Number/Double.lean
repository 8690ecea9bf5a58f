import IonTrap.Number.Basic

/-!
# Finite double-precision numbers

A finite double is a sign and a whole number of *steps* of `2 ^ -1074`, the smallest positive
double. Doubles lie one step apart below `2 ^ 53` steps, and the distance doubles with every further
binary digit, so rounding a rational number of steps keeps its 53 leading binary digits.

Gate angles and routing costs are doubles. Working on steps keeps every rounding in exact
natural-number arithmetic.
-/

namespace IonTrap

/-- A finite double: `± steps * 2 ^ -1074`. The two zeros differ. -/
structure Double where
  /-- The sign bit. -/
  neg : Bool
  /-- The magnitude in units of `2 ^ -1074`. -/
  steps : Nat
deriving DecidableEq, Repr

namespace Double

/-- Binary digits after the point that a step resolves. -/
def stepBits : Nat := 1074

/-- Significant binary digits of a double. -/
def precision : Nat := 53

/-- Magnitudes from here on are infinite. -/
def limit : Nat := twoPow 2098

/-! ## Rounding -/

/-- The whole number nearest `num / den`; a half goes to the even neighbour. -/
def divNearest (num den : Nat) : Nat :=
  let q := num / den
  let r := num % den
  if 2 * r < den then q
  else if den < 2 * r then q + 1
  else if q % 2 = 0 then q else q + 1

/-- Trailing binary digits of `n` that a double cannot hold. -/
def excess (n : Nat) : Nat := n.log2 + 1 - precision

/-- The steps of the double nearest to `num / den` steps. -/
def roundSteps (num den : Nat) : Nat :=
  let e := excess (num / den)
  divNearest num (den * twoPow e) * twoPow e

theorem divNearest_one (n : Nat) : divNearest n 1 = n := by
  simp [divNearest, Nat.mod_one]

theorem excess_eq_zero {n : Nat} (h : n < twoPow precision) : excess n = 0 := by
  unfold excess
  by_cases hn : n = 0
  · subst hn; decide
  · have := (Nat.log2_lt hn).2 h
    omega

/-- A whole number of steps below `2 ^ 53` is a double already. -/
theorem roundSteps_one {n : Nat} (h : n < twoPow precision) : roundSteps n 1 = n := by
  simp [roundSteps, excess_eq_zero h, divNearest_one]

/-! ## Arithmetic on magnitudes -/

/-- Rounded sum of two magnitudes. -/
def addSteps (a b : Nat) : Nat := roundSteps (a + b) 1

/-- Rounded product of two magnitudes. -/
def mulSteps (a b : Nat) : Nat := roundSteps (a * b) (twoPow stepBits)

/-- Rounded quotient of two magnitudes. -/
def divSteps (a b : Nat) : Nat := roundSteps (a * twoPow stepBits) b

/-- The double nearest to a natural number. -/
def natSteps (n : Nat) : Nat := roundSteps (n * twoPow stepBits) 1

/-- Positive zero. -/
def zero : Double := ⟨false, 0⟩

/-- The double nearest to `n`. -/
def ofNat (n : Nat) : Double := ⟨false, natSteps n⟩

/-- Rounded sum of two non-negative doubles. -/
def addMagnitude (a b : Double) : Double := ⟨false, addSteps a.steps b.steps⟩

/-- `a / b`, both rounded to doubles first: what a cost comes to per qubit. -/
def ratioSteps (a b : Nat) : Nat := divSteps (natSteps a) (natSteps b)

/-! ## Scaling by powers of ten -/

/-- Largest power of ten that is finite. -/
def maxPow10 : Nat := 308

/-- The double nearest to `10 ^ k`. -/
def pow10Steps (k : Nat) : Nat := natSteps (tenPow k)

/-- `f / 10 ^ n`, dividing by `10 ^ 308` as long as the power is too large for a double. -/
def scaleDown (f n : Nat) : Nat :=
  if n ≤ maxPow10 then divSteps f (pow10Steps n)
  else if f = 0 then 0
  else scaleDown (divSteps f (pow10Steps maxPow10)) (n - maxPow10)
termination_by n
decreasing_by simp only [maxPow10] at *; omega

/-- `f * 10 ^ n`, or `none` when that is infinite. -/
def scaleUp (f n : Nat) : Option Nat :=
  if n ≤ maxPow10 then
    let r := mulSteps f (pow10Steps n)
    if r < limit then some r else none
  else if f = 0 then some 0 else none

/-- `± significand * 10 ^ exponent`, in two roundings: the significand to a double, then the scaled
value. `none` when the result is infinite. -/
def ofDecimal (neg : Bool) (significand : Nat) (exponent : Int) : Option Double :=
  match exponent with
  | .ofNat n => (scaleUp (natSteps significand) n).map fun s => ⟨neg, s⟩
  | .negSucc n => some ⟨neg, scaleDown (natSteps significand) (n + 1)⟩

end Double

end IonTrap
