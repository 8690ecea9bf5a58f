import IonTrap.Number.Basic

/-!
# Exponentially decaying weights

`decayed k w` is `w · e ^ (-k / 5)`, rounded up. Exact arithmetic on fractions of `2 ^ 128` gives
far more digits than the rounding needs, since no such value but `w` itself comes near a whole
number.
-/

namespace IonTrap

/-- The fraction `e ^ (-1 / 5)` of `2 ^ 128`, rounded down. -/
def decayStep : Nat := 278599638528338091103131441305499556619

/-- The fraction `e ^ (-k / 5)` of `2 ^ 128`, each step rounded down. -/
def decayPower : Nat → Nat
  | 0 => twoPow 128
  | k + 1 => decayPower k * decayStep / twoPow 128

/-- The last `k` for which `e ^ (-k / 5)` does not round to zero as a double. -/
def decayEnd : Nat := 3725

/-- The weight `w · e ^ (-k / 5)`, rounded up. Beyond `decayEnd` it is zero. -/
def decayed (k w : Nat) : Nat :=
  if decayEnd < k then 0 else max 1 ((decayPower k * w + (twoPow 128 - 1)) / twoPow 128)

end IonTrap
