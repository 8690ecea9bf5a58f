import IonTrap.Proofs.Outcome
import IonTrap.Number.Double

/-!
# Exact doubles

A number that needs at most 53 binary digits, times any power of two, is a double and rounds to
itself (`Double.roundSteps_mul_twoPow`). So whole numbers below `2 ^ 53` are doubles, and adding
them as doubles is adding them.
-/

namespace IonTrap.Double

/-- The number that a double stands for. -/
def toRat (d : Double) : ℚ := (if d.neg then -(d.steps : ℚ) else d.steps) / twoPow stepBits

/-! ## Rounding changes nothing -/

theorem twoPow_add (j k : Nat) : twoPow (j + k) = twoPow j * twoPow k := Nat.pow_add 2 j k

/-- Rounding a multiple of the unit to units. -/
theorem divNearest_mul (n : Nat) {unit : Nat} (hunit : 0 < unit) :
    divNearest (n * unit) unit = n := by
  unfold divNearest
  dsimp only
  rw [Nat.mul_mod_left, Nat.mul_div_cancel _ hunit, if_pos (by omega)]

/-- The digits that a double cannot hold are among the zeros at the end. -/
theorem excess_mul_twoPow_le {n : Nat} (h : n < twoPow precision) (k : Nat) :
    excess (n * twoPow k) ≤ k := by
  unfold excess
  by_cases hn : n = 0
  · rw [hn, Nat.zero_mul, Nat.log2_zero]
    have : 1 ≤ precision := by decide
    omega
  · -- `n` has at most 53 digits, and the power of two adds `k` zeros
    have hne : n * twoPow k ≠ 0 := Nat.mul_ne_zero hn (twoPow_pos k).ne'
    have hlt : n * twoPow k < twoPow (precision + k) := by
      rw [twoPow_add]
      exact Nat.mul_lt_mul_of_pos_right h (twoPow_pos k)
    have : (n * twoPow k).log2 < precision + k := (Nat.log2_lt hne).2 hlt
    omega

theorem roundSteps_mul_twoPow {n : Nat} (h : n < twoPow precision) (k : Nat) :
    roundSteps (n * twoPow k) 1 = n * twoPow k := by
  unfold roundSteps
  dsimp only
  rw [Nat.div_one, Nat.one_mul]
  -- the unit to which is rounded divides the power of two
  have hle := excess_mul_twoPow_le h k
  generalize excess (n * twoPow k) = e at hle ⊢
  have hsplit : n * twoPow k = n * twoPow (k - e) * twoPow e := by
    rw [Nat.mul_assoc, ← twoPow_add, Nat.sub_add_cancel hle]
  rw [hsplit, divNearest_mul _ (twoPow_pos e)]

/-! ## Whole numbers -/

theorem natSteps_eq {n : Nat} (h : n < twoPow precision) : natSteps n = n * twoPow stepBits :=
  roundSteps_mul_twoPow h stepBits

theorem zero_eq_ofNat : zero = ofNat 0 := by
  rw [ofNat, natSteps_eq (twoPow_pos precision), Nat.zero_mul, zero]

/-- A sum that needs no more than 53 digits is exact. -/
theorem addMagnitude_ofNat {m n : Nat} (h : m + n < twoPow precision) :
    (ofNat m).addMagnitude (ofNat n) = ofNat (m + n) := by
  have hm : m < twoPow precision := by omega
  have hn : n < twoPow precision := by omega
  show Double.mk false (roundSteps (natSteps m + natSteps n) 1) = ⟨false, natSteps (m + n)⟩
  rw [natSteps_eq hm, natSteps_eq hn, natSteps_eq h, ← Nat.add_mul, roundSteps_mul_twoPow h]

theorem toRat_ofNat {n : Nat} (h : n < twoPow precision) : (ofNat n).toRat = n := by
  have hpos : (twoPow stepBits : ℚ) ≠ 0 := by
    exact_mod_cast (twoPow_pos stepBits).ne'
  show ((natSteps n : ℕ) : ℚ) / twoPow stepBits = n
  rw [natSteps_eq h, Nat.cast_mul, mul_div_cancel_right₀ _ hpos]

end IonTrap.Double
