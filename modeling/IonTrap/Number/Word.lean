import IonTrap.Number.Basic

/-!
# Machine words

Capacities, counts, weights and costs are words of 64 bits. A sum, a difference or a product that
does not fit keeps its low 64 bits, as a natural number or, where differences are compared with
zero, as a signed one. Where the exact result fits, nothing is lost.
-/

namespace IonTrap

/-- Number of values of a word. -/
def wordSize : Nat := 18446744073709551616

/-- What a word keeps of a number. -/
def wrap (n : Nat) : Nat := n % wordSize

/-- The difference of two words. -/
def wrapSub (x y : Nat) : Nat := wrap (x + (wordSize - wrap y))

/-- What a signed word keeps of a number. -/
def wrapInt (x : Int) : Int := x.bmod wordSize

/-- Most entries that a table can have, at 24 bytes each and with signed words as addresses. -/
def maxEntries : Nat := 384307168202282325

theorem wrap_lt (n : Nat) : wrap n < wordSize := Nat.mod_lt n (by decide)

theorem wrap_le (n : Nat) : wrap n ≤ n := Nat.mod_le n wordSize

theorem wrap_of_lt {n : Nat} (h : n < wordSize) : wrap n = n := Nat.mod_eq_of_lt h

@[simp]
theorem wrap_zero : wrap 0 = 0 := rfl

@[simp]
theorem wrap_one : wrap 1 = 1 := rfl

@[simp]
theorem wrap_wrap (n : Nat) : wrap (wrap n) = wrap n := Nat.mod_mod n wordSize

theorem wrap_add_wrap (m n : Nat) : wrap (m + wrap n) = wrap (m + n) := Nat.add_mod_mod m n wordSize

theorem wrap_wrap_add (m n : Nat) : wrap (wrap m + n) = wrap (m + n) := Nat.mod_add_mod m wordSize n

theorem wrap_wrap_mul (m n : Nat) : wrap (wrap m * n) = wrap (m * n) :=
  Nat.mod_mul_mod m n wordSize

theorem wrap_total_map_wrap (ns : List Nat) : wrap (total (ns.map wrap)) = wrap (total ns) := by
  induction ns with
  | nil => rfl
  | cons n ns ih =>
    rw [List.map_cons, total_cons, total_cons, wrap_wrap_add, ← wrap_add_wrap, ih, wrap_add_wrap]

/-- Differences are exact up to what a word loses. -/
theorem wrapSub_eq {m n : Nat} (h : n ≤ m) : wrapSub m n = wrap (m - n) := by
  unfold wrapSub wrap wordSize
  omega

theorem wrapSub_wrap {m n : Nat} (h : n ≤ m) : wrapSub (wrap m) n = wrap (m - n) := by
  unfold wrapSub wrap wordSize
  omega

theorem wrapSub_of_le {m n : Nat} (h : n ≤ m) (hm : m < wordSize) : wrapSub m n = m - n := by
  rw [wrapSub_eq h, wrap_of_lt (by omega)]

theorem wrapInt_of_natAbs_lt {x : Int} (h : x.natAbs < 9223372036854775808) : wrapInt x = x := by
  unfold wrapInt wordSize
  exact Int.bmod_eq_of_le (by omega) (by omega)

theorem wrapInt_add_wrapInt (x y : Int) : wrapInt (x + wrapInt y) = wrapInt (x + y) :=
  Int.add_bmod_bmod

end IonTrap
