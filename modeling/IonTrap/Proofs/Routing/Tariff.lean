import IonTrap.Proofs.Outcome
import IonTrap.Trap.Cost

/-!
# What a log of operations comes to

A tariff charges physical operations: a swap according to its zone, shuttles and barriers at a flat
rate. A log is described by its bills under all tariffs. That says how often each kind of operation
was logged, and in which zones, but not in which order. `CostModel.tariff` charges what a cost model
counts.
-/

namespace IonTrap

/-- Charges for physical operations. -/
structure Tariff where
  /-- Charge of a swap in a zone. -/
  swap : Nat → Nat
  /-- Charge of a shuttle. -/
  shuttle : Nat
  /-- Charge of a barrier. -/
  barrier : Nat

namespace Tariff

/-- Charge of an operation. -/
def charge (τ : Tariff) : RoutingOp → Nat
  | .shuttle .. => τ.shuttle
  | .swap z _ _ => τ.swap z
  | .barrier => τ.barrier

/-- Charge of a log. -/
def bill (τ : Tariff) (ops : List RoutingOp) : Nat := total (ops.map τ.charge)

@[simp] theorem bill_nil (τ : Tariff) : τ.bill [] = 0 := rfl

@[simp] theorem bill_cons (τ : Tariff) (op : RoutingOp) (ops : List RoutingOp) :
    τ.bill (op :: ops) = τ.charge op + τ.bill ops := rfl

@[simp] theorem bill_append (τ : Tariff) (ops ops' : List RoutingOp) :
    τ.bill (ops ++ ops') = τ.bill ops + τ.bill ops' := by
  rw [bill, List.map_append, total_append, bill, bill]

/-- Charge of taking `n` qubits from one end to the other in some zones, past the qubits that are
there. -/
def turning (τ : Tariff) (n : Nat) (others : Nat → List Nat) (zones : List Nat) : Nat :=
  total (zones.map fun z => n * (others z).length * τ.swap z)

section Turning

variable (τ : Tariff) (n : Nat) (others : Nat → List Nat)

theorem turning_nil : τ.turning n others [] = 0 := rfl

theorem turning_singleton (z : Nat) :
    τ.turning n others [z] = n * (others z).length * τ.swap z := rfl

theorem turning_append (zones zones' : List Nat) :
    τ.turning n others (zones ++ zones')
      = τ.turning n others zones + τ.turning n others zones' := by
  rw [turning, List.map_append, total_append, turning, turning]

theorem turning_of_swap_eq_zero (h : ∀ z, τ.swap z = 0) (zones : List Nat) :
    τ.turning n others zones = 0 := by
  induction zones with
  | nil => rfl
  | cons z zones ih =>
    have hcons := τ.turning_append n others [z] zones
    rw [List.singleton_append, ih, turning_singleton, h] at hcons
    rw [hcons, Nat.mul_zero]

end Turning

/-- Counts barriers. -/
def barriers : Tariff := ⟨fun _ => 0, 0, 1⟩

theorem bill_barriers (ops : List RoutingOp) : barriers.bill ops = ops.countP (·.isBarrier) := by
  induction ops with
  | nil => rfl
  | cons op ops ih =>
    rw [bill_cons, List.countP_cons, ih]
    cases op <;> simp [charge, barriers, RoutingOp.isBarrier, Nat.add_comm]

end Tariff

/-- What a model counts: shuttles, and in one model swaps at the cost of their zone. -/
def CostModel.tariff (m : CostModel) (a : Architecture) : Tariff :=
  match m with
  | .shuttleSwap => ⟨a.swapCost, shuttleCost, 0⟩
  | .shuttleOnly => ⟨fun _ => 0, shuttleCost, 0⟩

theorem CostModel.barrier_tariff (m : CostModel) (a : Architecture) : (m.tariff a).barrier = 0 := by
  cases m <;> rfl

end IonTrap
