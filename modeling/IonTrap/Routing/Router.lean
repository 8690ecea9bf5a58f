import IonTrap.Error
import IonTrap.Routing.Align
import IonTrap.Routing.Batch

/-!
# The router

Takes a live trap to a target placement, batch by batch. While every target zone is full the router
is in soft-lock: one zone may hold a qubit above its gate capacity, and the next batch leaves that
zone.
-/

namespace IonTrap

/-- A run of the router under way. -/
structure Journey where
  /-- The live trap. -/
  trap : Trap
  /-- Qubits still to move. -/
  groups : List Group
  /-- Whether soft-lock was entered. -/
  soft : Bool
  /-- The zone above gate capacity, which must be left next. -/
  forced : Option Nat
  /-- Operations so far. -/
  ops : List RoutingOp
  /-- Cost so far. -/
  cost : Double
deriving DecidableEq, Repr

namespace Journey

/-- A run before its first batch. -/
def start (t : Trap) (target : Placement) : Journey := ⟨t, t.groups target, false, none, [], .zero⟩

/-- The target zone of a batch if the batch took it above gate capacity. -/
def overfull (t : Trap) (z : Nat) : Option Nat :=
  if t.arch.gateCapacity z < t.occupancy z then some z else none

/-- The run after a batch was carried out. -/
def afterBatch (j : Journey) (soft : Bool) (b : Batch) (p : Progress) : Journey where
  trap := p.trap
  groups := removeBatch j.groups b
  soft := soft
  forced := overfull p.trap b.target
  ops := p.ops
  cost := j.cost.addMagnitude (.ofNat b.move.cost)

/-- Carries out the next batch, or enters soft-lock if there is none. -/
def step (m : CostModel) (j : Journey) : Except (Trap × CompileError) Journey :=
  let soft := j.soft || !j.trap.hasSpace j.groups false
  if !j.trap.hasSpace j.groups soft then .error (j.trap, .infeasible (remaining j.groups))
  else
    match nextBatch? m j.trap j.groups j.forced soft with
    | none =>
      if soft then .error (j.trap, .infeasible (remaining j.groups))
      else .ok { j with soft := true }
    | some b =>
      match Progress.execute ⟨j.trap, j.ops⟩ b.source b.qubits b.move with
      | .error (t, e) => .error (t, .trap e)
      | .ok p => .ok (j.afterBatch soft b p)

/-- Bounds the number of steps to come: a batch moves at least one qubit, and soft-lock is entered
once. -/
def rank (j : Journey) : Nat := 2 * remaining j.groups + (if j.soft then 0 else 1)

theorem rank_step_lt {m : CostModel} {j j' : Journey} (h : j.step m = .ok j') :
    j'.rank < j.rank := by
  unfold step at h
  simp only at h
  split at h
  · simp at h
  · split at h
    · split at h
      · simp at h
      · next hs =>
        obtain rfl := Except.ok.inj h
        simp only [Bool.or_eq_true, not_or, Bool.not_eq_true] at hs
        simp [rank, hs.1]
    · next b hb =>
      split at h
      · simp at h
      · obtain rfl := Except.ok.inj h
        have := remaining_removeBatch_lt (partOf_of_nextBatch hb)
        simp only [rank, afterBatch]
        grind

/-- What a finished run reports. A barrier closes the operations, if there are any. -/
def result (j : Journey) : RoutingResult :=
  ⟨j.cost, if j.ops.isEmpty then [] else j.ops ++ [.barrier]⟩

/-- Runs to the end. Also gives the trap as the run leaves it. -/
def run (m : CostModel) (j : Journey) : Trap × Except CompileError RoutingResult :=
  if j.groups.isEmpty then (j.trap, .ok j.result)
  else
    match h : j.step m with
    | .error (t, e) => (t, .error e)
    | .ok j' =>
      have := rank_step_lt h
      run m j'
termination_by j.rank

end Journey

/-- Checks a target placement. -/
def Trap.checkTarget (t : Trap) (target : Placement) : Except CompileError Unit :=
  match target.validate t.arch t.numQubits with
  | .error (.gateCapacity z n c) => .error (.targetOverCapacity z n c)
  | .error e => .error (.trap e)
  | .ok () => .ok ()

/-- Takes the trap to a target placement. The order of the qubits inside a zone is left open.
Batches carried out before a failure stay. -/
def Trap.routeTo (t : Trap) (m : CostModel) (target : Placement) :
    Trap × Except CompileError RoutingResult :=
  match t.checkTarget target with
  | .error e => (t, .error e)
  | .ok () => (Journey.start t target).run m

end IonTrap
