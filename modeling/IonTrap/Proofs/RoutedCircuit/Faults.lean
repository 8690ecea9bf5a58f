import IonTrap.Proofs.RoutedCircuit.Runs

/-!
# Errors of a validation

Moves answer `noSuchIndex` if they are asked for a zone that the trap does not have. A validation
asks for zones that it has found in the trap or in a connection, so on a legal architecture it never
has this answer, whatever circuit it is given (`RoutedCircuit.avoids_validate`). What it refuses it
refuses for a reason.
-/

namespace IonTrap

/-- The answer to a lookup outside the trap. -/
@[simp] def TrapError.IsIndexFault (e : TrapError) : Prop := e = .noSuchIndex

/-- Such an answer to a replayed operation. -/
@[simp] def ReplayFault.IsIndexFault (f : ReplayFault) : Prop := f = .trap .noSuchIndex

/-- Such an answer, while loading or at an entry of the stream. -/
@[simp] def CompileError.IsIndexFault (e : CompileError) : Prop :=
  e = .trap .noSuchIndex ∨ ∃ k, e = .inconsistent k (.trap .noSuchIndex)

theorem Avoids.liftTrap {α : Type} {x : Except TrapError α}
    (h : Avoids TrapError.IsIndexFault x) : Avoids CompileError.IsIndexFault (liftTrap x) := by
  apply h.mapError
  simp

theorem Avoids.trapFault {α : Type} {x : Except TrapError α}
    (h : Avoids TrapError.IsIndexFault x) :
    Avoids ReplayFault.IsIndexFault (x.mapError ReplayFault.trap) := by
  apply h.mapError
  simp

/-! ## Loading -/

section Load

variable (a : Architecture) (n : Nat)

theorem Placement.avoids_checkQubits (seen qs : List Nat) :
    Avoids TrapError.IsIndexFault (checkQubits n seen qs) := by
  induction qs generalizing seen with
  | nil => apply avoids_ok
  | cons q qs ih =>
    rw [checkQubits]
    split_ifs
    · exact avoids_error (by simp)
    · exact avoids_error (by simp)
    · exact ih _

theorem Placement.avoids_checkZones (z : Nat) (seen : List Nat) (p : List (List Nat)) :
    Avoids TrapError.IsIndexFault (checkZones a n z seen p) := by
  induction p generalizing z seen with
  | nil => apply avoids_ok
  | cons chain chains ih =>
    rw [checkZones]
    split_ifs
    · exact avoids_error (by simp)
    · exact (avoids_checkQubits n seen chain).bind fun _ _ => ih _ _

theorem Placement.avoids_validate (p : Placement) :
    Avoids TrapError.IsIndexFault (p.validate a n) := by
  rw [validate]
  split_ifs
  · exact avoids_error (by simp)
  · apply (avoids_checkZones a n 0 [] p).bind
    intro found _
    split
    · exact avoids_error (by simp)
    · apply avoids_ok

theorem Trap.avoids_ofPlacement (p : Placement) :
    Avoids TrapError.IsIndexFault (ofPlacement a n p) := by
  have hcheck : Avoids TrapError.IsIndexFault (a.checkNumQubits n) := by
    rw [Architecture.checkNumQubits]
    split_ifs
    · exact avoids_error (by simp)
    · apply avoids_ok
  apply Avoids.bind (hcheck.bind fun _ _ => Placement.avoids_validate a n p)
  intro _ _
  apply avoids_ok

end Load

/-! ## Replaying -/

namespace Trap

variable {t : Trap} {source target : Nat}

theorem avoids_checkMovable (seen qs : List Nat) :
    Avoids TrapError.IsIndexFault (t.checkMovable source seen qs) := by
  induction qs generalizing seen with
  | nil => apply avoids_ok
  | cons q qs ih =>
    rw [checkMovable]
    split_ifs
    · exact avoids_error (by simp)
    · exact avoids_error (by simp)
    · exact avoids_error (by simp)
    · exact ih _

theorem avoids_move (hs : source < t.arch.numZones) (ht : target < t.arch.numZones)
    (qs : List Nat) (port : Port) :
    Avoids TrapError.IsIndexFault (t.move qs source target port) := by
  rw [move]
  apply avoids_ite
  · intro _
    exact avoids_error (by simp)
  · intro _
    apply (avoids_checkMovable [] qs).bind
    intro _ _
    split_ifs with hnone _ hnone
    · simp [hasZone, ht] at hnone
    · exact avoids_error (by simp)
    · simp [hasZone, hs] at hnone
    · apply avoids_ok

theorem avoids_swap {z left : Nat} (hleft : left + 1 < (t.chain z).length) :
    Avoids TrapError.IsIndexFault (t.swap z left) := by
  have hz : z < t.placement.length := by
    by_contra hz
    rw [chain_eq_nil (Nat.le_of_not_lt hz)] at hleft
    simp at hleft
  rw [swap, getElem?_placement hz]
  dsimp only
  rw [List.getElem?_eq_getElem hleft, List.getElem?_eq_getElem (Nat.lt_of_succ_lt hleft)]
  apply avoids_ok

theorem avoids_operandZones (qs : List Nat) :
    Avoids TrapError.IsIndexFault (t.operandZones qs) := by
  induction qs with
  | nil => apply avoids_ok
  | cons q qs ih =>
    rw [operandZones]
    split_ifs
    · exact avoids_error (by simp)
    · apply ih.bind
      intro zones _
      apply avoids_ok

theorem avoids_checkGate (k : Nat) (i : Instruction) :
    Avoids CompileError.IsIndexFault (t.checkGate k i) := by
  rw [checkGate]
  apply avoids_ite
  · intro _
    apply avoids_ok
  · intro _
    apply (avoids_operandZones i.qubits).liftTrap.bind
    intro zones _
    split
    · apply avoids_ok
    · split_ifs
      · exact avoids_error (by simp)
      · exact avoids_error (by simp)
      · apply avoids_ok

theorem avoids_replayShuttle (hlegal : t.arch.Legal) (qs : List Nat) (source target : Nat)
    (exit arrival : Port) :
    Avoids ReplayFault.IsIndexFault (t.replayShuttle qs source target exit arrival) := by
  have hports : Avoids TrapError.IsIndexFault (t.arch.connectionPorts source target) := by
    rw [Architecture.connectionPorts]
    split
    · apply avoids_ok
    · exact avoids_error (by simp)
  apply hports.trapFault.bind
  intro ports hlink
  -- two connected zones are zones of the trap
  obtain ⟨hs, ht, -⟩ :=
    hlegal.linked_zones (hlegal.connectionPorts_eq_ok_iff.1 (mapError_eq_ok_iff.1 hlink))
  dsimp only
  split_ifs
  · exact avoids_error (by simp)
  · exact avoids_error (by simp)
  · exact avoids_error (by simp)
  · exact (avoids_move hs ht qs arrival).trapFault

theorem Consistent.avoids_replaySwap (h : t.Consistent) (z left right : Nat) :
    Avoids ReplayFault.IsIndexFault (t.replaySwap z left right) := by
  rw [replaySwap]
  split_ifs with _ hright hnext
  · exact avoids_error (by simp)
  · exact avoids_error (by simp)
  · exact avoids_error (by simp)
  · -- the right one of the two qubits stands at the second place
    rw [Bool.not_eq_true', Bool.not_eq_false, isIn_iff] at hright
    apply Avoids.trapFault
    apply avoids_swap
    rw [← not_not.1 hnext, ← hright.2]
    exact h.position_lt hright.1

theorem Consistent.avoids_replay (h : t.Consistent) (hlegal : t.arch.Legal) (k : Nat)
    (ops : List RoutedOp) : Avoids CompileError.IsIndexFault (t.replay k ops) := by
  induction ops generalizing t k with
  | nil => apply avoids_ok
  | cons op ops ih =>
    have hentry : Avoids CompileError.IsIndexFault (t.replayEntry k op) := by
      cases op with
      | gate i =>
        apply (avoids_checkGate k i).bind
        intro _ _
        apply avoids_ok
      | routing op =>
        have hop : Avoids ReplayFault.IsIndexFault (t.replayOp op) := by
          cases op with
          | shuttle qs source target exit arrival => exact avoids_replayShuttle hlegal _ _ _ _ _
          | swap z left right => exact h.avoids_replaySwap z left right
          | barrier => apply avoids_ok
        apply hop.mapError
        simp
    apply hentry.bind
    intro t' ht'
    have hfollows := h.follows_of_replayEntry ht'
    exact ih hfollows.consistent (by rwa [hfollows.arch]) (k + 1)

end Trap

theorem RoutedCircuit.avoids_validate {a : Architecture} (hlegal : a.Legal) (c : RoutedCircuit) :
    Avoids CompileError.IsIndexFault (c.validate a) := by
  apply (Trap.avoids_ofPlacement a c.numQubits c.initialPlacement).liftTrap.bind
  intro t ht
  have hload := liftTrap_eq_ok_iff.1 ht
  have harch : t.arch = a := by rw [(Trap.ofPlacement_eq_ok hload).2.2]
  apply ((Trap.consistent_ofPlacement hlegal hload).avoids_replay (by rwa [harch]) 0 c.ops).bind
  intro t' _
  split_ifs
  · apply avoids_ok
  · exact avoids_error (by simp)

end IonTrap
