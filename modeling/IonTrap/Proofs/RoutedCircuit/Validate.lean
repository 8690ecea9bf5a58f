import IonTrap.Proofs.RoutedCircuit.Faults
import IonTrap.Proofs.Trap.Load

/-!
# Validation decides the legal runs

A routed circuit may come from anywhere: its stream may name zones, qubits and ports that the trap
does not have. `RoutedCircuit.validate` loads a trap and replays the stream on its tables, here once
more in place. Whatever the circuit, no index is out of range, and the check accepts exactly the
legal runs of the bare chains (`RoutedCircuit.validate_decides_runs`).
-/

namespace IonTrap

open Indexed

namespace Trap

/-! ## The replay in place -/

namespace InPlace

/-- The zones of an instruction's qubits. -/
def operandZones : List Nat → Indexed Trap TrapError (List Nat)
  | [] => pure []
  | q :: qs => do
    let t ← get
    if t.numQubits ≤ q then throw (.qubitOutOfRange q t.numQubits)
    else do
      let spot ← places.get q
      let zones ← operandZones qs
      return spot.1 :: zones

/-- Checks that an instruction, entry number `index`, can run now. -/
def checkGate (index : Nat) (i : Instruction) : Indexed Trap CompileError Unit :=
  if i.isBarrier then pure ()
  else do
    let zones ← (operandZones i.qubits).mapError .trap
    match zones with
    | [] => pure ()
    | z :: rest =>
      if rest.any (· != z) then throw (.acrossZones index i.name zones)
      else do
        let t ← get
        let zone ← entry t.arch.zones z
        if zone.memoryOnly then throw (.inMemoryZone index i.name z) else pure ()

/-- The `n` qubits of a chain nearest to a port; the chain must have as many. -/
def segment {ε : Type} (chain : List Nat) (n : Nat) (port : Port) : Indexed Trap ε (List Nat) :=
  if chain.length < n then outOfRange else pure (endSegment chain n port)

/-- Replays a shuttle. -/
def replayShuttle (qubits : List Nat) (source target : Nat) (sourcePort targetPort : Port) :
    Indexed Trap ReplayFault Unit := do
  let t ← get
  match t.arch.connectionPorts source target with
  | .error e => throw (.trap e)
  | .ok (exit, arrival) =>
    if exit ≠ sourcePort ∨ arrival ≠ targetPort then
      throw (.otherPorts source target exit arrival)
    else do
      let chain ← chains.get source
      if chain.length < qubits.length then throw (.tooFewQubits source qubits.length)
      else do
        let cohort ← segment chain qubits.length sourcePort
        if cohort ≠ qubits then throw (.notLinedUp qubits sourcePort source)
        else (move qubits source target targetPort).mapError .trap

/-- Whether a qubit is in a zone. -/
def isIn {ε : Type} (q z : Nat) : Indexed Trap ε Bool := do
  let t ← get
  if q < t.numQubits then do
    let spot ← places.get q
    return spot.1 == z
  else return false

/-- Replays a swap. -/
def replaySwap (z left right : Nat) : Indexed Trap ReplayFault Unit := do
  let leftIn ← isIn left z
  if !leftIn then throw (.notInZone left z)
  else do
    let rightIn ← isIn right z
    if !rightIn then throw (.notInZone right z)
    else do
      let leftSpot ← places.get left
      let rightSpot ← places.get right
      if rightSpot.2 ≠ leftSpot.2 + 1 then throw (.notNeighbours left right)
      else (swap z leftSpot.2).mapError .trap

/-- Replays a physical operation. -/
def replayOp : RoutingOp → Indexed Trap ReplayFault Unit
  | .shuttle qs source target exit arrival => replayShuttle qs source target exit arrival
  | .swap z left right => replaySwap z left right
  | .barrier => pure ()

/-- Replays an entry of the stream, number `index`. -/
def replayEntry (index : Nat) : RoutedOp → Indexed Trap CompileError Unit
  | .gate i => checkGate index i
  | .routing op => (replayOp op).mapError (.inconsistent index)

/-- Replays a stream; `index` numbers its first entry. -/
def replay (index : Nat) : List RoutedOp → Indexed Trap CompileError Unit
  | [] => pure ()
  | op :: ops => do
    replayEntry index op
    replay (index + 1) ops

end InPlace

section Replay

variable {ε : Type} {t : Trap} (h : t.Consistent)
include h

theorem Consistent.exec_operandZones (qs : List Nat) :
    (InPlace.operandZones qs).exec t = some (t.operandZones qs, t) := by
  induction qs with
  | nil => rfl
  | cons q qs ih =>
    rw [InPlace.operandZones, exec_bind (exec_get t), operandZones]
    split_ifs with hq
    · rfl
    · rw [exec_bind (h.exec_place (by omega))]
      apply exec_bind_reads ih
      intro zones _
      rfl

theorem Consistent.exec_checkGate (k : Nat) (i : Instruction) :
    (InPlace.checkGate k i).exec t = some (t.checkGate k i, t) := by
  rw [InPlace.checkGate, checkGate]
  by_cases hb : i.isBarrier = true
  · rw [if_pos hb, if_pos hb]
    rfl
  rw [if_neg hb, if_neg hb]
  apply exec_bind_reads (exec_mapError (h.exec_operandZones i.qubits) CompileError.trap)
  intro zones hzones
  obtain ⟨hlt, rfl⟩ := operandZones_eq_ok_iff.1 (mapError_eq_ok_iff.1 hzones)
  cases hqs : i.qubits with
  | nil => rfl
  | cons q qs =>
    -- the first qubit exists, so its zone does
    obtain ⟨zone, hzone, -, -, hgate⟩ :=
      Architecture.exists_zone (h.zoneOf_lt (hlt q (by simp [hqs])))
    rw [List.map_cons]
    dsimp only
    rw [hgate, Bool.not_not]
    split_ifs with hother hmemory
    · rfl
    · rw [exec_bind (exec_get t), exec_bind (exec_entry hzone t), if_pos hmemory]
      rfl
    · rw [exec_bind (exec_get t), exec_bind (exec_entry hzone t), if_neg hmemory]
      rfl

omit h in
theorem exec_segment {chain : List Nat} {n : Nat} (hn : ¬ chain.length < n) (port : Port)
    (t : Trap) : (InPlace.segment chain n port : Indexed Trap ε (List Nat)).exec t
      = some (.ok (endSegment chain n port), t) := by
  rw [InPlace.segment, if_neg hn, exec_pure]

theorem Consistent.comesTo_replayShuttle (hlegal : t.arch.Legal) (qs : List Nat)
    (source target : Nat) (exit arrival : Port) :
    (InPlace.replayShuttle qs source target exit arrival).ComesTo t id
      (t.replayShuttle qs source target exit arrival) := by
  rw [InPlace.replayShuttle, replayShuttle, comesTo_bind (exec_get t)]
  cases hports : t.arch.connectionPorts source target with
  | error e => apply comesTo_throw
  | ok ports =>
    obtain ⟨exit', arrival'⟩ := ports
    -- two connected zones are zones of the trap
    obtain ⟨hs, ht, -⟩ := hlegal.linked_zones (hlegal.connectionPorts_eq_ok_iff.1 hports)
    rw [mapError_ok, ok_bind]
    dsimp only
    split_ifs with hother hfew hline
    · apply comesTo_throw
    · rw [comesTo_bind (h.sized.exec_chain hs), if_pos hfew]
      apply comesTo_throw
    · rw [comesTo_bind (h.sized.exec_chain hs), if_neg hfew,
        comesTo_bind (exec_segment hfew exit t), if_pos hline]
      apply comesTo_throw
    · rw [comesTo_bind (h.sized.exec_chain hs), if_neg hfew,
        comesTo_bind (exec_segment hfew exit t), if_neg hline]
      exact (comesTo_of_allOrNothing (h.exec_move hs ht qs arrival)).mapError _

theorem Consistent.exec_isIn (q z : Nat) :
    (InPlace.isIn q z : Indexed Trap ε Bool).exec t = some (.ok (t.isIn q z), t) := by
  rw [InPlace.isIn, exec_bind (exec_get t)]
  by_cases hq : q < t.numQubits
  · have hin : t.isIn q z = (t.zoneOf q == z) := by simp [isIn, hq]
    rw [if_pos hq, exec_bind (h.exec_place hq), hin, exec_pure]
  · have hin : t.isIn q z = false := by simp [isIn, hq]
    rw [if_neg hq, hin, exec_pure]

theorem Consistent.comesTo_replaySwap (z left right : Nat) :
    (InPlace.replaySwap z left right).ComesTo t id (t.replaySwap z left right) := by
  -- the places of the two qubits are looked up only after both were found in the zone
  rw [InPlace.replaySwap, replaySwap, comesTo_bind (h.exec_isIn left z)]
  by_cases hleft : (!t.isIn left z) = true
  · rw [if_pos hleft, if_pos hleft]
    apply comesTo_throw
  rw [if_neg hleft, if_neg hleft, comesTo_bind (h.exec_isIn right z)]
  by_cases hright : (!t.isIn right z) = true
  · rw [if_pos hright, if_pos hright]
    apply comesTo_throw
  rw [if_neg hright, if_neg hright]
  rw [Bool.not_eq_true', Bool.not_eq_false, isIn_iff] at hleft hright
  rw [comesTo_bind (h.exec_place hleft.1), comesTo_bind (h.exec_place hright.1)]
  split_ifs with hnext
  · apply comesTo_throw
  · have hz : z < t.arch.numZones := by
      rw [← hleft.2]
      exact h.zoneOf_lt hleft.1
    have hnext : t.position left + 1 < (t.chain z).length := by
      rw [← not_not.1 hnext, ← hright.2]
      exact h.position_lt hright.1
    exact (comesTo_of_allOrNothing (h.exec_swap hz (.inl hnext))).mapError _

theorem Consistent.comesTo_replayEntry (hlegal : t.arch.Legal) (k : Nat) (op : RoutedOp) :
    (InPlace.replayEntry k op).ComesTo t id (t.replayEntry k op) := by
  cases op with
  | gate i =>
    have hexec := h.exec_checkGate k i
    rw [InPlace.replayEntry, replayEntry]
    cases hcheck : t.checkGate k i with
    | error e =>
      rw [hcheck] at hexec
      exact ⟨t, hexec⟩
    | ok _ =>
      rw [hcheck] at hexec
      exact hexec
  | routing op =>
    apply ComesTo.mapError
    cases op with
    | shuttle qs source target exit arrival => exact h.comesTo_replayShuttle hlegal _ _ _ _ _
    | swap z left right => exact h.comesTo_replaySwap z left right
    | barrier => rfl

/-- On a consistent trap a stream can be replayed in place: no index is out of range, whatever the
stream asks for, and the replay ends as the function says. -/
theorem Consistent.comesTo_replay (hlegal : t.arch.Legal) (k : Nat) (ops : List RoutedOp) :
    (InPlace.replay k ops).ComesTo t id (t.replay k ops) := by
  -- what an entry leaves is a consistent trap of the same architecture, so the rest starts alike
  induction ops generalizing t k with
  | nil => rfl
  | cons op ops ih =>
    apply (h.comesTo_replayEntry hlegal k op).bind
    intro t' ht'
    have hfollows := h.follows_of_replayEntry ht'
    exact ih hfollows.consistent (by rwa [hfollows.arch]) (k + 1)

end Replay

end Trap

/-! ## The check -/

namespace RoutedCircuit

/-- The check of a routed circuit in place. -/
def validateInPlace (c : RoutedCircuit) (a : Architecture) : ExceptT CompileError Option Unit := do
  let t ← ExceptT.adapt CompileError.trap
    (Trap.InPlace.ofPlacement a c.numQubits c.initialPlacement)
  let t ← (Trap.InPlace.replay 0 c.ops).startOn t
  if t.placement = c.finalPlacement then pure ()
  else throw (.inconsistent c.ops.length .otherEnd)

section Decides

variable {a : Architecture} (hlegal : a.Legal) (c : RoutedCircuit)
include hlegal

theorem run_validateInPlace : (c.validateInPlace a).run = some (c.validate a) := by
  have hload := run_adapt (Trap.run_ofPlacement a c.numQubits c.initialPlacement) CompileError.trap
  apply run_bind_eq_some hload
  intro t ht
  have ht := liftTrap_eq_ok_iff.1 ht
  have harch : t.arch = a := by rw [(Trap.ofPlacement_eq_ok ht).2.2]
  have hreplay := (Trap.consistent_ofPlacement hlegal ht).comesTo_replay (by rwa [harch]) 0 c.ops
  have hrun := hreplay.run_startOn
  rw [Except.map_id, id_eq] at hrun
  apply run_bind_eq_some hrun
  intro t' _
  split_ifs <;> rfl

theorem validate_eq_ok_iff :
    c.validate a = .ok () ↔ c.numQubits ≤ a.maxQubits ∧ c.initialPlacement.Fits a c.numQubits ∧
      Placement.Runs a c.numQubits c.ops c.initialPlacement c.finalPlacement := by
  constructor
  · -- the three stages of the check, taken apart
    intro h
    obtain ⟨t, ht, h⟩ := bind_eq_ok_iff.1 h
    obtain ⟨t', hreplay, hend⟩ := bind_eq_ok_iff.1 h
    have ht := liftTrap_eq_ok_iff.1 ht
    obtain ⟨hfits, hmax, htrap⟩ := Trap.ofPlacement_eq_ok ht
    have hruns := (Trap.consistent_ofPlacement hlegal ht).runs_of_replay (by rwa [htrap]) hreplay
    split_ifs at hend with hfinal
    rw [hfinal, htrap] at hruns
    exact ⟨hmax, hfits, hruns⟩
  · rintro ⟨hmax, hfits, hruns⟩
    obtain ⟨t, ht⟩ := Trap.ofPlacement_eq_ok_iff.2 ⟨hfits, hmax⟩
    obtain ⟨-, -, htrap⟩ := Trap.ofPlacement_eq_ok ht
    obtain ⟨t', hreplay, hfinal⟩ := (Trap.consistent_ofPlacement hlegal ht).exists_replay
      (by rwa [htrap]) (by rwa [htrap]) 0
    rw [validate, ht, liftTrap_ok, ok_bind, hreplay, ok_bind, if_pos hfinal]

end Decides

/-- A gate in one zone, then two swapped qubits of which one goes on to the next zone for another
gate. -/
def crossing : RoutedCircuit where
  name := "crossing"
  numQubits := 3
  numClbits := 0
  inits := [⟨0, [0, 1]⟩, ⟨1, [2]⟩, ⟨2, []⟩]
  ops :=
    [.gate (.ofStandard .cx [0, 1]), .routing (.swap 0 0 1),
      .routing (.shuttle [0] 0 1 .p1 .p0), .routing .barrier, .gate (.ofStandard .cx [2, 0])]
  finalPlacement := [[1], [0, 2], []]

end RoutedCircuit

end IonTrap
