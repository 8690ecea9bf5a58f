import IonTrap.Error
import IonTrap.RoutedCircuit.Basic
import IonTrap.Trap.Basic

/-!
# Replaying routed circuits

A routed circuit is checked by running its stream on a freshly loaded trap. A gate needs its qubits
in one gate zone, a shuttle takes a cohort that stands at the departure port over a connection, a
swap exchanges neighbours, and the run must end where the circuit says.
-/

namespace IonTrap

/-- The zones of an instruction's qubits. -/
def Trap.operandZones (t : Trap) : List Nat → Except TrapError (List Nat)
  | [] => .ok []
  | q :: qs =>
    if t.numQubits ≤ q then .error (.qubitOutOfRange q t.numQubits)
    else do
      let zones ← t.operandZones qs
      return t.zoneOf q :: zones

/-- Checks that an instruction, entry number `index`, can run now. -/
def Trap.checkGate (t : Trap) (index : Nat) (i : Instruction) : Except CompileError Unit :=
  if i.isBarrier then .ok ()
  else do
    let zones ← liftTrap (t.operandZones i.qubits)
    match zones with
    | [] => .ok ()
    | z :: rest =>
      if rest.any (· != z) then .error (.acrossZones index i.name zones)
      else if !t.arch.isGateZone z then .error (.inMemoryZone index i.name z)
      else .ok ()

/-- The `n` qubits of a chain nearest to a port. -/
def endSegment (chain : List Nat) (n : Nat) : Port → List Nat
  | .p0 => chain.take n
  | .p1 => chain.drop (chain.length - n)

/-- Replays a shuttle. -/
def Trap.replayShuttle (t : Trap) (qubits : List Nat) (source target : Nat)
    (sourcePort targetPort : Port) : Except ReplayFault Trap := do
  let (exit, arrival) ← (t.arch.connectionPorts source target).mapError .trap
  if exit ≠ sourcePort ∨ arrival ≠ targetPort then .error (.otherPorts source target exit arrival)
  else if (t.chain source).length < qubits.length then .error (.tooFewQubits source qubits.length)
  else if endSegment (t.chain source) qubits.length sourcePort ≠ qubits then
    .error (.notLinedUp qubits sourcePort source)
  else (t.move qubits source target targetPort).mapError .trap

/-- Whether a qubit is in a zone. -/
def Trap.isIn (t : Trap) (q z : Nat) : Bool := q < t.numQubits && t.zoneOf q == z

/-- Replays a swap. -/
def Trap.replaySwap (t : Trap) (z left right : Nat) : Except ReplayFault Trap :=
  if !t.isIn left z then .error (.notInZone left z)
  else if !t.isIn right z then .error (.notInZone right z)
  else if t.position right ≠ t.position left + 1 then .error (.notNeighbours left right)
  else (t.swap z (t.position left)).mapError .trap

/-- Replays a physical operation. -/
def Trap.replayOp (t : Trap) : RoutingOp → Except ReplayFault Trap
  | .shuttle qs source target sp tp => t.replayShuttle qs source target sp tp
  | .swap z l r => t.replaySwap z l r
  | .barrier => .ok t

/-- Replays an entry of the stream, number `index`. -/
def Trap.replayEntry (t : Trap) (index : Nat) : RoutedOp → Except CompileError Trap
  | .gate i => do
    t.checkGate index i
    return t
  | .routing op => (t.replayOp op).mapError (.inconsistent index)

/-- Replays a stream; `index` numbers its first entry. -/
def Trap.replay (t : Trap) (index : Nat) : List RoutedOp → Except CompileError Trap
  | [] => .ok t
  | op :: ops => do
    let t ← t.replayEntry index op
    t.replay (index + 1) ops

/-- Checks a routed circuit on an architecture. -/
def RoutedCircuit.validate (c : RoutedCircuit) (a : Architecture) : Except CompileError Unit := do
  let t ← liftTrap (Trap.ofPlacement a c.numQubits c.initialPlacement)
  let t ← t.replay 0 c.ops
  if t.placement = c.finalPlacement then .ok () else .error (.inconsistent c.ops.length .otherEnd)

end IonTrap
