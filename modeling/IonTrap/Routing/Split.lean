import IonTrap.Circuit.Basic
import IonTrap.Trap.Cost

/-!
# What can run now

Instructions are taken in order. One that cannot run makes its qubits stragglers, and every later
instruction on a straggler waits too, so the order on each qubit is kept.
-/

namespace IonTrap

namespace Trap

/-- Zone of any qubit. -/
def findZone (t : Trap) (q : Nat) : Except TrapError Nat :=
  if t.hasQubit q then .ok (t.zoneOf q) else .error .noSuchIndex

/-- Whether an instruction has to wait. A barrier waits for stragglers only; of the qubits of any
other instruction, the first two must share a gate zone. -/
def mustWait (t : Trap) (stragglers : List Nat) (i : Instruction) : Except TrapError Bool :=
  if i.isBarrier then .ok (i.qubits.any stragglers.contains)
  else
    match i.qubits with
    | [] => .ok false
    | [q] =>
      if stragglers.contains q then .ok true
      else do
        let z ← t.findZone q
        return !t.arch.isGateZone z
    | a :: b :: _ => do
      let z ← t.findZone a
      if stragglers.contains a || stragglers.contains b then return true
      else
        let y ← t.findZone b
        return z != y || !t.arch.isGateZone z

/-- Adds qubits to a set. -/
def addStragglers (stragglers qs : List Nat) : List Nat :=
  qs.foldl (fun s q => s.insert q) stragglers

/-- Splits instructions into those that can run and those that wait. Once all qubits are stragglers
the rest waits. -/
def split (t : Trap) (stragglers : List Nat) :
    List Instruction → Except TrapError (List Instruction × List Instruction)
  | [] => .ok ([], [])
  | i :: is => do
    if ← t.mustWait stragglers i then
      let stragglers := addStragglers stragglers i.qubits
      if t.numQubits ≤ stragglers.length then return ([], i :: is)
      else
        let (ready, waiting) ← t.split stragglers is
        return (ready, i :: waiting)
    else
      let (ready, waiting) ← t.split stragglers is
      return (i :: ready, waiting)

end Trap

end IonTrap
