import IonTrap.Architecture.Validate

/-!
# Placements

A placement lists the qubits of every zone in chain order. It is valid for `n` qubits if there is
one list per zone, no list exceeds the gate capacity of its zone, and every qubit below `n` stands
in exactly one place.
-/

namespace IonTrap

/-- Qubits per zone, in chain order. -/
abbrev Placement := List (List Nat)

namespace Placement

/-- Number of qubits placed. -/
def numPlaced (p : Placement) : Nat := total (p.map List.length)

/-- The first zone that lists a qubit. -/
def zoneOf? (p : Placement) (q : Nat) : Option Nat := p.findIdx? (·.contains q)

/-- The last zone that lists each qubit below `n`. -/
def qubitZones (n : Nat) (p : Placement) : List (Option Nat) :=
  let visit (zones : List (Option Nat)) (chain : List Nat × Nat) :=
    chain.1.foldl (fun zones q => zones.set q (some chain.2)) zones
  p.zipIdx.foldl visit (List.replicate n none)

/-- Checks the qubits of one zone; `seen` are the qubits found so far. -/
def checkQubits (n : Nat) (seen : List Nat) : List Nat → Except TrapError (List Nat)
  | [] => .ok seen
  | q :: qs =>
    if n ≤ q then .error (.qubitOutOfRange q n)
    else if seen.contains q then .error (.repeatedQubit q)
    else checkQubits n (q :: seen) qs

/-- Checks zones in order and gives the qubits found; `z` numbers the first zone. -/
def checkZones (a : Architecture) (n z : Nat) (seen : List Nat) :
    List (List Nat) → Except TrapError (List Nat)
  | [] => .ok seen
  | chain :: chains =>
    if a.gateCapacity z < chain.length then
      .error (.gateCapacity z chain.length (a.gateCapacity z))
    else do
      let seen ← checkQubits n seen chain
      checkZones a n (z + 1) seen chains

/-- Checks a placement of `n` qubits. -/
def validate (a : Architecture) (n : Nat) (p : Placement) : Except TrapError Unit :=
  if p.length ≠ a.numZones then .error (.zoneCount a.numZones p.length)
  else do
    let seen ← checkZones a n 0 [] p
    match (List.range n).find? (!seen.contains ·) with
    | some q => .error (.missingQubit q)
    | none => .ok ()

/-- Checks a placement of `n` qubits, and that the trap takes as many. -/
def validateConfiguration (a : Architecture) (n : Nat) (p : Placement) : Except TrapError Unit := do
  a.checkNumQubits n
  validate a n p

/-- Zone and place in the chain, for the qubits below `n`. -/
def spots (n : Nat) (p : Placement) : List (Nat × Nat) :=
  let visit (spots : List (Nat × Nat)) (chain : List Nat × Nat) :=
    chain.1.zipIdx.foldl (fun spots q => spots.set q.1 (chain.2, q.2)) spots
  p.zipIdx.foldl visit (List.replicate n (0, 0))

end Placement

end IonTrap
