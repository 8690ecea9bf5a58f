import IonTrap.Architecture.Basic

/-!
# What can be wrong with a trap

Errors of architectures, placements and moves.
-/

namespace IonTrap

/-- Why an architecture, a placement or a move is refused. -/
inductive TrapError where
  | emptyArchitecture
  | noGateZones
  | unknownZone (zone numZones : Nat)
  | capacityOrder (zone gate transport : Nat)
  | selfConnection (zone : Nat)
  | repeatedConnection (zone₀ zone₁ : Nat)
  | portInUse (zone : Nat) (port : Port)
  | noConnection (zone₀ zone₁ : Nat)
  | tooManyQubits (numQubits maxQubits : Nat)
  | zoneCount (expected got : Nat)
  | qubitOutOfRange (qubit numQubits : Nat)
  | repeatedQubit (qubit : Nat)
  | missingQubit (qubit : Nat)
  | gateCapacity (zone occupancy capacity : Nat)
  | transportCapacity (zone occupancy capacity : Nat)
  | notInZone (qubit zone : Nat)
  | sameZone (zone : Nat)
  | positionOutOfRange (zone position : Nat)
  | occupancyMismatch (zone cached actual : Nat)
  /-- The text is no architecture. -/
  | unreadable
  /-- A zone or qubit that the trap does not have was looked up. -/
  | noSuchIndex
deriving DecidableEq, Repr

/-- The text of an error. -/
def TrapError.message : TrapError → String
  | .emptyArchitecture => "Architecture must contain at least one zone"
  | .noGateZones => "Architecture has no gate zones, every zone is memory only"
  | .unknownZone z n => s!"Zone {z} does not exist (architecture has {n} zones)"
  | .capacityOrder z g t =>
    s!"Zone {z}: transport capacity {t} is smaller than gate capacity {g}"
  | .selfConnection z => s!"Zone {z} cannot be connected to itself"
  | .repeatedConnection x y =>
    s!"Two connections between zones {x} and {y} specified, only one is allowed"
  | .portInUse z p =>
    let port := p.name
    s!"Port {port} of zone {z} already has a connection"
  | .noConnection x y => s!"No connection exists between zones {x} and {y}"
  | .tooManyQubits n m => s!"Circuit has {n} qubits, architecture supports at most {m}"
  | .zoneCount e g => s!"Placement describes {g} zones, architecture has {e}"
  | .qubitOutOfRange q n => s!"Qubit {q} is out of range for {n} qubits"
  | .repeatedQubit q => s!"Qubit {q} appears more than once"
  | .missingQubit q => s!"Qubit {q} is not placed in any zone"
  | .gateCapacity z o c => s!"Zone {z} holds {o} qubits, gate capacity is {c}"
  | .transportCapacity z o c => s!"Zone {z} would hold {o} qubits, transport capacity is {c}"
  | .notInZone q z => s!"Qubit {q} is not in zone {z}"
  | .sameZone z => s!"Requested move has no effect, source and target are zone {z}"
  | .positionOutOfRange z p => s!"Position {p} is out of range in zone {z}"
  | .occupancyMismatch z c a => s!"Zone {z} caches occupancy {c} but holds {a} qubits"
  | .unreadable => "Architecture serialization error"
  | .noSuchIndex => "Index out of range"

end IonTrap
