import IonTrap.Number.Basic
import IonTrap.Number.Word

/-!
# Trap architectures

A trap has *zones*. Each holds a chain of ions and has two *ports*: `p0` at the head of the chain,
`p1` at its tail. *Connections* join ports of different zones; ions are shuttled along them.
-/

namespace IonTrap

/-- One of the two ends of a zone. -/
inductive Port where
  /-- Next to the first ion of the chain. -/
  | p0
  /-- Next to the last ion of the chain. -/
  | p1
deriving DecidableEq, Repr

namespace Port

/-- Both ports, in order. -/
def both : List Port := [.p0, .p1]

/-- Number of a port. -/
def index : Port → Nat
  | .p0 => 0
  | .p1 => 1

/-- The port with a number. -/
def ofIndex? : Nat → Option Port
  | 0 => some .p0
  | 1 => some .p1
  | _ => none

/-- The other end of the same zone. -/
def other : Port → Port
  | .p0 => .p1
  | .p1 => .p0

/-- Name of a port in messages. -/
def name : Port → String
  | .p0 => "p0"
  | .p1 => "p1"

@[simp] theorem other_other (p : Port) : p.other.other = p := by cases p <;> rfl

theorem ofIndex?_index (p : Port) : ofIndex? p.index = some p := by cases p <;> rfl

end Port

/-- A zone of the trap. -/
structure Zone where
  /-- Most ions while gates run. -/
  gateCapacity : Nat
  /-- Most ions while ions pass through. -/
  transportCapacity : Nat
  /-- Whether the zone only stores ions. -/
  memoryOnly : Bool
  /-- Cost of exchanging two neighbours of the chain. -/
  swapCost : Nat
deriving DecidableEq, Repr

/-- A zone that runs gates, with room for one passing ion more. -/
def Zone.gate (capacity : Nat) : Zone := ⟨capacity, wrap (capacity + 1), false, 1⟩

/-- A storage zone, with room for one passing ion more. -/
def Zone.memory (capacity : Nat) : Zone := { Zone.gate capacity with memoryOnly := true }

/-- A port of a zone. -/
structure ZonePort where
  /-- The zone. -/
  zone : Nat
  /-- Its port. -/
  port : Port
deriving DecidableEq, Repr

/-- A connection of two ports. -/
structure Connection where
  /-- One end. -/
  a : ZonePort
  /-- The other end. -/
  b : ZonePort
deriving DecidableEq, Repr

namespace Connection

/-- Joins the tail of `left` to the head of `right`. -/
def chain (left right : Nat) : Connection := ⟨⟨left, .p1⟩, ⟨right, .p0⟩⟩

/-- Whether a connection joins the zones `x` and `y`, either way round. -/
def joins (c : Connection) (x y : Nat) : Bool :=
  (c.a.zone == x && c.b.zone == y) || (c.a.zone == y && c.b.zone == x)

end Connection

/-- A trap architecture. Zones are numbered by their place in the list. -/
structure Architecture where
  /-- Most qubits a circuit may have. -/
  maxQubits : Nat
  /-- The zones. -/
  zones : List Zone
  /-- The connections. -/
  connections : List Connection
deriving DecidableEq, Repr

namespace Architecture

/-- Number of zones. -/
def numZones (a : Architecture) : Nat := a.zones.length

/-- Zones that run gates. -/
def gateZones (a : Architecture) : List Nat :=
  (List.range a.numZones).filter fun z => a.zones[z]?.any (!·.memoryOnly)

/-- Zones that only store ions. -/
def memoryZones (a : Architecture) : List Nat :=
  (List.range a.numZones).filter fun z => a.zones[z]?.any (·.memoryOnly)

/-- Whether some zone only stores ions. -/
def hasMemoryZones (a : Architecture) : Bool := !a.memoryZones.isEmpty

/-- Whether gates run in a zone. -/
def isGateZone (a : Architecture) (z : Nat) : Bool := a.zones[z]?.any (!·.memoryOnly)

/-- Gate capacity of a zone, zero for a zone that does not exist. -/
def gateCapacity (a : Architecture) (z : Nat) : Nat := (a.zones[z]?.map (·.gateCapacity)).getD 0

/-- Transport capacity of a zone, zero for a zone that does not exist. -/
def transportCapacity (a : Architecture) (z : Nat) : Nat :=
  (a.zones[z]?.map (·.transportCapacity)).getD 0

/-- Swap cost of a zone, zero for a zone that does not exist. -/
def swapCost (a : Architecture) (z : Nat) : Nat := (a.zones[z]?.map (·.swapCost)).getD 0

/-- Gate capacity of all zones together. -/
def totalGateCapacity (a : Architecture) : Nat := total (a.zones.map (·.gateCapacity))

/-- Gate capacity of the zones that run gates. -/
def gateSpots (a : Architecture) : Nat := wrap (total (a.gateZones.map a.gateCapacity))

/-- Gate capacity of the largest zone that runs gates. -/
def largestGateZone (a : Architecture) : Nat := (a.gateZones.map a.gateCapacity).foldl max 0

end Architecture

end IonTrap
