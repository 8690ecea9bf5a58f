import IonTrap.Architecture.Error

/-!
# Validating architectures

An architecture is usable if it has a zone that runs gates, no zone loses capacity during transport,
and its connections join different existing zones, at most one per pair of zones and per port.
-/

namespace IonTrap.Architecture

/-- Checks that transport capacities are at least gate capacities; `z` numbers the first zone. -/
def checkCapacities (z : Nat) : List Zone → Except TrapError Unit
  | [] => .ok ()
  | zone :: zones =>
    if zone.transportCapacity < zone.gateCapacity then
      .error (.capacityOrder z zone.gateCapacity zone.transportCapacity)
    else checkCapacities (z + 1) zones

/-- Whether a port is an end of one of the connections. -/
def portUsed (connections : List Connection) (p : ZonePort) : Bool :=
  connections.any fun c => c.a == p || c.b == p

/-- Checks a connection against the ones before it. -/
def checkConnection (numZones : Nat) (earlier : List Connection) (c : Connection) :
    Except TrapError Unit :=
  if numZones ≤ c.a.zone then .error (.unknownZone c.a.zone numZones)
  else if numZones ≤ c.b.zone then .error (.unknownZone c.b.zone numZones)
  else if c.a.zone = c.b.zone then .error (.selfConnection c.a.zone)
  else if earlier.any (·.joins c.a.zone c.b.zone) then
    .error (.repeatedConnection c.a.zone c.b.zone)
  else if portUsed earlier c.a then .error (.portInUse c.a.zone c.a.port)
  else if portUsed earlier c.b then .error (.portInUse c.b.zone c.b.port)
  else .ok ()

/-- Checks connections in order. -/
def checkConnections (numZones : Nat) (earlier : List Connection) :
    List Connection → Except TrapError Unit
  | [] => .ok ()
  | c :: cs => do
    checkConnection numZones earlier c
    checkConnections numZones (c :: earlier) cs

/-- Checks an architecture. -/
def validate (a : Architecture) : Except TrapError Unit :=
  if a.zones.isEmpty then .error .emptyArchitecture
  else if a.zones.all (·.memoryOnly) then .error .noGateZones
  else do
    checkCapacities 0 a.zones
    checkConnections a.numZones [] a.connections

/-- An architecture that passes the check. -/
def build (maxQubits : Nat) (zones : List Zone) (connections : List Connection) :
    Except TrapError Architecture := do
  let a : Architecture := ⟨maxQubits, zones, connections⟩
  a.validate
  return a

/-- Checks that a circuit is not too wide. -/
def checkNumQubits (a : Architecture) (numQubits : Nat) : Except TrapError Unit :=
  if a.maxQubits < numQubits then .error (.tooManyQubits numQubits a.maxQubits) else .ok ()

end IonTrap.Architecture
