import IonTrap.Architecture.Error

/-!
# Transport through ports

Every zone is an edge between its two ports, and every connection an edge between ports of two
zones. Crossing a connection costs 1. Taking `n` qubits through a zone needs room for `n` more and
costs `n` times the swaps past its occupants. Costs are words.

A port is an end of at most one connection. So the way out of a port is forced: over its connection,
through the zone there to the other port, and on until the target is reached or the way ends.
-/

namespace IonTrap

/-- The passage through a zone. -/
structure CapacityEdge where
  /-- The zone. -/
  zone : Nat
  /-- Room of the empty zone. -/
  maxFree : Nat
  /-- Qubits in the zone. -/
  occupancy : Nat
  /-- Room left. -/
  free : Nat
  /-- Cost of taking one qubit through. -/
  cost : Nat
deriving DecidableEq, Repr

/-- A path out of a port. -/
structure PortPath where
  /-- Zones on the way, both ends included. -/
  zones : List Nat
  /-- Cost of the way. -/
  cost : Nat
  /-- Port through which the target is entered. -/
  targetPort : Port
deriving DecidableEq, Repr

/-- Ports, passages and connections. -/
structure PortGraph where
  /-- One passage per zone. -/
  edges : List CapacityEdge
  /-- Swap cost per zone. -/
  swapCosts : List Nat
  /-- The connections. -/
  connections : List Connection
deriving DecidableEq, Repr

/-- Cost of crossing a connection. -/
def shuttleCost : Nat := 1

namespace CapacityEdge

/-- The passage through an empty zone. -/
def ofEmpty (z : Nat) (zone : Zone) : CapacityEdge :=
  ⟨z, zone.transportCapacity, 0, zone.transportCapacity, 0⟩

/-- The passage once the zone holds `occupancy` qubits. -/
def withOccupancy (e : CapacityEdge) (swapCost occupancy : Nat) : CapacityEdge :=
  { e with occupancy, free := e.maxFree - occupancy, cost := wrap (occupancy * swapCost) }

end CapacityEdge

namespace PortGraph

/-- The port graph of an architecture with every zone empty. -/
def ofArchitecture (a : Architecture) : PortGraph :=
  ⟨a.zones.mapIdx CapacityEdge.ofEmpty, a.zones.map (·.swapCost), a.connections⟩

/-- Number of zones. -/
def numZones (g : PortGraph) : Nat := g.edges.length

/-- Sets the occupancy of a zone. -/
def setOccupancy (g : PortGraph) (zone occupancy : Nat) : PortGraph :=
  { g with
    edges := g.edges.modify zone (·.withOccupancy (g.swapCosts.getD zone 0) occupancy) }

/-- The other end of the connection at a port. -/
def across (g : PortGraph) (p : ZonePort) : Option ZonePort :=
  g.connections.findSome? fun c =>
    if c.a = p then some c.b else if c.b = p then some c.a else none

/-- The way out of port `here` for `count` qubits until the zone `target`, in at most `fuel` hops.
The zone `start` is never passed through. -/
def follow (g : PortGraph) (start target count : Nat) : Nat → ZonePort → Option PortPath
  | 0, _ => none
  | fuel + 1, here =>
    match g.across here with
    | none => none
    | some there =>
      if there.zone = target then some ⟨[target], shuttleCost, there.port⟩
      else if there.zone = start then none
      else
        match g.edges[there.zone]? with
        | none => none
        | some e =>
          if e.free < count then none
          else
            (g.follow start target count fuel ⟨there.zone, there.port.other⟩).map fun p =>
              { p with
                zones := there.zone :: p.zones
                cost := wrap (shuttleCost + wrap (e.cost * count) + p.cost) }

/-- The way for `count` qubits out of `start` through `port` into `target`. Zones on the way must
have room for them. -/
def path (g : PortGraph) (start : Nat) (port : Port) (target count : Nat) : Option PortPath :=
  if start = target then some ⟨[start], 0, port⟩
  else
    (g.follow start target count g.numZones ⟨start, port⟩).map fun p =>
      { p with zones := start :: p.zones }

end PortGraph

end IonTrap
