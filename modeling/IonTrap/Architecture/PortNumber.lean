import IonTrap.Architecture.PortGraph

/-!
# Ports by number

The ports of a trap are numbered through, two to a zone, and their numbers have 32 bits. A trap has
far fewer zones than that, and there a number tells which port is meant.

A way can be asked for between any two zone numbers. What finds ports by their numbers takes a zone
beyond the range of numbers for the one whose ports have the same numbers.
-/

namespace IonTrap

/-- How many zones have ports with numbers of their own. -/
def maxZones : Nat := 2147483648

/-- Number of a port among all ports of the trap, in 32 bits. -/
def portNumber (zone : Nat) (port : Port) : Nat := (2 * zone + port.index) % (2 * maxZones)

/-- The port with a number. -/
def portOfNumber (n : Nat) : Nat × Port := (n / 2, if n % 2 = 0 then .p0 else .p1)

/-- The numbers of ports tell them apart as long as they fit in 32 bits. -/
theorem portOfNumber_portNumber {zone : Nat} (h : zone < maxZones) (port : Port) :
    portOfNumber (portNumber zone port) = (zone, port) := by
  cases port with
  | p0 =>
    have hn : portNumber zone .p0 = 2 * zone := by
      simp only [portNumber, Port.index, maxZones] at *
      omega
    have hz : 2 * zone / 2 = zone := by omega
    have hp : 2 * zone % 2 = 0 := by omega
    simp [portOfNumber, hn, hz, hp]
  | p1 =>
    have hn : portNumber zone .p1 = 2 * zone + 1 := by
      simp only [portNumber, Port.index, maxZones] at *
      omega
    have hz : (2 * zone + 1) / 2 = zone := by omega
    have hp : (2 * zone + 1) % 2 = 1 := by omega
    simp [portOfNumber, hn, hz, hp]

namespace PortGraph

/-- Cost of taking `count` qubits through a zone. -/
def crossingCost (g : PortGraph) (count zone : Nat) : Nat :=
  wrap ((g.edges[zone]?.map (·.cost)).getD 0 * count)

/-- What the zones between the ends of a way cost, the last one first. -/
def crossingCosts (g : PortGraph) (count : Nat) (p : PortPath) : List Nat :=
  (p.zones.drop 1).dropLast.reverse.map (g.crossingCost count)

/-- The way out of `start` through `port` that first takes `count` qubits through `start` itself to
that port. -/
def pathThrough (g : PortGraph) (start : Nat) (port : Port) (target count : Nat) :
    Option PortPath :=
  match g.edges[start]? with
  | none => none
  | some e =>
    if e.free < count then none
    else
      (g.path start port target count).map fun p =>
        { p with cost := wrap (wrap (e.cost * count) + p.cost) }

/-- Whether the first costs are smaller where the two lists differ first. -/
def differsBelow : List Nat → List Nat → Bool
  | x :: xs, y :: ys => if x = y then differsBelow xs ys else x < y
  | _, _ => false

/-- The cheaper of the way straight out of `start` and the way through it. Of two that cost the same
it is the one that has less behind it where, seen from the target, they differ first. -/
def cheaperPath (g : PortGraph) (start count : Nat) :
    Option PortPath → Option PortPath → Option PortPath
  | some straight, some through =>
    let further := g.crossingCosts count through ++ [g.crossingCost count start]
    if through.cost < straight.cost
        || (through.cost = straight.cost && differsBelow (g.crossingCosts count straight) further)
    then some through
    else some straight
  | some straight, none => some straight
  | none, through => through

/-- The way between zones with any numbers. Ports are found by their numbers, but whether a zone may
be crossed is asked of the zone's own number: one that `start` only stands for may be. -/
def findPath (g : PortGraph) (start : Nat) (port : Port) (target count : Nat) : Option PortPath :=
  let source := start % maxZones
  let goal := target % maxZones
  if start = target then some ⟨[start], 0, port⟩
  else if source = goal then some ⟨[source], 0, port⟩
  else if source = start then g.path source port goal count
  else
    g.cheaperPath source count (g.path source port goal count)
      (g.pathThrough source port.other goal count)

/-- Zones in the range of numbers stand for themselves. -/
theorem findPath_eq_path {start target : Nat} (hs : start < maxZones) (ht : target < maxZones)
    (g : PortGraph) (port : Port) (count : Nat) :
    g.findPath start port target count = g.path start port target count := by
  have hstart : start % maxZones = start := Nat.mod_eq_of_lt hs
  have htarget : target % maxZones = target := Nat.mod_eq_of_lt ht
  by_cases h : start = target
  · simp [findPath, path, h]
  · simp [findPath, hstart, htarget, h]

end PortGraph

end IonTrap
