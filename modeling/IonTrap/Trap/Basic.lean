import IonTrap.Placement
import IonTrap.Architecture.ZoneGraph
import IonTrap.Architecture.PortGraph

/-!
# The live trap

The state of a trap while qubits move: the chains, and beside them the place of every qubit, the
number of qubits per zone and the passages of the port graph, all kept in step with the chains.
-/

namespace IonTrap

/-- A trap with qubits in it. -/
structure Trap where
  /-- The architecture. -/
  arch : Architecture
  /-- Number of qubits. -/
  numQubits : Nat
  /-- Qubits per zone, in chain order. -/
  placement : Placement
  /-- Zone and place in the chain of every qubit. -/
  spots : List (Nat × Nat)
  /-- Number of qubits per zone. -/
  occupancies : List Nat
  /-- Ports and passages. -/
  ports : PortGraph
deriving DecidableEq, Repr

/-- A shortest zone path with the room along it. -/
structure ShuttlePath where
  /-- Number of hops. -/
  length : Nat
  /-- Zones on the way, both ends included. -/
  path : List Nat
  /-- Least room of the zones after the first; `none` if there is no such zone. -/
  capacity : Option Nat
deriving DecidableEq, Repr

/-- Puts an element before the first of a list that it may precede. -/
def insertBy (le : Nat → Nat → Bool) (x : Nat) : List Nat → List Nat
  | [] => [x]
  | y :: ys => if le x y then x :: y :: ys else y :: insertBy le x ys

/-- Sorts a list; equals keep their order. -/
def sortBy (le : Nat → Nat → Bool) (xs : List Nat) : List Nat := xs.foldr (insertBy le) []

theorem insertBy_perm (le : Nat → Nat → Bool) (x : Nat) (ys : List Nat) :
    (insertBy le x ys).Perm (x :: ys) := by
  induction ys with
  | nil => exact .refl _
  | cons y ys ih =>
    rw [insertBy]
    split
    · exact .refl _
    · exact (ih.cons y).trans (.swap x y ys)

theorem sortBy_perm (le : Nat → Nat → Bool) (xs : List Nat) : (sortBy le xs).Perm xs := by
  induction xs with
  | nil => exact .refl _
  | cons x xs ih => exact (insertBy_perm le x _).trans (ih.cons x)

namespace Trap

/-- A trap holding a valid placement of `n` qubits. -/
def ofPlacement (a : Architecture) (n : Nat) (p : Placement) : Except TrapError Trap := do
  p.validateConfiguration a n
  let occupancies := p.map List.length
  let ports := occupancies.zipIdx.foldl (fun g o => g.setOccupancy o.2 o.1) (.ofArchitecture a)
  return ⟨a, n, p, p.spots n, occupancies, ports⟩

/-! ## Queries -/

/-- Zone of a qubit. -/
def zoneOf (t : Trap) (q : Nat) : Nat := (t.spots.getD q (0, 0)).1

/-- Place of a qubit in its chain. -/
def position (t : Trap) (q : Nat) : Nat := (t.spots.getD q (0, 0)).2

/-- The qubits of a zone in chain order. -/
def chain (t : Trap) (z : Nat) : List Nat := t.placement.getD z []

/-- Number of qubits in a zone. -/
def occupancy (t : Trap) (z : Nat) : Nat := t.occupancies.getD z 0

/-- Whether the trap has a zone. -/
def hasZone (t : Trap) (z : Nat) : Bool := z < t.arch.numZones

/-- Whether the trap has a qubit. -/
def hasQubit (t : Trap) (q : Nat) : Bool := q < t.numQubits

/-- Room for passing qubits in a zone. -/
def freeSpace (t : Trap) (z : Nat) : Nat := t.arch.transportCapacity z - t.occupancy z

/-- Whether gates run in the zone of a qubit. -/
def inGateZone (t : Trap) (q : Nat) : Bool := t.arch.isGateZone (t.zoneOf q)

/-- The members of `qs` in a zone, in chain order. -/
def cohort (t : Trap) (z : Nat) (qs : List Nat) : List Nat := (t.chain z).filter qs.contains

/-- Whether a qubit is no farther from a port than another one of its chain. -/
def nearer (t : Trap) (port : Port) (x y : Nat) : Bool :=
  match port with
  | .p0 => t.position x ≤ t.position y
  | .p1 => t.position y ≤ t.position x

/-- Qubits sorted by their places, from the nearest to a port to the farthest. -/
def byDistance (t : Trap) (port : Port) (qs : List Nat) : List Nat := sortBy (t.nearer port) qs

theorem byDistance_perm (t : Trap) (port : Port) (qs : List Nat) :
    (t.byDistance port qs).Perm qs :=
  sortBy_perm (t.nearer port) qs

/-- A shortest zone path and its room. -/
def shuttlePath (t : Trap) (source target : Nat) : Option ShuttlePath :=
  (t.arch.shortestPath source target).map fun p =>
    ⟨p.length - 1, p, (p.tail.map t.freeSpace).min?⟩

/-! ## Moves -/

/-- Checks that qubits are in a zone and none is named twice; `seen` are the ones before. -/
def checkMovable (t : Trap) (source : Nat) (seen : List Nat) : List Nat → Except TrapError Unit
  | [] => .ok ()
  | q :: qs =>
    if t.numQubits ≤ q then .error (.qubitOutOfRange q t.numQubits)
    else if seen.contains q then .error (.repeatedQubit q)
    else if t.zoneOf q ≠ source then .error (.notInZone q source)
    else t.checkMovable source (q :: seen) qs

/-- Writes the places of a zone's qubits and the occupancy of its passage. -/
def refresh (t : Trap) (z : Nat) : Trap :=
  { t with
    spots := (t.chain z).zipIdx.foldl (fun spots q => spots.set q.1 (z, q.2)) t.spots
    ports := t.ports.setOccupancy z (t.occupancy z) }

/-- Puts a cohort at the port end of a chain. -/
def enter (port : Port) (qs chain : List Nat) : List Nat :=
  match port with
  | .p0 => qs ++ chain
  | .p1 => chain ++ qs

/-- The trap after a move that is known to be possible. -/
def transfer (t : Trap) (qs : List Nat) (source target : Nat) (port : Port) : Trap :=
  let left := t.placement.modify source (·.filter (!qs.contains ·))
  let moved : Trap :=
    { t with
      placement := left.modify target (enter port qs)
      occupancies :=
        (t.occupancies.modify source (· - qs.length)).set target (t.occupancy target + qs.length) }
  (moved.refresh source).refresh target

/-- Shuttles qubits into another zone through one of its ports, in the given order. Nothing changes
unless all of them are in `source` and `target` has room. -/
def move (t : Trap) (qs : List Nat) (source target : Nat) (port : Port) : Except TrapError Trap :=
  if source = target then .error (.sameZone source)
  else do
    t.checkMovable source [] qs
    if !t.hasZone target then .error .noSuchIndex
    else if t.arch.transportCapacity target < t.occupancy target + qs.length then
      .error (.transportCapacity target (t.occupancy target + qs.length)
        (t.arch.transportCapacity target))
    else if !t.hasZone source then .error .noSuchIndex
    else .ok (t.transfer qs source target port)

/-- Exchanges the qubits at places `left` and `left + 1` of a chain. Of the last word the next is
zero, which is no place to the right of it, but may be a place of the chain. -/
def swap (t : Trap) (z left : Nat) : Except TrapError Trap :=
  match t.placement[z]? with
  | none => .error .noSuchIndex
  | some chain =>
    match chain[left]?, chain[left + 1]? with
    | some x, some y =>
      .ok { t with
        placement := t.placement.set z ((chain.set left y).set (left + 1) x)
        spots := (t.spots.set y (z, left)).set x (z, left + 1) }
    | _, _ =>
      if wrap (left + 1) < chain.length then .error .noSuchIndex
      else .error (.positionOutOfRange z (wrap (left + 1)))

/-! ## Self-check -/

/-- Checks that the places of a chain's qubits are recorded; `i` is the place of the first. -/
def checkSpots (t : Trap) (z i : Nat) : List Nat → Except TrapError Unit
  | [] => .ok ()
  | q :: qs =>
    if t.spots[q]? = some (z, i) then t.checkSpots z (i + 1) qs else .error (.notInZone q z)

/-- Checks zones in order and counts their qubits; `z` numbers the first zone. -/
def checkChains (t : Trap) (z total : Nat) : List (List Nat) → Except TrapError Nat
  | [] => .ok total
  | chain :: chains =>
    if chain.length ≠ t.occupancy z then
      .error (.occupancyMismatch z (t.occupancy z) chain.length)
    else if t.arch.transportCapacity z < chain.length then
      .error (.transportCapacity z chain.length (t.arch.transportCapacity z))
    else do
      t.checkSpots z 0 chain
      t.checkChains (z + 1) (total + chain.length) chains

/-- Checks that places, occupancies and capacities agree with the chains. -/
def checkInvariants (t : Trap) : Except TrapError Unit := do
  let total ← t.checkChains 0 0 t.placement
  if total = t.numQubits then .ok ()
  else
    let lost (q : Nat) : Bool := (t.chain (t.zoneOf q))[t.position q]? != some q
    .error (.missingQubit (((List.range t.numQubits).find? lost).getD total))

end Trap

end IonTrap
