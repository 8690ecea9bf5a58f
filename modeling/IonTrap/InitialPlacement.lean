import IonTrap.Architecture.ZoneGraph
import IonTrap.Partition.LocalSearch
import IonTrap.Rounds
import IonTrap.Settings

/-!
# Placing qubits first

Qubits are placed in order, as given, or by partitioning the graph of their interactions into one
part per zone. In the last case the parts are then matched to zones, so that parts with many gates
between them come close: starting from the identity, zones of two parts are exchanged while that
lowers the weighted distance.
-/

namespace IonTrap

/-! ## In order -/

/-- The first of `n` qubits not in a zone any more that is filled from `next` on and keeps `free`
spots. -/
def Zone.stop (n free next : Nat) (z : Zone) : Nat :=
  min (wrap (next + (z.gateCapacity - free))) n

/-- Fills zones with consecutive qubits from `next` on, up to `n`, keeping `free` spots in each. -/
def fillInOrder (n free : Nat) : Nat → List Zone → Placement
  | _, [] => []
  | next, z :: zs =>
    List.range' next (z.stop n free next - next) :: fillInOrder n free (z.stop n free next) zs

/-- Placement of `n` qubits in order. -/
def placeInOrder (a : Architecture) (n free : Nat) : Except CompileError Placement :=
  if a.zones.foldl (fun next z => z.stop n free next) 0 < n then
    .error (.doNotFit n (wrap (total (a.zones.map (·.gateCapacity - free)))))
  else .ok (fillInOrder n free 0 a.zones)

/-! ## By partitioning -/

/-- Spots of a zone that are used: small zones always keep just one free. -/
def Zone.usable (free : Nat) (z : Zone) : Nat :=
  if 3 < z.gateCapacity then z.gateCapacity - free else z.gateCapacity - 1

/-- Adds a weight to the interaction of a pair. -/
def addInteraction (weight : Nat) : List (Pair × Nat) → Pair → List (Pair × Nat)
  | [], p => [(p, weight)]
  | (r, w) :: es, p => if r = p then (r, w + weight) :: es else (r, w) :: addInteraction weight es p

/-- Weighted interactions of the gates in the first `maxDepth + 1` rounds, in the order they appear.
A gate counts less by a factor `e` per round. -/
def interactions (is : List Instruction) (maxDepth : Nat) : List (Pair × Nat) :=
  let rounds := (Rounds.ofPairs (gatePairs is)).take (maxDepth + 1)
  rounds.zipIdx.foldl (fun es r => r.1.foldl (addInteraction (decayed (5 * r.2) 1048576)) es) []

/-- The problem of placing qubits: a vertex per usable spot, the qubits first. -/
def interactionProblem (sizes : List Nat) (es : List (Pair × Nat)) : Hypergraph where
  vertices := Array.replicate (wrap (total sizes)) ⟨1, none⟩
  nets := (es.map fun e => Net.mk [e.1.1, e.1.2] e.2).toArray
  partSizes := sizes.toArray

/-! ## Matching parts to zones -/

/-- A matching problem. -/
structure Matching where
  /-- Pairs of parts with the weight between them. -/
  links : List (Pair × Nat)
  /-- Qubits per part. -/
  sizes : Array Nat
  /-- Usable spots per zone. -/
  spots : Array Nat
  /-- Distances between zones. -/
  distances : Array (Array Nat)
deriving DecidableEq, Repr

namespace Matching

/-- Distance of two zones. -/
def distance (m : Matching) (x y : Nat) : Nat := (m.distances.getD x #[]).getD y 0

/-- Weighted distance of all links when part `p` has zone `f[p]`. -/
def cost (m : Matching) (f : Array Nat) : Nat :=
  total (m.links.map fun l => l.2 * m.distance (f.getD l.1.1 0) (f.getD l.1.2 0))

/-- Whether two parts fit each other's zones. -/
def fits (m : Matching) (f : Array Nat) (p q : Nat) : Bool :=
  m.sizes.getD p 0 ≤ m.spots.getD (f.getD q 0) 0 && m.sizes.getD q 0 ≤ m.spots.getD (f.getD p 0) 0

/-- Exchanges the zones of two parts if both fit and the cost drops. -/
def exchange (m : Matching) (f : Array Nat) (p : Pair) : Array Nat :=
  if m.fits f p.1 p.2 then
    let g := f.swapIfInBounds p.1 p.2
    if m.cost g < m.cost f then g else f
  else f

/-- All pairs of numbers below `n`, the smaller first, in order. -/
def allPairs (n : Nat) : List Pair :=
  (List.range n).flatMap fun p => (List.range' (p + 1) (n - (p + 1))).map fun q => (p, q)

/-- One pass over all pairs of parts. -/
def pass (m : Matching) (f : Array Nat) : Array Nat := (allPairs m.sizes.size).foldl m.exchange f

/-- Passes until the cost no longer drops. -/
def improve (m : Matching) (f : Array Nat) : Array Nat :=
  if m.cost (m.pass f) < m.cost f then improve m (m.pass f) else m.pass f
termination_by m.cost f

/-- The zone of each part. -/
def solve (m : Matching) : Array Nat := m.improve (Array.range m.sizes.size)

end Matching

/-- Distances between all zones; unconnected ones count as far apart as there are zones. -/
def Architecture.distances (a : Architecture) : Array (Array Nat) :=
  let row (x : Nat) := (List.range a.numZones).map fun y => (a.distance x y).getD a.numZones
  ((List.range a.numZones).map fun x => (row x).toArray).toArray

/-- The matching problem of an assignment of qubits to parts. -/
def matchingOf (a : Architecture) (spots : List Nat) (parts : List Nat) (es : List (Pair × Nat)) :
    Matching where
  links := es.map fun e => ((parts.getD e.1.1 0, parts.getD e.1.2 0), e.2)
  sizes := ((List.range a.numZones).map fun p => parts.count p).toArray
  spots := spots.toArray
  distances := a.distances

/-- The placement of qubits with given parts, when part `p` has zone `f[p]`. -/
def placeByPart (numZones : Nat) (parts : List Nat) (f : Array Nat) : Placement :=
  (List.range numZones).map fun z =>
    (parts.zipIdx.filter fun p => f.getD p.1 0 == z).map (·.2)

/-- Placement of a circuit's qubits by a partitioner. -/
def placeByPartition (a : Architecture) (c : Circuit) (free maxDepth : Nat)
    (partitioner : Partitioner) : Except CompileError Placement := do
  let n := c.numQubits
  liftTrap (a.checkNumQubits n)
  let spots := a.zones.map (Zone.usable free)
  let numVertices := wrap (total spots)
  if numVertices < n then .error (.doNotFit n numVertices)
  else if maxEntries < numVertices then .error (.partition (.unaddressable numVertices))
  else
    let es := interactions c.instructions maxDepth
    let g := interactionProblem spots es
    g.validate.mapError .partition
    let assignment ← partitioner g a.numZones
    (g.checkAssignment assignment).mapError .partition
    let parts := assignment.take n
    let p := placeByPart a.numZones parts (matchingOf a spots parts es).solve
    liftTrap (p.validate a n)
    return p

/-! ## As settings say -/

/-- The first placement of a circuit's qubits. -/
def InitialPlacement.place (s : InitialPlacement) (a : Architecture) (c : Circuit) :
    Except CompileError Placement := do
  s.validate
  liftTrap (a.checkNumQubits c.numQubits)
  match s with
  | .qubitOrder free => placeInOrder a c.numQubits free
  | .manual p =>
    liftTrap (p.validate a c.numQubits)
    return p
  | .graphPartition free maxDepth seed =>
    let builtIn : LocalSearch := { seed := seed }
    placeByPartition a c free maxDepth builtIn.partitioner

end IonTrap
