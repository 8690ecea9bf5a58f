import IonTrap.Partition.LocalSearch
import IonTrap.Selection.Greedy
import IonTrap.Settings

/-!
# Selection by partitioning

Vertices are the qubits, an anchor per zone fixed to the zone's part, and fillers, so that every
part is exactly as large as its zone. Nets of gates pull their qubits together, nets to anchors hold
qubits near where they are. A partition of this hypergraph is a target placement.
-/

namespace IonTrap

/-- The vertex that stands for a zone. -/
def Trap.anchor (t : Trap) (z : Nat) : Nat := t.numQubits + z

/-- Size of each part: the gate spots of its zone, and the anchor. -/
def Trap.partSizes (t : Trap) : List Nat :=
  (List.range t.arch.numZones).map fun z => wrap (t.arch.gateCapacity z + 1)

/-- The problem of placing the qubits of a trap, with the given nets. -/
def Trap.partitionProblem (t : Trap) (nets : List Net) : Except PartitionError Hypergraph :=
  let numVertices := wrap (total t.partSizes)
  if numVertices < t.numQubits + t.arch.numZones then .error (.tooManyQubits t.numQubits)
  else if maxEntries < numVertices then .error (.unaddressable numVertices)
  else do
    let fixed (v : Nat) : Option Nat :=
      if t.numQubits ≤ v ∧ v < t.numQubits + t.arch.numZones then some (v - t.numQubits) else none
    let vertices := (List.range numVertices).map fun v => Vertex.mk 1 (fixed v)
    let g : Hypergraph := ⟨vertices.toArray, nets.toArray, t.partSizes.toArray⟩
    g.validate
    return g

/-- Every qubit with its zone, chain by chain. -/
def Trap.qubitsByZone (t : Trap) : List (Nat × Nat) :=
  t.placement.zipIdx.flatMap fun (chain, z) => chain.map fun q => (q, z)

/-! ## Pairs as nets -/

/-- A net per pair of the first `maxDepth + 1` rounds. -/
def pairNets (s : RoutingSettings) (rs : Rounds) : List Net :=
  (rs.take (wrap (s.maxDepth + 1))).zipIdx.flatMap fun (r, depth) =>
    r.map fun p => ⟨[p.1, p.2], s.weightDecay.weight depth⟩

/-- Nets that pull the qubits of the first round into gate zones, if there are zones without
gates. -/
def Trap.frontNets (t : Trap) (s : RoutingSettings) (rs : Rounds) : List Net :=
  if t.arch.hasMemoryZones then
    (rs.headD []).flatMap fun p => [p.1, p.2].flatMap fun q => t.arch.gateZones.map fun z =>
      ⟨[q, t.anchor z], s.weightDecay.maxWeight⟩
  else []

/-- Nets between qubits and the zones they can reach, with weights that fall exponentially with the
price of getting there. -/
def Trap.nearNets (t : Trap) (s : RoutingSettings) : List Net :=
  t.qubitsByZone.flatMap fun (q, zone) => (List.range t.arch.numZones).filterMap fun z =>
    (s.costModel.single t q zone z).bind fun cost =>
      let weight := decayed (4 * cost) ((s.weightDecay.maxWeight + 1) / 2)
      if weight < 1 then none else some ⟨[t.anchor z, q], weight⟩

/-- The problem whose nets are pairs. -/
def Trap.pairProblem (t : Trap) (s : RoutingSettings) (rs : Rounds) :
    Except PartitionError Hypergraph :=
  t.partitionProblem (pairNets s rs ++ t.frontNets s rs ++ t.nearNets s)

/-! ## Blocks as nets -/

/-- Number of leading depths whose smallest block fits into a zone for `largest` qubits. -/
def fittingDepths (largest : Nat) (bs : List Blocks) : Nat :=
  (bs.takeWhile fun b => ((b.map List.length).min?.getD 0) ≤ largest).length

/-- Number of depths whose blocks become nets. The first always does. -/
def Trap.blockDepths (t : Trap) (s : RoutingSettings) (bs : List Blocks) : Nat :=
  min (1 + fittingDepths t.arch.largestGateZone (bs.drop 1)) (wrap (s.maxDepth + 1))

/-- Nets of a block: with the anchor of each gate zone if there are zones without gates. -/
def Trap.blockNets (t : Trap) (block : List Nat) (weight : Nat) : List Net :=
  if t.arch.hasMemoryZones then t.arch.gateZones.map fun z => ⟨block ++ [t.anchor z], weight⟩
  else [⟨block, weight⟩]

/-- Greatest weight of a net between a qubit and a zone beside blocks. -/
def holdWeight (s : RoutingSettings) : Nat := s.weightDecay.maxWeight * 4 / 5

/-- Nets between qubits and the zones they can reach, with weights that fall by a twentieth of the
greatest per unit of price. Staying costs nothing. -/
def Trap.holdNets (t : Trap) (s : RoutingSettings) : List Net :=
  t.qubitsByZone.flatMap fun (q, zone) => (List.range t.arch.numZones).filterMap fun z =>
    let cost? := if z = zone then some 0 else s.costModel.single t q zone z
    cost?.bind fun cost =>
      let weight := holdWeight s - cost * holdWeight s / 20
      if weight < 1 then none else some ⟨[q, t.anchor z], weight⟩

/-- The problem whose nets are blocks. -/
def Trap.blockProblem (t : Trap) (s : RoutingSettings) (rs : Rounds) :
    Except PartitionError Hypergraph :=
  let blocks := rs.blocks
  let nets := (blocks.take (t.blockDepths s blocks)).zipIdx.flatMap fun (bs, depth) =>
    bs.flatMap fun b => t.blockNets b (s.weightDecay.weight depth)
  t.partitionProblem (nets ++ t.holdNets s)

/-! ## The target -/

/-- The zone whose anchor is in a part, the last of several. -/
def Trap.zoneOfPart? (t : Trap) (assignment : Assignment) (p : Nat) : Option Nat :=
  (List.range t.arch.numZones).reverse.find? fun z => assignment[t.anchor z]? == some p

/-- Puts qubits into the zones of their parts. -/
def Trap.placeParts (t : Trap) (assignment : Assignment) :
    List (Nat × Nat) → Placement → Except PartitionError Placement
  | [], target => .ok target
  | (part, q) :: rest, target =>
    match t.zoneOfPart? assignment part with
    | none => .error (.noAnchor part q)
    | some z => t.placeParts assignment rest (target.modify z (· ++ [q]))

/-- The placement that an assignment stands for. -/
def Trap.placementOf (t : Trap) (assignment : Assignment) : Except PartitionError Placement :=
  t.placeParts assignment (assignment.take t.numQubits).zipIdx
    (List.replicate t.arch.numZones [])

/-- The problem for the given pairs. -/
def Trap.problem (t : Trap) (s : RoutingSettings) (rs : Rounds) :
    Except PartitionError Hypergraph :=
  if s.useHypergraph then t.blockProblem s rs else t.pairProblem s rs

/-- The target for the remaining instructions by partitioning. -/
def selectPartition (s : RoutingSettings) (partitioner : Partitioner) (t : Trap)
    (is : List Instruction) : Except CompileError Placement := do
  let pairs := gatePairs is
  if pairs.isEmpty then selectSingles s.costModel t is
  else
    let rounds ← liftTrap (Rounds.ofPairsBelow t.numQubits pairs)
    let g ← (t.problem s rounds).mapError .partition
    let assignment ← partitioner g t.arch.numZones
    (g.checkAssignment assignment).mapError .partition
    (t.placementOf assignment).mapError .partition

end IonTrap
