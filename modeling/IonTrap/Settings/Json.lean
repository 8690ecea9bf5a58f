import IonTrap.Settings
import IonTrap.Json.Parse
import IonTrap.Json.Print
import IonTrap.Json.Decode

/-!
# Settings as JSON

Every field but a given placement has a default, and the initial placement is a tagged record. Names
and defaults are those that the types of the data declare, and the rules for reading are those of
`IonTrap.Json.Decode`.
-/

namespace IonTrap

/-- A variant without payload, read from JSON. -/
def plainVariant? {α : Type} (s : Json.Strictness) (kinds : List (String × α)) (j : Json) :
    Option α :=
  match j.variant? with
  | some (name, payload) => if Json.isUnit s payload then kinds.lookup name else none
  | none => none

/-- An algorithm read from JSON. -/
def Algorithm.ofJson? (s : Json.Strictness) : Json → Option Algorithm :=
  plainVariant? s [("greedy", .greedy), ("partition", .partition)]

/-- A decay read from JSON. -/
def WeightDecay.ofJson? (s : Json.Strictness) : Json → Option WeightDecay :=
  plainVariant? s [("exponential", .exponential), ("linear", .linear)]

/-- A placement as JSON. -/
def Placement.toJson (p : Placement) : Json := .arr (p.map .ofNats)

/-- A placement read from JSON. -/
def Placement.ofJson? : Json → Option Placement := Json.list? (Json.list? Json.word64?)

namespace RoutingSettings

/-- Routing settings as JSON. -/
def toJson (s : RoutingSettings) : Json :=
  .obj [("algorithm", .str s.algorithm.name), ("max_depth", .ofNat s.maxDepth),
    ("ignore_swap_costs", .bool s.ignoreSwapCosts), ("weight_decay", .str s.weightDecay.name),
    ("use_hypergraph", .bool s.useHypergraph), ("partition_seed", .ofNat s.partitionSeed)]

/-- Routing settings read from JSON. -/
def ofJson? (s : Json.Strictness) (j : Json) : Option RoutingSettings := do
  let fs ← j.record? ["algorithm", "max_depth", "ignore_swap_costs", "weight_decay",
    "use_hypergraph", "partition_seed"]
  let algorithm ← fs.get "algorithm" (Algorithm.ofJson? s) .greedy
  let maxDepth ← fs.get "max_depth" Json.word64? 50
  let ignoreSwapCosts ← fs.get "ignore_swap_costs" Json.bool? false
  let weightDecay ← fs.get "weight_decay" (WeightDecay.ofJson? s) .exponential
  let useHypergraph ← fs.get "use_hypergraph" Json.bool? false
  let partitionSeed ← fs.get "partition_seed" Json.word64? 0
  return ⟨algorithm, maxDepth, ignoreSwapCosts, weightDecay, useHypergraph, partitionSeed⟩

end RoutingSettings

namespace InitialPlacement

/-- An initial placement as JSON, its tag first. -/
def toJson : InitialPlacement → Json
  | .qubitOrder f => .obj [("algorithm", .str "qubit_order"), ("zone_free_space", .ofNat f)]
  | .manual p => .obj [("algorithm", .str "manual"), ("placement", p.toJson)]
  | .graphPartition f d s =>
    .obj [("algorithm", .str "graph_partition"), ("zone_free_space", .ofNat f),
      ("max_depth", .ofNat d), ("seed", .ofNat s)]

/-- Placement in qubit order, read from the rest of its record. -/
def qubitOrderOfJson? (j : Json) : Option InitialPlacement := do
  let fs ← j.record? ["zone_free_space"]
  let freeSpace ← fs.get "zone_free_space" Json.word64? 2
  return .qubitOrder freeSpace

/-- A given placement, read from the rest of its record. -/
def manualOfJson? (j : Json) : Option InitialPlacement := do
  let fs ← j.record? ["placement"]
  let placement ← fs.need "placement" Placement.ofJson?
  return .manual placement

/-- Placement by partitioning, read from the rest of its record. -/
def graphPartitionOfJson? (j : Json) : Option InitialPlacement := do
  let fs ← j.record? ["zone_free_space", "max_depth", "seed"]
  let freeSpace ← fs.get "zone_free_space" Json.word64? 2
  let maxDepth ← fs.get "max_depth" Json.word64? 200
  let seed ← fs.get "seed" Json.word64? 0
  return .graphPartition freeSpace maxDepth seed

/-- The kinds of initial placement with their readers. -/
def kinds : List (String × (Json → Option InitialPlacement)) :=
  [("qubit_order", qubitOrderOfJson?), ("manual", manualOfJson?),
    ("graph_partition", graphPartitionOfJson?)]

/-- An initial placement read from JSON, at depth `depth` of the text. -/
def ofJson? (depth : Nat) (j : Json) : Option InitialPlacement := do
  let (tag, rest) ← j.tagged? depth "algorithm"
  let read ← Json.kind? kinds tag
  read rest

end InitialPlacement

namespace CompilationSettings

/-- Settings as JSON. -/
def toJson (s : CompilationSettings) : Json :=
  .obj [("initial_placement", s.initialPlacement.toJson), ("routing", s.routing.toJson)]

/-- Settings read from JSON. -/
def ofJson? (s : Json.Strictness) (j : Json) : Option CompilationSettings := do
  let fs ← j.record? ["initial_placement", "routing"]
  let initialPlacement ← fs.get "initial_placement" (InitialPlacement.ofJson? 1) (.qubitOrder 2)
  let routing ← fs.get "routing" (RoutingSettings.ofJson? s) {}
  return ⟨initialPlacement, routing⟩

/-- Settings read from text, not yet checked. -/
def ofText (s : String) : Except CompileError CompilationSettings :=
  match (Json.parse s).bind (ofJson? .strict) with
  | none => .error .unreadable
  | some s => .ok s

end CompilationSettings

end IonTrap
