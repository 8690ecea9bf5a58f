import IonTrap.Settings
import IonTrap.Yaml.Read

/-!
# Settings as YAML

The initial placement is a tagged record: it is settled before its kind is known.
-/

namespace IonTrap

open Yaml (Document Node Reading Settled)

/-- Routing settings read from YAML. -/
def RoutingSettings.ofYaml (d : Document) (v : Node Nat) : Reading RoutingSettings := do
  let fs ← d.record ["algorithm", "max_depth", "ignore_swap_costs", "weight_decay",
    "use_hypergraph", "partition_seed"] v
  let algorithm ←
    fs.get "algorithm" (d.variant [("greedy", .greedy), ("partition", .partition)]) .greedy
  let maxDepth ← fs.get "max_depth" d.word64 50
  let ignoreSwapCosts ← fs.get "ignore_swap_costs" d.bool false
  let weightDecay ←
    fs.get "weight_decay" (d.variant [("exponential", .exponential), ("linear", .linear)])
      .exponential
  let useHypergraph ← fs.get "use_hypergraph" d.bool false
  let partitionSeed ← fs.get "partition_seed" d.word64 0
  return ⟨algorithm, maxDepth, ignoreSwapCosts, weightDecay, useHypergraph, partitionSeed⟩

/-- A placement read from a settled value. -/
def Placement.ofSettled? (v : Settled) : Option Placement :=
  Settled.list? (Settled.list? Settled.word64?) v

namespace InitialPlacement

/-- Placement in qubit order, read from the rest of its record. -/
def qubitOrderOfSettled? (v : Settled) : Option InitialPlacement := do
  let fs ← v.record? ["zone_free_space"]
  let freeSpace ← Settled.get fs "zone_free_space" Settled.word64? 2
  return .qubitOrder freeSpace

/-- A given placement, read from the rest of its record. -/
def manualOfSettled? (v : Settled) : Option InitialPlacement := do
  let fs ← v.record? ["placement"]
  let placement ← Settled.need fs "placement" Placement.ofSettled?
  return .manual placement

/-- Placement by partitioning, read from the rest of its record. -/
def graphPartitionOfSettled? (v : Settled) : Option InitialPlacement := do
  let fs ← v.record? ["zone_free_space", "max_depth", "seed"]
  let freeSpace ← Settled.get fs "zone_free_space" Settled.word64? 2
  let maxDepth ← Settled.get fs "max_depth" Settled.word64? 200
  let seed ← Settled.get fs "seed" Settled.word64? 0
  return .graphPartition freeSpace maxDepth seed

/-- The kinds of initial placement with their readers. -/
def settledKinds : List (String × (Settled → Option InitialPlacement)) :=
  [("qubit_order", qubitOrderOfSettled?), ("manual", manualOfSettled?),
    ("graph_partition", graphPartitionOfSettled?)]

/-- An initial placement read from YAML, inside a record. -/
def ofYaml (d : Document) (v : Node Nat) : Reading InitialPlacement := do
  let (name, rest) ← d.tagged 2 "algorithm" v
  Yaml.orFail ((settledKinds.lookup name).bind fun read => read rest)

end InitialPlacement

/-- Settings read from YAML. -/
def CompilationSettings.ofYaml (d : Document) (v : Node Nat) : Reading CompilationSettings := do
  let fs ← d.record ["initial_placement", "routing"] v
  let initialPlacement ← fs.get "initial_placement" (InitialPlacement.ofYaml d) (.qubitOrder 2)
  let routing ← fs.get "routing" (RoutingSettings.ofYaml d) {}
  return ⟨initialPlacement, routing⟩

end IonTrap
