import IonTrap.Error
import IonTrap.Number.Decay
import IonTrap.Placement
import IonTrap.Trap.Cost

/-!
# Settings

What can be chosen: how qubits are placed first, how targets are selected, and how moves are priced.
Every setting has a default.
-/

namespace IonTrap

/-- How the next placement is selected. -/
inductive Algorithm where
  /-- Gate by gate, first come, first served. -/
  | greedy
  /-- By partitioning qubits onto zones. -/
  | partition
deriving DecidableEq, Repr

/-- How the weight of a gate falls with its depth. -/
inductive WeightDecay where
  /-- By a factor `e ^ -2` per round. -/
  | exponential
  /-- By the same amount per round. -/
  | linear
deriving DecidableEq, Repr

/-- Name of an algorithm. -/
def Algorithm.name : Algorithm → String
  | .greedy => "greedy"
  | .partition => "partition"

/-- Name of a decay. -/
def WeightDecay.name : WeightDecay → String
  | .exponential => "exponential"
  | .linear => "linear"

namespace WeightDecay

/-- Weight of a gate in round `depth`. -/
def weight : WeightDecay → Nat → Nat
  | .exponential, depth => decayed (10 * depth) 262144
  | .linear, depth => max (50000 - wrap (depth * 50000) / 100) 1

/-- Weight of a gate in the first round. -/
def maxWeight (d : WeightDecay) : Nat := d.weight 0

end WeightDecay

/-- Settings of the routing loop. -/
structure RoutingSettings where
  /-- How targets are selected. -/
  algorithm : Algorithm := .greedy
  /-- Number of rounds that partitioning looks ahead. -/
  maxDepth : Nat := 50
  /-- Whether swaps cost nothing. -/
  ignoreSwapCosts : Bool := false
  /-- How gate weights fall. -/
  weightDecay : WeightDecay := .exponential
  /-- Whether blocks of qubits are partitioned instead of pairs. -/
  useHypergraph : Bool := false
  /-- Seed of the built-in partitioner. -/
  partitionSeed : Nat := 0
deriving DecidableEq, Repr

namespace RoutingSettings

/-- How these settings price moves. -/
def costModel (s : RoutingSettings) : CostModel :=
  if s.ignoreSwapCosts then .shuttleOnly else .shuttleSwap

/-- Checks that the look-ahead is at least one round. -/
def validate (s : RoutingSettings) : Except CompileError Unit :=
  if s.maxDepth = 0 then .error .zeroMaxDepth else .ok ()

end RoutingSettings

/-- How qubits are placed first. -/
inductive InitialPlacement where
  /-- In order, keeping spots of every zone free. -/
  | qubitOrder (freeSpace : Nat)
  /-- As given. -/
  | manual (placement : Placement)
  /-- By partitioning the graph of interactions. -/
  | graphPartition (freeSpace maxDepth seed : Nat)
deriving DecidableEq, Repr

namespace InitialPlacement

/-- Checks that zones keep a spot free. -/
def validate : InitialPlacement → Except CompileError Unit
  | .qubitOrder 0 => .error .zeroFreeSpace
  | .graphPartition 0 _ _ => .error .zeroFreeSpace
  | _ => .ok ()

end InitialPlacement

/-- All settings of a compilation. -/
structure CompilationSettings where
  /-- How qubits are placed first. -/
  initialPlacement : InitialPlacement := .qubitOrder 2
  /-- How they are routed. -/
  routing : RoutingSettings := {}
deriving DecidableEq, Repr

/-- Checks the initial placement, then the routing. -/
def CompilationSettings.validate (s : CompilationSettings) : Except CompileError Unit := do
  s.initialPlacement.validate
  s.routing.validate

end IonTrap
