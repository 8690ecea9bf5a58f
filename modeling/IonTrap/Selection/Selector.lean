import IonTrap.Selection.Partition

/-!
# Selectors

A selector turns the live trap and the remaining instructions into the next target placement.
-/

namespace IonTrap

/-- A way to select the next target. -/
inductive Selector where
  /-- Greedily, with a way to price moves. -/
  | greedy (model : CostModel)
  /-- By partitioning. -/
  | partition (settings : RoutingSettings) (partitioner : Partitioner)

namespace Selector

/-- The selector that settings ask for. Without a partitioner the built-in one is taken. -/
def ofSettings (s : RoutingSettings) (partitioner : Option Partitioner) : Selector :=
  match s.algorithm with
  | .greedy => .greedy s.costModel
  | .partition =>
    let builtIn : LocalSearch := { seed := s.partitionSeed }
    .partition s (partitioner.getD builtIn.partitioner)

/-- Name of the way. -/
def name : Selector → String
  | .greedy _ => Algorithm.greedy.name
  | .partition _ _ => Algorithm.partition.name

/-- Whether targets come from partitioning. -/
def isPartition : Selector → Bool
  | .greedy _ => false
  | .partition _ _ => true

/-- How moves are priced. -/
def costModel : Selector → CostModel
  | .greedy m => m
  | .partition s _ => s.costModel

/-- The next target. -/
def next (s : Selector) (t : Trap) (is : List Instruction) : Except CompileError Placement :=
  match s with
  | .greedy m => selectGreedy m t is
  | .partition settings partitioner => selectPartition settings partitioner t is

end Selector

end IonTrap
