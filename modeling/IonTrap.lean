import IonTrap.Main
import IonTrap.Proofs.Architecture.Accepted
import IonTrap.Proofs.Architecture.Hops
import IonTrap.Proofs.Architecture.Links
import IonTrap.Proofs.Architecture.PortPaths
import IonTrap.Proofs.Architecture.PortSearch
import IonTrap.Proofs.Architecture.Shape
import IonTrap.Proofs.Architecture.Sweep
import IonTrap.Proofs.Architecture.Ways
import IonTrap.Proofs.Circuit.Built
import IonTrap.Proofs.Circuit.Checks
import IonTrap.Proofs.Circuit.Json
import IonTrap.Proofs.Circuit.Rearranged
import IonTrap.Proofs.Compile.Completeness
import IonTrap.Proofs.Compile.Iterations
import IonTrap.Proofs.Compile.ProgramOrder
import IonTrap.Proofs.Compile.Replay
import IonTrap.Proofs.Compile.Run
import IonTrap.Proofs.Compile.Steady
import IonTrap.Proofs.Compile.Stragglers
import IonTrap.Proofs.Indexed
import IonTrap.Proofs.InitialPlacement.ByPartition
import IonTrap.Proofs.InitialPlacement.Feasible
import IonTrap.Proofs.InitialPlacement.Matching
import IonTrap.Proofs.Json.Decode
import IonTrap.Proofs.Json.Numerals
import IonTrap.Proofs.Json.RoundTrip
import IonTrap.Proofs.Json.Tokens
import IonTrap.Proofs.Loop
import IonTrap.Proofs.Nested
import IonTrap.Proofs.Number.Exact
import IonTrap.Proofs.Number.Total
import IonTrap.Proofs.Outcome
import IonTrap.Proofs.Partition.Admissible
import IonTrap.Proofs.Partition.Answers
import IonTrap.Proofs.Partition.Assignment
import IonTrap.Proofs.Partition.Cut
import IonTrap.Proofs.Partition.Descent
import IonTrap.Proofs.Partition.Exact
import IonTrap.Proofs.Partition.InPlace
import IonTrap.Proofs.Partition.LocalOptimum
import IonTrap.Proofs.Partition.Reckoning
import IonTrap.Proofs.Partition.Simple
import IonTrap.Proofs.Placement
import IonTrap.Proofs.Placement.Once
import IonTrap.Proofs.Rounds
import IonTrap.Proofs.Rounds.Components
import IonTrap.Proofs.Rounds.Ledger
import IonTrap.Proofs.Rounds.Packed
import IonTrap.Proofs.Rounds.Pruned
import IonTrap.Proofs.Rounds.Schedule
import IonTrap.Proofs.RoutedCircuit.Crowding
import IonTrap.Proofs.RoutedCircuit.Faults
import IonTrap.Proofs.RoutedCircuit.Records
import IonTrap.Proofs.RoutedCircuit.Runs
import IonTrap.Proofs.RoutedCircuit.Text
import IonTrap.Proofs.RoutedCircuit.Validate
import IonTrap.Proofs.Routing.Account
import IonTrap.Proofs.Routing.Align
import IonTrap.Proofs.Routing.Balance
import IonTrap.Proofs.Routing.Carry
import IonTrap.Proofs.Routing.Displaced
import IonTrap.Proofs.Routing.FewestSwaps
import IonTrap.Proofs.Routing.Journey
import IonTrap.Proofs.Routing.LargestBatch
import IonTrap.Proofs.Routing.LiningUp
import IonTrap.Proofs.Routing.Listing
import IonTrap.Proofs.Routing.SoftLock
import IonTrap.Proofs.Routing.Split
import IonTrap.Proofs.Routing.Tariff
import IonTrap.Proofs.Selection.Greedy
import IonTrap.Proofs.Selection.Legal
import IonTrap.Proofs.Selection.Operands
import IonTrap.Proofs.Selection.Partition
import IonTrap.Proofs.Selection.Rest
import IonTrap.Proofs.Selection.Tracker
import IonTrap.Proofs.Selection.Waiting
import IonTrap.Proofs.Trap.Calls
import IonTrap.Proofs.Trap.ChainOrder
import IonTrap.Proofs.Trap.Consistent
import IonTrap.Proofs.Trap.InPlace
import IonTrap.Proofs.Trap.Load
import IonTrap.Proofs.Trap.Moves
import IonTrap.Proofs.Trap.Nearest
import IonTrap.Proofs.Trap.Prices
import IonTrap.Proofs.Trap.Reachable
import IonTrap.Proofs.Trap.SelfCheck
import IonTrap.Proofs.Trap.SwapCount
