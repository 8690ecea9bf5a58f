import IonTrap.Circuit.Basic
import IonTrap.Placement
import IonTrap.Routing.Op

/-!
# Routed circuits

A routed circuit says how the zones are loaded, lists gates and physical operations in one stream,
and records where the qubits end up.
-/

namespace IonTrap

/-- The qubits loaded into a zone, in chain order. -/
structure ZoneInit where
  /-- The zone. -/
  zone : Nat
  /-- Its qubits. -/
  qubits : List Nat
deriving DecidableEq, Repr

/-- An entry of the stream. -/
inductive RoutedOp where
  /-- An instruction of the circuit. -/
  | gate (instruction : Instruction)
  /-- A physical operation. -/
  | routing (op : RoutingOp)
deriving DecidableEq, Repr

/-- The instruction of an entry. -/
def RoutedOp.gate? : RoutedOp → Option Instruction
  | .gate i => some i
  | .routing _ => none

/-- The physical operation of an entry. -/
def RoutedOp.routing? : RoutedOp → Option RoutingOp
  | .gate _ => none
  | .routing op => some op

/-- A circuit with the moves that run it on a trap. -/
structure RoutedCircuit where
  /-- Name of the circuit. -/
  name : String
  /-- Number of qubits. -/
  numQubits : Nat
  /-- Number of classical bits. -/
  numClbits : Nat
  /-- How the zones are loaded. -/
  inits : List ZoneInit
  /-- The stream. -/
  ops : List RoutedOp
  /-- Where the qubits end up. -/
  finalPlacement : Placement
deriving DecidableEq, Repr

namespace RoutedCircuit

/-- A routed circuit without operations. -/
def start (name : String) (numQubits numClbits : Nat) (initial : Placement) : RoutedCircuit where
  name := name
  numQubits := numQubits
  numClbits := numClbits
  inits := initial.zipIdx.map fun (chain, z) => ⟨z, chain⟩
  ops := []
  finalPlacement := initial

/-- The placement that is loaded: the records in list order, whatever zones they name. -/
def initialPlacement (c : RoutedCircuit) : Placement := c.inits.map (·.qubits)

/-- The instructions of the stream. -/
def gates (c : RoutedCircuit) : List Instruction := c.ops.filterMap (·.gate?)

/-- The physical operations of the stream. -/
def routingOps (c : RoutedCircuit) : List RoutingOp := c.ops.filterMap (·.routing?)

/-- Number of shuttles. -/
def numShuttles (c : RoutedCircuit) : Nat := c.routingOps.countP (·.isShuttle)

/-- Number of swaps. -/
def numSwaps (c : RoutedCircuit) : Nat := c.routingOps.countP (·.isSwap)

end RoutedCircuit

end IonTrap
