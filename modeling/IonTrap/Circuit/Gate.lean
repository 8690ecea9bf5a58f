import IonTrap.Number.Double

/-!
# Gates

Routing never looks into a gate: it needs a name, the number of qubits the gate acts on, and the
parameters to carry through to the output.
-/

namespace IonTrap

/-- The gates known by name. Angles are radians. -/
inductive StandardGate where
  | id
  | x
  | y
  | z
  | h
  | s
  | sdg
  | t
  | tdg
  | rx (angle : Double)
  | ry (angle : Double)
  | rz (angle : Double)
  /-- Rotation by `angle` about the axis at `phase` in the equator. -/
  | r (angle phase : Double)
  | cx
  | cz
  | swap
  | rxx (angle : Double)
  | rzz (angle : Double)
deriving DecidableEq, Repr

/-- A gate the user names. -/
structure CustomGate where
  /-- Name of the gate. -/
  name : String
  /-- Number of qubits it acts on. -/
  arity : Nat
  /-- Parameters. -/
  params : List Double
deriving DecidableEq, Repr

/-- A gate. -/
inductive Gate where
  | standard (g : StandardGate)
  | custom (g : CustomGate)
deriving DecidableEq, Repr

/-- Name of a standard gate. -/
def StandardGate.name : StandardGate → String
  | .id => "id"
  | .x => "x"
  | .y => "y"
  | .z => "z"
  | .h => "h"
  | .s => "s"
  | .sdg => "sdg"
  | .t => "t"
  | .tdg => "tdg"
  | .rx _ => "rx"
  | .ry _ => "ry"
  | .rz _ => "rz"
  | .r _ _ => "r"
  | .cx => "cx"
  | .cz => "cz"
  | .swap => "swap"
  | .rxx _ => "rxx"
  | .rzz _ => "rzz"

/-- Number of qubits a standard gate acts on. -/
def StandardGate.arity : StandardGate → Nat
  | .cx | .cz | .swap | .rxx _ | .rzz _ => 2
  | _ => 1

/-- Parameters of a standard gate. -/
def StandardGate.params : StandardGate → List Double
  | .rx a | .ry a | .rz a | .rxx a | .rzz a => [a]
  | .r a p => [a, p]
  | _ => []

namespace Gate

/-- Name of a gate. -/
def name : Gate → String
  | .standard g => g.name
  | .custom g => g.name

/-- Number of qubits a gate acts on. -/
def arity : Gate → Nat
  | .standard g => g.arity
  | .custom g => g.arity

/-- Parameters of a gate. -/
def params : Gate → List Double
  | .standard g => g.params
  | .custom g => g.params

end Gate

end IonTrap
