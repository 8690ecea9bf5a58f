import IonTrap.Architecture.Validate
import IonTrap.Json.Parse
import IonTrap.Json.Print
import IonTrap.Json.Decode

/-!
# Architectures as JSON

Fields are named and ordered as the types of the data declare them, and read by the rules of
`IonTrap.Json.Decode`. A zone that does not say so has gates and a swap cost of one.
-/

namespace IonTrap

/-- A port as JSON. -/
def Port.toJson : Port → Json
  | .p0 => .str "P0"
  | .p1 => .str "P1"

/-- A port read from JSON. -/
def Port.ofJson? (s : Json.Strictness) (j : Json) : Option Port :=
  match j.variant? with
  | some ("P0", p) => if Json.isUnit s p then some .p0 else none
  | some ("P1", p) => if Json.isUnit s p then some .p1 else none
  | _ => none

/-- A zone as JSON. -/
def Zone.toJson (z : Zone) : Json :=
  .obj [("gate_capacity", .ofNat z.gateCapacity),
    ("transport_capacity", .ofNat z.transportCapacity),
    ("memory_only", .bool z.memoryOnly), ("swap_cost", .ofNat z.swapCost)]

/-- A zone read from JSON. -/
def Zone.ofJson? (j : Json) : Option Zone := do
  let fs ← j.record? ["gate_capacity", "transport_capacity", "memory_only", "swap_cost"]
  let gateCapacity ← fs.need "gate_capacity" Json.word64?
  let transportCapacity ← fs.need "transport_capacity" Json.word64?
  let memoryOnly ← fs.get "memory_only" Json.bool? false
  let swapCost ← fs.get "swap_cost" Json.word64? 1
  return ⟨gateCapacity, transportCapacity, memoryOnly, swapCost⟩

/-- A port of a zone as JSON. -/
def ZonePort.toJson (p : ZonePort) : Json := .obj [("zone", .ofNat p.zone), ("port", p.port.toJson)]

/-- A port of a zone read from JSON. -/
def ZonePort.ofJson? (s : Json.Strictness) (j : Json) : Option ZonePort := do
  let fs ← j.record? ["zone", "port"]
  let zone ← fs.need "zone" Json.word64?
  let port ← fs.need "port" (Port.ofJson? s)
  return ⟨zone, port⟩

/-- A connection as JSON. -/
def Connection.toJson (c : Connection) : Json := .obj [("a", c.a.toJson), ("b", c.b.toJson)]

/-- A connection read from JSON. -/
def Connection.ofJson? (s : Json.Strictness) (j : Json) : Option Connection := do
  let fs ← j.record? ["a", "b"]
  let a ← fs.need "a" (ZonePort.ofJson? s)
  let b ← fs.need "b" (ZonePort.ofJson? s)
  return ⟨a, b⟩

namespace Architecture

/-- An architecture as JSON. -/
def toJson (a : Architecture) : Json :=
  .obj [("n_qubits_max", .ofNat a.maxQubits), ("zones", .arr (a.zones.map (·.toJson))),
    ("connections", .arr (a.connections.map (·.toJson)))]

/-- An architecture read from JSON, not yet checked. -/
def ofJson? (s : Json.Strictness) (j : Json) : Option Architecture := do
  let fs ← j.record? ["n_qubits_max", "zones", "connections"]
  let maxQubits ← fs.need "n_qubits_max" Json.word64?
  let zones ← fs.need "zones" (Json.list? Zone.ofJson?)
  let connections ← fs.need "connections" (Json.list? (Connection.ofJson? s))
  return ⟨maxQubits, zones, connections⟩

/-- An architecture read from text and checked. -/
def ofText (s : String) : Except TrapError Architecture :=
  match (Json.parse s).bind (ofJson? .strict) with
  | none => .error .unreadable
  | some a => do
    a.validate
    return a

end Architecture

end IonTrap
