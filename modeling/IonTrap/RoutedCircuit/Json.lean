import IonTrap.Circuit.Json
import IonTrap.Error
import IonTrap.RoutedCircuit.Basic
import IonTrap.Settings.Json

/-!
# Routed circuits as JSON

An entry of the stream is tagged `gate` or `routing` and holds the fields of the instruction or of
the operation next to the tag. Names and order of fields are those that the types of the data
declare, and the rules for reading are those of `IonTrap.Json.Decode`, tagged records within one
another included.
-/

namespace IonTrap

/-- A loading record as JSON. -/
def ZoneInit.toJson (i : ZoneInit) : Json :=
  .obj [("zone", .ofNat i.zone), ("qubits", .ofNats i.qubits)]

/-- A loading record read from JSON. -/
def ZoneInit.ofJson? (j : Json) : Option ZoneInit := do
  let fs ← j.record? ["zone", "qubits"]
  let zone ← fs.need "zone" Json.word64?
  let qubits ← fs.need "qubits" (Json.list? Json.word64?)
  return ⟨zone, qubits⟩

namespace RoutedOp

/-- An entry as JSON, its tag first. -/
def toJson : RoutedOp → Json
  | .gate i => .obj (("type", .str "gate") :: i.toFields)
  | .routing op => .obj (("type", .str "routing") :: op.toFields)

/-- The kinds of entries with their readers. -/
def kinds : List (String × (Json → Option RoutedOp)) :=
  [("gate", fun j => (Instruction.ofJson? .tagged j).map .gate),
    ("routing", fun j => (RoutingOp.ofNestedJson? j).map .routing)]

/-- An entry read from JSON, at depth `depth` of the text. -/
def ofJson? (depth : Nat) (j : Json) : Option RoutedOp := do
  let (tag, rest) ← j.tagged? depth "type"
  let read ← Json.kind? kinds tag
  read rest

end RoutedOp

namespace RoutedCircuit

/-- A routed circuit as JSON. -/
def toJson (c : RoutedCircuit) : Json :=
  .obj [("name", .str c.name), ("n_qubits", .ofNat c.numQubits), ("n_clbits", .ofNat c.numClbits),
    ("inits", .arr (c.inits.map (·.toJson))), ("ops", .arr (c.ops.map (·.toJson))),
    ("final_placement", c.finalPlacement.toJson)]

/-- The pretty text of a routed circuit. -/
def text (c : RoutedCircuit) : String := c.toJson.pretty

/-- A routed circuit read from JSON. -/
def ofJson? (j : Json) : Option RoutedCircuit := do
  let fs ← j.record? ["name", "n_qubits", "n_clbits", "inits", "ops", "final_placement"]
  let name ← fs.need "name" Json.string?
  let numQubits ← fs.need "n_qubits" Json.word64?
  let numClbits ← fs.need "n_clbits" Json.word64?
  let inits ← fs.need "inits" (Json.list? ZoneInit.ofJson?)
  let ops ← fs.need "ops" (Json.list? (RoutedOp.ofJson? 2))
  let finalPlacement ← fs.need "final_placement" Placement.ofJson?
  return ⟨name, numQubits, numClbits, inits, ops, finalPlacement⟩

/-- A routed circuit read from text. Whether it can run is not checked. -/
def ofText (s : String) : Except CompileError RoutedCircuit :=
  match (Json.parse s).bind ofJson? with
  | none => .error .unreadable
  | some c => .ok c

end RoutedCircuit

end IonTrap
