import IonTrap.Circuit.Basic
import IonTrap.Json.Parse
import IonTrap.Json.Print
import IonTrap.Json.Decode

/-!
# Circuits as JSON

A circuit is a record of its name, register sizes and instructions. Kinds and gates are variants:
`"Measure"`, `{"Gate": {"Standard": {"Rz": 0.5}}}`. Names, order and defaults of fields are those
that the types of the data declare, and the rules for reading are those of `IonTrap.Json.Decode`.
-/

namespace IonTrap

/-! ## Gates -/

/-- Names of the standard gates without parameters. -/
def plainGates : List (String × StandardGate) :=
  [("I", .id), ("X", .x), ("Y", .y), ("Z", .z), ("H", .h), ("S", .s), ("Sdg", .sdg), ("T", .t),
    ("Tdg", .tdg), ("CX", .cx), ("CZ", .cz), ("Swap", .swap)]

/-- Names of the standard gates with one angle. -/
def rotationGates : List (String × (Double → StandardGate)) :=
  [("Rx", .rx), ("Ry", .ry), ("Rz", .rz), ("Rxx", .rxx), ("Rzz", .rzz)]

/-- A standard gate as JSON. -/
def StandardGate.toJson : StandardGate → Json
  | .id => .str "I"
  | .x => .str "X"
  | .y => .str "Y"
  | .z => .str "Z"
  | .h => .str "H"
  | .s => .str "S"
  | .sdg => .str "Sdg"
  | .t => .str "T"
  | .tdg => .str "Tdg"
  | .rx a => .obj [("Rx", .ofDouble a)]
  | .ry a => .obj [("Ry", .ofDouble a)]
  | .rz a => .obj [("Rz", .ofDouble a)]
  | .r a p => .obj [("R", .arr [.ofDouble a, .ofDouble p])]
  | .cx => .str "CX"
  | .cz => .str "CZ"
  | .swap => .str "Swap"
  | .rxx a => .obj [("Rxx", .ofDouble a)]
  | .rzz a => .obj [("Rzz", .ofDouble a)]

/-- The two angles of `R`. -/
def twoAngles? : Json → Option (Double × Double)
  | .arr [a, p] =>
    match a.double?, p.double? with
    | some a, some p => some (a, p)
    | _, _ => none
  | _ => none

/-- A standard gate read from JSON. -/
def StandardGate.ofJson? (s : Json.Strictness) (j : Json) : Option StandardGate :=
  match j.variant? with
  | none => none
  | some (name, payload) =>
    match plainGates.lookup name, rotationGates.lookup name, payload with
    | some g, _, p => if Json.isUnit s p then some g else none
    | none, some f, some p => p.double?.map f
    | none, none, some p =>
      if name = "R" then (twoAngles? p).map fun (a, b) => .r a b else none
    | none, _, none => none

/-- A custom gate as JSON. -/
def CustomGate.toJson (g : CustomGate) : Json :=
  .obj [("name", .str g.name), ("num_qubits", .ofNat g.arity),
    ("params", .arr (g.params.map .ofDouble))]

/-- A custom gate read from JSON. -/
def CustomGate.ofJson? (j : Json) : Option CustomGate := do
  let fs ← j.record? ["name", "num_qubits", "params"]
  let name ← fs.need "name" Json.string?
  let arity ← fs.need "num_qubits" Json.word32?
  let params ← fs.need "params" (Json.list? Json.double?)
  return ⟨name, arity, params⟩

/-- A gate as JSON. -/
def Gate.toJson : Gate → Json
  | .standard g => .obj [("Standard", g.toJson)]
  | .custom g => .obj [("Custom", g.toJson)]

/-- A gate read from JSON. -/
def Gate.ofJson? (s : Json.Strictness) (j : Json) : Option Gate :=
  match j.variant? with
  | some ("Standard", some p) => (StandardGate.ofJson? s p).map .standard
  | some ("Custom", some p) => (CustomGate.ofJson? p).map .custom
  | _ => none

/-! ## Instructions -/

/-- A kind of instruction as JSON. -/
def InstructionKind.toJson : InstructionKind → Json
  | .gate g => .obj [("Gate", g.toJson)]
  | .measure => .str "Measure"
  | .reset => .str "Reset"
  | .barrier => .str "Barrier"

/-- Names of the kinds other than gates. -/
def plainKinds : List (String × InstructionKind) :=
  [("Measure", .measure), ("Reset", .reset), ("Barrier", .barrier)]

/-- A kind of instruction read from JSON. -/
def InstructionKind.ofJson? (s : Json.Strictness) (j : Json) : Option InstructionKind :=
  match j.variant? with
  | none => none
  | some (name, payload) =>
    match plainKinds.lookup name, payload with
    | some k, p => if Json.isUnit s p then some k else none
    | none, some p => if name = "Gate" then (Gate.ofJson? s p).map .gate else none
    | none, none => none

/-- The fields of an instruction. An empty list of classical bits is left out. -/
def Instruction.toFields (i : Instruction) : List (String × Json) :=
  [("kind", i.kind.toJson), ("qubits", .ofNats i.qubits)]
    ++ (if i.clbits.isEmpty then [] else [("clbits", .ofNats i.clbits)])

/-- An instruction as JSON. -/
def Instruction.toJson (i : Instruction) : Json := .obj i.toFields

/-- An instruction read from JSON. -/
def Instruction.ofJson? (s : Json.Strictness) (j : Json) : Option Instruction := do
  let fs ← j.record? ["kind", "qubits", "clbits"]
  let kind ← fs.need "kind" (InstructionKind.ofJson? s)
  let qubits ← fs.need "qubits" (Json.list? Json.word32?)
  let clbits ← fs.get "clbits" (Json.list? Json.word32?) []
  return ⟨kind, qubits, clbits⟩

/-! ## Circuits -/

namespace Circuit

/-- A circuit as JSON. -/
def toJson (c : Circuit) : Json :=
  .obj [("name", .str c.name), ("num_qubits", .ofNat c.numQubits),
    ("num_clbits", .ofNat c.numClbits), ("instructions", .arr (c.instructions.map (·.toJson)))]

/-- The pretty text of a circuit. -/
def text (c : Circuit) : String := c.toJson.pretty

/-- A circuit read from JSON, its instructions not yet checked. -/
def ofJson? (j : Json) : Option Circuit := do
  let fs ← j.record? ["name", "num_qubits", "num_clbits", "instructions"]
  let name ← fs.need "name" Json.string?
  let numQubits ← fs.need "num_qubits" Json.word32?
  let numClbits ← fs.get "num_clbits" Json.word32? 0
  let instructions ← fs.need "instructions" (Json.list? (Instruction.ofJson? .strict))
  return ⟨name, numQubits, numClbits, instructions⟩

/-- A circuit read from text, every instruction checked in order. -/
def ofText (s : String) : Except CircuitError Circuit :=
  match (Json.parse s).bind ofJson? with
  | none => .error .unreadable
  | some c => do
    c.checkAll c.instructions
    return c

end Circuit

end IonTrap
