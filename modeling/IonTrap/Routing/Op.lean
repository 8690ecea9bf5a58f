import IonTrap.Architecture.Json

/-!
# Physical operations

What the router does to the trap: shuttling a cohort over one connection, exchanging two neighbours
of a chain, and marking the boundary between two moves.
-/

namespace IonTrap

/-- A physical operation. -/
inductive RoutingOp where
  /-- Moves a cohort, listed in chain order, over one connection. -/
  | shuttle (qubits : List Nat) (source target : Nat) (sourcePort targetPort : Port)
  /-- Exchanges two neighbours; `left` is the one nearer to port 0 before. -/
  | swap (zone left right : Nat)
  /-- Boundary of a move. -/
  | barrier
deriving DecidableEq, Repr

namespace RoutingOp

/-- Whether the operation is a shuttle. -/
def isShuttle : RoutingOp → Bool
  | .shuttle .. => true
  | _ => false

/-- Whether the operation is a swap. -/
def isSwap : RoutingOp → Bool
  | .swap .. => true
  | _ => false

/-- Whether the operation is a boundary. -/
def isBarrier : RoutingOp → Bool
  | .barrier => true
  | _ => false

/-- A list of numbers in brackets. -/
def listText (ns : List Nat) : String := "[" ++ ", ".intercalate (ns.map toString) ++ "]"

/-- The operation in one line. -/
def text : RoutingOp → String
  | .shuttle qs source target sp tp =>
    let qubits := listText qs
    let from_ := sp.name
    let to_ := tp.name
    s!"shuttle {qubits} z{source}.{from_} -> z{target}.{to_}"
  | .swap z l r => s!"pswap z{z} q{l} <-> q{r}"
  | .barrier => "routing_barrier"

/-! ## JSON -/

/-- The fields of an operation, its tag first. -/
def toFields : RoutingOp → List (String × Json)
  | .shuttle qs source target sp tp =>
    [("op", .str "shuttle"), ("qubits", .ofNats qs), ("source_zone", .ofNat source),
      ("target_zone", .ofNat target), ("source_port", sp.toJson), ("target_port", tp.toJson)]
  | .swap z l r =>
    [("op", .str "pswap"), ("zone", .ofNat z), ("qubit0", .ofNat l), ("qubit1", .ofNat r)]
  | .barrier => [("op", .str "routing_barrier")]

/-- An operation as JSON. -/
def toJson (op : RoutingOp) : Json := .obj op.toFields

/-- A shuttle read from the rest of its record. -/
def shuttleOfJson? (j : Json) : Option RoutingOp := do
  let fs ← j.record? ["qubits", "source_zone", "target_zone", "source_port", "target_port"]
  let qubits ← fs.need "qubits" (Json.list? Json.word64?)
  let source ← fs.need "source_zone" Json.word64?
  let target ← fs.need "target_zone" Json.word64?
  let sourcePort ← fs.need "source_port" (Port.ofJson? .tagged)
  let targetPort ← fs.need "target_port" (Port.ofJson? .tagged)
  return .shuttle qubits source target sourcePort targetPort

/-- A swap read from the rest of its record. -/
def swapOfJson? (j : Json) : Option RoutingOp := do
  let fs ← j.record? ["zone", "qubit0", "qubit1"]
  let zone ← fs.need "zone" Json.word64?
  let left ← fs.need "qubit0" Json.word64?
  let right ← fs.need "qubit1" Json.word64?
  return .swap zone left right

/-- A boundary has no fields of its own. -/
def barrierOfJson? (j : Json) : Option RoutingOp := (j.record? []).map fun _ => .barrier

/-- The kinds of operations with their readers. -/
def kinds : List (String × (Json → Option RoutingOp)) :=
  [("shuttle", shuttleOfJson?), ("pswap", swapOfJson?), ("routing_barrier", barrierOfJson?)]

/-- An operation read from JSON, at depth `depth` of the text. -/
def ofJson? (depth : Nat) (j : Json) : Option RoutingOp := do
  let (tag, rest) ← j.tagged? depth "op"
  let read ← Json.kind? kinds tag
  read rest

/-- An operation read from the rest of another tagged record. -/
def ofNestedJson? (j : Json) : Option RoutingOp := do
  let (tag, rest) ← j.tagged? 0 "op"
  let read ← Json.nestedKind? kinds tag
  read rest

end RoutingOp

/-- What one routing call did. -/
structure RoutingResult where
  /-- Cost of all moves. -/
  cost : Double
  /-- Operations in order. -/
  ops : List RoutingOp
deriving DecidableEq, Repr

namespace RoutingResult

/-- Number of shuttles. -/
def numShuttles (r : RoutingResult) : Nat := r.ops.countP (·.isShuttle)

/-- Number of swaps. -/
def numSwaps (r : RoutingResult) : Nat := r.ops.countP (·.isSwap)

/-- A result as JSON. -/
def toJson (r : RoutingResult) : Json :=
  .obj [("cost_estimate", .ofDouble r.cost), ("routing_ops", .arr (r.ops.map (·.toJson)))]

/-- A result read from JSON. -/
def ofJson? (j : Json) : Option RoutingResult := do
  let fs ← j.record? ["cost_estimate", "routing_ops"]
  let cost ← fs.need "cost_estimate" Json.double?
  let ops ← fs.need "routing_ops" (Json.list? (RoutingOp.ofJson? 2))
  return ⟨cost, ops⟩

end RoutingResult

end IonTrap
