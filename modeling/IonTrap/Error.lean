import IonTrap.Circuit.Basic
import IonTrap.Routing.Op

/-!
# What can go wrong while compiling

Errors of settings, partitioning, selection, routing and replay, next to the errors of circuits and
traps.
-/

namespace IonTrap

/-- Why partitioning fails. -/
inductive PartitionError where
  /-- The vertex tables have the wrong length. -/
  | vertexTables (numVertices weights fixed : Nat)
  /-- There is not one weight per net. -/
  | netWeights (nets weights : Nat)
  | pinOutOfRange (pin numVertices : Nat)
  | fixedOutOfRange (part numParts : Nat)
  /-- An assignment has the wrong length. -/
  | coverage (assigned numVertices : Nat)
  | unknownPart (vertex part : Nat)
  | fixedMoved (vertex part : Nat)
  | overweight (part load limit : Nat)
  | partCount (asked numParts : Nat)
  | fixedTooHeavy (part : Nat)
  | noRoom (vertex : Nat)
  /-- There are more qubits than gate spots. -/
  | tooManyQubits (numQubits : Nat)
  | noAnchor (part qubit : Nat)
  /-- No table can have an entry per vertex; the program ends here. -/
  | unaddressable (numVertices : Nat)
  /-- What a partitioner reports by itself. -/
  | reported (text : String)
deriving DecidableEq, Repr

/-- The text of a partitioning error. -/
def PartitionError.message : PartitionError → String
  | .vertexTables n w f => s!"expected {n} vertex weights and fixed entries, got {w} and {f}"
  | .netWeights n w => s!"{n} nets but {w} net weights"
  | .pinOutOfRange p n => s!"net pin {p} out of range for {n} vertices"
  | .fixedOutOfRange p n => s!"fixed part {p} out of range for {n} parts"
  | .coverage k n => s!"assignment covers {k} of {n} vertices"
  | .unknownPart v p => s!"vertex {v} assigned to unknown part {p}"
  | .fixedMoved v p => s!"fixed vertex {v} moved to part {p}"
  | .overweight p l m => s!"part {p} holds weight {l}, maximum is {m}"
  | .partCount n m => s!"asked for {n} parts, sizes given for {m}"
  | .fixedTooHeavy p => s!"fixed vertices exceed the size of part {p}"
  | .noRoom v => s!"no part has room for vertex {v}"
  | .tooManyQubits n => s!"{n} qubits exceed the gate capacity of the architecture"
  | .noAnchor p q => s!"part {p} of qubit {q} has no zone anchor"
  | .unaddressable _ => "capacity overflow"
  | .reported text => text

/-- Why an operation does not fit the trap it is replayed on. -/
inductive ReplayFault where
  | trap (e : TrapError)
  /-- The zones are connected through other ports. -/
  | otherPorts (source target : Nat) (sourcePort targetPort : Port)
  | tooFewQubits (zone count : Nat)
  | notLinedUp (qubits : List Nat) (port : Port) (zone : Nat)
  | notInZone (qubit zone : Nat)
  | notNeighbours (left right : Nat)
  /-- The run ends in another placement than recorded. -/
  | otherEnd
deriving DecidableEq, Repr

/-- The text of a replay fault. -/
def ReplayFault.message : ReplayFault → String
  | .trap e => e.message
  | .otherPorts s t sp tp =>
    let p := sp.name
    let q := tp.name
    s!"zones {s} and {t} are connected through {p} and {q}"
  | .tooFewQubits z n => s!"zone {z} holds fewer than {n} qubits"
  | .notLinedUp qs p z =>
    let qubits := RoutingOp.listText qs
    let port := p.name
    s!"qubits {qubits} are not lined up at {port} of zone {z}"
  | .notInZone q z => s!"qubit {q} is not in zone {z}"
  | .notNeighbours l r => s!"qubits {l} and {r} are not left and right neighbours"
  | .otherEnd => "replayed placement differs from the recorded final placement"

/-- Why compilation fails. -/
inductive CompileError where
  | trap (e : TrapError)
  | circuit (e : CircuitError)
  /-- The look-ahead depth must be at least 1. -/
  | zeroMaxDepth
  /-- Every zone must keep at least one spot free. -/
  | zeroFreeSpace
  | tooManyOperands (name : String) (count : Nat)
  | doNotFit (numQubits available : Nat)
  | unplaceable (qubit : Nat)
  | targetOverCapacity (zone occupancy capacity : Nat)
  /-- No remaining move can be executed. -/
  | infeasible (remaining : Nat)
  /-- No stage of selection made an instruction executable. -/
  | stalled (remaining : Nat)
  | partition (e : PartitionError)
  | acrossZones (index : Nat) (name : String) (zones : List Nat)
  | inMemoryZone (index : Nat) (name : String) (zone : Nat)
  | inconsistent (index : Nat) (fault : ReplayFault)
  /-- The text is no settings or routed circuit. -/
  | unreadable
deriving DecidableEq, Repr

/-- The text of an error. -/
def CompileError.message : CompileError → String
  | .trap e => e.message
  | .circuit e => e.message
  | .zeroMaxDepth => "Invalid settings: max_depth must be at least 1"
  | .zeroFreeSpace => "Invalid settings: zone_free_space must be at least 1"
  | .tooManyOperands n k => s!"Instruction '{n}' acts on {k} qubits, at most 2 are supported"
  | .doNotFit n a => s!"{n} qubits do not fit, the initial placement leaves room for {a}"
  | .unplaceable q => s!"Qubit {q} could not be assigned to any zone"
  | .targetOverCapacity z o c =>
    s!"Target placement puts {o} qubits into zone {z}, capacity is {c}"
  | .infeasible r => s!"Routing is infeasible, {r} qubits cannot reach their target zones"
  | .stalled r => s!"Routing stalled with {r} instructions left"
  | .partition e =>
    let reason := e.message
    s!"Partitioning failed: {reason}"
  | .acrossZones i n zs =>
    let zones := RoutingOp.listText zs
    s!"Operation {i} '{n}' involves qubits across zones {zones}"
  | .inMemoryZone i n z => s!"Operation {i} '{n}' executes in memory zone {z}"
  | .inconsistent i f =>
    let reason := f.message
    s!"Routing operation {i} is inconsistent: {reason}"
  | .unreadable => "Serialization error"

/-- A trap operation as part of compilation. -/
def liftTrap {α : Type} (r : Except TrapError α) : Except CompileError α :=
  r.mapError .trap

end IonTrap
