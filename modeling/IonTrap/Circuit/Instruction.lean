import IonTrap.Circuit.Gate

/-!
# Instructions

An instruction is a gate, a measurement, a reset or a barrier together with the qubits and classical
bits it names.
-/

namespace IonTrap

/-- What an instruction does. -/
inductive InstructionKind where
  | gate (g : Gate)
  | measure
  | reset
  | barrier
deriving DecidableEq, Repr

/-- An instruction with its operands. -/
structure Instruction where
  /-- What it does. -/
  kind : InstructionKind
  /-- Qubits it acts on. -/
  qubits : List Nat
  /-- Classical bits it writes. -/
  clbits : List Nat
deriving DecidableEq, Repr

namespace Instruction

/-- A gate on `qubits`. -/
def ofGate (g : Gate) (qubits : List Nat) : Instruction := ⟨.gate g, qubits, []⟩

/-- A standard gate on `qubits`. -/
def ofStandard (g : StandardGate) (qubits : List Nat) : Instruction := ofGate (.standard g) qubits

/-- The gate, if the instruction is one. -/
def gate? (i : Instruction) : Option Gate :=
  match i.kind with
  | .gate g => some g
  | _ => none

/-- Whether the instruction is a gate. -/
def isGate (i : Instruction) : Bool := i.gate?.isSome

/-- Whether the instruction is a gate on exactly two qubits. -/
def isTwoQubitGate (i : Instruction) : Bool := i.isGate && i.qubits.length == 2

/-- Whether the instruction is a measurement. -/
def isMeasure (i : Instruction) : Bool :=
  match i.kind with
  | .measure => true
  | _ => false

/-- Whether the instruction is a barrier. -/
def isBarrier (i : Instruction) : Bool :=
  match i.kind with
  | .barrier => true
  | _ => false

/-- Name of the instruction. -/
def name (i : Instruction) : String :=
  match i.kind with
  | .gate g => g.name
  | .measure => "measure"
  | .reset => "reset"
  | .barrier => "barrier"

/-- Parameters of the gate, none for anything else. -/
def params (i : Instruction) : List Double :=
  match i.gate? with
  | some g => g.params
  | none => []

/-- The operands as text, qubits first. -/
def operandNames (i : Instruction) : List String :=
  i.qubits.map (fun q => s!"q{q}") ++ i.clbits.map (fun c => s!"c{c}")

end Instruction

end IonTrap
