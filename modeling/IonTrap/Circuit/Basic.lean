import IonTrap.Circuit.Instruction

/-!
# Circuits

A circuit is a list of instructions in program order on qubits `0, …, numQubits - 1` and classical
bits `0, …, numClbits - 1`. Instructions enter it only after a check of their operands.
-/

namespace IonTrap

/-- Why an instruction or a circuit is refused. -/
inductive CircuitError where
  /-- An operand of `gate` is no qubit of the circuit. -/
  | unknownQubit (qubit : Nat) (gate : String)
  /-- A classical operand is no bit of the circuit. -/
  | unknownClbit (clbit : Nat)
  /-- The gate acts on another number of qubits. -/
  | arity (gate : String) (expected got : Nat)
  /-- A qubit is named twice. -/
  | repeatedQubit (qubit : Nat) (gate : String)
  /-- A measurement writes more or fewer bits than it measures qubits. -/
  | measureArity (qubits clbits : Nat)
  /-- The text is no circuit. -/
  | unreadable
deriving DecidableEq, Repr

/-- The text of an error. -/
def CircuitError.message : CircuitError → String
  | .unknownQubit q g => s!"Qubit q{q} not found in circuit (gate: {g})"
  | .unknownClbit c => s!"Classical bit c{c} not found in circuit"
  | .arity g expected got => s!"Gate '{g}' requires {expected} qubits, got {got}"
  | .repeatedQubit q g => s!"Duplicate qubit q{q} in operation (gate: {g})"
  | .measureArity qs cs => s!"Measurement over {qs} qubits cannot write {cs} classical bits"
  | .unreadable => "Circuit serialization error"

/-- A circuit. -/
structure Circuit where
  /-- Name of the circuit. -/
  name : String
  /-- Number of qubits. -/
  numQubits : Nat
  /-- Number of classical bits. -/
  numClbits : Nat
  /-- Instructions in program order. -/
  instructions : List Instruction
deriving DecidableEq, Repr

namespace Circuit

/-- A circuit without instructions. -/
def empty (name : String) (numQubits numClbits : Nat) : Circuit := ⟨name, numQubits, numClbits, []⟩

/-! ## Checking operands -/

/-- Checks that every qubit exists and none is named twice; `seen` are the ones before. -/
def checkQubits (numQubits : Nat) (gate : String) (seen : List Nat) :
    List Nat → Except CircuitError Unit
  | [] => .ok ()
  | q :: qs =>
    if numQubits ≤ q then .error (.unknownQubit q gate)
    else if seen.contains q then .error (.repeatedQubit q gate)
    else checkQubits numQubits gate (q :: seen) qs

/-- Checks that every classical bit exists. -/
def checkClbits (numClbits : Nat) : List Nat → Except CircuitError Unit
  | [] => .ok ()
  | c :: cs => if numClbits ≤ c then .error (.unknownClbit c) else checkClbits numClbits cs

/-- Checks the number of operands. -/
def checkArity (i : Instruction) : Except CircuitError Unit :=
  match i.kind with
  | .gate g =>
    if g.arity = i.qubits.length then .ok () else .error (.arity g.name g.arity i.qubits.length)
  | .measure =>
    if i.qubits.length = i.clbits.length then .ok ()
    else .error (.measureArity i.qubits.length i.clbits.length)
  | _ => .ok ()

/-- Checks an instruction against the registers of the circuit. -/
def check (c : Circuit) (i : Instruction) : Except CircuitError Unit := do
  checkQubits c.numQubits i.name [] i.qubits
  checkClbits c.numClbits i.clbits
  checkArity i

/-! ## Building -/

/-- Appends an instruction that passes the check. -/
def apply (c : Circuit) (i : Instruction) : Except CircuitError Circuit := do
  c.check i
  return { c with instructions := c.instructions ++ [i] }

/-- Appends instructions until one fails the check. -/
def applyAll (c : Circuit) : List Instruction → Except CircuitError Circuit
  | [] => .ok c
  | i :: is => do
    let c ← c.apply i
    c.applyAll is

/-- Makes room for one classical bit per qubit. -/
def growClbits (c : Circuit) : Circuit := { c with numClbits := max c.numClbits c.numQubits }

/-- One measurement per qubit into the classical bit of the same number. -/
def measurements (n : Nat) : List Instruction :=
  (List.range n).map fun i => ⟨.measure, [i], [i]⟩

/-- A step that builds a circuit. -/
inductive BuildStep where
  /-- Append an instruction. -/
  | apply (i : Instruction)
  /-- Measure every qubit into the classical bit of the same number, adding bits as needed. -/
  | measureAll
  /-- Put a barrier over all qubits. -/
  | barrierAll
deriving DecidableEq, Repr

/-- One building step. Measuring all qubits never fails: the bits it needs are there by then. -/
def build (c : Circuit) : BuildStep → Except CircuitError Circuit
  | .apply i => c.apply i
  | .measureAll => c.growClbits.applyAll (measurements c.numQubits)
  | .barrierAll => c.apply ⟨.barrier, List.range c.numQubits, []⟩

/-- Building steps up to the first failure. -/
def buildAll (c : Circuit) : List BuildStep → Except CircuitError Circuit
  | [] => .ok c
  | s :: ss => do
    let c ← c.build s
    c.buildAll ss

/-- Entangles `n` qubits with a ladder of `cx` gates and measures them. -/
def ghz (n : Nat) : Except CircuitError Circuit :=
  let c := empty "ghz" n n
  if n = 0 then .ok c
  else
    c.buildAll (.apply (.ofStandard .h [0])
      :: (List.range (n - 1)).map (fun i => .apply (.ofStandard .cx [i, i + 1]))
      ++ [.measureAll])

/-! ## Queries -/

/-- Number of gates on exactly two qubits. -/
def numTwoQubitGates (c : Circuit) : Nat := c.instructions.countP (·.isTwoQubitGate)

/-- Checks instructions in order. -/
def checkAll (c : Circuit) : List Instruction → Except CircuitError Unit
  | [] => .ok ()
  | i :: is => do
    c.check i
    c.checkAll is

end Circuit

end IonTrap
