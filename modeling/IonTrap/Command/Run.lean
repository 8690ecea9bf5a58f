import IonTrap.Command.Arguments
import IonTrap.Command.Files
import IonTrap.Compile
import IonTrap.RoutedCircuit.Json
import IonTrap.RoutedCircuit.Replay

/-!
# What the program does

A run is described before anything happens: the lines it prints, the file it writes, and how it
ends.
-/

namespace IonTrap

/-- A file to write, with what is printed after success and reported on failure. -/
structure FileWrite where
  /-- Where to write. -/
  path : String
  /-- What to write. -/
  text : String
  /-- Lines printed afterwards. -/
  written : List String
  /-- What is reported if writing fails. -/
  failure : String
deriving DecidableEq, Repr

/-- How a run ends. -/
inductive Ending where
  /-- Well. -/
  | done
  /-- With an error. -/
  | failed (message : String)
  /-- With a file. -/
  | write (file : FileWrite)
deriving DecidableEq, Repr

/-- What a run prints, and how it ends. -/
structure Report where
  /-- Lines printed first. -/
  lines : List String
  /-- The end. -/
  ending : Ending
deriving DecidableEq, Repr

/-- The line that reports an error. -/
def errorLine (message : String) : String := s!"Error: {message}"

namespace Command

/-- Version of the program. -/
def versionNumber : String := "1.9.5"

/-! ## Information -/

/-- Lines about the version. -/
def versionLines : List String :=
  ["ionroute v" ++ versionNumber ++ " - qubit routing for multi-zone trapped-ion traps",
    "",
    "Components:",
    "  ionroute-ir       Circuit intermediate representation",
    "  ionroute-arch     Trap architectures and live placement",
    "  ionroute-compile  Gate selection and routing",
    "  ionroute-cli      Command-line interface",
    "",
    "License: Apache-2.0"]

/-- Lines about a built-in architecture. -/
def summaryLines (name : String) (a : Architecture) : List String :=
  let zones := a.numZones
  let gate := a.gateZones.length
  let memory := a.memoryZones.length
  let capacity := wrap a.totalGateCapacity
  let qubits := a.maxQubits
  [s!"  ● {name}", s!"    Zones: {zones} ({gate} gate, {memory} memory)",
    s!"    Gate capacity: {capacity}", s!"    Max qubits: {qubits}", ""]

/-- Lines about all built-in architectures. -/
def archsLines : List String :=
  ["ionroute Built-in architectures:", ""]
    ++ Architecture.named.flatMap fun (name, a) => summaryLines name a

/-- Pads a text with blanks after it. -/
def padRight (width : Nat) (s : String) : String :=
  s ++ String.ofList (List.replicate (width - s.length) ' ')

/-- Pads a text with blanks in front. -/
def padLeft (width : Nat) (s : String) : String :=
  String.ofList (List.replicate (width - s.length) ' ') ++ s

/-- A row of the table of zones. -/
def tableRow (zone kind gate transport swap : String) : String :=
  "  " ++ " ".intercalate [padRight 6 zone, padRight 8 kind, padLeft 5 gate, padLeft 10 transport,
    padLeft 5 swap]

/-- The row of a zone. -/
def zoneRow (z : Zone) (index : Nat) : String :=
  tableRow (toString index) (if z.memoryOnly then "memory" else "gate") (toString z.gateCapacity)
    (toString z.transportCapacity) (toString z.swapCost)

/-- The line of a connection. -/
def connectionLine (c : Connection) : String :=
  let x := c.a.zone
  let p := c.a.port.name
  let y := c.b.zone
  let q := c.b.port.name
  s!"    z{x}.{p} <-> z{y}.{q}"

/-- Lines about the zones and connections of an architecture. -/
def inspectLines (name : String) (a : Architecture) : List String :=
  let zones := a.numZones
  let qubits := a.maxQubits
  [s!"→ {name} ({zones} zones, up to {qubits} qubits)", "",
    tableRow "zone" "kind" "gate" "transport" "swap"]
    ++ a.zones.zipIdx.map (fun (z, i) => zoneRow z i)
    ++ ["", "  Connections:"] ++ a.connections.map connectionLine

/-! ## Routing -/

/-- What `route` works on. -/
structure Job where
  /-- The circuit. -/
  circuit : Circuit
  /-- The architecture. -/
  arch : Architecture
  /-- The settings. -/
  settings : CompilationSettings
deriving DecidableEq, Repr

/-- Loads circuit, architecture and settings, in this order. -/
def loadJob (files : String → FileContent) (o : RouteOptions) : Except String Job := do
  let circuit ← loadCircuit files o.input
  let arch ← loadArchitecture files o.arch
  let settings ← loadSettings files o.settings
  return ⟨circuit, arch, settings⟩

/-- Compiles a job. -/
def Job.compile (j : Job) : Except CompileError RoutedCircuit :=
  IonTrap.compile j.arch j.circuit j.settings none

/-- The line printed before loading. -/
def startLine (o : RouteOptions) : String :=
  let input := o.input
  let arch := o.arch
  s!"→ Routing {input} onto {arch}"

/-- The line printed after loading. -/
def loadedLine (c : Circuit) : String :=
  let qubits := c.numQubits
  let instructions := c.instructions.length
  let gates := c.numTwoQubitGates
  s!"  Loaded: {qubits} qubits, {instructions} instructions, {gates} two-qubit gates"

/-- The lines printed after routing. -/
def resultLines (r : RoutedCircuit) (elapsed : String) : List String :=
  let shuttles := r.numShuttles
  let swaps := r.numSwaps
  [s!"✓ Routing complete in {elapsed}", s!"  Result: {shuttles} shuttles, {swaps} swaps"]

/-- Writing the result. Without a path it goes next to where the program runs, named after the
circuit's file. -/
def resultFile (o : RouteOptions) (r : RoutedCircuit) : FileWrite :=
  let path := o.output.getD (stem o.input ++ "_routed.json")
  ⟨path, r.text, [s!"  Output: {path}"], s!"Failed to write file: {path}"⟩

/-- The report of a compiled job; `elapsed` says how long compiling took. -/
def routeReport (o : RouteOptions) (j : Job) (result : Except CompileError RoutedCircuit)
    (elapsed : String) : Report :=
  let loaded := [startLine o, loadedLine j.circuit]
  match result with
  | .error e => ⟨loaded, .failed e.message⟩
  | .ok r =>
    let lines := loaded ++ resultLines r elapsed
    if !o.validate then ⟨lines, .write (resultFile o r)⟩
    else
      match r.validate j.arch with
      | .error e => ⟨lines, .failed e.message⟩
      | .ok () => ⟨lines ++ ["  Validation: passed"], .write (resultFile o r)⟩

/-- The report of `inspect`. -/
def inspectReport (files : String → FileContent) (arch : String) : Report :=
  match loadArchitecture files arch with
  | .error e => ⟨[], .failed e⟩
  | .ok a => ⟨inspectLines arch a, .done⟩

/-- The report of a command; `elapsed` says how long compiling took. -/
def report (files : String → FileContent) (elapsed : String) : Command → Report
  | .archs => ⟨archsLines, .done⟩
  | .version => ⟨versionLines, .done⟩
  | .versionLine => ⟨["ionroute " ++ versionNumber], .done⟩
  | .inspect arch => inspectReport files arch
  | .route o =>
    match loadJob files o with
    | .error e => ⟨[startLine o], .failed e⟩
    | .ok j => routeReport o j j.compile elapsed

/-- The paths that a command may read. -/
def paths : Command → List String
  | .inspect arch => [arch]
  | .route o => [o.input, o.arch] ++ o.settings.toList
  | _ => []

end Command

end IonTrap
