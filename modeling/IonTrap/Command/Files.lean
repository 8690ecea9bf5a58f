import IonTrap.Architecture.Json
import IonTrap.Architecture.Named
import IonTrap.Architecture.Yaml
import IonTrap.Circuit.Json
import IonTrap.Settings.Json
import IonTrap.Settings.Yaml

/-!
# Loading from files

Circuits are JSON. Architectures and settings are JSON, or YAML if the name of the file says so.
Failures are the texts that the program reports.
-/

namespace IonTrap

/-- What reading a path gives. -/
inductive FileContent where
  /-- There is nothing. -/
  | missing
  /-- There is something that cannot be read. -/
  | unreadable
  /-- The text. -/
  | text (s : String)
deriving DecidableEq, Repr

namespace Command

/-! ## Names -/

/-- The last component of a path. -/
def fileName (path : String) : List Char :=
  (path.toList.reverse.takeWhile (· != '/')).reverse

/-- A file name cut at its last dot. A dot in front does not count. -/
def cutAtDot (name : List Char) : List Char × Option (List Char) :=
  let after := (name.reverse.takeWhile (· != '.')).reverse
  let before := name.take (name.length - after.length - 1)
  if after.length < name.length && !before.isEmpty then (before, some after) else (name, none)

/-- File name without its extension. -/
def stem (path : String) : String := .ofList (cutAtDot (fileName path)).1

/-- Whether a path is called a YAML file. -/
def isYaml (path : String) : Bool :=
  match (cutAtDot (fileName path)).2 with
  | some ext => ["yaml", "yml"].contains (String.ofList ext).toLower
  | none => false

/-! ## Loading -/

/-- The text of a file. -/
def readText (files : String → FileContent) (path : String) : Except String String :=
  match files path with
  | .missing => .error s!"File not found: {path}"
  | .unreadable => .error s!"Failed to read file: {path}"
  | .text s => .ok s

/-- Data of a file, in JSON or YAML. -/
def loadData {α : Type} (readJson : Json → Option α)
    (readYaml : Yaml.Document → Yaml.Node Nat → Yaml.Reading α) (files : String → FileContent)
    (path : String) : Except String α := do
  let source ← readText files path
  if isYaml path then
    match (Yaml.Document.ofText? source).bind fun d => d.read (readYaml d) with
    | some x => return x
    | none => .error s!"Failed to parse YAML: {path}"
  else
    match (Json.parse source).bind readJson with
    | some x => return x
    | none => .error s!"Failed to parse JSON: {path}"

/-- The circuit of a file. -/
def loadCircuit (files : String → FileContent) (path : String) : Except String Circuit := do
  let source ← readText files path
  match Circuit.ofText source with
  | .ok c => return c
  | .error e =>
    let reason := e.message
    .error s!"Parse error in {path}: {reason}"

/-- A built-in architecture, or that of a file. -/
def loadArchitecture (files : String → FileContent) (path : String) :
    Except String Architecture := do
  match Architecture.byName? path with
  | some a => return a
  | none =>
    if files path = .missing then
      let available := ", ".intercalate Architecture.names
      .error s!"Unknown architecture: '{path}'. Available: {available}"
    else
      let a ← loadData (Architecture.ofJson? .strict) Architecture.ofYaml files path
      match a.validate with
      | .ok () => return a
      | .error _ => .error s!"Invalid architecture in {path}"

/-- The settings of a file, or the defaults. -/
def loadSettings (files : String → FileContent) (path : Option String) :
    Except String CompilationSettings := do
  let s ←
    match path with
    | some path =>
      loadData (CompilationSettings.ofJson? .strict) CompilationSettings.ofYaml files path
    | none => .ok {}
  match s.validate with
  | .ok () => return s
  | .error e => .error e.message

end Command

end IonTrap
