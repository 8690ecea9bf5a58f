import IonTrap.Architecture.Basic
import IonTrap.Yaml.Read

/-!
# Architectures as YAML
-/

namespace IonTrap

open Yaml (Document Node Reading)

/-- A port read from YAML. -/
def Port.ofYaml (d : Document) : Node Nat → Reading Port :=
  d.variant [("P0", .p0), ("P1", .p1)]

/-- A zone read from YAML. -/
def Zone.ofYaml (d : Document) (v : Node Nat) : Reading Zone := do
  let fs ← d.record ["gate_capacity", "transport_capacity", "memory_only", "swap_cost"] v
  let gateCapacity ← fs.need "gate_capacity" d.word64
  let transportCapacity ← fs.need "transport_capacity" d.word64
  let memoryOnly ← fs.get "memory_only" d.bool false
  let swapCost ← fs.get "swap_cost" d.word64 1
  return ⟨gateCapacity, transportCapacity, memoryOnly, swapCost⟩

/-- A port of a zone read from YAML. -/
def ZonePort.ofYaml (d : Document) (v : Node Nat) : Reading ZonePort := do
  let fs ← d.record ["zone", "port"] v
  let zone ← fs.need "zone" d.word64
  let port ← fs.need "port" (Port.ofYaml d)
  return ⟨zone, port⟩

/-- A connection read from YAML. -/
def Connection.ofYaml (d : Document) (v : Node Nat) : Reading Connection := do
  let fs ← d.record ["a", "b"] v
  let a ← fs.need "a" (ZonePort.ofYaml d)
  let b ← fs.need "b" (ZonePort.ofYaml d)
  return ⟨a, b⟩

/-- An architecture read from YAML, not yet checked. -/
def Architecture.ofYaml (d : Document) (v : Node Nat) : Reading Architecture := do
  let fs ← d.record ["n_qubits_max", "zones", "connections"] v
  let maxQubits ← fs.need "n_qubits_max" d.word64
  let zones ← fs.need "zones" (d.list (Zone.ofYaml d))
  let connections ← fs.need "connections" (d.list (Connection.ofYaml d))
  return ⟨maxQubits, zones, connections⟩

end IonTrap
