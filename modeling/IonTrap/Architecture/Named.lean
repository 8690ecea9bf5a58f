import IonTrap.Architecture.Validate

/-!
# Built-in architectures
-/

namespace IonTrap.Architecture

/-- Connections of `n` zones in a line, tail to head. -/
def line (n : Nat) : List Connection := (List.range (n - 1)).map fun z => .chain z (z + 1)

/-- Equal gate zones in a line. -/
def linear (numZones capacity maxQubits : Nat) : Except TrapError Architecture :=
  build maxQubits (List.replicate numZones (.gate capacity)) (line numZones)

/-- Four gate zones of capacity 6 in a line. -/
def fourZonesInALine : Architecture := ⟨16, List.replicate 4 (.gate 6), line 4⟩

/-- Four gate zones of capacity 6 in the ring 0, 1, 3, 2. -/
def fourZonesRing : Architecture :=
  ⟨16, List.replicate 4 (.gate 6),
    [.chain 0 1, .chain 1 3, ⟨⟨3, .p1⟩, ⟨2, .p1⟩⟩, ⟨⟨2, .p0⟩, ⟨0, .p0⟩⟩]⟩

/-- Eight zones of capacity 10 in a line; the two in the middle run gates. -/
def memoryAndGateZones : Architecture :=
  ⟨40, (List.range 8).map fun z => if z = 3 ∨ z = 4 then .gate 10 else .memory 10, line 8⟩

/-- The built-in architectures by name. -/
def named : List (String × Architecture) :=
  [("four_zones_in_a_line", fourZonesInALine),
    ("four_zones_ring", fourZonesRing),
    ("memory_and_gate_zones", memoryAndGateZones)]

/-- Names of the built-in architectures. -/
def names : List String := named.map (·.1)

/-- The built-in architecture of a name. -/
def byName? (name : String) : Option Architecture := named.lookup name

/-- Every built-in architecture is valid. -/
theorem validate_named : ∀ a ∈ named, a.2.validate = .ok () := by
  intro a ha
  simp only [named, List.mem_cons, List.not_mem_nil, or_false] at ha
  rcases ha with rfl | rfl | rfl <;> rfl

end IonTrap.Architecture
