import IonTrap.Circuit.Json
import IonTrap.Proofs.Json.Decode

/-!
# Instructions written as JSON and read back

Whether written by itself or inside a tagged record, an instruction is read back as it was
(`Instruction.ofJson?_toJson`), if its numbers fit the words they are kept in and its parameters
read back.
-/

namespace IonTrap

open Json (Strictness)

/-! ## Gates -/

theorem StandardGate.ofJson?_toJson (s : Strictness) {g : StandardGate}
    (h : ∀ d ∈ g.params, d.ReadsBack) : StandardGate.ofJson? s g.toJson = some g := by
  cases g
  case rx a | ry a | rz a | rxx a | rzz a =>
    have ha := Json.double?_ofDouble (h a (by simp [params]))
    simp [toJson, ofJson?, Json.variant?, plainGates, rotationGates, List.lookup, ha]
  case r a p =>
    have ha := Json.double?_ofDouble (h a (by simp [params]))
    have hp := Json.double?_ofDouble (h p (by simp [params]))
    simp [toJson, ofJson?, Json.variant?, plainGates, rotationGates, List.lookup, twoAngles?, ha,
      hp]
  all_goals rfl

theorem StandardGate.tidy_toJson {k : Nat} {g : StandardGate} (h : ∀ d ∈ g.params, d.ReadsBack) :
    g.toJson.Tidy (k + 2) := by
  have hangle : ∀ {l d}, d ∈ g.params → (Json.ofDouble d).Tidy l :=
    fun hd => Json.tidy_ofDouble (h _ hd)
  cases g
  case rx a | ry a | rz a | rxx a | rzz a =>
    exact Json.tidy_obj (by simpa using hangle (by simp [params]))
  case r a p =>
    refine Json.tidy_obj ?_
    simp only [List.forall_mem_singleton]
    exact Json.tidy_arr (by simpa using ⟨hangle (by simp [params]), hangle (by simp [params])⟩)
  all_goals exact Json.tidy_str _

theorem CustomGate.ofJson?_toJson {g : CustomGate} (harity : g.arity < 2 ^ 32)
    (h : ∀ d ∈ g.params, d.ReadsBack) : CustomGate.ofJson? g.toJson = some g := by
  have hparams : Json.list? Json.double? (.arr (g.params.map .ofDouble)) = some g.params :=
    Json.list?_map fun d hd => Json.double?_ofDouble (h d hd)
  rw [toJson, ofJson?, Json.record?_obj (by simp) (by simp)]
  simp [Json.string?, Json.word32?_ofNat harity, hparams]

theorem CustomGate.tidy_toJson {k : Nat} {g : CustomGate} (harity : g.arity < 2 ^ 32)
    (h : ∀ d ∈ g.params, d.ReadsBack) : g.toJson.Tidy (k + 2) := by
  refine Json.tidy_obj ?_
  simp only [List.forall_mem_cons, List.not_mem_nil, false_implies, implies_true, and_true]
  exact ⟨Json.tidy_str _, Json.tidy_ofNat (by omega),
    Json.tidy_arr_map fun d hd => Json.tidy_ofDouble (h d hd)⟩

theorem Gate.ofJson?_toJson (s : Strictness) {g : Gate} (harity : g.arity < 2 ^ 32)
    (h : ∀ d ∈ g.params, d.ReadsBack) : Gate.ofJson? s g.toJson = some g := by
  cases g with
  | standard g => simp [toJson, ofJson?, Json.variant?, StandardGate.ofJson?_toJson s h]
  | custom g => simp [toJson, ofJson?, Json.variant?, CustomGate.ofJson?_toJson harity h]

theorem Gate.tidy_toJson {k : Nat} {g : Gate} (harity : g.arity < 2 ^ 32)
    (h : ∀ d ∈ g.params, d.ReadsBack) : g.toJson.Tidy (k + 3) := by
  cases g with
  | standard g => exact Json.tidy_obj (by simpa using StandardGate.tidy_toJson h)
  | custom g => exact Json.tidy_obj (by simpa using CustomGate.tidy_toJson harity h)

/-! ## Instructions -/

/-- An instruction whose operands and number of operands are words of 32 bits. -/
structure Instruction.InRange (i : Instruction) : Prop where
  qubits_lt : ∀ q ∈ i.qubits, q < 2 ^ 32
  clbits_lt : ∀ b ∈ i.clbits, b < 2 ^ 32
  arity_lt : ∀ g ∈ i.gate?, g.arity < 2 ^ 32

/-- An instruction whose parameters all read back. -/
def Instruction.ReadsBack (i : Instruction) : Prop := ∀ d ∈ i.params, d.ReadsBack

namespace Instruction

variable {i : Instruction}

theorem kind_ofJson?_toJson (s : Strictness) (hi : i.InRange) (hp : i.ReadsBack) :
    InstructionKind.ofJson? s i.kind.toJson = some i.kind := by
  obtain ⟨kind, qubits, clbits⟩ := i
  cases kind with
  | gate g =>
    have hg := Gate.ofJson?_toJson s (hi.arity_lt g rfl) hp
    simp [InstructionKind.toJson, InstructionKind.ofJson?, Json.variant?, plainKinds, List.lookup,
      hg]
  | measure | reset | barrier => rfl

theorem tidy_kind {k : Nat} (hi : i.InRange) (hp : i.ReadsBack) : i.kind.toJson.Tidy (k + 4) := by
  obtain ⟨kind, qubits, clbits⟩ := i
  cases kind with
  | gate g => exact Json.tidy_obj (by simpa using Gate.tidy_toJson (hi.arity_lt g rfl) hp)
  | measure | reset | barrier => exact Json.tidy_str _

/-- What is written for an instruction is read as that instruction. -/
theorem ofJson?_toJson (s : Strictness) (hi : i.InRange) (hp : i.ReadsBack) :
    Instruction.ofJson? s i.toJson = some i := by
  have hkind := kind_ofJson?_toJson s hi hp
  have hqubits : Json.list? Json.word32? (.ofNats i.qubits) = some i.qubits :=
    Json.list?_map fun q hq => Json.word32?_ofNat (hi.qubits_lt q hq)
  have hclbits : Json.list? Json.word32? (.ofNats i.clbits) = some i.clbits :=
    Json.list?_map fun b hb => Json.word32?_ofNat (hi.clbits_lt b hb)
  -- the field of the classical bits is there or not
  unfold toJson toFields
  split_ifs with hempty
  · have hnone : i.clbits = [] := List.isEmpty_iff.1 hempty
    rw [ofJson?, Json.record?_obj (by simp) (by simp)]
    simp [hkind, hqubits, ← hnone]
  · rw [ofJson?, Json.record?_obj (by simp) (by simp)]
    simp [hkind, hqubits, hclbits]

theorem mem_toFields {f : String × Json} :
    f ∈ i.toFields ↔ f = ("kind", i.kind.toJson) ∨ f = ("qubits", .ofNats i.qubits) ∨
      i.clbits ≠ [] ∧ f = ("clbits", .ofNats i.clbits) := by
  unfold toFields
  split_ifs with hempty
  · simp [List.isEmpty_iff.1 hempty]
  · have hsome : i.clbits ≠ [] := fun hnone => hempty (List.isEmpty_iff.2 hnone)
    simp [hsome]

theorem tidy_field {k : Nat} {f : String × Json} (hi : i.InRange) (hp : i.ReadsBack)
    (hf : f ∈ i.toFields) : f.2.Tidy (k + 4) := by
  rcases mem_toFields.1 hf with rfl | rfl | ⟨-, rfl⟩
  · exact tidy_kind hi hp
  · exact Json.tidy_ofNats fun q hq => (hi.qubits_lt q hq).trans (by decide)
  · exact Json.tidy_ofNats fun b hb => (hi.clbits_lt b hb).trans (by decide)

theorem tidy_toJson {k : Nat} (hi : i.InRange) (hp : i.ReadsBack) : i.toJson.Tidy (k + 5) :=
  Json.tidy_obj fun _ hf => tidy_field hi hp hf

end Instruction

end IonTrap
