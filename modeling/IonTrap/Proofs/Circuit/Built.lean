import IonTrap.Proofs.Circuit.Checks
import IonTrap.Proofs.Circuit.Json

/-!
# Circuits that were built

A circuit begins without instructions, as a ladder that entangles its qubits, or as a text that was
read. From there it grows by building steps in any order, some of which are refused. A step appends
only what passes the check and never takes a qubit or a bit away (`Circuit.grows_of_build`), so
every instruction still passes the check at the end, although the classical register may have grown
in between (`Circuit.Checked.afterAll`). Such a circuit is read back from its text as it was
(`Circuit.ofText_text_afterAll`).
-/

namespace IonTrap.Circuit

variable {c c' : Circuit} {s : BuildStep}

/-! ## One building step -/

/-- What a building step does to a circuit. -/
structure Grows (c c' : Circuit) : Prop where
  numQubits_eq : c'.numQubits = c.numQubits
  le_numClbits : c.numClbits ≤ c'.numClbits
  numClbits_le : c'.numClbits ≤ max c.numClbits c.numQubits
  check : ∀ i ∈ c'.instructions, i ∈ c.instructions ∨ c'.check i = .ok ()

theorem grows_of_apply {i : Instruction} (h : c.apply i = .ok c') : c.Grows c' := by
  obtain ⟨hcheck, rfl⟩ := apply_eq_ok_iff.1 h
  refine ⟨rfl, le_rfl, le_max_left _ _, fun j hj => ?_⟩
  rcases List.mem_append.1 hj with hj | hj
  · exact .inl hj
  · exact .inr (List.mem_singleton.1 hj ▸ hcheck)

theorem grows_of_build (h : c.build s = .ok c') : c.Grows c' := by
  cases s with
  | apply i => exact grows_of_apply h
  | barrierAll => exact grows_of_apply h
  | measureAll =>
    obtain ⟨hcheck, rfl⟩ := applyAll_eq_ok_iff.1 h
    refine ⟨rfl, le_max_left _ _, le_rfl, fun j hj => ?_⟩
    rcases List.mem_append.1 hj with hj | hj
    · exact .inl hj
    · exact .inr (hcheck j hj)

/-- The steps that append several operands or instructions at once are never refused: what they need
is there by then. -/
theorem exists_build (c : Circuit) (hs : ∀ i, s ≠ .apply i) : ∃ c', c.build s = .ok c' := by
  cases s with
  | apply i => exact absurd rfl (hs i)
  | measureAll =>
    refine ⟨_, applyAll_eq_ok_iff.2 ⟨fun i hi => ?_, rfl⟩⟩
    obtain ⟨q, hq, rfl⟩ := List.mem_map.1 hi
    have hqubit : q < c.growClbits.numQubits := List.mem_range.1 hq
    have hbit : q < c.growClbits.numClbits := hqubit.trans_le (le_max_right _ _)
    exact check_eq_ok_iff.2
      ⟨⟨List.nodup_singleton q, by simpa using hqubit⟩, by simpa using hbit, rfl⟩
  | barrierAll =>
    refine ⟨_, apply_eq_ok_iff.2 ⟨check_eq_ok_iff.2 ⟨⟨List.nodup_range, ?_⟩, ?_, rfl⟩, rfl⟩⟩
    · exact fun q hq => List.mem_range.1 hq
    · simp

/-! ## Circuits whose instructions pass the check -/

/-- The registers are sized by words of 32 bits, and every instruction passes the check. -/
structure Checked (c : Circuit) : Prop where
  numQubits_lt : c.numQubits < 2 ^ 32
  numClbits_lt : c.numClbits < 2 ^ 32
  check : ∀ i ∈ c.instructions, c.check i = .ok ()

namespace Checked

theorem of_grows (h : c.Checked) (hg : c.Grows c') : c'.Checked := by
  have hqubits := h.numQubits_lt
  have hclbits := h.numClbits_lt
  refine ⟨hg.numQubits_eq ▸ hqubits, ?_, fun i hi => ?_⟩
  · exact hg.numClbits_le.trans_lt (max_lt hclbits hqubits)
  · rcases hg.check i hi with hold | hnew
    · exact check_mono (h.check i hold) hg.numQubits_eq.ge hg.le_numClbits
    · exact hnew

theorem buildAll {ss : List BuildStep} (h : c.Checked) (hbuild : c.buildAll ss = .ok c') :
    c'.Checked := by
  induction ss generalizing c with
  | nil =>
    obtain rfl : c = c' := Except.ok.inj hbuild
    exact h
  | cons s ss ih =>
    obtain ⟨d, hd, hrest⟩ := bind_eq_ok_iff.1 hbuild
    exact ih (h.of_grows (grows_of_build hd)) hrest

theorem inRange (h : c.Checked) {i : Instruction} (hi : i ∈ c.instructions) : i.InRange := by
  have hcheck := h.check i hi
  obtain ⟨⟨hnodup, hq⟩, hb, -⟩ := check_eq_ok_iff.1 hcheck
  refine ⟨fun q hmem => (hq q hmem).trans h.numQubits_lt,
    fun b hmem => (hb b hmem).trans h.numClbits_lt, fun g hg => ?_⟩
  -- distinct operands below `numQubits` are at most `numQubits` many
  have hsub : i.qubits ⊆ List.range c.numQubits := fun q hmem => List.mem_range.2 (hq q hmem)
  have hlength := (List.subperm_of_subset hnodup hsub).length_le
  rw [List.length_range] at hlength
  rw [arity_of_check hcheck hg]
  exact hlength.trans_lt h.numQubits_lt

end Checked

/-! ## Beginnings -/

/-- What a circuit can begin as. -/
inductive Begun : Circuit → Prop where
  /-- Registers without instructions. -/
  | empty (name : String) {numQubits numClbits : Nat} (hqubits : numQubits < 2 ^ 32)
    (hclbits : numClbits < 2 ^ 32) : Begun (Circuit.empty name numQubits numClbits)
  /-- A ladder that entangles the qubits. -/
  | ghz {n : Nat} {c : Circuit} (hn : n < 2 ^ 32) (h : Circuit.ghz n = .ok c) : Begun c
  /-- A text that was read. -/
  | read {text : String} {c : Circuit} (h : ofText text = .ok c) : Begun c

theorem checked_empty (name : String) {n m : Nat} (hn : n < 2 ^ 32) (hm : m < 2 ^ 32) :
    (Circuit.empty name n m).Checked :=
  ⟨hn, hm, by simp [Circuit.empty]⟩

theorem checked_of_ghz {n : Nat} (hn : n < 2 ^ 32) (h : Circuit.ghz n = .ok c) : c.Checked := by
  have hempty := checked_empty "ghz" hn hn
  unfold Circuit.ghz at h
  dsimp only at h
  split_ifs at h
  · obtain rfl : _ = c := Except.ok.inj h
    exact hempty
  · exact hempty.buildAll h

theorem lt_of_word32? {j : Json} {n : Nat} (h : j.word32? = some n) : n < 2 ^ 32 := by
  unfold Json.word32? Json.natBelow? at h
  split at h
  · have hlt := (Option.filter_eq_some_iff.1 h).2
    simpa using hlt
  · simp at h

theorem checked_of_ofText {text : String} (h : ofText text = .ok c) : c.Checked := by
  unfold ofText at h
  split at h
  · simp at h
  · next d hread =>
    obtain ⟨hcheck, hd⟩ := check_bind_eq_ok_iff.1 h
    obtain rfl : d = c := Except.ok.inj hd
    obtain ⟨j, -, hj⟩ := Option.bind_eq_some_iff.1 hread
    have hwords : d.numQubits < 2 ^ 32 ∧ d.numClbits < 2 ^ 32 := by
      simp only [ofJson?, Option.bind_eq_bind, Option.bind_eq_some_iff, Option.pure_def,
        Option.some.injEq] at hj
      obtain ⟨fs, -, name, -, n, hn, m, hm, is, -, rfl⟩ := hj
      constructor
      · unfold Json.Fields.need at hn
        split at hn
        · exact lt_of_word32? hn
        · simp at hn
      · unfold Json.Fields.get at hm
        split at hm
        · exact lt_of_word32? hm
        · obtain rfl : 0 = m := Option.some.inj hm
          exact Nat.two_pow_pos 32
    exact ⟨hwords.1, hwords.2, checkAll_eq_ok_iff.1 hcheck⟩

theorem Begun.checked (h : c.Begun) : c.Checked := by
  cases h with
  | empty name hqubits hclbits => exact checked_empty name hqubits hclbits
  | ghz hn h => exact checked_of_ghz hn h
  | read h => exact checked_of_ofText h

/-! ## Sequences of calls -/

/-- The circuit after a building step; a refused one leaves it as it was. -/
def after (c : Circuit) (s : BuildStep) : Circuit :=
  match c.build s with
  | .ok c' => c'
  | .error _ => c

/-- The circuit after a sequence of building steps, some of which may be refused. -/
def afterAll (c : Circuit) (ss : List BuildStep) : Circuit := ss.foldl after c

theorem Checked.after (h : c.Checked) (s : BuildStep) : (c.after s).Checked := by
  unfold Circuit.after
  split
  · next hbuild => exact h.of_grows (grows_of_build hbuild)
  · exact h

theorem Checked.afterAll (h : c.Checked) (ss : List BuildStep) : (c.afterAll ss).Checked := by
  induction ss generalizing c with
  | nil => exact h
  | cons s ss ih => exact ih (h.after s)

/-! ## The text of a circuit -/

theorem ofJson?_toJson (h : c.Checked) (hp : ∀ i ∈ c.instructions, i.ReadsBack) :
    ofJson? c.toJson = some c := by
  have hinstructions : Json.list? (Instruction.ofJson? .strict)
      (.arr (c.instructions.map (·.toJson))) = some c.instructions :=
    Json.list?_map fun i hi => Instruction.ofJson?_toJson .strict (h.inRange hi) (hp i hi)
  rw [toJson, ofJson?, Json.record?_obj (by simp) (by simp)]
  simp [Json.string?, Json.word32?_ofNat h.numQubits_lt, Json.word32?_ofNat h.numClbits_lt,
    hinstructions]

theorem tidy_toJson (h : c.Checked) (hp : ∀ i ∈ c.instructions, i.ReadsBack) :
    c.toJson.Tidy 7 := by
  have hqubits : c.numQubits < 2 ^ 64 := h.numQubits_lt.trans (by decide)
  have hclbits : c.numClbits < 2 ^ 64 := h.numClbits_lt.trans (by decide)
  refine Json.tidy_obj ?_
  simp only [List.forall_mem_cons, List.not_mem_nil, false_implies, implies_true, and_true]
  exact ⟨Json.tidy_str _, Json.tidy_ofNat hqubits, Json.tidy_ofNat hclbits,
    Json.tidy_arr_map fun i hi => Instruction.tidy_toJson (h.inRange hi) (hp i hi)⟩

theorem Checked.ofText_eq (h : c.Checked) (hp : ∀ i ∈ c.instructions, i.ReadsBack) :
    ofText c.text = .ok c := by
  have hread : (Json.parse c.text).bind ofJson? = some c := by
    rw [text, Json.parse_pretty (tidy_toJson h hp).wellFormed, Option.bind_some,
      ofJson?_toJson h hp]
  have hcheck : c.checkAll c.instructions = .ok () := checkAll_eq_ok_iff.2 h.check
  unfold ofText
  rw [hread]
  exact check_bind_eq_ok_iff.2 ⟨hcheck, rfl⟩

/-- However a circuit begins and whatever sequence of building steps follows, its text is read back
as an equal circuit if its parameters read back. A refused step has changed nothing before it was
refused: only the appending of a single instruction can be. -/
theorem ofText_text_afterAll (h : c.Begun) (ss : List BuildStep)
    (hp : ∀ i ∈ (c.afterAll ss).instructions, i.ReadsBack) :
    ofText (c.afterAll ss).text = .ok (c.afterAll ss) ∧
      ∀ s, (∀ i, s ≠ .apply i) → ∃ c', (c.afterAll ss).build s = .ok c' :=
  ⟨(h.checked.afterAll ss).ofText_eq hp, fun _ hs => exists_build _ hs⟩

/-- A rotation, a gate on a qubit that is not there, a measurement of all qubits, and a gate with a
name and two parameters. -/
def mixedSteps : List BuildStep :=
  [.apply (.ofStandard (.rz .minusTenth) [0]), .apply (.ofStandard .cx [0, 2]), .measureAll,
    .apply (.ofGate (.custom ⟨"\u2192", 2, [.minusTenth, .zero]⟩) [1, 0])]

/-- The name of the circuit needs escapes, and the second step is refused. -/
theorem ofText_text_afterAll_mixed :
    let c := (Circuit.empty "a\"\x01\n" 2 0).afterAll mixedSteps
    c.instructions.length = 4 ∧ c.numClbits = 2 ∧ ofText c.text = .ok c := by
  have hzero : Double.zero.ReadsBack := Double.readsBack_iff.2 (by decide +kernel)
  refine ⟨by decide +kernel, by decide +kernel,
    (ofText_text_afterAll (.empty _ (by decide) (by decide)) mixedSteps ?_).1⟩
  have hinstructions : ((Circuit.empty "a\"\x01\n" 2 0).afterAll mixedSteps).instructions
      = [.ofStandard (.rz .minusTenth) [0], ⟨.measure, [0], [0]⟩, ⟨.measure, [1], [1]⟩,
        .ofGate (.custom ⟨"\u2192", 2, [.minusTenth, .zero]⟩) [1, 0]] := by
    decide +kernel
  rw [hinstructions]
  simp [Instruction.ReadsBack, Instruction.params, Instruction.gate?, Instruction.ofStandard,
    Instruction.ofGate, Gate.params, StandardGate.params, Double.readsBack_minusTenth, hzero]

end IonTrap.Circuit
