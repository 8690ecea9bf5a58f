import IonTrap.Circuit.Basic
import IonTrap.Proofs.Outcome

/-!
# What the check of an instruction accepts

An instruction passes the check if its operands are distinct qubits and bits of the circuit and as
many as it needs (`Circuit.check_eq_ok_iff`). The check looks at the register sizes only, so
instructions that are appended one after another are checked against the same registers
(`Circuit.applyAll_eq_ok_iff`), and more classical bits do no harm (`Circuit.check_mono`).
-/

namespace IonTrap.Circuit

theorem checkQubits_eq_ok_iff {n : Nat} {gate : String} {seen qs : List Nat} :
    checkQubits n gate seen qs = .ok () ↔ qs.Nodup ∧ ∀ q ∈ qs, q < n ∧ q ∉ seen := by
  induction qs generalizing seen with
  | nil => simp [checkQubits]
  | cons q qs ih =>
    rw [checkQubits]
    split_ifs with hq hseen
    · simp only [false_iff]
      exact fun h => absurd (h.2 q List.mem_cons_self).1 (by omega)
    · simp only [false_iff]
      exact fun h => (h.2 q List.mem_cons_self).2 (List.contains_iff_mem.1 hseen)
    · rw [ih, List.nodup_cons, List.forall_mem_cons]
      constructor
      · rintro ⟨hnodup, hall⟩
        refine ⟨⟨fun hmem => (hall q hmem).2 List.mem_cons_self, hnodup⟩, ?_, fun r hr => ?_⟩
        · exact ⟨Nat.lt_of_not_le hq, by simpa using hseen⟩
        · exact ⟨(hall r hr).1, fun hold => (hall r hr).2 (List.mem_cons_of_mem _ hold)⟩
      · rintro ⟨⟨hq', hnodup⟩, -, hall⟩
        refine ⟨hnodup, fun r hr => ⟨(hall r hr).1, fun hold => ?_⟩⟩
        rcases List.mem_cons.1 hold with rfl | hold
        · exact hq' hr
        · exact (hall r hr).2 hold

theorem checkClbits_eq_ok_iff {n : Nat} {bs : List Nat} :
    checkClbits n bs = .ok () ↔ ∀ b ∈ bs, b < n := by
  induction bs with
  | nil => simp [checkClbits]
  | cons b bs ih =>
    rw [checkClbits, List.forall_mem_cons]
    split_ifs with hb
    · simp only [false_iff]
      omega
    · rw [ih]
      exact ⟨fun h => ⟨Nat.lt_of_not_le hb, h⟩, fun h => h.2⟩

variable {c c' : Circuit} {i : Instruction} {is : List Instruction}

theorem check_eq_ok_iff :
    c.check i = .ok () ↔ (i.qubits.Nodup ∧ ∀ q ∈ i.qubits, q < c.numQubits) ∧
      (∀ b ∈ i.clbits, b < c.numClbits) ∧ checkArity i = .ok () := by
  unfold check
  rw [check_bind_eq_ok_iff, check_bind_eq_ok_iff, checkQubits_eq_ok_iff, checkClbits_eq_ok_iff]
  simp

theorem operands_of_check (h : c.check i = .ok ()) :
    i.qubits.Nodup ∧ ∀ q ∈ i.qubits, q < c.numQubits :=
  (check_eq_ok_iff.1 h).1

/-- A gate names as many qubits as it acts on. -/
theorem arity_of_check (h : c.check i = .ok ()) {g : Gate} (hg : g ∈ i.gate?) :
    g.arity = i.qubits.length := by
  have harity := (check_eq_ok_iff.1 h).2.2
  unfold Instruction.gate? at hg
  unfold checkArity at harity
  split at hg
  · next hkind =>
    obtain rfl : g = _ := (Option.some.inj hg).symm
    rw [hkind] at harity
    simpa using harity
  · simp at hg

theorem check_mono (h : c.check i = .ok ()) (hqubits : c.numQubits ≤ c'.numQubits)
    (hclbits : c.numClbits ≤ c'.numClbits) : c'.check i = .ok () := by
  rw [check_eq_ok_iff] at h ⊢
  obtain ⟨⟨hnodup, hq⟩, hb, harity⟩ := h
  exact ⟨⟨hnodup, fun q hmem => (hq q hmem).trans_le hqubits⟩,
    fun b hmem => (hb b hmem).trans_le hclbits, harity⟩

theorem checkAll_eq_ok_iff : c.checkAll is = .ok () ↔ ∀ i ∈ is, c.check i = .ok () := by
  induction is with
  | nil => simp [checkAll]
  | cons i is ih => rw [checkAll, check_bind_eq_ok_iff, ih, List.forall_mem_cons]

/-! ## Appending -/

theorem apply_eq_ok_iff :
    c.apply i = .ok c' ↔
      c.check i = .ok () ∧ c' = { c with instructions := c.instructions ++ [i] } := by
  unfold apply
  rw [check_bind_eq_ok_iff, pure_eq_ok, Except.ok.injEq, eq_comm (a := c')]

theorem applyAll_eq_ok_iff :
    c.applyAll is = .ok c' ↔
      (∀ i ∈ is, c.check i = .ok ()) ∧ c' = { c with instructions := c.instructions ++ is } := by
  induction is generalizing c with
  | nil => simp [applyAll, eq_comm]
  | cons i is ih =>
    rw [applyAll, bind_eq_ok_iff, List.forall_mem_cons]
    constructor
    · rintro ⟨d, hd, h⟩
      obtain ⟨hcheck, rfl⟩ := apply_eq_ok_iff.1 hd
      obtain ⟨hall, rfl⟩ := ih.1 h
      exact ⟨⟨hcheck, hall⟩, by simp⟩
    · rintro ⟨⟨hcheck, hall⟩, rfl⟩
      refine ⟨_, apply_eq_ok_iff.2 ⟨hcheck, rfl⟩, ih.2 ⟨hall, by simp⟩⟩

end IonTrap.Circuit
