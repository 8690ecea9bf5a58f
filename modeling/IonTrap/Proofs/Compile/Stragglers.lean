import IonTrap.Proofs.Compile.Completeness

/-!
# Which instructions wait

Splitting reads the instructions once and keeps the qubits of those that wait. What comes out can be
said without that set (`Trap.split_exact`): an instruction with operands waits exactly if its qubits
are not all in one gate zone, barriers apart, or if it meets an earlier one that waits. Splitting
stops reading as soon as every qubit is a straggler. From there on every instruction with operands
meets one that waits, so the rest is where the full scan would put it (`Trap.Sorts.all_wait`).

Instructions are told apart by their positions, since a program may repeat itself: a list of marks,
one per position, says which ones wait.
-/

namespace IonTrap

/-- The entries of a list whose mark is `b`, in order. -/
def withMark {α : Type} (b : Bool) (xs : List α) (marks : List Bool) : List α :=
  ((xs.zip marks).filter (·.2 == b)).map (·.1)

section WithMark

variable {α : Type} (b m : Bool) (x : α) (xs : List α) (marks : List Bool)

@[simp] theorem withMark_nil : withMark b ([] : List α) marks = [] := by
  simp [withMark]

theorem withMark_cons :
    withMark b (x :: xs) (m :: marks)
      = if m = b then x :: withMark b xs marks else withMark b xs marks := by
  by_cases h : m = b
  · simp [withMark, h]
  · simp [withMark, h]

theorem withMark_replicate :
    withMark b xs (List.replicate xs.length m) = if m = b then xs else [] := by
  induction xs with
  | nil => simp
  | cons x xs ih =>
    rw [List.length_cons, List.replicate_succ, withMark_cons, ih]
    split_ifs <;> rfl

end WithMark

namespace Trap

variable {t : Trap} {s s' : List Nat} {i : Instruction} {is ready waiting : List Instruction}

/-! ## One instruction -/

/-- An instruction with operands waits if its qubits do not share a gate zone or if one of them is a
straggler. -/
theorem mustWait_eq_ok_iff (hr : i.Routable) (hin : ∀ q ∈ i.qubits, q < t.numQubits)
    (hne : i.qubits ≠ []) :
    t.mustWait s i = .ok true ↔
      (i.isBarrier = false ∧ ¬ t.Hosts i) ∨ ∃ q ∈ i.qubits, q ∈ s := by
  unfold mustWait
  by_cases hb : i.isBarrier = true
  · rw [if_pos hb]
    simp [hb]
  rw [if_neg hb]
  have hlen : i.qubits.length ≤ 2 := hr.resolve_left hb
  have hb : i.isBarrier = false := by simpa using hb
  split
  · next hq => exact absurd hq hne
  · next q hq =>
    have hhosts : t.Hosts i ↔ t.arch.isGateZone (t.zoneOf q) = true := by
      simp [Hosts, hq]
    rw [findZone_of_lt (hin q (by simp [hq])), ok_bind, hhosts]
    by_cases hs : q ∈ s
    · simp [hq, hs]
    · simp [hq, hs, hb, pure_eq_ok]
  · next a b rest hq =>
    obtain rfl : rest = [] := by
      rw [hq] at hlen
      simpa using hlen
    have hhosts : ¬ t.Hosts i ↔
        (t.zoneOf a != t.zoneOf b || !t.arch.isGateZone (t.zoneOf a)) = true := by
      rw [not_iff_comm, Bool.not_eq_true, Bool.or_eq_false_iff]
      constructor
      · rintro ⟨hab, hgate⟩
        exact ⟨_, by simpa using hgate, by simpa [hq] using Eq.symm (by simpa using hab)⟩
      · rintro ⟨z, hgate, hall⟩
        simp [hall a (by simp [hq]), hall b (by simp [hq]), hgate]
    rw [findZone_of_lt (hin a (by simp [hq])), findZone_of_lt (hin b (by simp [hq])), ok_bind,
      ok_bind, hhosts]
    by_cases hs : a ∈ s ∨ b ∈ s
    · simp [hq, hs, pure_eq_ok]
    · simp [hq, hs, hb, pure_eq_ok]

/-! ## The stragglers -/

theorem nodup_addStragglers {qs : List Nat} (hs : s.Nodup) : (addStragglers s qs).Nodup := by
  induction qs generalizing s with
  | nil => exact hs
  | cons q qs ih => exact ih hs.insert

/-- As many stragglers as qubits are all qubits. -/
theorem mem_of_numQubits_le (hnodup : s.Nodup) (hlt : ∀ q ∈ s, q < t.numQubits)
    (hlen : t.numQubits ≤ s.length) {q : Nat} (hq : q < t.numQubits) : q ∈ s := by
  have hsub : s ⊆ List.range t.numQubits := fun p hp => List.mem_range.2 (hlt p hp)
  have hperm := (List.subperm_of_subset hnodup hsub).perm_of_length_le (by simpa using hlen)
  exact hperm.mem_iff.2 (List.mem_range.2 hq)

/-! ## Marks -/

/-- The marks say which instructions wait when the qubits in `s` are stragglers from the start. -/
structure Sorts (t : Trap) (s : List Nat) (is : List Instruction) (marks : List Bool) : Prop where
  length : marks.length = is.length
  waits_iff : ∀ (k : Nat) (i : Instruction), is[k]? = some i → i.qubits ≠ [] →
    (marks[k]? = some true ↔
      (i.isBarrier = false ∧ ¬ t.Hosts i) ∨ (∃ q ∈ i.qubits, q ∈ s) ∨
        ∃ j < k, ∃ i' : Instruction, is[j]? = some i' ∧ marks[j]? = some true ∧ i'.Meets i)

/-- The first instruction adds its qubits to the stragglers if it waits. -/
theorem Sorts.cons {b : Bool} {marks : List Bool}
    (hfirst : i.qubits ≠ [] →
      (b = true ↔ (i.isBarrier = false ∧ ¬ t.Hosts i) ∨ ∃ q ∈ i.qubits, q ∈ s))
    (hs : ∀ q, q ∈ s' ↔ q ∈ s ∨ b = true ∧ q ∈ i.qubits) (h : t.Sorts s' is marks) :
    t.Sorts s (i :: is) (b :: marks) := by
  refine ⟨by simp [h.length], fun k j hj hne => ?_⟩
  cases k with
  | zero =>
    obtain rfl : i = j := by simpa using hj
    simpa using hfirst hne
  | succ k =>
    rw [List.getElem?_cons_succ] at hj ⊢
    rw [h.waits_iff k j hj hne]
    apply or_congr_right
    constructor
    · rintro (⟨q, hq, hqs⟩ | ⟨l, hl, i', hi', hmark, hmeets⟩)
      · rcases (hs q).1 hqs with hqs | ⟨rfl, hqi⟩
        · exact .inl ⟨q, hq, hqs⟩
        · exact .inr ⟨0, by omega, i, rfl, rfl, q, hqi, hq⟩
      · exact .inr ⟨l + 1, by omega, i', hi', hmark, hmeets⟩
    · rintro (⟨q, hq, hqs⟩ | ⟨l, hl, i', hi', hmark, hmeets⟩)
      · exact .inl ⟨q, hq, (hs q).2 (.inl hqs)⟩
      · cases l with
        | zero =>
          obtain rfl : i = i' := by simpa using hi'
          obtain ⟨q, hqi, hq⟩ := hmeets
          exact .inl ⟨q, hq, (hs q).2 (.inr ⟨by simpa using hmark, hqi⟩)⟩
        | succ l => exact .inr ⟨l, by omega, i', hi', hmark, hmeets⟩

/-- Once all qubits are stragglers, whatever has operands waits. -/
theorem Sorts.all_wait (hin : ∀ i ∈ is, ∀ q ∈ i.qubits, q < t.numQubits)
    (hall : ∀ q < t.numQubits, q ∈ s) : t.Sorts s is (List.replicate is.length true) := by
  refine ⟨by simp, fun k i hi hne => ?_⟩
  obtain ⟨q, hq⟩ := List.exists_mem_of_ne_nil _ hne
  have hstraggler : q ∈ s := hall q (hin i (List.mem_of_getElem? hi) q hq)
  have hk : k < is.length := (List.getElem?_eq_some_iff.1 hi).1
  exact iff_of_true (by simp [hk]) (.inr (.inl ⟨q, hq, hstraggler⟩))

/-- Splitting is sorting by marks. -/
theorem exists_sorts (hr : ∀ i ∈ is, i.Routable)
    (hin : ∀ i ∈ is, ∀ q ∈ i.qubits, q < t.numQubits) (hnodup : s.Nodup)
    (hlt : ∀ q ∈ s, q < t.numQubits) :
    ∃ marks, t.split s is = .ok (withMark false is marks, withMark true is marks) ∧
      t.Sorts s is marks := by
  induction is generalizing s with
  | nil => exact ⟨[], by simp [split], rfl, by simp⟩
  | cons i is ih =>
    have hr' : ∀ j ∈ is, j.Routable := fun j hj => hr j (List.mem_cons_of_mem _ hj)
    have hin' : ∀ j ∈ is, ∀ q ∈ j.qubits, q < t.numQubits :=
      fun j hj => hin j (List.mem_cons_of_mem _ hj)
    have hi := hin i List.mem_cons_self
    obtain ⟨b, hb⟩ := exists_mustWait s hi
    have hfirst : i.qubits ≠ [] →
        (b = true ↔ (i.isBarrier = false ∧ ¬ t.Hosts i) ∨ ∃ q ∈ i.qubits, q ∈ s) := by
      intro hne
      rw [← mustWait_eq_ok_iff (hr i List.mem_cons_self) hi hne, hb, Except.ok.injEq]
    rw [split, hb, ok_bind]
    cases b with
    | false =>
      obtain ⟨marks, hsplit, hsorts⟩ := ih hr' hin' hnodup hlt
      refine ⟨false :: marks, ?_, hsorts.cons hfirst (by simp)⟩
      simp [hsplit, ok_bind, pure_eq_ok, withMark_cons]
    | true =>
      have hs : ∀ q, q ∈ addStragglers s i.qubits ↔ q ∈ s ∨ true = true ∧ q ∈ i.qubits := by
        simp [mem_addStragglers]
      have hnodup' : (addStragglers s i.qubits).Nodup := nodup_addStragglers hnodup
      have hlt' : ∀ q ∈ addStragglers s i.qubits, q < t.numQubits := by
        intro q hq
        rcases mem_addStragglers.1 hq with hq | hq
        · exact hlt q hq
        · exact hi q hq
      by_cases hstop : t.numQubits ≤ (addStragglers s i.qubits).length
      · -- the rest is not read, and it all waits
        have hsorts := Sorts.all_wait hin' fun q hq => mem_of_numQubits_le hnodup' hlt' hstop hq
        refine ⟨true :: List.replicate is.length true, ?_, hsorts.cons hfirst hs⟩
        simp [hstop, pure_eq_ok, withMark_cons, withMark_replicate]
      · obtain ⟨marks, hsplit, hsorts⟩ := ih hr' hin' hnodup' hlt'
        refine ⟨true :: marks, ?_, hsorts.cons hfirst hs⟩
        simp [hstop, hsplit, ok_bind, pure_eq_ok, withMark_cons]

/-- What waits still waits when it is split again. -/
theorem split_waiting (h : t.split s is = .ok (ready, waiting)) :
    t.split s waiting = .ok ([], waiting) := by
  induction is generalizing s ready waiting with
  | nil =>
    obtain ⟨rfl, rfl⟩ := Prod.mk.inj (Except.ok.inj h)
    rfl
  | cons i is ih =>
    rcases split_cons h with ⟨hwait, ⟨rfl, rfl⟩ | ⟨w, rfl, hs⟩⟩ | ⟨-, r, rfl, hs⟩
    · exact h
    · -- the same stragglers stand before the rest, whether it is read or not
      rw [split, hwait, ok_bind]
      simp only [if_true, ih hs, ok_bind]
      split_ifs <;> rfl
    · exact ih hs

/-- Let the instructions have their operands in the trap, and those that are no barriers at most
two. Then they are split into two complementary parts, each in program order. An instruction with
operands is in the second part exactly if it is no barrier and its qubits are not all in one gate
zone, or if it shares a qubit with an earlier instruction of the second part. Splitting the second
part again leaves all of it waiting. -/
theorem split_exact (t : Trap) {is : List Instruction}
    (hin : ∀ i ∈ is, ∀ q ∈ i.qubits, q < t.numQubits)
    (hfew : ∀ i ∈ is, i.isBarrier = false → i.qubits.length ≤ 2) :
    ∃ ready waiting, t.split [] is = .ok (ready, waiting) ∧
      (∃ marks : List Bool, marks.length = is.length ∧ ready = withMark false is marks ∧
        waiting = withMark true is marks ∧
        ∀ (k : Nat) (i : Instruction), is[k]? = some i → i.qubits ≠ [] →
          (marks[k]? = some true ↔
            (i.isBarrier = false ∧
              ¬ ∃ z, t.arch.isGateZone z = true ∧ ∀ q ∈ i.qubits, t.zoneOf q = z) ∨
            ∃ j < k, ∃ i' : Instruction, is[j]? = some i' ∧ marks[j]? = some true ∧
              ∃ q ∈ i'.qubits, q ∈ i.qubits)) ∧
      t.split [] waiting = .ok ([], waiting) := by
  have hr : ∀ i ∈ is, i.Routable := by
    intro i hi
    cases hb : i.isBarrier with
    | true => exact .inl hb
    | false => exact .inr (hfew i hi hb)
  obtain ⟨marks, hsplit, hsorts⟩ := exists_sorts hr hin List.nodup_nil (by simp)
  refine ⟨_, _, hsplit, ⟨marks, hsorts.length, rfl, rfl, fun k i hi hne => ?_⟩,
    split_waiting hsplit⟩
  simpa [Hosts, Instruction.Meets] using hsorts.waits_iff k i hi hne

/-- On the packed line only the gate on qubit 1 can run. The barrier and all that follows it hang on
the gate across the line, and wait a second time. -/
theorem split_exact_across :
    ∃ t, ofPlacement storageLine 4 [[0, 1], [2], [3]] = .ok t ∧
      (∀ i ∈ acrossTheLine.instructions, ∀ q ∈ i.qubits, q < t.numQubits) ∧
      (∀ i ∈ acrossTheLine.instructions, i.isBarrier = false → i.qubits.length ≤ 2) ∧
      ∃ waiting, t.split [] acrossTheLine.instructions = .ok ([.ofStandard .h [1]], waiting) ∧
        waiting.length = 5 ∧ t.split [] waiting = .ok ([], waiting) := by
  obtain ⟨t, hload⟩ : ∃ t, ofPlacement storageLine 4 [[0, 1], [2], [3]] = .ok t := ⟨_, rfl⟩
  have htrap := (ofPlacement_eq_ok hload).2.2
  have hin : ∀ i ∈ acrossTheLine.instructions, ∀ q ∈ i.qubits, q < t.numQubits := by
    rw [htrap]
    decide
  have hfew : ∀ i ∈ acrossTheLine.instructions, i.isBarrier = false → i.qubits.length ≤ 2 := by
    decide
  have hrun : t.split [] acrossTheLine.instructions
      = .ok ([.ofStandard .h [1]], acrossTheLine.instructions.eraseIdx 1) := by
    rw [htrap]
    rfl
  obtain ⟨ready, waiting, hsplit, -, hagain⟩ := split_exact t hin hfew
  obtain ⟨-, rfl⟩ := Prod.mk.inj (Except.ok.inj (hrun.symm.trans hsplit))
  exact ⟨t, hload, hin, hfew, _, hrun, rfl, hagain⟩

end Trap

end IonTrap
