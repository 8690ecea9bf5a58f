import IonTrap.Proofs.Selection.Greedy
import IonTrap.Proofs.Trap.Reachable

/-!
# Greedy targets are legal

Qubits are locked because the program needs them (`lockBusy`), and then the rest is placed around
them. Both stages work on one tracker, which stays sound, so that no spot is given away twice
whatever the order of the locks. Who is moved without need had to make room (`selectGreedy_legal`),
and selection fails only where the qubits do not fit or cannot get there.
-/

namespace IonTrap

/-- On a valid architecture, in any state that a trap can be brought into, let the remaining
instructions have distinct qubits of the trap. A target that is selected is a valid placement, and a
qubit that is not locked when the rest is placed and changes its zone comes from a zone that is
filled to its gate capacity. On a connected architecture with gate spots for all qubits a target is
selected. -/
theorem selectGreedy_legal {a : Architecture} (ha : a.validate = .ok ()) {t : Trap}
    (ht : t.Reachable a) (m : CostModel) {is : List Instruction}
    (his : ∀ i ∈ is, i.qubits.Nodup ∧ ∀ q ∈ i.qubits, q < t.numQubits) :
    (∀ p, selectGreedy m t is = .ok p →
      p.validate a t.numQubits = .ok () ∧
      (∀ q < t.numQubits, ∃! z, q ∈ p.getD z []) ∧
      (∀ z, (p.getD z []).length ≤ a.gateCapacity z) ∧
      ∃ k k', lockBusy m t is = .ok k ∧ k.placeRest m t = .ok k' ∧ p = k'.assembled ∧
        ∀ q < t.numQubits, k.isLocked q = false → q ∉ p.getD (t.zoneOf q) [] →
          (p.getD (t.zoneOf q) []).length = a.gateCapacity (t.zoneOf q)) ∧
    (a.Connected → t.numQubits ≤ a.totalGateCapacity → ∃ p, selectGreedy m t is = .ok p) := by
  have hlegal := Architecture.legal_of_validate ha
  obtain ⟨h, rfl⟩ := ht.consistent hlegal
  constructor
  · intro p hp
    rw [selectGreedy_eq] at hp
    obtain ⟨k, hk, hp⟩ := bind_eq_ok_iff.1 hp
    obtain ⟨k', hk', hp⟩ := bind_eq_ok_iff.1 hp
    obtain rfl := Except.ok.inj hp
    have hsound := sound_of_lockBusy h his hk
    obtain ⟨hgrows, hall⟩ := Tracker.placeRest_spec h hlegal hsound hk'
    have hfits := hgrows.sound.fits_of_locked hall
    refine ⟨Placement.validate_eq_ok_iff.2 hfits, fun q hq => ?_, hfits.length_le, k, k', hk, hk',
      rfl, fun q hq hfree hnot => ?_⟩
    · obtain ⟨z, hz⟩ := hfits.exists_mem hq
      exact ⟨z, hz, fun w hw => hfits.eq_of_mem hw hz⟩
    · have hmoved : k'.zoneOf q ≠ t.zoneOf q := fun hsame =>
        hnot ((hgrows.sound.mem_newcomers q _).2 ⟨hall q hq, hsame⟩)
      have hroom := Tracker.gateRoom_of_moved hlegal h hsound hk' hq hfree hmoved
      have hle : (k'.newcomers (t.zoneOf q)).length ≤ _ := hfits.length_le (t.zoneOf q)
      change t.arch.gateCapacity (t.zoneOf q) - (k'.newcomers (t.zoneOf q)).length = 0 at hroom
      change (k'.newcomers (t.zoneOf q)).length = _
      omega
  · intro hconn hcap
    obtain ⟨k, hk⟩ := exists_lockBusy h his m
    obtain ⟨k', hk'⟩ := Tracker.exists_placeRest (m := m) hlegal hconn hcap
      (sound_of_lockBusy h his hk)
    exact ⟨k'.assembled, by rw [selectGreedy_eq, hk, ok_bind, hk', ok_bind]; rfl⟩

/-- On the steep line two qubits of a pair meet in the first zone, and its other qubit has to leave
it. -/
theorem selectGreedy_legal_steep :
    ∃ t p, Architecture.steepLine.validate = .ok () ∧
      Trap.ofPlacement .steepLine 4 [[0, 1], [2, 3], []] = .ok t ∧
      t.numQubits ≤ Architecture.steepLine.totalGateCapacity ∧
      selectGreedy .shuttleSwap t [.ofStandard .cx [0, 2]] = .ok p ∧
      p.validate .steepLine 4 = .ok () ∧ t.zoneOf 1 = 0 ∧ 1 ∉ p.getD 0 [] ∧
      (p.getD 0 []).length = Architecture.steepLine.gateCapacity 0 := by
  have hvalid : Architecture.steepLine.validate = .ok () := by decide
  obtain ⟨t, hload⟩ : ∃ t, Trap.ofPlacement .steepLine 4 [[0, 1], [2, 3], []] = .ok t := ⟨_, rfl⟩
  have hn : t.numQubits = 4 := by rw [(Trap.ofPlacement_eq_ok hload).2.2]
  have his : ∀ i ∈ [Instruction.ofStandard .cx [0, 2]],
      i.qubits.Nodup ∧ ∀ q ∈ i.qubits, q < t.numQubits := by
    rw [hn]
    decide
  have hcap : t.numQubits ≤ Architecture.steepLine.totalGateCapacity := by
    rw [hn]
    decide
  obtain ⟨hzone, hrun, hbusy⟩ : t.zoneOf 1 = 0 ∧
      (selectGreedy .shuttleSwap t [.ofStandard .cx [0, 2]]).map (fun p => (p.getD 0 []).contains 1)
        = .ok false ∧
      (lockBusy .shuttleSwap t [.ofStandard .cx [0, 2]]).map (·.isLocked 1) = .ok false := by
    obtain rfl := Except.ok.inj hload
    decide +kernel
  obtain ⟨hsafe, hfound⟩ := selectGreedy_legal hvalid (.loaded hload) .shuttleSwap his
  obtain ⟨p, hp⟩ := hfound Architecture.connected_steepLine hcap
  obtain ⟨hplaced, -, -, k, k', hk, -, -, hfull⟩ := hsafe p hp
  rw [hp] at hrun
  rw [hk] at hbusy
  have hnot : 1 ∉ p.getD 0 [] := by simpa using Except.ok.inj hrun
  have hlen := hfull 1 (by rw [hn]; decide) (Except.ok.inj hbusy) (by rwa [hzone])
  rw [hzone] at hlen
  rw [hn] at hplaced
  exact ⟨t, p, hvalid, hload, hcap, hp, hplaced, hzone, hnot, hlen⟩

end IonTrap
