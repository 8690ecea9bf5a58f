import IonTrap.Proofs.Trap.Consistent
import IonTrap.Selection.Greedy

/-!
# Targets under way

A tracker is sound for a trap if its tables agree: the free qubits of a zone are those that live
there and are not locked, the locked ones are listed once in the zone they are locked into, and no
zone takes more qubits than its gate capacity (`Tracker.Sound`). Locking keeps a tracker sound, and
what is locked stays locked (`Tracker.Grows`). Once every qubit is locked the tracker holds a valid
placement.
-/

namespace IonTrap

namespace Tracker

/-- The qubits locked into a zone. -/
def newcomers (k : Tracker) (z : Nat) : List Nat := k.assembled.getD z []

theorem numNew_eq (k : Tracker) (z : Nat) : k.numNew z = (k.newcomers z).length := rfl

/-- The tables for targets have an entry for every zone and every qubit. -/
structure Sized (t : Trap) (k : Tracker) : Prop where
  length_assembled : k.assembled.length = t.arch.numZones
  length_zones : k.zones.length = t.numQubits
  length_locked : k.locked.length = t.numQubits

/-- The tracker describes a partial target for the qubits of the trap. -/
structure Sound (t : Trap) (k : Tracker) : Prop extends Sized t k where
  length_current : k.current.length = t.arch.numZones
  mem_occupants : ∀ q z, q ∈ k.occupants z ↔
    q < t.numQubits ∧ k.isLocked q = false ∧ t.zoneOf q = z
  nodup_occupants : ∀ z, (k.occupants z).Nodup
  mem_newcomers : ∀ q z, q ∈ k.newcomers z ↔ k.isLocked q = true ∧ k.zoneOf q = z
  nodup_newcomers : ∀ z, (k.newcomers z).Nodup
  zone_free : ∀ q, k.isLocked q = false → q < t.numQubits → k.zoneOf q = t.zoneOf q
  capacity : ∀ z, k.numNew z ≤ t.arch.gateCapacity z

theorem sized_ofTrap (t : Trap) : (ofTrap t).Sized t :=
  ⟨by simp [ofTrap], by simp [ofTrap], by simp [ofTrap]⟩

theorem isLocked_ofTrap (t : Trap) (q : Nat) : (ofTrap t).isLocked q = false := by
  simp [isLocked, ofTrap]

theorem Sound.lt_of_isLocked {t : Trap} {k : Tracker} (h : k.Sound t) {q : Nat}
    (hq : k.isLocked q = true) : q < t.numQubits := by
  rw [← h.length_locked]
  by_contra hlt
  rw [isLocked, List.getD_eq_default _ _ (by omega)] at hq
  simp at hq

/-- Nothing is locked at first. -/
theorem sound_ofTrap {t : Trap} (h : t.Consistent) : (ofTrap t).Sound t := by
  have hnone : ∀ z, (ofTrap t).newcomers z = [] := by
    intro z
    simp [newcomers, ofTrap]
  refine ⟨sized_ofTrap t, h.length_placement, ?_, h.nodup_chain, ?_, ?_, ?_, ?_⟩
  · intro q z
    simp only [isLocked_ofTrap, true_and]
    exact h.mem_chain_iff
  · intro q z
    rw [hnone, isLocked_ofTrap]
    simp
  · intro z
    rw [hnone]
    exact List.nodup_nil
  · intro q _ hq
    simp [zoneOf, ofTrap, List.getD_eq_getElem?_getD, hq]
  · intro z
    rw [numNew_eq, hnone]
    exact Nat.zero_le _

/-! ## Locking -/

section Lock

variable {t : Trap} {k : Tracker} (h : k.Sized t) {q z : Nat}
include h

theorem Sized.lock (old : Nat) : (k.lock q old z).Sized t := by
  refine ⟨?_, ?_, ?_⟩
  · simpa [Tracker.lock] using h.length_assembled
  · simpa [Tracker.lock] using h.length_zones
  · simpa [Tracker.lock] using h.length_locked

theorem isLocked_lock (hq : q < t.numQubits) (old r : Nat) :
    (k.lock q old z).isLocked r = if r = q then true else k.isLocked r := by
  have hq : q < k.locked.length := by rwa [h.length_locked]
  simp only [isLocked, lock, List.getD_eq_getElem?_getD]
  split_ifs with hr
  · subst hr
    simp [hq]
  · rw [List.getElem?_set_ne (Ne.symm hr)]

theorem zoneOf_lock (hq : q < t.numQubits) (old r : Nat) :
    (k.lock q old z).zoneOf r = if r = q then z else k.zoneOf r := by
  have hq : q < k.zones.length := by rwa [h.length_zones]
  simp only [zoneOf, lock, List.getD_eq_getElem?_getD]
  split_ifs with hr
  · subst hr
    simp [hq]
  · rw [List.getElem?_set_ne (Ne.symm hr)]

theorem newcomers_lock (hz : z < t.arch.numZones) (old w : Nat) :
    (k.lock q old z).newcomers w
      = if w = z then k.newcomers z ++ [q] else k.newcomers w := by
  have hz : z < k.assembled.length := by rwa [h.length_assembled]
  simp only [newcomers, lock, List.getD_eq_getElem?_getD, List.getElem?_modify]
  split_ifs with hw hzw hzw
  · subst hw
    simp [hz]
  · exact absurd hw.symm hzw
  · exact absurd hzw.symm hw
  · simp

omit h in
theorem occupants_lock (old w : Nat) :
    (k.lock q old z).occupants w
      = if w = old then (k.occupants old).filter (· != q) else k.occupants w := by
  simp only [occupants, lock, List.getD_eq_getElem?_getD, List.getElem?_modify]
  split_ifs with hw hold hold
  · rw [hw]
    cases k.current[w]? <;> rfl
  · exact absurd hw.symm hold
  · exact absurd hold.symm hw
  · simp

theorem numNew_lock (hz : z < t.arch.numZones) (old w : Nat) :
    (k.lock q old z).numNew w = k.numNew w + if w = z then 1 else 0 := by
  rw [numNew_eq, newcomers_lock h hz, numNew_eq]
  split_ifs with hw
  · rw [hw, List.length_append, List.length_singleton]
  · rfl

end Lock

/-- Locking a free qubit of a zone into one with a spot. -/
theorem Sound.lock {t : Trap} {k : Tracker} (h : k.Sound t) {q z : Nat} (hq : q < t.numQubits)
    (hfree : k.isLocked q = false) (hz : z < t.arch.numZones)
    (hroom : k.numNew z < t.arch.gateCapacity z) : (k.lock q (t.zoneOf q) z).Sound t := by
  have hsized := h.toSized
  -- a free qubit has not been put anywhere yet
  have hnot : ∀ w, q ∉ k.newcomers w := by
    intro w hw
    rw [h.mem_newcomers, hfree] at hw
    simp at hw
  refine ⟨hsized.lock _, ?_, ?_, ?_, ?_, ?_, ?_, ?_⟩
  · simpa [Tracker.lock] using h.length_current
  · intro r w
    rw [occupants_lock, isLocked_lock hsized hq]
    by_cases hr : r = q
    · subst hr
      by_cases hw : w = t.zoneOf r
      · simp [hw]
      · simp only [hw, if_false, if_true, h.mem_occupants]
        exact ⟨fun hr => absurd hr.2.2.symm hw, fun hr => absurd hr.2.1 (by simp)⟩
    · by_cases hw : w = t.zoneOf q <;> simp [hr, hw, h.mem_occupants]
  · intro w
    rw [occupants_lock]
    split_ifs
    · exact (h.nodup_occupants _).filter _
    · exact h.nodup_occupants w
  · intro r w
    rw [newcomers_lock hsized hz, isLocked_lock hsized hq, zoneOf_lock hsized hq]
    by_cases hr : r = q
    · subst hr
      by_cases hw : w = z
      · simp [hw]
      · simp [hw, hnot w, Ne.symm hw]
    · by_cases hw : w = z <;> simp [hr, hw, h.mem_newcomers]
  · intro w
    rw [newcomers_lock hsized hz]
    split_ifs
    · refine (h.nodup_newcomers z).append (List.nodup_singleton q) ?_
      intro r hr hrq
      rw [List.mem_singleton.1 hrq] at hr
      exact hnot z hr
    · exact h.nodup_newcomers w
  · intro r hr hlt
    rw [isLocked_lock hsized hq] at hr
    rw [zoneOf_lock hsized hq]
    split_ifs at hr ⊢
    exact h.zone_free r hr hlt
  · intro w
    have hw := h.capacity w
    rw [numNew_eq] at hw hroom ⊢
    rw [newcomers_lock hsized hz]
    split_ifs with hwz
    · subst hwz
      rw [List.length_append, List.length_singleton]
      omega
    · exact hw


/-! ## Growing -/

/-- A sound tracker in which everything that was locked still is, in the same zone. -/
structure Grows (t : Trap) (k k' : Tracker) : Prop where
  sound : k'.Sound t
  keeps : ∀ q, k.isLocked q = true → k'.isLocked q = true ∧ k'.zoneOf q = k.zoneOf q

theorem Sound.grows_self {t : Trap} {k : Tracker} (h : k.Sound t) : Grows t k k :=
  ⟨h, fun _ hq => ⟨hq, rfl⟩⟩

theorem Grows.trans {t : Trap} {k k' k'' : Tracker} (h : Grows t k k') (h' : Grows t k' k'') :
    Grows t k k'' := by
  refine ⟨h'.sound, fun q hq => ?_⟩
  obtain ⟨hq', hz⟩ := h.keeps q hq
  obtain ⟨hq'', hz'⟩ := h'.keeps q hq'
  exact ⟨hq'', hz'.trans hz⟩

theorem Sound.grows_lock {t : Trap} {k : Tracker} (h : k.Sound t) {q z : Nat}
    (hq : q < t.numQubits) (hfree : k.isLocked q = false) (hz : z < t.arch.numZones)
    (hroom : k.numNew z < t.arch.gateCapacity z) : Grows t k (k.lock q (t.zoneOf q) z) := by
  refine ⟨h.lock hq hfree hz hroom, fun r hr => ?_⟩
  have hne : r ≠ q := by
    rintro rfl
    rw [hfree] at hr
    simp at hr
  rw [isLocked_lock h.toSized hq, zoneOf_lock h.toSized hq, if_neg hne, if_neg hne]
  exact ⟨hr, rfl⟩

section Grows

variable {t : Trap} {k k' : Tracker} (h : k.Sound t) (hg : Grows t k k')
include h hg

/-- Rooms only shrink. -/
theorem Grows.gateRoom_le (z : Nat) : k'.gateRoom t z ≤ k.gateRoom t z := by
  have hsub : ∀ q ∈ k.newcomers z, q ∈ k'.newcomers z := by
    intro q hq
    rw [h.mem_newcomers] at hq
    obtain ⟨hlocked, hzone⟩ := hg.keeps q hq.1
    rw [hg.sound.mem_newcomers]
    exact ⟨hlocked, hzone.trans hq.2⟩
  have hle := (List.subperm_of_subset (h.nodup_newcomers z) hsub).length_le
  simp only [gateRoom, numNew_eq]
  omega

/-- No qubit becomes free. -/
theorem Grows.occupants_subset {q z : Nat} (hq : q ∈ k'.occupants z) : q ∈ k.occupants z := by
  rw [hg.sound.mem_occupants] at hq
  rw [h.mem_occupants]
  refine ⟨hq.1, ?_, hq.2.2⟩
  by_contra hlocked
  rw [Bool.not_eq_false] at hlocked
  have := (hg.keeps q hlocked).1
  rw [hq.2.1] at this
  simp at this

theorem Grows.occupants_eq_nil {z : Nat} (hz : k.occupants z = []) : k'.occupants z = [] := by
  rw [List.eq_nil_iff_forall_not_mem] at hz ⊢
  exact fun q hq => hz q (hg.occupants_subset h hq)

end Grows

/-- The tracker of a trap whose qubits are all locked holds a placement. -/
theorem Sound.fits_of_locked {t : Trap} {k : Tracker} (h : k.Sound t)
    (hall : ∀ q < t.numQubits, k.isLocked q = true) : k.assembled.Fits t.arch t.numQubits := by
  have hget : ∀ z chain, k.assembled[z]? = some chain → k.newcomers z = chain := by
    intro z chain hz
    rw [newcomers, List.getD_eq_getElem?_getD, hz, Option.getD_some]
  refine ⟨h.length_assembled, ?_, ?_⟩
  · intro z chain hz
    have := h.capacity z
    rwa [numNew_eq, hget z chain hz] at this
  · have hmem : ∀ q z, q ∈ k.newcomers z ↔ q < t.numQubits ∧ k.zoneOf q = z := by
      intro q z
      rw [h.mem_newcomers]
      exact ⟨fun hq => ⟨h.lt_of_isLocked hq.1, hq.2⟩, fun hq => ⟨hall q hq.1, hq.2⟩⟩
    refine Placement.perm_range_of_zones ?_ hmem
    intro chain hchain
    obtain ⟨z, hz⟩ := List.getElem?_of_mem hchain
    rw [← hget z chain hz]
    exact h.nodup_newcomers z

end Tracker

end IonTrap
