import IonTrap.Proofs.Nested
import IonTrap.Proofs.Outcome
import IonTrap.Placement

/-!
# Valid placements

The check of a placement stops at the first fault, yet it accepts exactly the placements that have
one list per zone, respect the gate capacities and list the qubits `0, …, n - 1` once each
(`Placement.validate_eq_ok_iff`). For such a placement the table of places is exact
(`Placement.getElem?_spots_iff`).
-/

namespace IonTrap

namespace Placement

variable {a : Architecture} {n : Nat}

/-! ## The check -/

theorem checkQubits_eq_ok_iff {seen chain found : List Nat} :
    checkQubits n seen chain = .ok found ↔
      (∀ q ∈ chain, q < n ∧ q ∉ seen) ∧ chain.Nodup ∧ found = chain.reverse ++ seen := by
  induction chain generalizing seen with
  | nil =>
    rw [checkQubits]
    simp [eq_comm]
  | cons q chain ih =>
    rw [checkQubits]
    split
    · next hq =>
      refine ⟨by simp, fun ⟨h, _⟩ => ?_⟩
      have := (h q List.mem_cons_self).1
      omega
    split
    · next hseen =>
      refine ⟨by simp, fun ⟨h, _⟩ => ?_⟩
      exact absurd (by simpa using hseen) (h q List.mem_cons_self).2
    next hq hseen =>
    rw [ih]
    simp only [List.mem_cons, not_or, List.nodup_cons, List.reverse_cons, List.append_assoc,
      List.singleton_append, forall_eq_or_imp]
    constructor
    · rintro ⟨hall, hnodup, hfound⟩
      refine ⟨⟨⟨by omega, by simpa using hseen⟩, fun r hr => ?_⟩, ⟨?_, hnodup⟩, hfound⟩
      · exact ⟨(hall r hr).1, (hall r hr).2.2⟩
      · intro hmem
        exact (hall q hmem).2.1 rfl
    · rintro ⟨⟨_, hall⟩, ⟨hnew, hnodup⟩, hfound⟩
      refine ⟨fun r hr => ⟨(hall r hr).1, ?_, (hall r hr).2⟩, hnodup, hfound⟩
      rintro rfl
      exact hnew hr

theorem checkZones_eq_ok_iff {z : Nat} {seen found : List Nat} {p : List (List Nat)} :
    checkZones a n z seen p = .ok found ↔
      (∀ i chain, p[i]? = some chain → chain.length ≤ a.gateCapacity (z + i)) ∧
        (∀ q ∈ p.flatten, q < n ∧ q ∉ seen) ∧ p.flatten.Nodup ∧
        found = p.flatten.reverse ++ seen := by
  induction p generalizing z seen with
  | nil =>
    rw [checkZones]
    simp [eq_comm]
  | cons chain p ih =>
    rw [checkZones]
    split
    · next hcap =>
      refine ⟨by simp, fun ⟨h, _⟩ => ?_⟩
      have := h 0 chain rfl
      rw [Nat.add_zero] at this
      omega
    · next hcap =>
      rw [bind_eq_ok_iff]
      simp only [checkQubits_eq_ok_iff, ih, List.flatten_cons, List.nodup_append,
        List.mem_append, List.reverse_append, List.append_assoc]
      constructor
      · rintro ⟨mid, ⟨hall, hnodup, rfl⟩, hcaps, hrest, hnodup', hfound⟩
        refine ⟨?_, ?_, ⟨hnodup, hnodup', ?_⟩, hfound⟩
        · intro i c hi
          cases i with
          | zero =>
            obtain rfl : chain = c := by simpa using hi
            rw [Nat.add_zero]
            omega
          | succ i =>
            have := hcaps i c (by simpa using hi)
            rwa [show z + (i + 1) = z + 1 + i by omega]
        · rintro q (hq | hq)
          · exact hall q hq
          · exact ⟨(hrest q hq).1, fun h => (hrest q hq).2 (List.mem_append_right _ h)⟩
        · rintro q hq r hr rfl
          exact (hrest q hr).2 (List.mem_append_left _ (List.mem_reverse.2 hq))
      · rintro ⟨hcaps, hall, ⟨hnodup, hnodup', hdisj⟩, hfound⟩
        refine ⟨_, ⟨fun q hq => hall q (.inl hq), hnodup, rfl⟩, ?_, ?_, hnodup', hfound⟩
        · intro i c hi
          have := hcaps (i + 1) c (by simpa using hi)
          rwa [show z + 1 + i = z + (i + 1) by omega]
        · intro q hq
          refine ⟨(hall q (.inr hq)).1, fun h => ?_⟩
          rcases List.mem_append.1 h with h | h
          · exact hdisj q (List.mem_reverse.1 h) q hq rfl
          · exact (hall q (.inr hq)).2 h

/-- One list per zone, none above gate capacity, and every qubit below `n` in one place. -/
structure Fits (a : Architecture) (n : Nat) (p : Placement) : Prop where
  length : p.length = a.numZones
  capacity : ∀ z chain, p[z]? = some chain → chain.length ≤ a.gateCapacity z
  perm : p.flatten.Perm (List.range n)

/-- The check accepts exactly the placements that fit. -/
theorem validate_eq_ok_iff {p : Placement} : p.validate a n = .ok () ↔ p.Fits a n := by
  unfold validate
  split
  · next hlen => exact ⟨by simp, fun h => absurd h.length hlen⟩
  next hlen =>
  rw [not_not] at hlen
  rw [bind_eq_ok_iff]
  constructor
  · rintro ⟨found, hzones, h⟩
    obtain ⟨hcaps, hall, hnodup, rfl⟩ := checkZones_eq_ok_iff.1 hzones
    split at h
    · simp at h
    · next hnone =>
      refine ⟨hlen, by simpa using hcaps, ?_⟩
      refine (List.perm_ext_iff_of_nodup hnodup List.nodup_range).2 fun q => ?_
      rw [List.mem_range]
      refine ⟨fun hq => (hall q hq).1, fun hq => ?_⟩
      have := List.find?_eq_none.1 hnone q (List.mem_range.2 hq)
      simpa using this
  · intro h
    have hmem : ∀ q, q ∈ p.flatten ↔ q < n := fun q => by
      rw [h.perm.mem_iff, List.mem_range]
    refine ⟨p.flatten.reverse ++ [],
      checkZones_eq_ok_iff.2 ⟨by simpa using h.capacity, ?_, ?_, rfl⟩, ?_⟩
    · intro q hq
      exact ⟨(hmem q).1 hq, by simp⟩
    · exact h.perm.nodup_iff.2 List.nodup_range
    · have hnone : (List.range n).find? (!(p.flatten.reverse ++ []).contains ·) = none := by
        rw [List.find?_eq_none]
        intro q hq
        have := (hmem q).2 (List.mem_range.1 hq)
        simpa using this
      rw [hnone]

/-- Chains that hold the qubits of their zones, each once, list all qubits once. -/
theorem perm_range_of_zones {p : Placement} {zone : Nat → Nat} (hnodup : ∀ chain ∈ p, chain.Nodup)
    (hmem : ∀ q z, q ∈ p.getD z [] ↔ q < n ∧ zone q = z) : p.flatten.Perm (List.range n) := by
  have hget : ∀ z (hz : z < p.length) q, q ∈ p[z] ↔ q < n ∧ zone q = z := by
    intro z hz q
    rw [← hmem, List.getD_eq_getElem _ _ hz]
  have hflat : p.flatten.Nodup := by
    rw [List.nodup_flatten]
    refine ⟨hnodup, List.pairwise_iff_getElem.2 ?_⟩
    intro i j hi hj hij q hqi hqj
    have hzi := ((hget i hi q).1 hqi).2
    have hzj := ((hget j hj q).1 hqj).2
    omega
  refine (List.perm_ext_iff_of_nodup hflat List.nodup_range).2 fun q => ?_
  rw [List.mem_range, Nested.mem_flatten_iff]
  constructor
  · rintro ⟨z, hq⟩
    exact ((hmem q z).1 hq).1
  · intro hq
    exact ⟨zone q, (hmem q (zone q)).2 ⟨hq, rfl⟩⟩

/-- The zones together hold as many qubits as there are. -/
theorem length_flatten (p : Placement) :
    p.flatten.length = ∑ z ∈ Finset.range p.length, (p.getD z []).length := by
  induction p with
  | nil => rfl
  | cons chain p ih =>
    rw [List.flatten_cons, List.length_append, List.length_cons, Finset.sum_range_succ', ih]
    simp only [List.getD_cons_succ, List.getD_cons_zero]
    omega

/-! ## The table of places -/

variable {spots : List (Nat × Nat)} {chain : List Nat} {q z i k : Nat}

/-- Writes the places of a chain's qubits, the first of them `k`, into a table. -/
def record (z k : Nat) (chain : List Nat) (spots : List (Nat × Nat)) : List (Nat × Nat) :=
  (chain.zipIdx k).foldl (fun spots q => spots.set q.1 (z, q.2)) spots

theorem record_cons (q : Nat) :
    record z k (q :: chain) spots = record z (k + 1) chain (spots.set q (z, k)) := by
  simp [record]

@[simp] theorem length_record : (record z k chain spots).length = spots.length := by
  induction chain generalizing k spots with
  | nil => rfl
  | cons q chain ih => rw [record_cons, ih, List.length_set]

theorem getElem?_record_of_notMem (h : q ∉ chain) : (record z k chain spots)[q]? = spots[q]? := by
  induction chain generalizing k spots with
  | nil => rfl
  | cons r chain ih =>
    simp only [List.mem_cons, not_or] at h
    rw [record_cons, ih h.2, List.getElem?_set_ne (Ne.symm h.1)]

theorem getElem?_record (hnodup : chain.Nodup) (h : chain[i]? = some q) (hq : q < spots.length) :
    (record z k chain spots)[q]? = some (z, k + i) := by
  induction chain generalizing k i spots with
  | nil => simp at h
  | cons r chain ih =>
    rw [List.nodup_cons] at hnodup
    rw [record_cons]
    cases i with
    | zero =>
      obtain rfl : r = q := by simpa using h
      rw [getElem?_record_of_notMem hnodup.1, List.getElem?_set_self hq, Nat.add_zero]
    | succ i =>
      rw [ih hnodup.2 (by simpa using h) (by simpa), show k + 1 + i = k + (i + 1) by omega]

/-- Writes the places of all qubits, the first zone being `z`. -/
def recordAll (z : Nat) (p : Placement) (spots : List (Nat × Nat)) : List (Nat × Nat) :=
  (p.zipIdx z).foldl (fun spots chain => record chain.2 0 chain.1 spots) spots

theorem recordAll_cons (p : Placement) :
    recordAll z (chain :: p) spots = recordAll (z + 1) p (record z 0 chain spots) := by
  simp [recordAll]

theorem spots_eq_recordAll (p : Placement) :
    p.spots n = recordAll 0 p (List.replicate n (0, 0)) := rfl

@[simp] theorem length_recordAll {p : Placement} :
    (recordAll z p spots).length = spots.length := by
  induction p generalizing z spots with
  | nil => rfl
  | cons chain p ih => rw [recordAll_cons, ih, length_record]

theorem getElem?_recordAll_of_notMem {p : Placement} (h : q ∉ p.flatten) :
    (recordAll z p spots)[q]? = spots[q]? := by
  induction p generalizing z spots with
  | nil => rfl
  | cons chain p ih =>
    simp only [List.flatten_cons, List.mem_append, not_or] at h
    rw [recordAll_cons, ih h.2, getElem?_record_of_notMem h.1]

theorem getElem?_recordAll {p : Placement} (hnodup : p.flatten.Nodup)
    (h : (p.getD k [])[i]? = some q) (hq : q < spots.length) :
    (recordAll z p spots)[q]? = some (z + k, i) := by
  induction p generalizing z k spots with
  | nil => simp at h
  | cons chain p ih =>
    rw [List.flatten_cons, List.nodup_append] at hnodup
    rw [recordAll_cons]
    cases k with
    | zero =>
      have h : chain[i]? = some q := by simpa using h
      have hnew : q ∉ p.flatten := fun hmem =>
        hnodup.2.2 q (List.mem_of_getElem? h) q hmem rfl
      rw [getElem?_recordAll_of_notMem hnew, getElem?_record hnodup.1 h hq, Nat.zero_add,
        Nat.add_zero]
    | succ k =>
      rw [ih hnodup.2.1 (by simpa using h) (by simpa using hq),
        show z + 1 + k = z + (k + 1) by omega]

/-- Every qubit of a placement stands in one of its lists. -/
theorem exists_getElem?_of_mem_flatten {p : Placement} (h : q ∈ p.flatten) :
    ∃ z i : Nat, (p.getD z [])[i]? = some q := by
  obtain ⟨z, hq⟩ := Nested.mem_flatten_iff.1 h
  obtain ⟨i, hi⟩ := List.getElem?_of_mem hq
  exact ⟨z, i, hi⟩

/-- The table gives every qubit the zone and the place where the placement lists it. -/
theorem getElem?_spots_iff {p : Placement} (h : p.flatten.Perm (List.range n)) :
    (p.spots n)[q]? = some (z, i) ↔ (p.getD z [])[i]? = some q := by
  have hnodup : p.flatten.Nodup := h.nodup_iff.2 List.nodup_range
  have hfound : ∀ {z i}, (p.getD z [])[i]? = some q → (p.spots n)[q]? = some (z, i) := by
    intro z i hi
    have hmem : q ∈ p.flatten := Nested.mem_flatten_iff.2 ⟨z, List.mem_of_getElem? hi⟩
    have hq : q < n := List.mem_range.1 (h.mem_iff.1 hmem)
    rw [spots_eq_recordAll, getElem?_recordAll hnodup hi (by simpa), Nat.zero_add]
  refine ⟨fun hspot => ?_, hfound⟩
  have hq : q < n := by
    have := (List.getElem?_eq_some_iff.1 hspot).1
    rw [spots_eq_recordAll, length_recordAll, List.length_replicate] at this
    exact this
  obtain ⟨z', i', hi'⟩ :=
    exists_getElem?_of_mem_flatten (h.mem_iff.2 (List.mem_range.2 hq))
  have := hfound hi'
  rw [hspot] at this
  obtain ⟨rfl, rfl⟩ := Prod.mk.inj (Option.some.inj this)
  exact hi'

/-- Every qubit is in some zone of a valid placement. -/
theorem Fits.exists_mem {p : Placement} (h : p.Fits a n) {q : Nat} (hq : q < n) :
    ∃ z, q ∈ p.getD z [] := by
  obtain ⟨z, i, hi⟩ :=
    exists_getElem?_of_mem_flatten (h.perm.mem_iff.2 (List.mem_range.2 hq))
  exact ⟨z, List.mem_of_getElem? hi⟩

/-- No qubit is in two zones of a valid placement. -/
theorem Fits.eq_of_mem {p : Placement} (h : p.Fits a n) {q z w : Nat} (hz : q ∈ p.getD z [])
    (hw : q ∈ p.getD w []) : z = w :=
  Nested.eq_of_mem_getD (h.perm.nodup_iff.2 List.nodup_range) hz hw

theorem zoneOf?_eq_some_iff {p : Placement} (h : p.flatten.Perm (List.range n)) {q z : Nat} :
    p.zoneOf? q = some z ↔ q ∈ p.getD z [] := by
  rw [zoneOf?, List.findIdx?_eq_some_iff_getElem]
  constructor
  · rintro ⟨hz, hq, -⟩
    rw [List.getD_eq_getElem _ _ hz]
    simpa using hq
  · intro hq
    have hz := Nested.lt_length_of_mem_getD hq
    have hmem : q ∈ p[z] := by rwa [List.getD_eq_getElem _ _ hz] at hq
    refine ⟨hz, by simpa using hmem, fun w hw hwq => ?_⟩
    -- an earlier zone that lists the qubit would be the same zone
    have hwq : q ∈ p.getD w [] := by
      rw [List.getD_eq_getElem _ _ (by omega)]
      simpa using hwq
    have := Nested.eq_of_mem_getD (h.nodup_iff.2 List.nodup_range) hq hwq
    omega

theorem Fits.nodup_getD {p : Placement} (h : p.Fits a n) (z : Nat) : (p.getD z []).Nodup := by
  by_cases hz : z < p.length
  · rw [List.getD_eq_getElem _ _ hz]
    have hflat : p.flatten.Nodup := h.perm.nodup_iff.2 List.nodup_range
    exact (List.nodup_flatten.1 hflat).1 _ (List.getElem_mem hz)
  · rw [List.getD_eq_default _ _ (by omega)]
    exact List.nodup_nil

theorem Fits.lt_numZones_of_mem {p : Placement} (h : p.Fits a n) {q z : Nat}
    (hq : q ∈ p.getD z []) : z < a.numZones := h.length ▸ Nested.lt_length_of_mem_getD hq

theorem Fits.length_le {p : Placement} (h : p.Fits a n) (z : Nat) :
    (p.getD z []).length ≤ a.gateCapacity z := by
  by_cases hz : z < p.length
  · rw [List.getD_eq_getElem _ _ hz]
    exact h.capacity z _ (List.getElem?_eq_getElem hz)
  · rw [List.getD_eq_default _ _ (by omega)]
    exact Nat.zero_le _

end Placement

end IonTrap
