import IonTrap.Proofs.Trap.InPlace

/-!
# What the self-check stands for

A trap checks itself by one pass over its chains: every chain is as long as recorded and not too
long, the recorded place of every qubit is where the pass meets it, and the qubits are as many as
there should be. It never asks whether a qubit stands in two places or in none. For any tables of
the right sizes it need not: a qubit has one recorded place, so it is met once at most, and then as
many qubits as there are leave none out (`Trap.perm_flatten_of_spots`). So the check passes exactly
if the tables are sound (`Trap.checkInvariants_decides_sound`), on traps that no moves lead to as
well.
-/

namespace IonTrap.Trap

open Indexed

variable {t : Trap}

/-! ## Sound tables -/

/-- Every qubit stands in one place, which the table of places has, and the zones hold as many
qubits as is recorded and as they have room for. -/
structure Sound (t : Trap) : Prop where
  once : ∀ q < t.numQubits, t.placement.flatten.count q = 1
  /-- Nothing else stands anywhere. -/
  only : ∀ q ∈ t.placement.flatten, q < t.numQubits
  spots : ∀ q < t.numQubits, ∃ z i chain,
    t.spots[q]? = some (z, i) ∧ t.placement[z]? = some chain ∧ chain[i]? = some q
  occupancies : t.occupancies = t.placement.map List.length
  capacity : ∀ (z : Nat) (chain : List Nat), t.placement[z]? = some chain →
    chain.length ≤ t.arch.transportCapacity z

/-- Numbers below `n`, each once, are a permutation of them. -/
theorem perm_range_iff {qs : List Nat} {n : Nat} :
    qs.Perm (List.range n) ↔ (∀ q < n, qs.count q = 1) ∧ ∀ q ∈ qs, q < n := by
  constructor
  · intro h
    refine ⟨fun q hq => ?_, fun q hq => List.mem_range.1 (h.mem_iff.1 hq)⟩
    rw [h.count_eq, List.nodup_range.count, if_pos (List.mem_range.2 hq)]
  · rintro ⟨honce, honly⟩
    rw [List.perm_iff_count]
    intro q
    rw [List.nodup_range.count]
    split_ifs with hq
    · exact honce q (List.mem_range.1 hq)
    · exact List.count_eq_zero.2 fun hmem => hq (List.mem_range.2 (honly q hmem))

/-! ## Recorded chains -/

section Recorded

variable (hspot : ∀ q z i : Nat, (t.chain z)[i]? = some q → t.spots[q]? = some (z, i))
include hspot

theorem eq_of_spots {q z i w j : Nat} (hi : (t.chain z)[i]? = some q)
    (hj : (t.chain w)[j]? = some q) : z = w ∧ i = j := by
  have hsame := (hspot q z i hi).symm.trans (hspot q w j hj)
  exact Prod.mk.inj (Option.some.inj hsame)

theorem nodup_flatten_of_spots : t.placement.flatten.Nodup := by
  have hget : ∀ z (hz : z < t.placement.length), t.placement[z] = t.chain z := fun z hz =>
    (List.getD_eq_getElem _ _ hz).symm
  refine List.nodup_flatten.2 ⟨fun chain hchain => ?_, List.pairwise_iff_getElem.2 ?_⟩
  · obtain ⟨z, hz, rfl⟩ := List.mem_iff_getElem.1 hchain
    rw [hget z hz, List.nodup_iff_getElem?_ne_getElem?]
    intro i j hij hj heq
    have hqj := List.getElem?_eq_getElem hj
    have := (eq_of_spots hspot (heq.trans hqj) hqj).2
    omega
  · intro z w hz hw hzw q hqz hqw
    rw [hget z hz] at hqz
    rw [hget w hw] at hqw
    obtain ⟨i, hi⟩ := List.getElem?_of_mem hqz
    obtain ⟨j, hj⟩ := List.getElem?_of_mem hqw
    have := (eq_of_spots hspot hi hj).1
    omega

/-- If every qubit is met where it is recorded, and as many are met as have a record, then all of
them are met, each once. -/
theorem perm_flatten_of_spots (htotal : t.placement.flatten.length = t.spots.length) :
    t.placement.flatten.Perm (List.range t.spots.length) := by
  have hbelow : t.placement.flatten ⊆ List.range t.spots.length := by
    intro q hq
    obtain ⟨z, i, hi⟩ := Placement.exists_getElem?_of_mem_flatten hq
    exact List.mem_range.2 (List.getElem?_eq_some_iff.1 (hspot q z i hi)).1
  refine (List.subperm_of_subset (nodup_flatten_of_spots hspot) hbelow).perm_of_length_le ?_
  rw [List.length_range, htotal]

end Recorded

/-- What the check has seen of every chain, in terms of the tables. -/
theorem forall_recorded_iff :
    (∀ (z : Nat) (chain : List Nat), t.placement[z]? = some chain → t.Recorded z chain) ↔
      (∀ (z : Nat) (chain : List Nat), t.placement[z]? = some chain →
        chain.length = t.occupancy z ∧ chain.length ≤ t.arch.transportCapacity z) ∧
      ∀ q z i : Nat, (t.chain z)[i]? = some q → t.spots[q]? = some (z, i) := by
  constructor
  · intro h
    refine ⟨fun z chain hz => ⟨(h z chain hz).length, (h z chain hz).capacity⟩, fun q z i hi => ?_⟩
    obtain ⟨chain, hz, hi⟩ := Nested.getElem?_getD_iff.1 hi
    simpa using checkSpots_eq_ok_iff.1 (h z chain hz).spots i q hi
  · rintro ⟨hlengths, hspot⟩ z chain hz
    refine ⟨(hlengths z chain hz).1, (hlengths z chain hz).2, checkSpots_eq_ok_iff.2 ?_⟩
    intro i q hi
    rw [Nat.zero_add]
    exact hspot q z i (Nested.getElem?_getD_iff.2 ⟨chain, hz, hi⟩)

theorem occupancies_eq_iff (hlen : t.occupancies.length = t.placement.length) :
    t.occupancies = t.placement.map List.length ↔
      ∀ (z : Nat) (chain : List Nat), t.placement[z]? = some chain →
        chain.length = t.occupancy z := by
  constructor
  · intro h z chain hz
    rw [occupancy_of_occupancies h, chain_of_getElem? hz]
  · intro h
    refine List.ext_getElem (by simp [hlen]) fun z hz hz' => ?_
    have hz' : z < t.placement.length := by simpa using hz'
    rw [List.getElem_map, h z _ (List.getElem?_eq_getElem hz'), occupancy,
      List.getD_eq_getElem _ _ hz]

section Decides

variable (hplacement : t.placement.length = t.arch.numZones)
  (hoccupancies : t.occupancies.length = t.arch.numZones) (hspots : t.spots.length = t.numQubits)
include hplacement hoccupancies hspots

/-- The check passes exactly if the tables are sound. -/
theorem checkInvariants_eq_ok_iff_sound : t.checkInvariants = .ok () ↔ t.Sound := by
  have hlen : t.occupancies.length = t.placement.length := hoccupancies.trans hplacement.symm
  rw [checkInvariants_eq_ok_iff, forall_recorded_iff]
  constructor
  · rintro ⟨⟨hlengths, hspot⟩, htotal⟩
    have hperm := perm_flatten_of_spots hspot (by rw [htotal, hspots])
    rw [hspots] at hperm
    obtain ⟨honce, honly⟩ := perm_range_iff.1 hperm
    refine ⟨honce, honly, fun q hq => ?_,
      (occupancies_eq_iff hlen).2 fun z chain hz => (hlengths z chain hz).1,
      fun z chain hz => (hlengths z chain hz).2⟩
    obtain ⟨z, i, hi⟩ :=
      Placement.exists_getElem?_of_mem_flatten (hperm.mem_iff.2 (List.mem_range.2 hq))
    obtain ⟨chain, hz, hi'⟩ := Nested.getElem?_getD_iff.1 hi
    exact ⟨z, i, chain, hspot q z i hi, hz, hi'⟩
  · intro h
    have hperm := perm_range_iff.2 ⟨h.once, h.only⟩
    refine ⟨⟨fun z chain hz => ⟨(occupancies_eq_iff hlen).1 h.occupancies z chain hz,
      h.capacity z chain hz⟩, fun q z i hi => ?_⟩, by rw [hperm.length_eq, List.length_range]⟩
    -- the recorded place of the qubit is one where it stands, and it stands nowhere else
    have hq : q < t.numQubits :=
      h.only q (Nested.mem_flatten_iff.2 ⟨z, List.mem_of_getElem? hi⟩)
    obtain ⟨w, j, chain, hrecorded, hw, hj⟩ := h.spots q hq
    have hj : (t.chain w)[j]? = some q := Nested.getElem?_getD_iff.2 ⟨chain, hw, hj⟩
    have hsame := ((Placement.getElem?_spots_iff hperm).2 hi).symm.trans
      ((Placement.getElem?_spots_iff hperm).2 hj)
    rw [hrecorded, Option.some.inj hsame]

end Decides

/-! ## The check in place -/

namespace InPlace

/-- Checks that the places of a chain's qubits are recorded; `i` is the place of the first. -/
def checkSpots (z i : Nat) : List Nat → Indexed Trap TrapError Unit
  | [] => pure ()
  | q :: qs => do
    let t ← get
    if t.spots[q]? = some (z, i) then checkSpots z (i + 1) qs else throw (.notInZone q z)

/-- Checks zones in order and counts their qubits; `z` numbers the first zone. -/
def checkChains (z total : Nat) : List (List Nat) → Indexed Trap TrapError Nat
  | [] => pure total
  | chain :: chains => do
    let n ← counts.get z
    if chain.length ≠ n then throw (.occupancyMismatch z n chain.length)
    else do
      let t ← get
      let zone ← entry t.arch.zones z
      if zone.transportCapacity < chain.length then
        throw (.transportCapacity z chain.length zone.transportCapacity)
      else do
        checkSpots z 0 chain
        checkChains (z + 1) (total + chain.length) chains

/-- The first of some qubits that does not stand where it is recorded. -/
def findLost : List Nat → Indexed Trap TrapError (Option Nat)
  | [] => pure none
  | q :: qs => do
    let spot ← places.get q
    let chain ← chains.get spot.1
    if chain[spot.2]? != some q then return some q else findLost qs

/-- Checks that places, occupancies and capacities agree with the chains. -/
def checkInvariants : Indexed Trap TrapError Unit := do
  let t ← get
  let total ← checkChains 0 0 t.placement
  if total = t.numQubits then pure ()
  else do
    let lost ← findLost (List.range t.numQubits)
    throw (.missingQubit (lost.getD total))

end InPlace

theorem exec_checkSpots (t : Trap) (z i : Nat) (qs : List Nat) :
    (InPlace.checkSpots z i qs).exec t = some (t.checkSpots z i qs, t) := by
  induction qs generalizing i with
  | nil => rfl
  | cons q qs ih =>
    rw [InPlace.checkSpots, exec_bind (exec_get t), checkSpots]
    split_ifs
    · exact ih (i + 1)
    · rfl

theorem exec_checkChains {z : Nat} {chains : List (List Nat)}
    (hoccupancies : t.occupancies.length = t.arch.numZones)
    (hz : z + chains.length ≤ t.arch.numZones) (total : Nat) :
    (InPlace.checkChains z total chains).exec t = some (t.checkChains z total chains, t) := by
  induction chains generalizing z total with
  | nil => rfl
  | cons chain chains ih =>
    rw [List.length_cons] at hz
    have hlt : z < t.arch.numZones := by omega
    obtain ⟨zone, hzone, -, hcapacity, -⟩ := Architecture.exists_zone hlt
    have hcount : (counts.get z : Indexed Trap TrapError Nat).exec t
        = some (.ok (t.occupancy z), t) := counts.exec_get (by rwa [← hoccupancies] at hlt) 0
    rw [InPlace.checkChains, checkChains, exec_bind hcount, hcapacity]
    split_ifs with hlen hfull
    · rfl
    · rw [exec_bind (exec_get t), exec_bind (exec_entry hzone t), if_pos hfull]
      rfl
    · rw [exec_bind (exec_get t), exec_bind (exec_entry hzone t), if_neg hfull]
      exact exec_bind_reads (exec_checkSpots t z 0 chain) fun _ _ => ih (by omega) _

/-- The search for a lost qubit ends unless it comes to a zone that does not exist. -/
theorem exec_findLost {qs : List Nat} (hqs : ∀ q ∈ qs, q < t.spots.length) :
    (InPlace.findLost qs).exec t
        = some (.ok (qs.find? fun q => (t.chain (t.zoneOf q))[t.position q]? != some q), t) ∨
      (InPlace.findLost qs).exec t = none ∧
        ∃ q ∈ qs, t.placement.length ≤ t.zoneOf q := by
  induction qs with
  | nil => exact .inl rfl
  | cons q qs ih =>
    rw [List.forall_mem_cons] at hqs
    have hplace : (places.get q : Indexed Trap TrapError (Nat × Nat)).exec t
        = some (.ok (t.zoneOf q, t.position q), t) := places.exec_get hqs.1 (0, 0)
    rw [InPlace.findLost, exec_bind hplace]
    by_cases hz : t.zoneOf q < t.placement.length
    · have hchain : (chains.get (t.zoneOf q) : Indexed Trap TrapError (List Nat)).exec t
          = some (.ok (t.chain (t.zoneOf q)), t) := chains.exec_get hz []
      rw [exec_bind hchain, List.find?_cons]
      cases hlost : ((t.chain (t.zoneOf q))[t.position q]? != some q) with
      | true => exact .inl rfl
      | false =>
        refine (ih hqs.2).imp id fun ⟨hnone, r, hr, hzr⟩ => ⟨hnone, r, ?_, hzr⟩
        exact List.mem_cons_of_mem q hr
    · have hnone : (chains.get (t.zoneOf q) : Indexed Trap TrapError (List Nat)).exec t = none := by
        have hentry : t.placement[t.zoneOf q]? = none := List.getElem?_eq_none (by omega)
        rw [Table.get, exec_bind (exec_get t)]
        show (entry t.placement (t.zoneOf q) : Indexed Trap TrapError (List Nat)).exec t = none
        rw [entry, hentry]
        rfl
      refine .inr ⟨?_, q, List.mem_cons_self, by omega⟩
      rw [exec_bind_eq, hnone]
      rfl

/-- In place the check comes to the same result, unless it has none because the table of places
names a zone that does not exist. -/
theorem exec_checkInvariants (hplacement : t.placement.length = t.arch.numZones)
    (hoccupancies : t.occupancies.length = t.arch.numZones)
    (hspots : t.spots.length = t.numQubits) :
    InPlace.checkInvariants.exec t = some (t.checkInvariants, t) ∨
      InPlace.checkInvariants.exec t = none ∧
        ∃ q z i : Nat, t.spots[q]? = some (z, i) ∧ t.arch.numZones ≤ z := by
  have hchains := exec_checkChains (z := 0) hoccupancies (by rw [hplacement, Nat.zero_add]) 0
  rw [InPlace.checkInvariants, exec_bind (exec_get t), checkInvariants]
  cases hpass : t.checkChains 0 0 t.placement with
  | error e =>
    rw [hpass] at hchains
    exact .inl (exec_bind_error hchains _)
  | ok total =>
    rw [hpass] at hchains
    rw [exec_bind hchains, ok_bind]
    by_cases htotal : total = t.numQubits
    · rw [if_pos htotal, if_pos htotal]
      exact .inl rfl
    rw [if_neg htotal, if_neg htotal]
    have hqs : ∀ q ∈ List.range t.numQubits, q < t.spots.length := fun q hq =>
      hspots ▸ List.mem_range.1 hq
    rcases exec_findLost hqs with hfound | ⟨hnone, q, hq, hz⟩
    · rw [exec_bind hfound]
      exact .inl rfl
    · refine .inr ⟨by rw [exec_bind_eq, hnone]; rfl, q, t.zoneOf q, t.position q, ?_, ?_⟩
      · have hlt := hqs q hq
        rw [List.getElem?_eq_getElem hlt, zoneOf, position, List.getD_eq_getElem _ _ hlt]
      · omega

/-! ## The check decides -/

/-- Take any tables with a chain and an occupancy for every zone and a place for every qubit,
whether or not moves lead to them. The self-check passes if and only if every qubit stands in one
place and nothing else stands anywhere, the table has the place of every qubit, and zones hold as
many qubits as is recorded and no more than may pass through. In place, too, it passes exactly then;
where it does not pass, it ends with the same error or looks up a zone that only the table of places
has. -/
theorem checkInvariants_decides_sound (hplacement : t.placement.length = t.arch.numZones)
    (hoccupancies : t.occupancies.length = t.arch.numZones)
    (hspots : t.spots.length = t.numQubits) :
    (t.checkInvariants = .ok () ↔ t.Sound) ∧
      (InPlace.checkInvariants.exec t = some (.ok (), t) ↔ t.Sound) ∧
      (InPlace.checkInvariants.exec t = some (t.checkInvariants, t) ∨
        InPlace.checkInvariants.exec t = none ∧
          ∃ q z i : Nat, t.spots[q]? = some (z, i) ∧ t.arch.numZones ≤ z) := by
  have hiff := checkInvariants_eq_ok_iff_sound hplacement hoccupancies hspots
  have hexec := exec_checkInvariants hplacement hoccupancies hspots
  refine ⟨hiff, ⟨fun h => ?_, fun h => ?_⟩, hexec⟩
  · rcases hexec with hsame | ⟨hnone, -⟩
    · rw [← hiff]
      exact (Prod.mk.inj (Option.some.inj (hsame.symm.trans h))).1
    · rw [hnone] at h
      simp at h
  · rcases hexec with hsame | ⟨-, q, z, i, hspot, hz⟩
    · rw [hsame, hiff.2 h]
    · -- the table of a sound trap names zones that have a chain
      have hq : q < t.numQubits := hspots ▸ (List.getElem?_eq_some_iff.1 hspot).1
      obtain ⟨w, j, chain, hrecorded, hw, -⟩ := h.spots q hq
      have hsame := Prod.mk.inj (Option.some.inj (hspot.symm.trans hrecorded))
      have hlt := (List.getElem?_eq_some_iff.1 hw).1
      omega

/-- Three qubits in two zones, with chains and places given. -/
def twoZones (placement : Placement) (spots : List (Nat × Nat)) : Trap where
  arch := ⟨3, [.gate 2, .gate 2], [.chain 0 1]⟩
  numQubits := 3
  placement := placement
  spots := spots
  occupancies := placement.map List.length
  ports := .ofArchitecture ⟨3, [.gate 2, .gate 2], [.chain 0 1]⟩

/-- Tables that no placement was loaded into pass, since they agree. Tables with qubit 1 in two
zones and no qubit 2 are refused, although every zone holds as many qubits as is recorded. -/
theorem checkInvariants_decides_sound_unreached :
    (twoZones [[2, 0], [1]] [(0, 1), (1, 0), (0, 0)]).Sound ∧
      (twoZones [[0, 1], [1]] [(0, 0), (1, 0), (0, 1)]).checkInvariants ≠ .ok () ∧
      ¬ (twoZones [[0, 1], [1]] [(0, 0), (1, 0), (0, 1)]).Sound := by
  have hpass : (twoZones [[2, 0], [1]] [(0, 1), (1, 0), (0, 0)]).checkInvariants = .ok () := by
    decide
  have hrefused : (twoZones [[0, 1], [1]] [(0, 0), (1, 0), (0, 1)]).checkInvariants ≠ .ok () := by
    decide
  have hsound := checkInvariants_decides_sound
    (t := twoZones [[2, 0], [1]] [(0, 1), (1, 0), (0, 0)]) rfl rfl rfl
  have hunsound := checkInvariants_decides_sound
    (t := twoZones [[0, 1], [1]] [(0, 0), (1, 0), (0, 1)]) rfl rfl rfl
  exact ⟨hsound.1.1 hpass, hrefused, fun h => hrefused (hunsound.1.2 h)⟩

end IonTrap.Trap
