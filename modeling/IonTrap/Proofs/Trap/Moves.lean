import IonTrap.Proofs.Trap.Consistent

/-!
# Swaps and shuttles of a consistent trap

What the two elementary moves do to the chains of a consistent trap, and that they keep it
consistent: `Trap.Consistent.swap_spec` for neighbours of one chain, `Trap.Consistent.move_spec` for
qubits entering another zone.
-/

namespace IonTrap

namespace Trap

/-- A consistent trap of the same architecture with the same qubits. -/
structure Follows (t t' : Trap) : Prop where
  consistent : t'.Consistent
  arch : t'.arch = t.arch
  numQubits : t'.numQubits = t.numQubits

theorem Consistent.follows_self {t : Trap} (h : t.Consistent) : t.Follows t := ⟨h, rfl, rfl⟩

theorem Follows.trans {t t' t'' : Trap} (h : t.Follows t') (h' : t'.Follows t'') :
    t.Follows t'' :=
  ⟨h'.consistent, h'.arch.trans h.arch, h'.numQubits.trans h.numQubits⟩

theorem Consistent.zoneOf_eq {t : Trap} (h : t.Consistent) {q z : Nat} (hq : q ∈ t.chain z) :
    t.zoneOf q = z := (h.mem_chain_iff.1 hq).2

/-- A qubit is in one chain only. -/
theorem Consistent.eq_of_mem {t : Trap} (h : t.Consistent) {q z w : Nat} (hz : q ∈ t.chain z)
    (hw : q ∈ t.chain w) : z = w := (h.zoneOf_eq hz).symm.trans (h.zoneOf_eq hw)

/-! ## Swaps -/

/-- Exchanging two neighbours moves nothing else. -/
theorem set_set_eq_append {α : Type} (pre post : List α) (x y : α) :
    ((pre ++ x :: y :: post).set pre.length y).set (pre.length + 1) x = pre ++ y :: x :: post := by
  simp [List.set_append_right]

/-- A place of the exchanged chain is one of the two exchanged or holds what it held. -/
theorem getElem?_exchanged {α : Type} {pre post : List α} {x y q : α} {i : Nat}
    (h : (pre ++ y :: x :: post)[i]? = some q) :
    (i = pre.length ∧ q = y) ∨ (i = pre.length + 1 ∧ q = x) ∨
      (i ≠ pre.length ∧ i ≠ pre.length + 1 ∧ (pre ++ x :: y :: post)[i]? = some q) := by
  rcases Nat.lt_trichotomy i pre.length with hlt | rfl | hgt
  · right; right
    rw [List.getElem?_append_left hlt] at h ⊢
    exact ⟨by omega, by omega, h⟩
  · left
    rw [List.getElem?_append_right (Nat.le_refl _)] at h
    simp at h
    exact ⟨rfl, h.symm⟩
  · obtain ⟨j, rfl⟩ : ∃ j, i = pre.length + 1 + j := ⟨i - pre.length - 1, by omega⟩
    rw [List.getElem?_append_right (by omega),
      show pre.length + 1 + j - pre.length = j + 1 by omega] at h ⊢
    cases j with
    | zero =>
      right; left
      simp at h
      exact ⟨rfl, h.symm⟩
    | succ j =>
      right; right
      simp only [List.getElem?_cons_succ] at h ⊢
      exact ⟨by omega, by omega, h⟩

section Swap

variable {t : Trap} {z x y : Nat} {pre post : List Nat}

/-- The trap with neighbours `x` and `y` of a chain exchanged. -/
def exchanged (t : Trap) (z : Nat) (pre post : List Nat) (x y : Nat) : Trap :=
  { t with
    placement := t.placement.set z (pre ++ y :: x :: post)
    spots := (t.spots.set y (z, pre.length)).set x (z, pre.length + 1) }

theorem chain_exchanged_of_ne {w : Nat} (hw : w ≠ z) :
    (t.exchanged z pre post x y).chain w = t.chain w := by
  simp [chain, exchanged, List.getD_eq_getElem?_getD, List.getElem?_set_ne (Ne.symm hw)]

variable (h : t.Consistent) (hz : t.chain z = pre ++ x :: y :: post)
include h hz

theorem lt_length_of_chain : z < t.placement.length := by
  have hx : x ∈ t.chain z := by simp [hz]
  rw [h.length_placement]
  exact h.lt_numZones_of_mem hx

theorem chain_exchanged : (t.exchanged z pre post x y).chain z = pre ++ y :: x :: post := by
  simp [chain, exchanged, List.getD_eq_getElem?_getD, lt_length_of_chain h hz]

/-- The table of places follows the exchange. -/
theorem spots_exchanged {q w i : Nat} (hq : ((t.exchanged z pre post x y).chain w)[i]? = some q) :
    (t.exchanged z pre post x y).spots[q]? = some (w, i) := by
  have hx : (t.chain z)[pre.length]? = some x := by simp [hz]
  have hy : (t.chain z)[pre.length + 1]? = some y := by simp [hz]
  have hxs := h.of_getElem?_chain hx
  have hys := h.of_getElem?_chain hy
  have hxy : x ≠ y := by
    rintro rfl
    omega
  -- a qubit standing elsewhere is neither of the two, so its entry was not written
  have hkeep : t.spots[q]? = some (w, i) → (w, i) ≠ (z, pre.length) →
      (w, i) ≠ (z, pre.length + 1) → (t.exchanged z pre post x y).spots[q]? = some (w, i) := by
    intro hq hne hne'
    have hqx : x ≠ q := by
      rintro rfl
      rw [h.spot hxs.1, hxs.2.1, hxs.2.2] at hq
      exact hne (Option.some.inj hq).symm
    have hqy : y ≠ q := by
      rintro rfl
      rw [h.spot hys.1, hys.2.1, hys.2.2] at hq
      exact hne' (Option.some.inj hq).symm
    simpa [exchanged, List.getElem?_set_ne hqx, List.getElem?_set_ne hqy] using hq
  by_cases hw : w = z
  · subst hw
    rw [chain_exchanged h hz] at hq
    rcases getElem?_exchanged hq with ⟨rfl, rfl⟩ | ⟨rfl, rfl⟩ | ⟨hi, hi', hq⟩
    · rw [exchanged, List.getElem?_set_ne hxy,
        List.getElem?_set_self (by rw [h.length_spots]; exact hys.1)]
    · simp [exchanged, h.length_spots, hxs.1]
    · rw [← hz] at hq
      exact hkeep ((h.spot_iff _ _ _).2 hq) (by simp [hi]) (by simp [hi'])
  · rw [chain_exchanged_of_ne hw] at hq
    exact hkeep ((h.spot_iff _ _ _).2 hq) (by simp [hw]) (by simp [hw])

theorem mem_chain_exchanged {q w : Nat} (hq : q ∈ t.chain w) :
    q ∈ (t.exchanged z pre post x y).chain w := by
  by_cases hw : w = z
  · subst hw
    rw [hz] at hq
    rw [chain_exchanged h hz]
    simp only [List.mem_append, List.mem_cons] at hq ⊢
    tauto
  · rwa [chain_exchanged_of_ne hw]

theorem length_chain_exchanged (w : Nat) :
    ((t.exchanged z pre post x y).chain w).length = (t.chain w).length := by
  by_cases hw : w = z
  · subst hw
    rw [chain_exchanged h hz, hz]
    simp
  · rw [chain_exchanged_of_ne hw]

theorem consistent_exchanged : (t.exchanged z pre post x y).Consistent := by
  refine ⟨?_, ?_, spot_iff_of_chains (fun q w i => spots_exchanged h hz) ?_, ?_, ?_, h.ports⟩
  · simpa [exchanged] using h.length_placement
  · simpa [exchanged] using h.length_spots
  · intro q hq
    have hq : q < t.numQubits := by simpa [exchanged, h.length_spots] using hq
    exact ⟨t.zoneOf q, mem_chain_exchanged h hz (h.mem_chain_iff.2 ⟨hq, rfl⟩)⟩
  · -- the new chain is as long as the old one, so the occupancies need no change
    have hlt := lt_length_of_chain h hz
    refine List.ext_getElem? fun w => ?_
    by_cases hw : z = w
    · subst hw
      simp only [exchanged, h.occupancies, List.getElem?_map, getElem?_placement hlt,
        List.getElem?_set_self hlt, hz]
      simp
    · simp only [exchanged, h.occupancies, List.getElem?_map, List.getElem?_set_ne hw]
  · intro w
    rw [length_chain_exchanged h hz]
    exact h.capacity w

theorem Consistent.swap_eq_exchanged : t.swap z pre.length = .ok (t.exchanged z pre post x y) := by
  have hget := getElem?_placement (lt_length_of_chain h hz)
  have hx : (t.chain z)[pre.length]? = some x := by simp [hz]
  have hy : (t.chain z)[pre.length + 1]? = some y := by simp [hz]
  simp only [swap, hget, hx, hy]
  rw [hz, set_set_eq_append, exchanged]

/-- Swapping two neighbours of a chain succeeds, and only their order changes. -/
theorem Consistent.swap_spec :
    ∃ t', t.swap z pre.length = .ok t' ∧ t.Follows t' ∧ t'.chain z = pre ++ y :: x :: post ∧
      ∀ w ≠ z, t'.chain w = t.chain w :=
  ⟨t.exchanged z pre post x y, h.swap_eq_exchanged hz, ⟨consistent_exchanged h hz, rfl, rfl⟩,
    chain_exchanged h hz, fun _ => chain_exchanged_of_ne⟩

end Swap

/-! ## Shuttles -/

theorem checkMovable_eq_ok_iff {t : Trap} {source : Nat} {seen qs : List Nat} :
    t.checkMovable source seen qs = .ok () ↔
      (∀ q ∈ qs, q < t.numQubits ∧ t.zoneOf q = source ∧ q ∉ seen) ∧ qs.Nodup := by
  induction qs generalizing seen with
  | nil => simp [checkMovable]
  | cons q qs ih =>
    rw [checkMovable]
    split_ifs with hq hseen hzone
    · simp only [List.mem_cons, forall_eq_or_imp, false_iff]
      rintro ⟨⟨⟨hlt, -⟩, -⟩, -⟩
      omega
    · simp only [List.mem_cons, forall_eq_or_imp, false_iff]
      rintro ⟨⟨⟨-, -, hnot⟩, -⟩, -⟩
      exact hnot (by simpa using hseen)
    · simp only [List.mem_cons, forall_eq_or_imp, false_iff]
      rintro ⟨⟨⟨-, hin, -⟩, -⟩, -⟩
      exact hzone hin
    · have hq : q < t.numQubits := by omega
      have hseen : q ∉ seen := by simpa using hseen
      have hzone : t.zoneOf q = source := by simpa using hzone
      rw [ih, List.nodup_cons]
      simp only [List.mem_cons, forall_eq_or_imp, not_or]
      constructor
      · rintro ⟨hall, hnodup⟩
        exact ⟨⟨⟨hq, hzone, hseen⟩,
          fun r hr => ⟨(hall r hr).1, (hall r hr).2.1, (hall r hr).2.2.2⟩⟩,
          fun hmem => (hall q hmem).2.2.1 rfl, hnodup⟩
      · rintro ⟨⟨-, hall⟩, hnot, hnodup⟩
        refine ⟨fun r hr => ⟨(hall r hr).1, (hall r hr).2.1, ?_, (hall r hr).2.2⟩, hnodup⟩
        rintro rfl
        exact hnot hr

/-- Taking a sublist's worth of distinct members out of a chain. -/
theorem length_filter_notMem {chain qs : List Nat} (hchain : chain.Nodup) (hqs : qs.Nodup)
    (hsub : ∀ q ∈ qs, q ∈ chain) :
    (chain.filter (!qs.contains ·)).length + qs.length = chain.length := by
  have hperm : (chain.filter (qs.contains ·)).Perm qs := by
    refine (List.perm_ext_iff_of_nodup (hchain.filter _) hqs).2 fun q => ?_
    simp only [List.mem_filter, List.contains_iff_mem, and_iff_right_iff_imp]
    exact hsub q
  rw [← hperm.length_eq, List.length_eq_length_filter_add (l := chain) (qs.contains ·)]
  omega

theorem mem_enter {port : Port} {qs chain : List Nat} {q : Nat} :
    q ∈ enter port qs chain ↔ q ∈ qs ∨ q ∈ chain := by
  cases port <;> simp [enter, or_comm]

theorem length_enter (port : Port) (qs chain : List Nat) :
    (enter port qs chain).length = chain.length + qs.length := by
  cases port <;> simp [enter, Nat.add_comm]

theorem nodup_enter {port : Port} {qs chain : List Nat} (hqs : qs.Nodup) (hchain : chain.Nodup)
    (hdisj : ∀ q ∈ qs, q ∉ chain) : (enter port qs chain).Nodup := by
  cases port with
  | p0 => exact hqs.append hchain fun q hq hq' => hdisj q hq hq'
  | p1 => exact hchain.append hqs fun q hq hq' => hdisj q hq' hq

section Transfer

variable {t : Trap} {qs : List Nat} {source target : Nat} {port : Port}

theorem chain_transfer_source (h : t.Consistent) (hne : source ≠ target)
    (hs : source < t.arch.numZones) :
    (t.transfer qs source target port).chain source = (t.chain source).filter (!qs.contains ·) := by
  have hs : source < t.placement.length := by rwa [h.length_placement]
  simp [transfer, refresh, chain, List.getD_eq_getElem?_getD, List.getElem?_modify, Ne.symm hne, hs]

theorem chain_transfer_target (h : t.Consistent) (hne : source ≠ target)
    (ht : target < t.arch.numZones) :
    (t.transfer qs source target port).chain target = enter port qs (t.chain target) := by
  have ht : target < t.placement.length := by rwa [h.length_placement]
  simp [transfer, refresh, chain, List.getD_eq_getElem?_getD, List.getElem?_modify, hne, ht]

theorem chain_transfer_of_ne {w : Nat} (hs : w ≠ source) (ht : w ≠ target) :
    (t.transfer qs source target port).chain w = t.chain w := by
  simp [transfer, refresh, chain, List.getD_eq_getElem?_getD, List.getElem?_modify, Ne.symm hs,
    Ne.symm ht]

theorem spots_transfer :
    (t.transfer qs source target port).spots =
      Placement.record target 0 ((t.transfer qs source target port).chain target)
        (Placement.record source 0 ((t.transfer qs source target port).chain source) t.spots) := rfl

theorem ports_transfer (h : t.Consistent) :
    (t.transfer qs source target port).ports =
      .loaded t.arch (Function.update
        (Function.update t.occupancy source ((t.transfer qs source target port).occupancy source))
        target ((t.transfer qs source target port).occupancy target)) := by
  rw [← PortGraph.setOccupancy_loaded, ← PortGraph.setOccupancy_loaded, ← h.ports]
  rfl

/-- Outside the target a chain keeps the qubits that did not move. -/
theorem mem_chain_transfer (h : t.Consistent) (hne : source ≠ target)
    (hs : source < t.arch.numZones) (hqs : ∀ q ∈ qs, q ∈ t.chain source) {q w : Nat}
    (hw : w ≠ target) :
    q ∈ (t.transfer qs source target port).chain w ↔ q ∈ t.chain w ∧ q ∉ qs := by
  by_cases hws : w = source
  · subst hws
    rw [chain_transfer_source h hne hs]
    simp
  · rw [chain_transfer_of_ne hws hw]
    exact ⟨fun hq => ⟨hq, fun hin => hws (h.eq_of_mem hq (hqs q hin))⟩, And.left⟩

/-- Every qubit still stands somewhere. -/
theorem exists_mem_chain_transfer (h : t.Consistent) (hne : source ≠ target)
    (hs : source < t.arch.numZones) (ht : target < t.arch.numZones)
    (hqs : ∀ q ∈ qs, q ∈ t.chain source) {q : Nat} (hq : q < t.numQubits) :
    ∃ w, q ∈ (t.transfer qs source target port).chain w := by
  have hmem := h.mem_chain_iff.2 ⟨hq, rfl⟩
  by_cases hin : q ∈ qs
  · exact ⟨target, by rw [chain_transfer_target h hne ht, mem_enter]; exact .inl hin⟩
  by_cases hwt : t.zoneOf q = target
  · exact ⟨target, by rw [chain_transfer_target h hne ht, mem_enter, ← hwt]; exact .inr hmem⟩
  · exact ⟨t.zoneOf q, (mem_chain_transfer h hne hs hqs hwt).2 ⟨hmem, hin⟩⟩

variable (h : t.Consistent) (hne : source ≠ target) (hs : source < t.arch.numZones)
  (ht : target < t.arch.numZones) (hnodup : qs.Nodup) (hqs : ∀ q ∈ qs, q ∈ t.chain source)
include h hne hs ht hnodup hqs

theorem occupancies_transfer :
    (t.transfer qs source target port).occupancies
      = (t.transfer qs source target port).placement.map List.length := by
  have hs' : source < t.placement.length := by rwa [h.length_placement]
  have ht' : target < t.placement.length := by rwa [h.length_placement]
  have hleft := length_filter_notMem (h.nodup_chain source) hnodup hqs
  refine List.ext_getElem? fun w => ?_
  simp only [transfer, refresh, h.occupancies, List.getElem?_map, List.getElem?_modify,
    List.getElem?_set, List.length_modify, List.length_map]
  by_cases hwt : target = w
  · subst hwt
    simp [hne, ht', length_enter, h.occupancy_eq, chain]
  · by_cases hws : source = w
    · subst hws
      simp only [hwt, if_false, if_true, List.getElem?_eq_getElem hs', Option.map_some]
      rw [chain, List.getD_eq_getElem _ _ hs'] at hleft
      exact congrArg some (by simp only; omega)
    · simp [hwt, hws]

theorem nodup_chain_transfer (w : Nat) : ((t.transfer qs source target port).chain w).Nodup := by
  by_cases hwt : w = target
  · subst hwt
    rw [chain_transfer_target h hne ht]
    exact nodup_enter hnodup (h.nodup_chain w) fun q hq hq' => hne (h.eq_of_mem (hqs q hq) hq')
  by_cases hws : w = source
  · subst hws
    rw [chain_transfer_source h hne hs]
    exact (h.nodup_chain w).filter _
  · rw [chain_transfer_of_ne hws hwt]
    exact h.nodup_chain w

/-- The table of places follows the move. -/
theorem spots_transfer_of_chain {q w i : Nat}
    (hq : ((t.transfer qs source target port).chain w)[i]? = some q) :
    (t.transfer qs source target port).spots[q]? = some (w, i) := by
  have hmem := List.mem_of_getElem? hq
  have hnod : ((t.transfer qs source target port).chain w).Nodup :=
    nodup_chain_transfer h hne hs ht hnodup hqs w
  have htarget : (t.transfer qs source target port).chain target
      = enter port qs (t.chain target) := chain_transfer_target h hne ht
  rw [spots_transfer]
  -- the places of the target are written last
  by_cases hwt : w = target
  · subst hwt
    have hlt : q < t.numQubits := by
      rw [htarget, mem_enter] at hmem
      rcases hmem with hmem | hmem
      · exact (h.mem_chain_iff.1 (hqs q hmem)).1
      · exact (h.mem_chain_iff.1 hmem).1
    simpa using Placement.getElem?_record (k := 0) (z := w) hnod hq
      (by simpa [h.length_spots] using hlt)
  · obtain ⟨hold, hstay⟩ := (mem_chain_transfer h hne hs hqs hwt).1 hmem
    have hnot : q ∉ (t.transfer qs source target port).chain target := by
      rw [htarget, mem_enter, not_or]
      exact ⟨hstay, fun hq => hwt (h.eq_of_mem hold hq)⟩
    rw [Placement.getElem?_record_of_notMem hnot]
    by_cases hws : w = source
    · subst hws
      have hlt := (h.mem_chain_iff.1 hold).1
      simpa using Placement.getElem?_record (k := 0) (z := w) hnod hq
        (by simpa [h.length_spots] using hlt)
    · have hnot : q ∉ (t.transfer qs source target port).chain source := by
        rw [chain_transfer_source h hne hs]
        intro hq
        exact hws (h.eq_of_mem hold (List.mem_of_mem_filter hq))
      rw [Placement.getElem?_record_of_notMem hnot]
      rw [chain_transfer_of_ne hws hwt] at hq
      exact (h.spot_iff _ _ _).2 hq

/-- Moving distinct qubits out of a zone into one with room for them keeps a trap consistent. -/
theorem consistent_transfer
    (hroom : t.occupancy target + qs.length ≤ t.arch.transportCapacity target) :
    (t.transfer qs source target port).Consistent := by
  have hocc : (t.transfer qs source target port).occupancies
      = (t.transfer qs source target port).placement.map List.length :=
    occupancies_transfer h hne hs ht hnodup hqs
  have hlen := occupancy_of_occupancies hocc
  refine ⟨?_, ?_, spot_iff_of_chains
    (fun q w i => spots_transfer_of_chain h hne hs ht hnodup hqs) ?_, hocc, ?_, ?_⟩
  · simpa [transfer, refresh] using h.length_placement
  · rw [spots_transfer, Placement.length_record, Placement.length_record]
    exact h.length_spots
  · intro q hq
    rw [spots_transfer, Placement.length_record, Placement.length_record, h.length_spots] at hq
    exact exists_mem_chain_transfer h hne hs ht hqs hq
  · intro w
    by_cases hwt : w = target
    · subst hwt
      rw [chain_transfer_target h hne ht, length_enter, ← h.occupancy_eq]
      exact hroom
    by_cases hws : w = source
    · subst hws
      rw [chain_transfer_source h hne hs]
      exact (List.length_filter_le _ _).trans (h.capacity w)
    · rw [chain_transfer_of_ne hws hwt]
      exact h.capacity w
  · -- only the edges of the two zones were written
    rw [ports_transfer h]
    show PortGraph.loaded t.arch _ = PortGraph.loaded t.arch _
    congr 1
    funext w
    by_cases hwt : w = target
    · subst hwt
      rw [Function.update_self]
    rw [Function.update_of_ne hwt]
    by_cases hws : w = source
    · subst hws
      rw [Function.update_self]
    · rw [Function.update_of_ne hws, hlen, chain_transfer_of_ne hws hwt, h.occupancy_eq]

/-- Distinct qubits of one zone get into another zone that has room for them. -/
theorem Consistent.move_spec (port : Port)
    (hroom : t.occupancy target + qs.length ≤ t.arch.transportCapacity target) :
    ∃ t', t.move qs source target port = .ok t' ∧ t.Follows t' ∧
      t'.chain source = (t.chain source).filter (!qs.contains ·) ∧
      t'.chain target = enter port qs (t.chain target) ∧
      ∀ w, w ≠ source → w ≠ target → t'.chain w = t.chain w := by
  refine ⟨t.transfer qs source target port, ?_,
    ⟨consistent_transfer h hne hs ht hnodup hqs hroom, rfl, rfl⟩, chain_transfer_source h hne hs,
    chain_transfer_target h hne ht, fun w => chain_transfer_of_ne⟩
  have hmovable : t.checkMovable source [] qs = .ok () := by
    refine checkMovable_eq_ok_iff.2 ⟨fun q hq => ?_, hnodup⟩
    obtain ⟨hlt, hzone⟩ := h.mem_chain_iff.1 (hqs q hq)
    exact ⟨hlt, hzone, List.not_mem_nil⟩
  rw [move, if_neg hne, hmovable, ok_bind, if_neg (by simpa [hasZone] using ht), if_neg (by omega),
    if_neg (by simpa [hasZone] using hs)]

end Transfer

end Trap

end IonTrap
