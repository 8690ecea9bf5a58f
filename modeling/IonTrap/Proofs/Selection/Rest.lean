import IonTrap.Proofs.Routing.Balance
import IonTrap.Proofs.Selection.Tracker
import IonTrap.Proofs.Trap.Nearest

/-!
# Placing the rest

Free qubits stay while their zone has gate spots, and the others go to the nearest zones that have
some. Whatever this returns has every qubit locked (`Tracker.placeRest_spec`), and whoever had to
leave left a full zone (`Tracker.gateRoom_of_moved`). On a connected trap with gate spots for all
qubits it does return (`Tracker.exists_placeRest`): a qubit without a spot would mean that all zones
are full of other qubits.
-/

namespace IonTrap

theorem Architecture.totalGateCapacity_eq (a : Architecture) :
    a.totalGateCapacity = ∑ z ∈ Finset.range a.numZones, a.gateCapacity z := by
  rw [← total_map_range, totalGateCapacity]
  refine congrArg total (List.ext_getElem (by simp [numZones]) fun z hz hz' => ?_)
  rw [List.length_map] at hz
  simp [gateCapacity, hz]

/-- In a settled trap there are spots for all qubits. -/
theorem Trap.Consistent.le_totalGateCapacity {t : Trap} (ht : t.Consistent) (hsettled : t.Settled) :
    t.numQubits ≤ t.arch.totalGateCapacity := by
  have hcount := ht.perm_flatten.length_eq
  rw [List.length_range, Placement.length_flatten, ht.length_placement] at hcount
  rw [Architecture.totalGateCapacity_eq, ← hcount]
  refine Finset.sum_le_sum fun z _ => ?_
  change (t.chain z).length ≤ _
  rw [← ht.occupancy_eq]
  exact hsettled z

namespace Tracker

variable {t : Trap} {m : CostModel}

/-! ## Locking several qubits -/

theorem zoneOf_lockAll {k : Tracker} (h : k.Sized t) {qs : List Nat}
    (hqs : ∀ q ∈ qs, q < t.numQubits) (old z r : Nat) :
    (lockAll old z qs k).zoneOf r = if r ∈ qs then z else k.zoneOf r := by
  induction qs generalizing k with
  | nil => simp [lockAll]
  | cons q qs ih =>
    have hrest := ih (h.lock (q := q) (z := z) old) fun r hr => hqs r (List.mem_cons_of_mem _ hr)
    rw [zoneOf_lock h (hqs q List.mem_cons_self)] at hrest
    simp only [lockAll, List.foldl_cons, List.mem_cons] at hrest ⊢
    rw [hrest]
    split_ifs <;> simp_all

/-- Free qubits of a zone that are to be locked one after the other. -/
structure Free (t : Trap) (k : Tracker) (old : Nat) (qs : List Nat) : Prop where
  nodup : qs.Nodup
  mem : ∀ q ∈ qs, q ∈ k.occupants old

theorem Sound.free_occupants {k : Tracker} (h : k.Sound t) (z : Nat) :
    Free t k z (k.occupants z) := ⟨h.nodup_occupants z, fun _ hq => hq⟩

/-- Locking free qubits of one zone into another that has room for them. -/
theorem lockAll_spec {k : Tracker} (h : k.Sound t) {old z : Nat} {qs : List Nat}
    (hqs : Free t k old qs) (hz : z < t.arch.numZones) (hroom : qs.length ≤ k.gateRoom t z) :
    Grows t k (lockAll old z qs k) ∧
      (lockAll old z qs k).gateRoom t z + qs.length = k.gateRoom t z ∧
      ∀ q, (lockAll old z qs k).isLocked q = (k.isLocked q || qs.contains q) := by
  induction qs generalizing k with
  | nil => exact ⟨h.grows_self, rfl, fun q => by simp [lockAll]⟩
  | cons q qs ih =>
    have hnodup := List.nodup_cons.1 hqs.nodup
    obtain ⟨hlt, hfree, hzone⟩ := (h.mem_occupants q old).1 (hqs.mem q List.mem_cons_self)
    subst hzone
    have hnew : k.numNew z < t.arch.gateCapacity z := by
      simp only [gateRoom, List.length_cons] at hroom
      omega
    have hgrow := h.grows_lock hlt hfree hz hnew
    -- locking `q` takes it out of its zone and leaves the others there
    have hrest : Free t (k.lock q (t.zoneOf q) z) (t.zoneOf q) qs := by
      refine ⟨hnodup.2, fun r hr => ?_⟩
      have hmem := hqs.mem r (List.mem_cons_of_mem _ hr)
      rw [occupants_lock, if_pos rfl, List.mem_filter]
      refine ⟨hmem, ?_⟩
      have hne : r ≠ q := fun hrq => hnodup.1 (hrq ▸ hr)
      simpa using hne
    have hstep : (k.lock q (t.zoneOf q) z).gateRoom t z + 1 = k.gateRoom t z := by
      rw [gateRoom, gateRoom, numNew_lock h.toSized hz, if_pos rfl]
      omega
    obtain ⟨hgrows, hgate, hlocked⟩ := ih hgrow.sound hrest (by
      simp only [List.length_cons] at hroom
      omega)
    refine ⟨hgrow.trans hgrows, ?_, fun r => ?_⟩
    · simp only [lockAll, List.foldl_cons, List.length_cons] at hgate ⊢
      omega
    · have hr := hlocked r
      simp only [lockAll, List.foldl_cons] at hr ⊢
      rw [hr, isLocked_lock h.toSized hlt]
      by_cases hrq : r = q <;> simp [hrq]

theorem Free.take {k : Tracker} {old : Nat} {qs : List Nat} (h : Free t k old qs) (n : Nat) :
    Free t k old (qs.take n) :=
  ⟨h.nodup.sublist (List.take_sublist n qs), fun q hq => h.mem q (List.mem_of_mem_take hq)⟩

/-- After `stay` the zone has no free qubit or no spot. -/
theorem stay_spec {k : Tracker} (h : k.Sound t) {z : Nat} (hz : z < t.arch.numZones) :
    Grows t k (stay t k z) ∧ ((stay t k z).occupants z = [] ∨ (stay t k z).gateRoom t z = 0) := by
  have hroom : ((k.occupants z).take (k.gateRoom t z)).length ≤ k.gateRoom t z := by
    rw [List.length_take]
    omega
  obtain ⟨hgrows, hgate, hlocked⟩ := lockAll_spec h ((h.free_occupants z).take _) hz hroom
  change Grows t k (stay t k z) at hgrows
  refine ⟨hgrows, ?_⟩
  by_cases hlen : (k.occupants z).length ≤ k.gateRoom t z
  · left
    rw [List.eq_nil_iff_forall_not_mem]
    intro q hq
    have hold := hgrows.occupants_subset h hq
    rw [hgrows.sound.mem_occupants] at hq
    have hin := hq.2.1
    change (lockAll z z _ k).isLocked q = false at hin
    rw [hlocked, List.take_of_length_le hlen] at hin
    simp [hold] at hin
  · right
    rw [List.length_take] at hgate
    change (lockAll z z _ k).gateRoom t z = 0
    omega

/-- A zone that is done: nobody there is free, or nobody more can come. -/
def Done (t : Trap) (k : Tracker) (z : Nat) : Prop := k.occupants z = [] ∨ k.gateRoom t z = 0

theorem Done.of_grows {k k' : Tracker} (h : k.Sound t) (hg : Grows t k k') {z : Nat}
    (hd : Done t k z) : Done t k' z := by
  rcases hd with hd | hd
  · exact .inl (hg.occupants_eq_nil h hd)
  · have := hg.gateRoom_le h z
    exact .inr (by omega)

theorem foldl_stay_spec {k : Tracker} (h : k.Sound t) {zs : List Nat}
    (hzs : ∀ z ∈ zs, z < t.arch.numZones) :
    Grows t k (zs.foldl (stay t) k) ∧ ∀ z ∈ zs, Done t (zs.foldl (stay t) k) z := by
  induction zs generalizing k with
  | nil => exact ⟨h.grows_self, by simp⟩
  | cons z zs ih =>
    obtain ⟨hgrow, hdone⟩ := stay_spec h (hzs z List.mem_cons_self)
    obtain ⟨hgrows, hall⟩ := ih hgrow.sound fun w hw => hzs w (List.mem_cons_of_mem _ hw)
    refine ⟨hgrow.trans hgrows, fun w hw => ?_⟩
    rcases List.mem_cons.1 hw with rfl | hw
    · exact Done.of_grows hgrow.sound hgrows hdone
    · exact hall w hw

/-- Nobody who was free has been locked away from home. -/
def Home (t : Trap) (k k' : Tracker) : Prop :=
  ∀ q, k.isLocked q = false → k'.isLocked q = true → k'.zoneOf q = t.zoneOf q

theorem Home.trans {k k' k'' : Tracker} (h : Home t k k') (hgrows : Grows t k' k'')
    (h' : Home t k' k'') : Home t k k'' := by
  intro q hfree hlocked
  cases hnow : k'.isLocked q with
  | false => exact h' q hnow hlocked
  | true => exact (hgrows.keeps q hnow).2.trans (h q hfree hnow)

theorem home_stay {k : Tracker} (h : k.Sound t) {z : Nat} (hz : z < t.arch.numZones) :
    Home t k (stay t k z) := by
  intro q hfree hlocked
  have hlen : ((k.occupants z).take (k.gateRoom t z)).length ≤ k.gateRoom t z := by
    rw [List.length_take]
    omega
  have hiff := (lockAll_spec h ((h.free_occupants z).take _) hz hlen).2.2 q
  have hmem : q ∈ (k.occupants z).take (k.gateRoom t z) := by
    rw [stay, hiff, hfree] at hlocked
    simpa using hlocked
  have hlt : ∀ r ∈ (k.occupants z).take (k.gateRoom t z), r < t.numQubits :=
    fun r hr => ((h.mem_occupants r z).1 (List.mem_of_mem_take hr)).1
  rw [stay, zoneOf_lockAll h.toSized hlt, if_pos hmem]
  exact ((h.mem_occupants q z).1 (List.mem_of_mem_take hmem)).2.2.symm

theorem home_foldl_stay {k : Tracker} (h : k.Sound t) {zs : List Nat}
    (hzs : ∀ z ∈ zs, z < t.arch.numZones) : Home t k (zs.foldl (stay t) k) := by
  induction zs generalizing k with
  | nil => exact fun q hfree hlocked => by simp [hfree] at hlocked
  | cons z zs ih =>
    have hz := hzs z List.mem_cons_self
    have hlater : ∀ w ∈ zs, w < t.arch.numZones := fun w hw => hzs w (List.mem_cons_of_mem _ hw)
    have hsound := (stay_spec h hz).1.sound
    exact (home_stay h hz).trans (foldl_stay_spec hsound hlater).1 (ih hsound hlater)

/-! ## Leaving a zone -/

theorem Free.notMem_take {k : Tracker} {old : Nat} {qs : List Nat} (hqs : Free t k old qs)
    (n : Nat) : ∀ q ∈ qs.drop n, q ∉ qs.take n := by
  have hnodup := hqs.nodup
  rw [← List.take_append_drop n qs, List.nodup_append] at hnodup
  exact fun q hq hq' => hnodup.2.2 q hq' q hq rfl

/-- Those who find no place in a zone are still free once the others are locked there. -/
theorem Free.drop {k : Tracker} (h : k.Sound t) {old z : Nat} {qs : List Nat}
    (hqs : Free t k old qs) (hz : z < t.arch.numZones) (n : Nat)
    (hlen : (qs.take n).length ≤ k.gateRoom t z) :
    Free t (lockAll old z (qs.take n) k) old (qs.drop n) := by
  obtain ⟨hgrow, -, hlocked⟩ := lockAll_spec h (hqs.take n) hz hlen
  refine ⟨hqs.nodup.sublist (List.drop_sublist _ _), fun q hq => ?_⟩
  obtain ⟨hlt, hfree, hzone⟩ := (h.mem_occupants q old).1 (hqs.mem q (List.mem_of_mem_drop hq))
  rw [hgrow.sound.mem_occupants, hlocked, hfree]
  exact ⟨hlt, by simpa using hqs.notMem_take n q hq, hzone⟩

/-- Who finds no spot is still free, everybody else is locked, and then all the zones are full. -/
theorem spread_spec {k : Tracker} (h : k.Sound t) {old : Nat} {targets qs : List Nat}
    (htargets : ∀ z ∈ targets, z < t.arch.numZones) (hqs : Free t k old qs) :
    Grows t k (spread t old targets qs k).1 ∧
      (∀ q, (spread t old targets qs k).1.isLocked q = true ↔
        k.isLocked q = true ∨ q ∈ qs ∧ q ∉ (spread t old targets qs k).2) ∧
      (∀ q ∈ (spread t old targets qs k).2, q ∈ qs) ∧
      ((spread t old targets qs k).2 ≠ [] →
        ∀ z ∈ targets, (spread t old targets qs k).1.gateRoom t z = 0) := by
  induction targets generalizing k qs with
  | nil =>
    have hspread : spread t old [] qs k = (k, qs) := by
      cases qs <;> rfl
    rw [hspread]
    exact ⟨h.grows_self, by simp, by simp, by simp⟩
  | cons z targets ih =>
    cases qs with
    | nil => exact ⟨h.grows_self, by simp [spread], by simp [spread], by simp [spread]⟩
    | cons q₀ qs =>
      have hz := htargets z List.mem_cons_self
      have hlen : ((q₀ :: qs).take (k.gateRoom t z)).length ≤ k.gateRoom t z := by
        rw [List.length_take]
        omega
      obtain ⟨hgrow, hgate, hlocked⟩ := lockAll_spec h (hqs.take (k.gateRoom t z)) hz hlen
      have hdisj := hqs.notMem_take (k.gateRoom t z)
      have hrest := hqs.drop h hz (k.gateRoom t z) hlen
      obtain ⟨hgrows, hiff, hsub, hfull⟩ :=
        ih hgrow.sound (fun w hw => htargets w (List.mem_cons_of_mem _ hw)) hrest
      have hspread : spread t old (z :: targets) (q₀ :: qs) k
          = spread t old targets ((q₀ :: qs).drop (k.gateRoom t z))
            (lockAll old z ((q₀ :: qs).take (k.gateRoom t z)) k) := rfl
      rw [hspread]
      refine ⟨hgrow.trans hgrows, fun q => ?_, fun q hq => List.mem_of_mem_drop (hsub q hq), ?_⟩
      · rw [hiff, hlocked]
        have hmem : q ∈ q₀ :: qs ↔ q ∈ (q₀ :: qs).take (k.gateRoom t z) ∨
            q ∈ (q₀ :: qs).drop (k.gateRoom t z) := by
          rw [← List.mem_append, List.take_append_drop]
        have htaken : q ∈ (q₀ :: qs).take (k.gateRoom t z) →
            q ∉ (spread t old targets ((q₀ :: qs).drop (k.gateRoom t z))
              (lockAll old z ((q₀ :: qs).take (k.gateRoom t z)) k)).2 :=
          fun hq hq' => hdisj q (hsub q hq') hq
        simp only [Bool.or_eq_true, List.contains_iff_mem, hmem]
        constructor
        · rintro ((hlocked | htake) | ⟨hdrop, hnot⟩)
          · exact .inl hlocked
          · exact .inr ⟨.inl htake, htaken htake⟩
          · exact .inr ⟨.inr hdrop, hnot⟩
        · rintro (hlocked | ⟨htake | hdrop, hnot⟩)
          · exact .inl (.inl hlocked)
          · exact .inl (.inr htake)
          · exact .inr ⟨hdrop, hnot⟩
      · intro hstranded w hw
        rcases List.mem_cons.1 hw with rfl | hw
        · -- somebody went on from `w`, so its spots were all taken
          obtain ⟨q, hq⟩ := List.exists_mem_of_ne_nil _ hstranded
          have hlong := List.length_pos_of_mem (hsub q hq)
          rw [List.length_drop] at hlong
          rw [List.length_take] at hgate
          have hle := hgrows.gateRoom_le hgrow.sound w
          omega
        · exact hfull hstranded w hw

/-- Once a zone has been left, all its qubits are locked. -/
theorem leave_spec {k k' : Tracker} (hlegal : t.arch.Legal) (h : k.Sound t) {z : Nat}
    (hz : z < t.arch.numZones) (hk : leave m t k z = .ok k') :
    Grows t k k' ∧ k'.occupants z = [] := by
  unfold leave at hk
  split at hk
  · next hnil =>
    obtain rfl := Except.ok.inj hk
    exact ⟨h.grows_self, hnil⟩
  · next first rest hocc =>
    have hfree : Free t k z (first :: rest).reverse := by
      rw [← hocc]
      exact ⟨List.nodup_reverse.2 (h.nodup_occupants z), fun q hq => List.mem_reverse.1 hq⟩
    obtain ⟨hgrows, hiff, -, -⟩ := spread_spec h
      (fun w hw => CostModel.lt_of_mem_closest hlegal hz hw : ∀ w ∈ m.closest t first z, _) hfree
    dsimp only at hk
    split at hk
    · simp at hk
    · next hnone =>
      obtain rfl := Except.ok.inj hk
      refine ⟨hgrows, ?_⟩
      -- nobody was stranded, so a qubit still in the zone would be locked
      rw [List.eq_nil_iff_forall_not_mem]
      intro q hq
      have hold := hgrows.occupants_subset h hq
      rw [hgrows.sound.mem_occupants] at hq
      have hlocked := (hiff q).2 (.inr ⟨?_, ?_⟩)
      · rw [hq.2.1] at hlocked
        simp at hlocked
      · rw [List.mem_reverse, ← hocc]
        exact hold
      · rw [List.getLast?_eq_none_iff.1 hnone]
        exact List.not_mem_nil

/-! ## All zones -/

theorem foldlM_leave_spec {k k' : Tracker} (hlegal : t.arch.Legal) (h : k.Sound t) {zs : List Nat}
    (hzs : ∀ z ∈ zs, z < t.arch.numZones) (hk : zs.foldlM (leave m t) k = .ok k') :
    Grows t k k' ∧ ∀ z ∈ zs, k'.occupants z = [] := by
  induction zs generalizing k with
  | nil =>
    obtain rfl := Except.ok.inj hk
    exact ⟨h.grows_self, by simp⟩
  | cons z zs ih =>
    rw [List.foldlM_cons] at hk
    obtain ⟨k₁, hk₁, hk⟩ := bind_eq_ok_iff.1 hk
    obtain ⟨hgrow, hleft⟩ := leave_spec hlegal h (hzs z List.mem_cons_self) hk₁
    obtain ⟨hgrows, hall⟩ := ih hgrow.sound (fun w hw => hzs w (List.mem_cons_of_mem _ hw)) hk
    refine ⟨hgrow.trans hgrows, fun w hw => ?_⟩
    rcases List.mem_cons.1 hw with rfl | hw
    · exact hgrows.occupants_eq_nil hgrow.sound hleft
    · exact hall w hw

/-- What `placeRest` returns locks every qubit, and moves none that was locked. -/
theorem placeRest_spec {k k' : Tracker} (ht : t.Consistent) (hlegal : t.arch.Legal)
    (h : k.Sound t) (hk : k.placeRest m t = .ok k') :
    Grows t k k' ∧ ∀ q < t.numQubits, k'.isLocked q = true := by
  have hzs : ∀ z ∈ List.range t.arch.numZones, z < t.arch.numZones := fun z => List.mem_range.1
  obtain ⟨hstay, -⟩ := foldl_stay_spec h hzs
  obtain ⟨hleave, hempty⟩ := foldlM_leave_spec hlegal hstay.sound hzs hk
  refine ⟨hstay.trans hleave, fun q hq => ?_⟩
  by_contra hfree
  have hmem : q ∈ k'.occupants (t.zoneOf q) :=
    (hleave.sound.mem_occupants _ _).2 ⟨hq, by simpa using hfree, rfl⟩
  rw [hempty _ (List.mem_range.2 (ht.zoneOf_lt hq))] at hmem
  simp at hmem

/-- Whoever is free and ends up in another zone left one without spots. -/
theorem gateRoom_of_moved {k k' : Tracker} (hlegal : t.arch.Legal) (ht : t.Consistent)
    (h : k.Sound t) (hk : k.placeRest m t = .ok k') {q : Nat} (hq : q < t.numQubits)
    (hfree : k.isLocked q = false) (hmoved : k'.zoneOf q ≠ t.zoneOf q) :
    k'.gateRoom t (t.zoneOf q) = 0 := by
  have hzs : ∀ z ∈ List.range t.arch.numZones, z < t.arch.numZones := fun z => List.mem_range.1
  obtain ⟨hstay, hdone⟩ := foldl_stay_spec h hzs
  obtain ⟨hleave, -⟩ := foldlM_leave_spec hlegal hstay.sound hzs hk
  cases hstayed : ((List.range t.arch.numZones).foldl (stay t) k).isLocked q with
  | true =>
    have hzone := home_foldl_stay h hzs q hfree hstayed
    exact absurd ((hleave.keeps q hstayed).2.trans hzone) hmoved
  | false =>
    -- the qubit found no spot at home
    have hmem := (hstay.sound.mem_occupants q _).2 ⟨hq, hstayed, rfl⟩
    rcases hdone _ (List.mem_range.2 (ht.zoneOf_lt hq)) with hnil | hfull
    · rw [hnil] at hmem
      simp at hmem
    · have := hleave.gateRoom_le hstay.sound (t.zoneOf q)
      omega

/-! ## There is room for all -/

/-- While a qubit is free some zone has a spot. -/
theorem exists_gateRoom {k : Tracker} (hcap : t.numQubits ≤ t.arch.totalGateCapacity)
    (h : k.Sound t) {q : Nat} (hq : q < t.numQubits) (hfree : k.isLocked q = false) :
    ∃ z < t.arch.numZones, 0 < k.gateRoom t z := by
  by_contra hnone
  push Not at hnone
  have hle : t.arch.totalGateCapacity ≤ k.assembled.flatten.length := by
    rw [Architecture.totalGateCapacity_eq, Placement.length_flatten, h.length_assembled]
    refine Finset.sum_le_sum fun z hz => ?_
    change t.arch.gateCapacity z ≤ k.numNew z
    have hroom := hnone z (Finset.mem_range.1 hz)
    rw [gateRoom] at hroom
    omega
  -- the locked qubits together with `q` are distinct qubits of the trap
  have hnodup : (q :: k.assembled.flatten).Nodup := by
    rw [List.nodup_cons, List.nodup_flatten]
    refine ⟨fun hmem => ?_, ?_, List.pairwise_iff_getElem.2 ?_⟩
    · obtain ⟨z, i, hi⟩ := Placement.exists_getElem?_of_mem_flatten hmem
      have hin : q ∈ k.newcomers z := List.mem_of_getElem? hi
      rw [h.mem_newcomers, hfree] at hin
      simp at hin
    · intro chain hchain
      obtain ⟨z, hz, rfl⟩ := List.mem_iff_getElem.1 hchain
      have := h.nodup_newcomers z
      rwa [newcomers, List.getD_eq_getElem _ _ hz] at this
    · intro z w hz hw hzw r hrz hrw
      have hinz : r ∈ k.newcomers z := by rwa [newcomers, List.getD_eq_getElem _ _ hz]
      have hinw : r ∈ k.newcomers w := by rwa [newcomers, List.getD_eq_getElem _ _ hw]
      rw [h.mem_newcomers] at hinz hinw
      omega
  have hsub : ∀ r ∈ q :: k.assembled.flatten, r ∈ List.range t.numQubits := by
    intro r hr
    rw [List.mem_range]
    rcases List.mem_cons.1 hr with rfl | hr
    · exact hq
    · obtain ⟨z, i, hi⟩ := Placement.exists_getElem?_of_mem_flatten hr
      have hin : r ∈ k.newcomers z := List.mem_of_getElem? hi
      exact h.lt_of_isLocked ((h.mem_newcomers _ _).1 hin).1
  have hcount := (List.subperm_of_subset hnodup hsub).length_le
  rw [List.length_cons, List.length_range] at hcount
  omega

section Room

variable (hlegal : t.arch.Legal) (hconn : t.arch.Connected)
  (hcap : t.numQubits ≤ t.arch.totalGateCapacity)
include hlegal hconn hcap

/-- From a zone that is done everybody finds a place elsewhere. -/
theorem exists_leave {k : Tracker} (h : k.Sound t) {z : Nat} (hz : z < t.arch.numZones)
    (hdone : Done t k z) : ∃ k', leave m t k z = .ok k' := by
  unfold leave
  split
  · exact ⟨k, rfl⟩
  · next first rest hocc =>
    have hfree : Free t k z (first :: rest).reverse := by
      rw [← hocc]
      exact ⟨List.nodup_reverse.2 (h.nodup_occupants z), fun q hq => List.mem_reverse.1 hq⟩
    obtain ⟨hgrows, hiff, hsub, hfull⟩ := spread_spec h
      (fun w hw => CostModel.lt_of_mem_closest hlegal hz hw : ∀ w ∈ m.closest t first z, _) hfree
    dsimp only
    split
    · next q hlast =>
      -- a stranded qubit means that all other zones are full, yet some zone has room
      exfalso
      have hq := List.mem_of_getLast? hlast
      obtain ⟨hlt, hopen, -⟩ := (h.mem_occupants q z).1 (hfree.mem q (hsub q hq))
      have hstill : (spread t z (m.closest t first z) (first :: rest).reverse k).1.isLocked q
          = false := by
        rw [Bool.eq_false_iff, ne_eq, hiff, hopen]
        rintro (hlocked | ⟨-, hnot⟩)
        · simp at hlocked
        · exact hnot hq
      obtain ⟨w, hw, hroom⟩ := exists_gateRoom hcap hgrows.sound hlt hstill
      by_cases hwz : w = z
      · subst hwz
        have hle := hgrows.gateRoom_le h w
        rcases hdone with hnil | hzero
        · rw [hocc] at hnil
          simp at hnil
        · omega
      · have hmem : w ∈ m.closest t first z := by
          obtain ⟨n, hn⟩ := Architecture.exists_walk_of_reflTransGen (hconn z w hz hw)
          obtain ⟨d, hd⟩ := Architecture.exists_atDistance ⟨n, hn⟩
          cases d with
          | zero => exact absurd (Architecture.atDistance_zero_iff.1 hd) hwz
          | succ d => exact (CostModel.mem_closest_iff hlegal hz).2 ⟨d, hd⟩
        have := hfull (List.ne_nil_of_mem hq) w hmem
        omega
    · exact ⟨_, rfl⟩

/-- On a connected trap with spots for all qubits every qubit finds a place. -/
theorem exists_placeRest {k : Tracker} (h : k.Sound t) : ∃ k', k.placeRest m t = .ok k' := by
  have hzs : ∀ z ∈ List.range t.arch.numZones, z < t.arch.numZones := fun z => List.mem_range.1
  obtain ⟨hstay, hdone⟩ := foldl_stay_spec h hzs
  have hleave : ∀ (zs : List Nat) (k : Tracker), k.Sound t → (∀ z ∈ zs, z < t.arch.numZones) →
      (∀ z ∈ zs, Done t k z) → ∃ k', zs.foldlM (leave m t) k = .ok k' := by
    intro zs
    induction zs with
    | nil => exact fun k _ _ _ => ⟨k, rfl⟩
    | cons z zs ih =>
      intro k hk hlt hd
      obtain ⟨k₁, hk₁⟩ := exists_leave (m := m) hlegal hconn hcap hk
        (hlt z List.mem_cons_self) (hd z List.mem_cons_self)
      obtain ⟨hgrow, -⟩ := leave_spec hlegal hk (hlt z List.mem_cons_self) hk₁
      obtain ⟨k', hk'⟩ := ih k₁ hgrow.sound (fun w hw => hlt w (List.mem_cons_of_mem _ hw))
        fun w hw => (hd w (List.mem_cons_of_mem _ hw)).of_grows hk hgrow
      exact ⟨k', by rw [List.foldlM_cons, hk₁, ok_bind, hk']⟩
  exact hleave _ _ hstay.sound hzs hdone

end Room

end Tracker

end IonTrap
