import IonTrap.Proofs.Routing.Displaced
import IonTrap.Proofs.Trap.ChainOrder
import IonTrap.Proofs.Trap.Reachable

/-!
# How a target lists its qubits

A target placement lists the qubits of each zone in some order, and so do the groups that are made
from it. Neither order matters (`Trap.routeTo_reads_zones_only`): two journeys whose groups differ
in it only take the same steps, since sorting the qubits of a zone by their places gives one list
whatever the list they come from. What a target does say is which qubits belong to which zone.
-/

namespace IonTrap

/-- Groups of the same qubits with the same way to go. -/
structure Group.Alike (g g' : Group) : Prop where
  source : g.source = g'.source
  target : g.target = g'.target
  qubits : g.qubits.Perm g'.qubits

/-! ## What is read off groups -/

namespace Group.Alike

variable {g g' : Group} (h : g.Alike g')
include h

section Sorted

variable {t : Trap} (ht : t.Consistent) (hg : g.Waits t) (m : CostModel) (soft : Bool) (port : Port)
include ht hg

/-- From the nearest qubit to the farthest, both groups list what stands in the chain. -/
theorem nearest : g.nearest t port = g'.nearest t port := by
  have hnodup := h.qubits.nodup_iff.1 hg.nodup
  have hmem : ∀ q ∈ g'.qubits, q ∈ t.chain g.source := fun q hq => hg.mem q (h.qubits.mem_iff.2 hq)
  have hcohort : t.cohort g.source g.qubits = t.cohort g.source g'.qubits :=
    t.cohort_congr _ fun q => h.qubits.mem_iff
  cases port with
  | p0 =>
    rw [Group.nearest, Group.nearest, ht.byDistance_p0 hg.nodup hg.mem,
      ht.byDistance_p0 hnodup hmem, hcohort]
  | p1 =>
    rw [Group.nearest, Group.nearest, ht.byDistance_p1 hg.nodup hg.mem,
      ht.byDistance_p1 hnodup hmem, hcohort]

theorem batchOf? (n : Nat) : g.batchOf? m t port n = g'.batchOf? m t port n := by
  unfold Group.batchOf?
  rw [h.nearest ht hg, h.source, h.target]

theorem portBatch? : g.portBatch? m t soft port = g'.portBatch? m t soft port := by
  have hbatch : g.batchOf? m t port = g'.batchOf? m t port :=
    funext fun n => h.batchOf? ht hg m port n
  rw [Group.portBatch?, Group.portBatch?, hbatch, h.qubits.length_eq, h.target]

theorem batch? : g.batch? m t soft = g'.batch? m t soft := by
  have hport : g.portBatch? m t soft = g'.portBatch? m t soft :=
    funext fun port => h.portBatch? ht hg m soft port
  rw [Group.batch?, Group.batch?, hport]

end Sorted

/-- Taking a batch away leaves groups alike. -/
theorem without? (b : Batch) : Option.Rel Group.Alike (g.without? b) (g'.without? b) := by
  have hleft := h.qubits.filter (!b.qubits.contains ·)
  have hempty : (g.qubits.filter (!b.qubits.contains ·)).isEmpty
      = (g'.qubits.filter (!b.qubits.contains ·)).isEmpty := by
    rw [Bool.eq_iff_iff, List.isEmpty_iff, List.isEmpty_iff]
    exact ⟨fun hnil => (hnil ▸ hleft).nil_eq.symm, fun hnil => (hnil ▸ hleft).eq_nil⟩
  unfold Group.without?
  rw [h.source, h.target]
  dsimp only
  rw [hempty]
  split_ifs
  · exact .none
  · exact .some ⟨rfl, rfl, hleft⟩
  · exact .some h

end Group.Alike

section Groups

variable {gs gs' : List Group} (h : List.Forall₂ Group.Alike gs gs')
include h

theorem ne_nil_alike (hne : gs ≠ []) : gs' ≠ [] := by
  rintro rfl
  exact hne (List.forall₂_nil_right_iff.1 h)

theorem remaining_alike : remaining gs = remaining gs' := by
  have hlengths : gs.map (·.qubits.length) = gs'.map (·.qubits.length) := by
    rw [← List.forall₂_eq_eq_eq]
    exact List.rel_map (fun _ _ hg => hg.qubits.length_eq) h
  rw [remaining, remaining, hlengths]

theorem hasSpace_alike (t : Trap) (soft : Bool) : t.hasSpace gs soft = t.hasSpace gs' soft := by
  have hany : ∀ z, gs.any (·.target == z) = gs'.any (·.target == z) := by
    intro z
    induction h with
    | nil => rfl
    | cons hg _ ih => rw [List.any_cons, List.any_cons, hg.target, ih]
  have hzones : t.targetZones gs = t.targetZones gs' := List.filter_congr fun z _ => hany z
  rw [Trap.hasSpace, Trap.hasSpace, hzones]

theorem batchAmong?_alike {t : Trap} (ht : t.Consistent) (hgs : ∀ g ∈ gs, g.Waits t)
    (m : CostModel) (soft : Bool) : batchAmong? m t soft gs = batchAmong? m t soft gs' := by
  have hbatches : gs.filterMap (·.batch? m t soft) = gs'.filterMap (·.batch? m t soft) := by
    induction h with
    | nil => rfl
    | cons hg _ ih =>
      obtain ⟨hw, hgs⟩ := List.forall_mem_cons.1 hgs
      rw [List.filterMap_cons, List.filterMap_cons, hg.batch? ht hw, ih hgs]
  rw [batchAmong?, batchAmong?, hbatches]

theorem nextBatch?_alike {t : Trap} (ht : t.Consistent) (hgs : ∀ g ∈ gs, g.Waits t)
    (m : CostModel) (forced : Option Nat) (soft : Bool) :
    nextBatch? m t gs forced soft = nextBatch? m t gs' forced soft := by
  cases forced with
  | none => exact batchAmong?_alike h ht hgs m soft
  | some z =>
    have hleaving : List.Forall₂ Group.Alike (gs.filter (·.source == z))
        (gs'.filter (·.source == z)) :=
      List.rel_filter (fun _ _ hg => by simp only [hg.source]) h
    rw [nextBatch?, nextBatch?, batchAmong?_alike h ht hgs,
      batchAmong?_alike hleaving ht fun g hg => hgs g (List.mem_of_mem_filter hg)]

theorem removeBatch_alike (b : Batch) :
    List.Forall₂ Group.Alike (removeBatch gs b) (removeBatch gs' b) :=
  List.rel_filterMap (fun _ _ hg => hg.without? b) h

end Groups

/-! ## Journeys in lockstep -/

namespace Journey

variable {m : CostModel} {t : Trap} {target : Placement} {j : Journey} {gs : List Group}

/-- With the qubits of its groups listed otherwise, a journey takes the same step. -/
theorem step_relisted (hj : Underway t target j) (h : List.Forall₂ Group.Alike j.groups gs) :
    (∃ e, j.step m = .error e ∧ { j with groups := gs }.step m = .error e) ∨
      ∃ j' gs', j.step m = .ok j' ∧ { j with groups := gs }.step m = .ok { j' with groups := gs' } ∧
        List.Forall₂ Group.Alike j'.groups gs' := by
  unfold step
  dsimp only
  -- whether there is space, which batch is next and how many qubits are left: nothing else of the
  -- groups is looked at
  simp only [← hasSpace_alike h, ← remaining_alike h,
    ← nextBatch?_alike h hj.reaches.follows.consistent hj.pending.waits]
  split
  · exact .inl ⟨_, rfl, rfl⟩
  split
  · split
    · exact .inl ⟨_, rfl, rfl⟩
    · exact .inr ⟨_, gs, rfl, rfl, h⟩
  · next b _ =>
    split
    · exact .inl ⟨_, rfl, rfl⟩
    · exact .inr ⟨_, removeBatch gs b, rfl, rfl, removeBatch_alike h b⟩

/-- So it runs to the same end. -/
theorem run_relisted (hlegal : t.arch.Legal) (ht : target.Fits t.arch t.numQubits)
    (hj : Underway t target j) (h : List.Forall₂ Group.Alike j.groups gs) :
    { j with groups := gs }.run m = j.run m := by
  fun_induction Journey.run m j generalizing gs with
  | case1 j hempty =>
    rw [List.isEmpty_iff.1 hempty, List.forall₂_nil_left_iff] at h
    rw [run, if_pos (by rw [h]; rfl)]
    rfl
  | case2 j hne t e hs =>
    have hgs : gs ≠ [] := ne_nil_alike h (by simpa using hne)
    obtain ⟨e', he, hs'⟩ | ⟨j', gs', hok, -⟩ := step_relisted (m := m) hj h
    · rw [hs] at he
      obtain rfl := Except.error.inj he
      exact run_of_error hgs hs'
    · simp [hs] at hok
  | case3 j hne j' hs _ ih =>
    have hgs : gs ≠ [] := ne_nil_alike h (by simpa using hne)
    obtain ⟨e, he, -⟩ | ⟨k, gs', hok, hs', hgs'⟩ := step_relisted (m := m) hj h
    · simp [hs] at he
    · rw [hs] at hok
      obtain rfl := Except.ok.inj hok
      rw [run_of_step hgs hs', ih (hj.step hlegal ht hs) hgs']

end Journey

/-! ## Targets that agree on the zones -/

/-- Every zone holds the same qubits in both placements, in whatever order. -/
def Placement.SameZones (p p' : Placement) : Prop := ∀ z q, q ∈ p.getD z [] ↔ q ∈ p'.getD z []

namespace Placement

variable {p p' : Placement}

theorem SameZones.forall₂_perm {a : Architecture} {n : Nat} (h : p.SameZones p') (hp : p.Fits a n)
    (hp' : p'.Fits a n) : List.Forall₂ List.Perm p p' := by
  refine List.forall₂_iff_get.2 ⟨hp.length.trans hp'.length.symm, fun z hz hz' => ?_⟩
  have hperm := (List.perm_ext_iff_of_nodup (hp.nodup_getD z) (hp'.nodup_getD z)).2 (h z)
  rwa [List.getD_eq_getElem _ _ hz, List.getD_eq_getElem _ _ hz'] at hperm

/-- Numbering the zones keeps them side by side. -/
theorem forall₂_zipIdx (h : List.Forall₂ List.Perm p p') (k : Nat) :
    List.Forall₂ (fun x y => x.1.Perm y.1 ∧ x.2 = y.2) (p.zipIdx k) (p'.zipIdx k) := by
  induction h generalizing k with
  | nil => exact .nil
  | cons hchain _ ih => exact .cons ⟨hchain, rfl⟩ (ih (k + 1))

end Placement

namespace Trap

/-- Targets that list the same qubits give groups of the same qubits. -/
theorem groups_alike (t : Trap) {p p' : Placement} (h : List.Forall₂ List.Perm p p') :
    List.Forall₂ Group.Alike (t.groups p) (t.groups p') := by
  unfold groups
  refine List.rel_flatMap (List.forall₂_same.2 fun _ _ => rfl) ?_
  rintro s _ rfl
  refine List.rel_filterMap ?_ (Placement.forall₂_zipIdx h 0)
  rintro ⟨chain, z⟩ ⟨chain', _⟩ ⟨hchain, rfl⟩
  have hleaving : (chain.filter fun q => t.zoneOf q == s).Perm
      (chain'.filter fun q => t.zoneOf q == s) := hchain.filter _
  dsimp only
  generalize (chain.filter fun q => t.zoneOf q == s) = qs at hleaving ⊢
  generalize (chain'.filter fun q => t.zoneOf q == s) = qs' at hleaving ⊢
  cases qs with
  | nil =>
    rw [← hleaving.nil_eq]
    exact .none
  | cons q qs =>
    cases qs' with
    | nil => exact absurd hleaving.eq_nil (List.cons_ne_nil q qs)
    | cons q' qs' =>
      dsimp only
      split_ifs
      · exact .none
      · exact .some ⟨rfl, rfl, hleaving⟩

/-- Of a target only the zones matter: however it lists their qubits, the outcome, the operations,
the cost and the trap at the end are the same. And the zones do matter, for targets that are reached
with the same placement agree on them. -/
theorem routeTo_reads_zones_only {a : Architecture} (ha : a.validate = .ok ()) {t : Trap}
    (ht : Reachable a t) (m : CostModel) {p p' : Placement}
    (hp : p.validate a t.numQubits = .ok ()) (hp' : p'.validate a t.numQubits = .ok ()) :
    (p.SameZones p' → t.routeTo m p = t.routeTo m p') ∧
      ∀ t₁ t₂ r₁ r₂, t.routeTo m p = (t₁, .ok r₁) → t.routeTo m p' = (t₂, .ok r₂) →
        t₁.placement = t₂.placement → p.SameZones p' := by
  have hlegal := Architecture.legal_of_validate ha
  obtain ⟨h, rfl⟩ := ht.consistent hlegal
  have hfits := Placement.validate_eq_ok_iff.1 hp
  have hfits' := Placement.validate_eq_ok_iff.1 hp'
  constructor
  · intro hsame
    have hgroups := t.groups_alike (hsame.forall₂_perm hfits hfits')
    rw [routeTo, routeTo, checkTarget_eq_ok_iff.2 hfits, checkTarget_eq_ok_iff.2 hfits']
    exact (Journey.run_relisted hlegal hfits (Journey.underway_start h hfits) hgroups).symm
  · intro t₁ t₂ r₁ r₂ hr₁ hr₂ hplacement z q
    have hmem₁ := (routeTo_spec h hlegal hr₁).2.1 q z
    have hmem₂ := (routeTo_spec h hlegal hr₂).2.1 q z
    rw [← hmem₁, ← hmem₂, chain, chain, hplacement]

/-- Both listings of one target send the qubits of the packed line on with the same eight
shuttles. -/
theorem routeTo_reads_zones_only_packed :
    ∃ t t' r, ofPlacement .steepLine 6 [[0, 1], [2, 3], [4, 5]] = .ok t ∧
      t.routeTo .shuttleSwap [[4, 5], [0, 1], [2, 3]] = (t', .ok r) ∧
      t.routeTo .shuttleSwap [[5, 4], [0, 1], [3, 2]] = (t', .ok r) ∧ r.numShuttles = 8 := by
  obtain ⟨t, hload⟩ : ∃ t, ofPlacement .steepLine 6 [[0, 1], [2, 3], [4, 5]] = .ok t := ⟨_, rfl⟩
  have htrap := (ofPlacement_eq_ok hload).2.2
  have hcount : (t.routeTo .shuttleSwap [[4, 5], [0, 1], [2, 3]]).2.map (·.numShuttles)
      = .ok 8 := by
    rw [htrap]
    decide +kernel
  have hsame : Placement.SameZones [[4, 5], [0, 1], [2, 3]] [[5, 4], [0, 1], [3, 2]] := by
    intro z q
    rcases z with _ | _ | _ | z <;> simp [or_comm]
  have heq := (routeTo_reads_zones_only (by decide) (.loaded hload) .shuttleSwap
    (by rw [htrap]; decide) (by rw [htrap]; decide)).1 hsame
  obtain ⟨t', r, hroute, hr⟩ := exists_of_map_routeTo hcount
  exact ⟨t, t', r, hload, hroute, heq ▸ hroute, hr⟩

end Trap

end IonTrap
