import IonTrap.Proofs.Routing.Balance

/-!
# The discipline of soft-lock

Between two batches a zone may hold a qubit more than its gate capacity. The router falls back on
any group that can move when none leaves the zone it is forced to leave, so nothing in its code
makes the next batch leave that zone. On a connected trap with a spare spot in every zone the
fallback is never taken: whatever journey a run passes through (`Journey.Passes`), it is balanced,
and a balanced journey serves its overfull zone next (`Journey.Balanced.exists_batch`).
-/

namespace IonTrap

namespace Journey

variable {t : Trap} {target : Placement} {m : CostModel} {j j' : Journey}

/-- The journeys that a run passes through. It goes on as long as groups are left. -/
inductive Passes (m : CostModel) (j : Journey) : Journey → Prop
  | start : Passes m j j
  | step {j₁ j₂ : Journey} (h : Passes m j j₁) (hgroups : j₁.groups ≠ [])
      (hs : j₁.step m = .ok j₂) : Passes m j j₂

/-- A run and its rest end alike. -/
theorem Passes.run_eq (h : Passes m j j') : j.run m = j'.run m := by
  induction h with
  | start => rfl
  | step _ hgroups hs ih => rw [ih, run_of_step hgroups hs]

/-- A run from a settled trap passes through balanced journeys only. -/
theorem Passes.balanced (hlegal : t.arch.Legal) (hconn : t.arch.Connected) (hspare : t.arch.Spare)
    (ht : target.Fits t.arch t.numQubits) (h : Passes m j j') (hu : Underway t target j)
    (hj : j.Balanced) : Underway t target j' ∧ j'.Balanced := by
  induction h with
  | start => exact ⟨hu, hj⟩
  | step _ hgroups hs ih =>
    refine ⟨ih.1.step hlegal ht hs, ?_⟩
    obtain ⟨b, p, -, -, -, -, hbalanced, -, hs'⟩ :=
      ih.2.exists_batch (m := m) hlegal hconn hspare ht ih.1 hgroups rfl
    rwa [hs' _ hs]

/-- A zone above its capacity is the one that must be left. -/
theorem Balanced.forced_eq (hj : j.Balanced) {z : Nat}
    (hz : j.trap.arch.gateCapacity z < j.trap.occupancy z) : j.forced = some z := by
  by_contra hne
  have := hj.others z hne
  omega

/-- A zone above its capacity holds a qubit that has to leave. -/
theorem Underway.groups_ne_nil (ht : target.Fits t.arch t.numQubits) (hu : Underway t target j)
    {z : Nat} (hz : j.trap.arch.gateCapacity z < j.trap.occupancy z) : j.groups ≠ [] := by
  have h : j.trap.Consistent := hu.reaches.follows.consistent
  have harch : j.trap.arch = t.arch := hu.reaches.follows.arch
  have hn : j.trap.numQubits = t.numQubits := hu.reaches.follows.numQubits
  intro hnil
  have hp := hu.pending
  rw [hnil] at hp
  have hlen : (target.getD z []).length < j.trap.occupancy z := by
    have := ht.length_le z
    rw [harch] at hz
    omega
  obtain ⟨q, hq, hnot⟩ := h.exists_misplaced hlen
  rw [← harch, ← hn] at ht
  exact hnot ((hp.mem_chain_iff h ht q z).1 hq)

end Journey

/-- On a connected trap with a spare spot in every zone, take any journey that a route from a
settled trap passes through, between one batch and the next. At most one zone is then above its gate
capacity. If there is one, it is above by one qubit, soft-lock has been entered, and the step that
comes next carries out a batch of qubits of that zone. The step is taken whenever the spots of the
zones can be counted. -/
theorem Trap.routeTo_leaves_overfull_next {a : Architecture} (ha : a.validate = .ok ())
    (hconn : a.Connected) (hspare : a.Spare) {t : Trap} (ht : Reachable a t) (hsettled : t.Settled)
    {target : Placement} (htarget : target.validate a t.numQubits = .ok ()) {m : CostModel}
    {j : Journey} (hj : (Journey.start t target).Passes m j) :
    t.routeTo m target = j.run m ∧
      ∀ z, a.gateCapacity z < (j.trap.chain z).length →
        (j.trap.chain z).length = a.gateCapacity z + 1 ∧
        (∀ w, a.gateCapacity w < (j.trap.chain w).length → w = z) ∧
        j.soft = true ∧
        ∃ b p, nextBatch? m j.trap j.groups j.forced true = some b ∧ b.source = z ∧
          b.qubits ≠ [] ∧ (∀ q ∈ b.qubits, q ∈ j.trap.chain z) ∧
          Progress.execute ⟨j.trap, j.ops⟩ b.source b.qubits b.move = .ok p ∧
          (∀ j', j.step m = .ok j' → j' = j.afterBatch true b p) ∧
          (a.Countable → j.step m = .ok (j.afterBatch true b p)) := by
  have hlegal := Architecture.legal_of_validate ha
  obtain ⟨h, rfl⟩ := ht.consistent hlegal
  have hfits := Placement.validate_eq_ok_iff.1 htarget
  have hrun : t.routeTo m target = j.run m := by
    rw [routeTo, checkTarget_eq_ok_iff.2 hfits]
    exact hj.run_eq
  obtain ⟨hu, hbalanced⟩ := hj.balanced hlegal hconn hspare hfits (Journey.underway_start h hfits)
    (Journey.balanced_start hsettled target)
  have harch : j.trap.arch = t.arch := hu.reaches.follows.arch
  have hocc : ∀ w, j.trap.occupancy w = (j.trap.chain w).length :=
    hu.reaches.follows.consistent.occupancy_eq
  have hover : ∀ w, t.arch.gateCapacity w < (j.trap.chain w).length →
      j.trap.arch.gateCapacity w < j.trap.occupancy w := by
    intro w hw
    rwa [harch, hocc]
  refine ⟨hrun, fun z hz => ?_⟩
  have hforced := hbalanced.forced_eq (hover z hz)
  obtain ⟨hsoft, hone⟩ := hbalanced.forced z hforced
  rw [hocc, harch] at hone
  have hgroups := hu.groups_ne_nil hfits (hover z hz)
  have hstill : true = (j.soft || !j.trap.hasSpace j.groups false) := by rw [hsoft, Bool.true_or]
  obtain ⟨b, p, hb, hexec, hmoves, hsource, -, hstep, honly⟩ :=
    hbalanced.exists_batch (m := m) hlegal hconn hspare hfits hu hgroups hstill
  refine ⟨hone, fun w hw => ?_, hsoft, b, p, hb, hsource z hforced, ?_, fun q hq => ?_, hexec,
    honly, hstep⟩
  · -- only one zone can be the one to be left
    have hforced' := hbalanced.forced_eq (hover w hw)
    rw [hforced] at hforced'
    exact (Option.some.inj hforced').symm
  · obtain ⟨g, -, -, -, hne, -⟩ := hmoves.part
    exact hne
  · rw [← hsource z hforced]
    exact mem_chain_of_cohort hmoves.movable.cohort hq

/-- On the packed line the first batch takes the middle zone above its capacity, and the second one
leaves it. -/
theorem Trap.routeTo_leaves_overfull_next_packed :
    ∃ t j, ofPlacement .steepLine 6 [[0, 1], [2, 3], [4, 5]] = .ok t ∧
      (Journey.start t [[4, 5], [0, 1], [2, 3]]).Passes .shuttleSwap j ∧
      j.trap.placement = [[0], [1, 2, 3], [4, 5]] ∧
      (∀ w, Architecture.steepLine.gateCapacity w < (j.trap.chain w).length → w = 1) ∧
      j.soft = true ∧
      ∃ b p, b.source = 1 ∧ j.step .shuttleSwap = .ok (j.afterBatch true b p) := by
  have hvalid : Architecture.steepLine.validate = .ok () := by decide
  have hspare : Architecture.steepLine.Spare := by
    unfold Architecture.Spare
    decide
  have hcount : Architecture.steepLine.Countable := by
    unfold Architecture.Countable
    decide
  obtain ⟨t, hload⟩ : ∃ t, ofPlacement .steepLine 6 [[0, 1], [2, 3], [4, 5]] = .ok t := ⟨_, rfl⟩
  have hsettled := settled_ofPlacement (Architecture.legal_of_validate hvalid) hload
  have htrap := (ofPlacement_eq_ok hload).2.2
  have htarget : Placement.validate .steepLine t.numQubits [[4, 5], [0, 1], [2, 3]] = .ok () := by
    rw [htrap]
    decide
  have hfirst : ((Journey.start t [[4, 5], [0, 1], [2, 3]]).step .shuttleSwap).map
      (·.trap.placement) = .ok [[0], [1, 2, 3], [4, 5]] := by
    rw [htrap]
    decide +kernel
  obtain ⟨j, hs, hplacement⟩ := map_eq_ok_iff.1 hfirst
  have hpasses : (Journey.start t [[4, 5], [0, 1], [2, 3]]).Passes .shuttleSwap j := by
    refine .step .start ?_ hs
    rw [htrap]
    decide +kernel
  have hover : Architecture.steepLine.gateCapacity 1 < (j.trap.chain 1).length := by
    rw [chain, hplacement]
    decide
  obtain ⟨-, hall⟩ := routeTo_leaves_overfull_next hvalid Architecture.connected_steepLine hspare
    (.loaded hload) hsettled htarget hpasses
  obtain ⟨-, hunique, hsoft, b, p, -, hsource, -, -, -, -, hstep⟩ := hall 1 hover
  exact ⟨t, j, hload, hpasses, hplacement, hunique, hsoft, b, p, hsource, hstep hcount⟩

end IonTrap
