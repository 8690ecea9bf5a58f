import IonTrap.Proofs.Number.Exact
import IonTrap.Proofs.Routing.Displaced

/-!
# What a route costs

A batch is priced before it moves, from the occupancies of the zones and a closed formula for the
swaps in its first zone. Its operations are found step by step. Under the tariff of the cost model
both come to the same, as far as a word can tell (`CostModel.bill_of_fromPort`), so a route reports
what its operations cost as long as the doubles that it adds up are exact.
-/

namespace IonTrap

/-! ## The price of a move -/

section Price

variable {t : Trap} (h : t.Consistent) (hlegal : t.arch.Legal) {qs : List Nat}
  {source target : Nat} {port : Port} {c : MoveCost} (hne : source ≠ target)
  (hqs : t.cohort source qs = qs)
include h hlegal hne hqs

/-- With swaps priced, a zone on the way is crossed for as much as the passage through it costs. -/
theorem CostModel.cost_of_shuttleSwap
    (hc : CostModel.shuttleSwap.fromPort t qs source target port = some c) :
    c.cost = wrap (c.bill (CostModel.shuttleSwap.tariff t.arch) t source qs) := by
  obtain ⟨way, hway, rfl⟩ := Option.map_eq_some_iff.1 hc
  obtain ⟨hturns, hnot, hcost⟩ := hlegal.path_cost h.connections_ports hne hway
  have hcross : ∀ z ∈ way.zones.tail.dropLast,
      t.ports.crossingCost qs.length z
        = wrap (qs.length * (t.without qs z).length * t.arch.swapCost z) := by
    intro z hz
    -- the cohort starts elsewhere, so every qubit of the zone is passed
    have hz : z ≠ source := fun heq => hnot (heq ▸ hz)
    rw [h.ports, PortGraph.crossingCost_loaded, h.without_eq hqs hz, h.occupancy_eq]
    congr 1
    ring
  have hswaps := h.swapCount_cohort source qs port
  rw [hqs] at hswaps
  have hcrossings : wrap (total (way.zones.tail.dropLast.map (t.ports.crossingCost qs.length)))
      = wrap (total (way.zones.tail.dropLast.map fun z =>
        qs.length * (t.without qs z).length * t.arch.swapCost z)) := by
    have hwords := wrap_total_map_wrap (way.zones.tail.dropLast.map fun z =>
      qs.length * (t.without qs z).length * t.arch.swapCost z)
    rw [List.map_map] at hwords
    rw [List.map_congr_left hcross]
    exact hwords
  show wrap (way.cost + wrap (t.swapCount qs source port * t.arch.swapCost source))
    = wrap (overtakesTo port qs.contains (t.chain source) * t.arch.swapCost source
      + (way.zones.length - 1) * shuttleCost
      + total ((t.arch.turns port way.zones).map fun z =>
        qs.length * (t.without qs z).length * t.arch.swapCost z))
  rw [hturns, hswaps, hcost, wrap_add_wrap, wrap_wrap_add, ← wrap_add_wrap _ (total _),
    ← hcrossings, wrap_add_wrap]
  congr 1
  omega

omit h hlegal hne hqs in
/-- With shuttles priced only, the price is the number of hops. -/
theorem CostModel.cost_of_shuttleOnly
    (hc : CostModel.shuttleOnly.fromPort t qs source target port = some c) :
    c.cost = c.path.length - 1 := by
  simp only [fromPort, Option.bind_eq_bind, Option.bind_eq_some_iff] at hc
  obtain ⟨way, hway, hc⟩ := hc
  have hlength : way.length = way.path.length - 1 := by
    obtain ⟨zones, -, rfl⟩ := Option.map_eq_some_iff.1 hway
    rfl
  split_ifs at hc
  split at hc
  · simp only [Option.bind_eq_some_iff] at hc
    obtain ⟨_, -, _, -, hc⟩ := hc
    obtain rfl := Option.some.inj hc
    exact hlength
  · obtain rfl := Option.some.inj hc
    exact hlength

/-- A move is charged for as it was priced, if the charge fits into a word. -/
theorem CostModel.bill_of_fromPort {m : CostModel}
    (hc : m.fromPort t qs source target port = some c)
    (hfit : c.bill (m.tariff t.arch) t source qs < wordSize) :
    c.bill (m.tariff t.arch) t source qs = c.cost := by
  cases m with
  | shuttleSwap => rw [cost_of_shuttleSwap h hlegal hne hqs hc, wrap_of_lt hfit]
  | shuttleOnly =>
    rw [c.bill_of_swap_eq_zero fun _ => rfl, cost_of_shuttleOnly hc]
    exact Nat.mul_one _

end Price

/-! ## The operations of a route -/

/-- What an operation costs in swaps. -/
def RoutingOp.swapCost (a : Architecture) : RoutingOp → Nat
  | .swap z _ _ => a.swapCost z
  | _ => 0

/-- What a route has cost by its operations: its shuttles, and in one model its swaps at the cost of
their zones. -/
def CostModel.spent (m : CostModel) (a : Architecture) (r : RoutingResult) : Nat :=
  match m with
  | .shuttleSwap => r.numShuttles + total (r.ops.map (·.swapCost a))
  | .shuttleOnly => r.numShuttles

theorem CostModel.spent_eq_bill (m : CostModel) (a : Architecture) (r : RoutingResult) :
    m.spent a r = (m.tariff a).bill r.ops := by
  obtain ⟨cost, ops⟩ := r
  induction ops with
  | nil => cases m <;> rfl
  | cons op ops ih =>
    rw [Tariff.bill_cons, ← ih]
    -- an operation adds its charge, whichever of the two sums it belongs to
    cases m <;> cases op <;>
      simp [spent, RoutingResult.numShuttles, RoutingOp.swapCost, tariff, Tariff.charge,
        RoutingOp.isShuttle, shuttleCost] <;>
      omega

namespace Journey

variable {t : Trap} {target : Placement} {m : CostModel} {j j' : Journey}

/-- A journey under way whose cost is that of its log, if that is small enough. -/
structure Accounted (m : CostModel) (t : Trap) (target : Placement) (j : Journey) : Prop
    extends Underway t target j where
  exact : (m.tariff t.arch).bill j.ops < twoPow Double.precision →
    j.cost = .ofNat ((m.tariff t.arch).bill j.ops)

theorem Moves.bill_eq {soft : Bool} {b : Batch} {p : Progress} (hlegal : t.arch.Legal)
    (hj : Underway t target j) (hmoves : Moves m target j soft b p)
    (hfit : (m.tariff t.arch).bill p.ops < wordSize) :
    (m.tariff t.arch).bill p.ops = (m.tariff t.arch).bill j.ops + b.move.cost := by
  have harch : j.trap.arch = t.arch := hj.reaches.follows.arch
  obtain ⟨g, hg, hpart⟩ := hmoves.part
  have hne : b.source ≠ b.target := by
    rw [← hpart.1, ← hpart.2.1]
    exact hj.pending.ne g hg
  obtain ⟨port, hprice⟩ := hmoves.movable.priced
  have hbill := hmoves.delivers.bill (m.tariff t.arch)
  rw [m.barrier_tariff, Nat.add_zero] at hbill
  rw [hbill] at hfit ⊢
  rw [← CostModel.bill_of_fromPort hj.reaches.follows.consistent (harch ▸ hlegal) hne
    hmoves.movable.cohort hprice (by rw [harch]; omega), harch]

theorem Accounted.step (hlegal : t.arch.Legal) (ht : target.Fits t.arch t.numQubits)
    (hj : Accounted m t target j) (h : j.step m = .ok j') : Accounted m t target j' := by
  have hunder : Underway t target j' := hj.toUnderway.step hlegal ht h
  rcases hj.toUnderway.step_cases hlegal ht h with rfl | ⟨soft, b, p, hmoves, rfl⟩
  · exact ⟨hunder, hj.exact⟩
  refine ⟨hunder, fun hsmall => ?_⟩
  change (m.tariff t.arch).bill p.ops < _ at hsmall
  have hfit : (m.tariff t.arch).bill p.ops < wordSize := hsmall.trans (by decide)
  change j.cost.addMagnitude (.ofNat b.move.cost) = .ofNat ((m.tariff t.arch).bill p.ops)
  -- the bill so far is no larger, so the cost so far is exact as well
  rw [hmoves.bill_eq hlegal hj.toUnderway hfit] at hsmall ⊢
  rw [hj.exact (by omega), Double.addMagnitude_ofNat hsmall]

theorem accounted_start (m : CostModel) (h : t.Consistent) (ht : target.Fits t.arch t.numQubits) :
    Accounted m t target (start t target) :=
  ⟨underway_start h ht, fun _ => Double.zero_eq_ofNat⟩

/-- The closing barrier is free. -/
theorem bill_result (m : CostModel) (a : Architecture) (j : Journey) :
    (m.tariff a).bill j.result.ops = (m.tariff a).bill j.ops := by
  unfold result
  split_ifs with hempty
  · rw [List.isEmpty_iff.1 hempty]
  · rw [Tariff.bill_append]
    change _ + (m.tariff a).barrier = _
    rw [m.barrier_tariff, Nat.add_zero]

end Journey

/-- A route reports exactly what its operations cost, as long as that is below `2 ^ 53`. -/
theorem Trap.routeTo_cost_exact {a : Architecture} (ha : a.validate = .ok ()) {t t' : Trap}
    (ht : Reachable a t) {m : CostModel} {target : Placement} {r : RoutingResult}
    (hr : t.routeTo m target = (t', .ok r)) (hsmall : m.spent a r < twoPow Double.precision) :
    r.cost.toRat = m.spent a r := by
  have hlegal := Architecture.legal_of_validate ha
  obtain ⟨h, rfl⟩ := ht.consistent hlegal
  obtain ⟨e, fault, -, herror⟩ | ⟨hfits, hrun⟩ := routeTo_cases m t target
  · simp [herror] at hr
  rw [hrun] at hr
  obtain ⟨j, hj, -, -, rfl⟩ := Journey.exists_of_run_ok
    (fun j j' hj hs => hj.step hlegal hfits hs) (Journey.accounted_start m h hfits) hr
  rw [m.spent_eq_bill, j.bill_result] at hsmall ⊢
  show j.cost.toRat = _
  rw [hj.exact hsmall, Double.toRat_ofNat hsmall]

/-- Sending every qubit of the packed line on takes eight shuttles, and swaps that cost 42. -/
theorem Trap.routeTo_cost_exact_packed :
    ∃ t t' r, ofPlacement .steepLine 6 [[0, 1], [2, 3], [4, 5]] = .ok t ∧
      t.routeTo .shuttleSwap [[4, 5], [0, 1], [2, 3]] = (t', .ok r) ∧ r.numShuttles = 8 ∧
      CostModel.shuttleSwap.spent .steepLine r = 8 + 42 ∧
      r.cost.toRat = CostModel.shuttleSwap.spent .steepLine r := by
  have hvalid : Architecture.steepLine.validate = .ok () := by decide
  obtain ⟨t, hload⟩ : ∃ t, ofPlacement .steepLine 6 [[0, 1], [2, 3], [4, 5]] = .ok t := ⟨_, rfl⟩
  have hcosts : (t.routeTo .shuttleSwap [[4, 5], [0, 1], [2, 3]]).2.map
      (fun r => (r.numShuttles, CostModel.shuttleSwap.spent .steepLine r)) = .ok (8, 50) := by
    rw [(ofPlacement_eq_ok hload).2.2]
    decide +kernel
  obtain ⟨t', r, hroute, hcost⟩ := exists_of_map_routeTo hcosts
  obtain ⟨hshuttles, hspent⟩ := Prod.mk.inj hcost
  refine ⟨t, t', r, hload, hroute, hshuttles, hspent, ?_⟩
  refine routeTo_cost_exact hvalid (.loaded hload) hroute ?_
  rw [hspent]
  decide

end IonTrap
