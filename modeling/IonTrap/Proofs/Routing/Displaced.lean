import IonTrap.Proofs.Routing.Journey
import IonTrap.Proofs.Trap.Reachable

/-!
# Displaced qubits

A route has to move the qubits whose zone differs from the one that the target gives them, its
displaced qubits. A batch brings at least one of them home and no other qubit changes its zone
(`Journey.Homeward`). So a route that ends took at most as many batches as qubits were displaced,
and one that fails leaves every qubit where it was or where it belongs and reports how many are
still displaced.
-/

namespace IonTrap

/-! ## Counting them -/

/-- The qubits below `n` whose zones differ. -/
def Placement.displaced (n : Nat) (p target : Placement) : List Nat :=
  (List.range n).filter fun q => p.zoneOf? q != target.zoneOf? q

theorem Placement.mem_displaced_iff {n q : Nat} {p target : Placement}
    (hp : p.flatten.Perm (List.range n)) (ht : target.flatten.Perm (List.range n)) :
    q ∈ displaced n p target ↔ ∃ z, q ∈ target.getD z [] ∧ q ∉ p.getD z [] := by
  rw [displaced, List.mem_filter, List.mem_range, bne_iff_ne]
  constructor
  · intro ⟨hq, hne⟩
    obtain ⟨z, i, hi⟩ := exists_getElem?_of_mem_flatten (ht.mem_iff.2 (List.mem_range.2 hq))
    have hz : q ∈ target.getD z [] := List.mem_of_getElem? hi
    refine ⟨z, hz, fun hin => hne ?_⟩
    rw [(zoneOf?_eq_some_iff hp).2 hin, (zoneOf?_eq_some_iff ht).2 hz]
  · intro ⟨z, hz, hnot⟩
    have hq : q < n := List.mem_range.1 (ht.mem_iff.1 (Nested.mem_flatten_iff.2 ⟨_, hz⟩))
    refine ⟨hq, fun heq => hnot ?_⟩
    rw [← zoneOf?_eq_some_iff hp, heq, zoneOf?_eq_some_iff ht]
    exact hz

theorem length_flatMap_qubits (gs : List Group) :
    (gs.flatMap (·.qubits)).length = remaining gs := by
  induction gs with
  | nil => rfl
  | cons g gs ih =>
    rw [List.flatMap_cons, List.length_append, ih]
    rfl

namespace Trap

variable {t : Trap} {target : Placement} {gs : List Group} {m : CostModel}

/-- The groups hold as many qubits as are displaced. -/
theorem Pending.remaining_eq (h : t.Consistent) (ht : target.Fits t.arch t.numQubits)
    (hp : t.Pending target gs) :
    remaining gs = (Placement.displaced t.numQubits t.placement target).length := by
  rw [← length_flatMap_qubits]
  -- both sides list the misplaced qubits, each once
  have hnodup : (Placement.displaced t.numQubits t.placement target).Nodup :=
    List.nodup_range.filter _
  refine ((List.perm_ext_iff_of_nodup hp.distinct hnodup).2 fun q => ?_).length_eq
  rw [Placement.mem_displaced_iff h.perm_flatten ht.perm, List.mem_flatMap]
  constructor
  · intro ⟨g, hg, hq⟩
    obtain ⟨hsource, htarget⟩ := hp.mem g hg q hq
    exact ⟨g.target, htarget, fun hin => hp.ne g hg (h.eq_of_mem hsource hin)⟩
  · intro ⟨z, hz, hnot⟩
    exact hp.cover q z hz hnot

theorem Pending.eq_nil_of_remaining (hp : t.Pending target gs) (hzero : remaining gs = 0) :
    gs = [] := by
  cases gs with
  | nil => rfl
  | cons g gs =>
    have hpos : 0 < g.qubits.length := List.length_pos_iff.2 (hp.nonempty g List.mem_cons_self)
    change g.qubits.length + remaining gs = 0 at hzero
    omega

/-- Where no qubit is displaced nothing is done. -/
theorem routeTo_of_displaced_eq_nil (m : CostModel) (h : t.Consistent)
    (ht : target.Fits t.arch t.numQubits)
    (hnone : Placement.displaced t.numQubits t.placement target = []) :
    t.routeTo m target = (t, .ok ⟨.zero, []⟩) := by
  have hgroups : t.groups target = [] := by
    have hp := h.pending_groups ht
    refine hp.eq_nil_of_remaining ?_
    rw [hp.remaining_eq h ht, hnone, List.length_nil]
  rw [routeTo, checkTarget_eq_ok_iff.2 ht]
  change (Journey.start t target).run m = _
  rw [Journey.run, Journey.start, hgroups]
  rfl

end Trap

/-! ## What every batch does about them -/

namespace Journey

variable {t : Trap} {target : Placement} {m : CostModel} {j j' : Journey}

/-- A journey under way that has logged no more barriers than qubits came home, and has left all
qubits where they were or where they belong. -/
structure Homeward (t : Trap) (target : Placement) (j : Journey) : Prop
    extends Underway t target j where
  barriers : j.ops.countP (·.isBarrier) + remaining j.groups ≤ remaining (t.groups target)
  nearby : ∀ q z, q ∈ j.trap.chain z → q ∈ t.chain z ∨ q ∈ target.getD z []

theorem Moves.countP_barrier {soft : Bool} {b : Batch} {p : Progress}
    (hmoves : Moves m target j soft b p) :
    p.ops.countP (·.isBarrier) = j.ops.countP (·.isBarrier) + 1 := by
  have hbill := hmoves.delivers.bill .barriers
  rw [b.move.bill_of_swap_eq_zero fun _ => rfl, Tariff.bill_barriers, Tariff.bill_barriers] at hbill
  rw [hbill]
  rfl

theorem Homeward.step (hlegal : t.arch.Legal) (ht : target.Fits t.arch t.numQubits)
    (hj : Homeward t target j) (h : j.step m = .ok j') : Homeward t target j' := by
  have hunder : Underway t target j' := hj.toUnderway.step hlegal ht h
  rcases hj.toUnderway.step_cases hlegal ht h with rfl | ⟨soft, b, p, hmoves, rfl⟩
  · exact ⟨hunder, hj.barriers, hj.nearby⟩
  refine ⟨hunder, ?_, fun q z hq => ?_⟩
  · have hlt := remaining_removeBatch_lt hmoves.part
    have hbefore := hj.barriers
    change p.ops.countP (·.isBarrier) + remaining (removeBatch j.groups b) ≤ _
    rw [hmoves.countP_barrier]
    omega
  · obtain ⟨side, hcarry⟩ := hmoves.delivers.carries
    rcases (hcarry.mem_chain_iff q z).1 hq with ⟨hin, rfl⟩ | ⟨-, hin⟩
    · -- a qubit of the batch is in the zone that its group goes to
      obtain ⟨g, hg, -, htarget, -, hsub⟩ := hmoves.part
      right
      rw [← htarget]
      exact (hj.pending.mem g hg q (hsub q hin)).2
    · exact hj.nearby q z hin

theorem homeward_start (h : t.Consistent) (ht : target.Fits t.arch t.numQubits) :
    Homeward t target (start t target) := by
  refine ⟨underway_start h ht, ?_, fun q z hq => .inl hq⟩
  change 0 + remaining (t.groups target) ≤ remaining (t.groups target)
  omega

/-- The closing barrier is the only one that opens no batch. -/
theorem countP_result_le (j : Journey) :
    j.result.ops.countP (·.isBarrier) ≤ j.ops.countP (·.isBarrier) + 1 := by
  unfold result
  split
  · exact Nat.zero_le _
  · dsimp only
    rw [List.countP_append]
    exact Nat.le_refl _

end Journey

namespace Trap

variable {a : Architecture} {t t' : Trap} {target : Placement} {m : CostModel}

/-- A route that ends has brought every zone the qubits of the target. Its operations replay to the
trap it leaves, the batches it took are no more than the qubits that were displaced, and with no
qubit displaced it does nothing. -/
theorem routeTo_arrives {r : RoutingResult} (ha : a.validate = .ok ()) (ht : Reachable a t)
    (hr : t.routeTo m target = (t', .ok r)) :
    (∀ z, (t'.chain z).Perm (target.getD z [])) ∧ t.replayOps r.ops = .ok t' ∧
      r.ops.countP (·.isBarrier)
        ≤ (Placement.displaced t.numQubits t.placement target).length + 1 ∧
      (Placement.displaced t.numQubits t.placement target = [] → r.ops = [] ∧ t' = t) := by
  have hlegal := Architecture.legal_of_validate ha
  obtain ⟨h, rfl⟩ := ht.consistent hlegal
  obtain ⟨-, -, hreplay⟩ := routeTo_spec h hlegal hr
  have hperm := perm_of_routeTo h hlegal hr
  obtain ⟨e, fault, -, herror⟩ | ⟨hfits, hrun⟩ := routeTo_cases m t target
  · simp [herror] at hr
  refine ⟨hperm, hreplay, ?_, fun hnone => ?_⟩
  · -- all that was to be moved was moved, so the barriers are bounded by what there was
    rw [hrun] at hr
    obtain ⟨j, hj, -, -, rfl⟩ := Journey.exists_of_run_ok
      (fun j j' hj hs => hj.step hlegal hfits hs) (Journey.homeward_start h hfits) hr
    rw [← (h.pending_groups hfits).remaining_eq h hfits]
    have hbarriers := hj.barriers
    have hresult := j.countP_result_le
    omega
  · rw [routeTo_of_displaced_eq_nil m h hfits hnone] at hr
    obtain ⟨htrap, hresult⟩ := Prod.mk.inj hr
    rw [← Except.ok.inj hresult]
    exact ⟨rfl, htrap.symm⟩

theorem exists_of_map_routeTo {α : Type} {f : RoutingResult → α} {x : α}
    (h : (t.routeTo m target).2.map f = .ok x) :
    ∃ t' r, t.routeTo m target = (t', .ok r) ∧ f r = x := by
  obtain ⟨r, hr, hx⟩ := map_eq_ok_iff.1 h
  exact ⟨(t.routeTo m target).1, r, by rw [← hr], hx⟩

/-- On the packed line all six qubits are displaced, and they take six batches. -/
theorem routeTo_arrives_packed :
    ∃ t t' r, ofPlacement .steepLine 6 [[0, 1], [2, 3], [4, 5]] = .ok t ∧
      t.routeTo .shuttleSwap [[4, 5], [0, 1], [2, 3]] = (t', .ok r) ∧
      r.ops.countP (·.isBarrier) = 6 + 1 ∧
      (∀ z, (t'.chain z).Perm ([[4, 5], [0, 1], [2, 3]].getD z [])) ∧
      t.replayOps r.ops = .ok t' ∧
      r.ops.countP (·.isBarrier) ≤ (Placement.displaced t.numQubits t.placement
        [[4, 5], [0, 1], [2, 3]]).length + 1 := by
  have hvalid : Architecture.steepLine.validate = .ok () := by decide
  obtain ⟨t, hload⟩ : ∃ t, ofPlacement .steepLine 6 [[0, 1], [2, 3], [4, 5]] = .ok t := ⟨_, rfl⟩
  have hbarriers : (t.routeTo .shuttleSwap [[4, 5], [0, 1], [2, 3]]).2.map
      (·.ops.countP (·.isBarrier)) = .ok 7 := by
    rw [(ofPlacement_eq_ok hload).2.2]
    decide +kernel
  obtain ⟨t', r, hroute, hcount⟩ := exists_of_map_routeTo hbarriers
  obtain ⟨hperm, hreplay, hle, -⟩ := routeTo_arrives hvalid (.loaded hload) hroute
  exact ⟨t, t', r, hload, hroute, hcount, hperm, hreplay, hle⟩

/-- A route that fails has refused the target and done nothing, or it reports how many qubits are
still displaced. Each qubit is then in the zone where it was or in the one where it belongs, and the
trap passes its check. -/
theorem routeTo_strands_nobody {e : CompileError} (ha : a.validate = .ok ()) (ht : Reachable a t)
    (hr : t.routeTo m target = (t', .error e)) :
    ((∃ fault, target.validate a t.numQubits = .error fault) ∧ t' = t) ∨
      (target.validate a t.numQubits = .ok () ∧
        e = .infeasible (Placement.displaced t.numQubits t'.placement target).length ∧
        (∀ q < t.numQubits, ∃ z, q ∈ t'.chain z ∧ (q ∈ t.chain z ∨ q ∈ target.getD z [])) ∧
        t'.checkInvariants = .ok ()) := by
  have hlegal := Architecture.legal_of_validate ha
  obtain ⟨h, rfl⟩ := ht.consistent hlegal
  obtain ⟨e', fault, hfault, herror⟩ | ⟨hfits, hrun⟩ := routeTo_cases m t target
  · rw [herror] at hr
    exact .inl ⟨⟨fault, hfault⟩, (Prod.mk.inj hr).1.symm⟩
  rw [hrun] at hr
  obtain ⟨j, hj, hstep⟩ := Journey.exists_of_run_error
    (fun j j' hj hs => hj.step hlegal hfits hs) (Journey.homeward_start h hfits) hr
  obtain ⟨rfl, rfl⟩ := hj.toUnderway.step_eq_error hlegal hfits hstep
  have hfollows : t.Follows j.trap := hj.reaches.follows
  have hconsistent : j.trap.Consistent := hfollows.consistent
  refine .inr ⟨Placement.validate_eq_ok_iff.2 hfits, ?_, fun q hq => ?_,
    hconsistent.checkInvariants⟩
  · rw [hj.pending.remaining_eq hconsistent (by rwa [hfollows.arch, hfollows.numQubits]),
      hfollows.numQubits]
  · rw [← hfollows.numQubits] at hq
    have hin : q ∈ j.trap.chain (j.trap.zoneOf q) := hconsistent.mem_chain_iff.2 ⟨hq, rfl⟩
    exact ⟨_, hin, hj.nearby q _ hin⟩

end Trap

/-- Two zones in a line, and a third that nothing joins. -/
def brokenLine : Architecture := ⟨6, [.gate 2, .gate 2, .gate 2], [.chain 0 1]⟩

/-- Qubit 2 cannot get to the third zone. The route fails once qubit 0 has been moved. -/
theorem Trap.routeTo_strands_nobody_broken :
    ∃ t t', ofPlacement brokenLine 3 [[0, 2], [1], []] = .ok t ∧
      t.routeTo .shuttleSwap [[], [0, 1], [2]] = (t', .error (.infeasible 1)) ∧
      t'.placement = [[2], [0, 1], []] ∧
      1 = (Placement.displaced t.numQubits t'.placement [[], [0, 1], [2]]).length ∧
      (∀ q < t.numQubits,
        ∃ z, q ∈ t'.chain z ∧ (q ∈ t.chain z ∨ q ∈ [[], [0, 1], [2]].getD z [])) ∧
      t'.checkInvariants = .ok () := by
  have hvalid : brokenLine.validate = .ok () := by decide
  obtain ⟨t, hload⟩ : ∃ t, ofPlacement brokenLine 3 [[0, 2], [1], []] = .ok t := ⟨_, rfl⟩
  have htrap := (ofPlacement_eq_ok hload).2.2
  have htarget : Placement.validate brokenLine t.numQubits [[], [0, 1], [2]] = .ok () := by
    rw [htrap]
    decide
  have hfails : (t.routeTo .shuttleSwap [[], [0, 1], [2]]).2 = .error (.infeasible 1) ∧
      (t.routeTo .shuttleSwap [[], [0, 1], [2]]).1.placement = [[2], [0, 1], []] := by
    rw [htrap]
    decide +kernel
  have hroute : t.routeTo .shuttleSwap [[], [0, 1], [2]]
      = ((t.routeTo .shuttleSwap [[], [0, 1], [2]]).1, .error (.infeasible 1)) := by
    rw [← hfails.1]
  rcases routeTo_strands_nobody hvalid (.loaded hload) hroute with
    ⟨⟨fault, hfault⟩, -⟩ | ⟨-, he, hnear, hcheck⟩
  · rw [htarget] at hfault
    simp at hfault
  · exact ⟨t, _, hload, hroute, hfails.2, CompileError.infeasible.inj he, hnear, hcheck⟩

end IonTrap
