import IonTrap.Proofs.Compile.ProgramOrder
import IonTrap.Proofs.RoutedCircuit.Runs
import IonTrap.Proofs.Routing.Journey

/-!
# Routed circuits replay

The live trap of the routing loop and the trap of a replay are in step: after every round the stream
so far takes the first trap to the live one (`Run.Replays`). Moves replay because the router logs
what it does, and an instruction is emitted only where its qubits share a gate zone, which is what a
replay asks. So a routed circuit passes its own validation.
-/

namespace IonTrap

namespace Trap

/-! ## Replaying streams -/

/-- Physical operations replay in a stream as they do alone. -/
theorem replay_map_routing {t t' : Trap} {ops : List RoutingOp} (h : t.replayOps ops = .ok t')
    (k : Nat) : t.replay k (ops.map .routing) = .ok t' := by
  induction ops generalizing t k with
  | nil => exact congrArg Except.ok (Except.ok.inj h)
  | cons op ops ih =>
    rw [replayOps, List.foldlM_cons] at h
    obtain ⟨t₁, hop, h⟩ := bind_eq_ok_iff.1 h
    rw [List.map_cons, replay, replayEntry, hop, mapError_ok, ok_bind, ih h]

/-- Instructions that can run leave the trap alone. -/
theorem replay_map_gate {t : Trap} {is : List Instruction}
    (h : ∀ i ∈ is, ∀ k, t.checkGate k i = .ok ()) (k : Nat) :
    t.replay k (is.map .gate) = .ok t := by
  induction is generalizing k with
  | nil => rfl
  | cons i is ih =>
    rw [List.map_cons, replay, replayEntry, h i List.mem_cons_self k, ok_bind, pure_eq_ok, ok_bind,
      ih fun j hj => h j (List.mem_cons_of_mem _ hj)]

/-! ## Emitted instructions -/

theorem findZone_eq_ok {t : Trap} {q z : Nat} (h : t.findZone q = .ok z) :
    q < t.numQubits ∧ t.zoneOf q = z := by
  unfold findZone hasQubit at h
  split_ifs at h with hq
  exact ⟨by simpa using hq, Except.ok.inj h⟩

/-- An instruction that need not wait can run. -/
theorem checkGate_of_mustWait {t : Trap} {s : List Nat} {i : Instruction} (hr : i.Routable)
    (h : t.mustWait s i = .ok false) (k : Nat) : t.checkGate k i = .ok () := by
  unfold mustWait at h
  by_cases hb : i.isBarrier = true
  · rw [checkGate, if_pos hb]
  have hlen : i.qubits.length ≤ 2 := hr.resolve_left hb
  rw [if_neg hb] at h
  rw [checkGate_eq_ok_iff (by simpa using hb)]
  split at h
  · next hq => simp [hq]
  · next q hq =>
    split at h
    · simp at h
    obtain ⟨z, hz, h⟩ := bind_eq_ok_iff.1 h
    obtain ⟨hlt, rfl⟩ := findZone_eq_ok hz
    have hgate : t.arch.isGateZone (t.zoneOf q) = true := by simpa [pure_eq_ok] using h
    simp [hq, hlt, hgate]
  · next a b rest hq =>
    obtain ⟨z, hz, h⟩ := bind_eq_ok_iff.1 h
    split at h
    · simp [pure_eq_ok] at h
    obtain ⟨y, hy, h⟩ := bind_eq_ok_iff.1 h
    obtain ⟨hlt, rfl⟩ := findZone_eq_ok hz
    obtain ⟨hlt', rfl⟩ := findZone_eq_ok hy
    obtain rfl : rest = [] := by
      rw [hq] at hlen
      simpa using hlen
    have h : t.zoneOf a = t.zoneOf b ∧ t.arch.isGateZone (t.zoneOf a) = true := by
      simpa [pure_eq_ok] using h
    have hgate : t.arch.isGateZone (t.zoneOf b) = true := by rw [← h.1, h.2]
    simp [hq, hlt, hlt', h.1, hgate]

/-- Whatever is emitted can run. -/
theorem checkGate_of_split {t : Trap} {s : List Nat} {is ready waiting : List Instruction}
    (hr : ∀ i ∈ is, i.Routable) (h : t.split s is = .ok (ready, waiting)) :
    ∀ i ∈ ready, ∀ k, t.checkGate k i = .ok () := by
  induction is generalizing s ready waiting with
  | nil =>
    obtain ⟨rfl, rfl⟩ := Prod.mk.inj (Except.ok.inj h)
    simp
  | cons i is ih =>
    have hr' : ∀ j ∈ is, j.Routable := fun j hj => hr j (List.mem_cons_of_mem _ hj)
    rcases split_cons h with ⟨-, ⟨rfl, -⟩ | ⟨w, -, hs⟩⟩ | ⟨hw, r, rfl, hs⟩
    · simp
    · exact ih hr' hs
    · intro j hj
      rcases List.mem_cons.1 hj with rfl | hj
      · exact checkGate_of_mustWait (hr j List.mem_cons_self) hw
      · exact ih hr' hs j hj

end Trap

/-! ## The loop in step with a replay -/

/-- The stream so far takes the trap `t` to the live trap. -/
structure Run.Replays (t : Trap) (r : Run) : Prop where
  follows : t.Follows r.trap
  replay : t.replay 0 r.ops = .ok r.trap
  routable : ∀ i ∈ r.remaining, i.Routable

theorem Run.Replays.step {t : Trap} (hlegal : t.arch.Legal) {s : Selector} {r r' : Run}
    (hr : r.Replays t) (h : r.step s = .ok r') : r'.Replays t := by
  obtain ⟨target, result, ready, -, hroute, hsplit, hops⟩ := Run.step_eq_ok h
  obtain ⟨hfollows, -, hmoves⟩ := Trap.routeTo_spec hr.follows.consistent
    (hr.follows.arch ▸ hlegal) hroute
  have hgates := Trap.checkGate_of_split hr.routable hsplit
  have hre := Trap.rearranged_split hr.routable hsplit
  refine ⟨hr.follows.trans hfollows, ?_, ?_⟩
  · rw [hops, Trap.replay_append, Trap.replay_append, hr.replay, ok_bind,
      Trap.replay_map_routing hmoves, ok_bind, Trap.replay_map_gate hgates]
  · intro i hi
    exact hr.routable i (hre.perm.mem_iff.2 (List.mem_append_right _ hi))

theorem Session.replays_firstRun {s : Session} (h : s.trap.Consistent) {c : Circuit} {r : Run}
    (hr : s.firstRun c = .ok r) : r.Replays s.trap := by
  obtain ⟨hcheck, ready, hsplit, htrap, hops, -⟩ := firstRun_eq_ok hr
  have hroutable := routable_of_checkOperands hcheck
  have hgates := Trap.checkGate_of_split hroutable hsplit
  have hre := Trap.rearranged_split hroutable hsplit
  refine ⟨?_, ?_, ?_⟩
  · rw [htrap]
    exact h.follows_self
  · rw [hops, htrap, Trap.replay_map_gate hgates]
  · intro i hi
    exact hroutable i (hre.perm.mem_iff.2 (List.mem_append_right _ hi))

/-- The stream of a routed circuit takes the trap before to the trap after. -/
theorem Session.replay_route {s : Session} (h : s.trap.Consistent) (hlegal : s.trap.arch.Legal)
    {c : Circuit} {z : RoutedCircuit} (hz : (s.route c).2 = .ok z) :
    s.trap.replay 0 z.ops = .ok (s.route c).1.trap := by
  obtain ⟨r, hr, hfin, -⟩ := route_eq_ok hz
  obtain ⟨r', hreplays, -, htrap, hops⟩ := Run.exists_of_finish
    (fun _ _ hk hs => hk.step hlegal hs) (replays_firstRun h hr) hfin
  rw [← hops, ← htrap]
  exact hreplays.replay

theorem RoutedCircuit.initialPlacement_start (name : String) (n m : Nat) (p : Placement) :
    (start name n m p).initialPlacement = p := by
  have hqubits : ((fun x : ZoneInit => x.qubits) ∘ fun x : List Nat × Nat => ⟨x.2, x.1⟩)
      = Prod.fst := rfl
  rw [initialPlacement, start, List.map_map, hqubits, List.zipIdx_map_fst]

theorem Session.start_eq_ok {a : Architecture} {n : Nat} {initial : Placement}
    {settings : RoutingSettings} {partitioner : Option Partitioner} {s : Session}
    (h : Session.start a n initial settings partitioner = .ok s) :
    settings.validate = .ok () ∧ Trap.ofPlacement a n initial = .ok s.trap ∧
      s.selector = .ofSettings settings partitioner := by
  obtain ⟨_, hset, h⟩ := bind_eq_ok_iff.1 h
  obtain ⟨t, ht, h⟩ := bind_eq_ok_iff.1 h
  obtain rfl := Except.ok.inj h
  exact ⟨hset, liftTrap_eq_ok_iff.1 ht, rfl⟩

/-- On a valid architecture a routed circuit passes its validation: loading its zones as it says
gives a trap on which every entry of the stream can be carried out, and the run ends in the
placement the circuit records. -/
theorem Session.validate_route {a : Architecture} (ha : a.validate = .ok ()) {c : Circuit}
    {initial : Placement} {settings : RoutingSettings} {partitioner : Option Partitioner}
    {s : Session}
    (hs : Session.start a c.numQubits initial settings partitioner = .ok s) {z : RoutedCircuit}
    (hz : (s.route c).2 = .ok z) :
    z.validate a = .ok () ∧
      ∃ loaded final, Trap.ofPlacement a z.numQubits z.initialPlacement = .ok loaded ∧
        loaded.replay 0 z.ops = .ok final ∧ final.placement = z.finalPlacement := by
  have hlegal := Architecture.legal_of_validate ha
  obtain ⟨-, hload, -⟩ := start_eq_ok hs
  obtain ⟨-, -, htrap⟩ := Trap.ofPlacement_eq_ok hload
  have hconsistent := Trap.consistent_ofPlacement hlegal hload
  have harch : s.trap.arch = a := by rw [htrap]
  have hplacement : s.trap.placement = initial := by rw [htrap]
  have hreplay := replay_route hconsistent (harch ▸ hlegal) hz
  obtain ⟨r, -, -, hcircuit⟩ := route_eq_ok hz
  have hfinal : z.finalPlacement = (s.route c).1.trap.placement := by rw [hcircuit]
  -- the stream starts with the placement that the session was started with
  have hinit : Trap.ofPlacement a z.numQubits z.initialPlacement = .ok s.trap := by
    have hstart : z.initialPlacement = (RoutedCircuit.start c.name c.numQubits c.numClbits
        s.trap.placement).initialPlacement := by
      rw [hcircuit]
      rfl
    rw [hstart, RoutedCircuit.initialPlacement_start, hplacement, hcircuit]
    exact hload
  refine ⟨?_, s.trap, (s.route c).1.trap, hinit, hreplay, hfinal.symm⟩
  rw [RoutedCircuit.validate, hinit, liftTrap_ok, ok_bind, hreplay, ok_bind, if_pos hfinal.symm]

/-- Crossing the packed line takes shuttles and swaps, and the result validates. -/
theorem Session.validate_route_across :
    ∃ s z, storageLine.validate = .ok () ∧
      Session.start storageLine acrossTheLine.numQubits [[0, 1], [2], [3]] {} none = .ok s ∧
      (s.route acrossTheLine).2 = .ok z ∧ z.numShuttles ≠ 0 ∧ z.validate storageLine = .ok () ∧
      ∃ loaded final, Trap.ofPlacement storageLine z.numQubits z.initialPlacement = .ok loaded ∧
        loaded.replay 0 z.ops = .ok final ∧ final.placement = z.finalPlacement := by
  have hvalid : storageLine.validate = .ok () := by decide
  have hroute : (routeCircuit storageLine acrossTheLine [[0, 1], [2], [3]] {} none).map
      (fun z => decide (z.numShuttles ≠ 0)) = .ok true := by
    decide +kernel
  obtain ⟨z, hz, hmoves⟩ := map_eq_ok_iff.1 hroute
  obtain ⟨s, hs, hz⟩ := bind_eq_ok_iff.1 hz
  exact ⟨s, z, hvalid, hs, hz, of_decide_eq_true hmoves, validate_route hvalid hs hz⟩

end IonTrap
