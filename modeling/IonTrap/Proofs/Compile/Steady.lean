import IonTrap.Proofs.Compile.Replay
import IonTrap.Proofs.Routing.Balance

/-!
# Gates run in steady state

While the router is at work a zone may be above its gate capacity, and neither a shuttle nor the
replay of a gate asks whether one is. That no gate of a routed circuit meets such a zone is
therefore a fact about the loop: it emits instructions only after a route has ended, and a route
that has ended leaves a valid placement behind (`Trap.settled_of_routeTo`). `Trap.SettledGates` says
it of a stream, piece by piece, and `Run.Steady` carries it through the rounds of the loop.
-/

namespace IonTrap

namespace Trap

/-! ## Streams -/

/-- Replayed from `t`, its first entry being number `k`, every instruction of a stream finds all
zones within their gate capacities. -/
def SettledGates (t : Trap) (k : Nat) (ops : List RoutedOp) : Prop :=
  ∀ before i after, ops = before ++ .gate i :: after →
    ∃ t', t.replay k before = .ok t' ∧ t'.Settled

theorem SettledGates.append {t t' : Trap} {k : Nat} {xs ys : List RoutedOp}
    (hx : t.SettledGates k xs) (hr : t.replay k xs = .ok t')
    (hy : t'.SettledGates (k + xs.length) ys) : t.SettledGates k (xs ++ ys) := by
  intro before i after h
  rcases List.append_eq_append_iff.1 h with ⟨mid, rfl, hmid⟩ | ⟨mid, rfl, hmid⟩
  · -- the instruction stands behind the first stream
    obtain ⟨t'', hreplay, hsettled⟩ := hy mid i after hmid
    refine ⟨t'', ?_, hsettled⟩
    rw [replay_append, hr, ok_bind, hreplay]
  · -- it stands in the first stream, or right behind it
    cases mid with
    | nil =>
      obtain ⟨t'', hreplay, hsettled⟩ := hy [] i after hmid.symm
      obtain rfl : t' = t'' := Except.ok.inj hreplay
      exact ⟨t', by simpa using hr, hsettled⟩
    | cons x mid =>
      obtain ⟨rfl, -⟩ := List.cons.inj hmid
      exact hx before i mid rfl

/-- Moves run no instruction. -/
theorem settledGates_map_routing (t : Trap) (k : Nat) (ops : List RoutingOp) :
    t.SettledGates k (ops.map .routing) := by
  intro before i after h
  have hmem : RoutedOp.gate i ∈ ops.map RoutedOp.routing := by simp [h]
  simp at hmem

/-- Instructions that can run in a settled trap leave it settled for each other. -/
theorem Settled.settledGates_map_gate {t : Trap} (ht : t.Settled) {is : List Instruction}
    (his : ∀ i ∈ is, ∀ k, t.checkGate k i = .ok ()) (k : Nat) :
    t.SettledGates k (is.map .gate) := by
  intro before i after h
  obtain ⟨front, back, rfl, rfl, -⟩ := List.map_eq_append_iff.1 h
  refine ⟨t, replay_map_gate (fun j hj => his j (List.mem_append_left _ hj)) k, ht⟩

end Trap

/-! ## The loop -/

/-- The stream so far replays to the live trap, which is settled, as it was at every instruction. -/
structure Run.Steady (t : Trap) (r : Run) : Prop extends Replays t r where
  settled : r.trap.Settled
  gates : t.SettledGates 0 r.ops

theorem Run.Steady.step {t : Trap} (hlegal : t.arch.Legal) {s : Selector} {r r' : Run}
    (hr : r.Steady t) (h : r.step s = .ok r') : r'.Steady t := by
  have hreplays := hr.toReplays.step hlegal h
  obtain ⟨target, result, ready, -, hroute, hsplit, hops⟩ := Run.step_eq_ok h
  have hlegal' : r.trap.arch.Legal := hr.follows.arch ▸ hlegal
  have hsettled : r'.trap.Settled := Trap.settled_of_routeTo hr.follows.consistent hlegal' hroute
  obtain ⟨-, -, hmoves⟩ := Trap.routeTo_spec hr.follows.consistent hlegal' hroute
  have hready := Trap.checkGate_of_split hr.routable hsplit
  refine ⟨hreplays, hsettled, ?_⟩
  rw [hops]
  -- first the old stream, then the moves, which end in the new trap, then what can run there
  have hmoved : t.replay 0 (r.ops ++ result.ops.map .routing) = .ok r'.trap := by
    rw [Trap.replay_append, hr.replay, ok_bind, Trap.replay_map_routing hmoves]
  apply Trap.SettledGates.append _ hmoved (hsettled.settledGates_map_gate hready _)
  exact hr.gates.append hr.replay (Trap.settledGates_map_routing _ _ _)

theorem Session.steady_firstRun {s : Session} (h : s.trap.Consistent) (hsettled : s.trap.Settled)
    {c : Circuit} {r : Run} (hr : s.firstRun c = .ok r) : r.Steady s.trap := by
  obtain ⟨hcheck, ready, hsplit, htrap, hops, -⟩ := firstRun_eq_ok hr
  refine ⟨replays_firstRun h hr, htrap ▸ hsettled, ?_⟩
  rw [hops]
  exact hsettled.settledGates_map_gate
    (Trap.checkGate_of_split (routable_of_checkOperands hcheck) hsplit) 0

/-- A routed circuit loads the placement that it found. -/
theorem Session.initialPlacement_route {s : Session} {c : Circuit} {z : RoutedCircuit}
    (hz : (s.route c).2 = .ok z) : z.initialPlacement = s.trap.placement := by
  obtain ⟨r, -, -, hcircuit⟩ := route_eq_ok hz
  rw [hcircuit]
  exact RoutedCircuit.initialPlacement_start c.name c.numQubits c.numClbits s.trap.placement

/-- On a valid architecture, whatever the settings and the partitioner, the gates of a routed
circuit run in steady state: load the zones as the circuit says and replay it up to an instruction,
a barrier or not, then no zone holds more qubits than its gate capacity. -/
theorem Session.route_runs_gates_settled {a : Architecture} (ha : a.validate = .ok ()) {n : Nat}
    {initial : Placement} {settings : RoutingSettings} {partitioner : Option Partitioner}
    {s : Session} (hs : Session.start a n initial settings partitioner = .ok s) {c : Circuit}
    {z : RoutedCircuit} (hz : (s.route c).2 = .ok z) :
    ∃ loaded, Trap.ofPlacement a n z.initialPlacement = .ok loaded ∧
      ∀ before i after, z.ops = before ++ .gate i :: after →
        ∃ t, loaded.replay 0 before = .ok t ∧
          ∀ y < a.numZones, (t.chain y).length ≤ a.gateCapacity y := by
  have hlegal := Architecture.legal_of_validate ha
  obtain ⟨-, hload, -⟩ := start_eq_ok hs
  have h := Trap.consistent_ofPlacement hlegal hload
  have hsettled := Trap.settled_ofPlacement hlegal hload
  obtain ⟨-, -, htrap⟩ := Trap.ofPlacement_eq_ok hload
  have harch : s.trap.arch = a := by rw [htrap]
  have hplacement : s.trap.placement = initial := by rw [htrap]
  obtain ⟨r, hr, hfin, -⟩ := route_eq_ok hz
  obtain ⟨r', hsteady, -, -, hops⟩ := Run.exists_of_finish
    (fun _ _ hk hs => hk.step (harch ▸ hlegal) hs) (steady_firstRun h hsettled hr) hfin
  refine ⟨s.trap, ?_, ?_⟩
  · rw [initialPlacement_route hz, hplacement, hload]
  · -- occupancies in the replayed trap are chain lengths, because the trap is consistent there
    intro before i after hz
    obtain ⟨t, hreplay, ht⟩ := hsteady.gates before i after (hops.trans hz)
    refine ⟨t, hreplay, fun y _ => ?_⟩
    have hfollows := h.follows_of_replay hreplay
    rw [← hfollows.consistent.occupancy_eq, ← harch, ← hfollows.arch]
    exact ht y

/-- Crossing the packed line takes a zone above its gate capacity, but not while a gate runs. -/
theorem Session.route_runs_gates_settled_across :
    ∃ s z, storageLine.validate = .ok () ∧
      Session.start storageLine acrossTheLine.numQubits [[0, 1], [2], [3]] {} none = .ok s ∧
      (s.route acrossTheLine).2 = .ok z ∧
      (∃ t, s.trap.replay 0 (z.ops.take 6) = .ok t ∧ t.placement = [[0], [], [1, 2, 3]] ∧
        storageLine.gateCapacity 2 = 2) ∧
      ∃ loaded,
        Trap.ofPlacement storageLine acrossTheLine.numQubits z.initialPlacement = .ok loaded ∧
        ∀ before i after, z.ops = before ++ .gate i :: after →
          ∃ t, loaded.replay 0 before = .ok t ∧
            ∀ y < storageLine.numZones, (t.chain y).length ≤ storageLine.gateCapacity y := by
  have hvalid : storageLine.validate = .ok () := by decide
  have hrun : (do
      let s ← Session.start storageLine acrossTheLine.numQubits [[0, 1], [2], [3]] {} none
      let z ← (s.route acrossTheLine).2
      let t ← s.trap.replay 0 (z.ops.take 6)
      return t.placement) = .ok [[0], [], [1, 2, 3]] := by
    decide +kernel
  obtain ⟨s, hs, hrun⟩ := bind_eq_ok_iff.1 hrun
  obtain ⟨z, hz, hrun⟩ := bind_eq_ok_iff.1 hrun
  obtain ⟨t, ht, hplacement⟩ := bind_eq_ok_iff.1 hrun
  refine ⟨s, z, hvalid, hs, hz, ⟨t, ht, Except.ok.inj hplacement, by decide⟩, ?_⟩
  exact route_runs_gates_settled hvalid hs hz

end IonTrap
