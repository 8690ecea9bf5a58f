import IonTrap.Proofs.RoutedCircuit.Validate

/-!
# Crowded zones under a gate

The replay asks for gate capacities when the zones are loaded and for transport capacities when a
cohort arrives. When a gate runs it asks for neither. How many qubits a zone holds at some entry of
a stream can be told from the moves before it: what is there and what has left is what was loaded
and what has arrived (`Placement.Runs.length_balance`). So of the zone that runs a gate of an
accepted circuit it is certain that it holds no more than its transport capacity, and it is within
its gate capacity exactly if the count of arrivals and departures says so
(`RoutedCircuit.occupancy_under_gate`). A circuit may be accepted in which it is not
(`RoutedCircuit.crowded_accepted`).
-/

namespace IonTrap

/-! ## Arrivals and departures -/

namespace RoutedOp

/-- Number of qubits that an entry brings to a zone. -/
def arriving (z : Nat) : RoutedOp → Nat
  | .routing (.shuttle qs _ target _ _) => if target = z then qs.length else 0
  | _ => 0

/-- Number of qubits that an entry takes from a zone. -/
def leaving (z : Nat) : RoutedOp → Nat
  | .routing (.shuttle qs source _ _ _) => if source = z then qs.length else 0
  | _ => 0

end RoutedOp

/-- Number of qubits that a stream brings to a zone. -/
def arrivals (z : Nat) (ops : List RoutedOp) : Nat := total (ops.map (·.arriving z))

/-- Number of qubits that a stream takes from a zone. -/
def departures (z : Nat) (ops : List RoutedOp) : Nat := total (ops.map (·.leaving z))

namespace Placement

section Balance

variable {a : Architecture} {n : Nat} {op : RoutedOp} {ops : List RoutedOp} {p r : Placement}

theorem getD_of_getElem? {z : Nat} {chain : List Nat} (hz : p[z]? = some chain) :
    p.getD z [] = chain := by
  rw [List.getD_eq_getElem?_getD, hz, Option.getD_some]

theorem getD_set {x : Nat} {chain : List Nat} (hx : p[x]? = some chain) (chain' : List Nat)
    (z : Nat) : (p.set x chain').getD z [] = if x = z then chain' else p.getD z [] := by
  have hlt := (List.getElem?_eq_some_iff.1 hx).1
  rw [List.getD_eq_getElem?_getD, List.getElem?_set]
  split_ifs with hz
  · rfl
  · rw [List.getD_eq_getElem?_getD]

variable (hlegal : a.Legal)
include hlegal

/-- An entry moves qubits in and out of a zone as it says. -/
theorem Step.length_balance (h : Step a n op p r) (z : Nat) :
    (r.getD z []).length + op.leaving z = (p.getD z []).length + op.arriving z := by
  cases h with
  | shuttle hlink hsource htarget hroom =>
    rename_i source target exit arrival qs rest chain
    have hne : source ≠ target := (hlegal.linked_zones hlink).2.2
    have hother : (p.set source rest)[target]? = some chain := by
      rw [List.getElem?_set_ne hne, htarget]
    have hfrom : (p.getD source []).length = rest.length + qs.length := by
      rw [getD_of_getElem? hsource, Trap.length_enter]
    have hto : (p.getD target []).length = chain.length := by rw [getD_of_getElem? htarget]
    -- the zones differ, so a zone gains the cohort or loses it, never both
    show _ + (if source = z then qs.length else 0) = _ + (if target = z then qs.length else 0)
    rw [getD_set hother, getD_set hsource]
    by_cases ht : target = z
    · rw [if_pos ht, if_pos ht, if_neg (by omega), Trap.length_enter, ← ht, hto, Nat.add_zero]
    · rw [if_neg ht, if_neg ht]
      split_ifs with hs
      · rw [← hs, hfrom, Nat.add_zero]
      · rfl
  | swap hz =>
    rename_i y left right before after
    -- no cohort arrives or leaves, and the chain stays as long as it was
    show _ + 0 = _ + 0
    rw [getD_set hz]
    split_ifs with hy
    · rw [← hy, getD_of_getElem? hz]
      simp
    · rfl
  | routingBarrier => rfl
  | barrier => rfl
  | gate => rfl

/-- A stream moves qubits in and out of a zone as its shuttles say. -/
theorem Runs.length_balance (h : Runs a n ops p r) (z : Nat) :
    (r.getD z []).length + departures z ops = (p.getD z []).length + arrivals z ops := by
  induction h with
  | nil => rfl
  | cons hstep _ ih =>
    have hfirst := hstep.length_balance hlegal z
    unfold departures arrivals at ih ⊢
    rw [List.map_cons, List.map_cons, total_cons, total_cons]
    omega

end Balance

end Placement

/-! ## Gates -/

namespace RoutedCircuit

/-- On a valid architecture let a circuit be accepted, and replay it up to an instruction with
qubits that is no barrier. The qubits share a gate zone. It holds at most its transport capacity,
and at most its gate capacity exactly if no more qubits were loaded there and have arrived than this
capacity and those that have left. -/
theorem occupancy_under_gate {a : Architecture} (ha : a.validate = .ok ()) {c : RoutedCircuit}
    (h : c.validate a = .ok ()) :
    ∃ loaded, Trap.ofPlacement a c.numQubits c.initialPlacement = .ok loaded ∧
      ∀ before i after, c.ops = before ++ .gate i :: after → i.isBarrier = false → i.qubits ≠ [] →
        ∃ t z, loaded.replay 0 before = .ok t ∧ a.isGateZone z = true ∧
          (∀ q ∈ i.qubits, t.zoneOf q = z) ∧ t.occupancy z ≤ a.transportCapacity z ∧
          (t.occupancy z ≤ a.gateCapacity z ↔
            (c.initialPlacement.getD z []).length + arrivals z before
              ≤ a.gateCapacity z + departures z before) := by
  have hlegal := Architecture.legal_of_validate ha
  obtain ⟨loaded, hload, h⟩ := bind_eq_ok_iff.1 h
  obtain ⟨last, hreplay, -⟩ := bind_eq_ok_iff.1 h
  have hload := liftTrap_eq_ok_iff.1 hload
  have hconsistent := Trap.consistent_ofPlacement hlegal hload
  obtain ⟨-, -, htrap⟩ := Trap.ofPlacement_eq_ok hload
  have harch : loaded.arch = a := by rw [htrap]
  have hplacement : loaded.placement = c.initialPlacement := by rw [htrap]
  refine ⟨loaded, hload, ?_⟩
  intro before i after hops hb hne
  -- the replay gets past the entries before the instruction, and then past the instruction
  rw [hops, Trap.replay_append] at hreplay
  obtain ⟨t, hbefore, hreplay⟩ := bind_eq_ok_iff.1 hreplay
  obtain ⟨_, hentry, -⟩ := bind_eq_ok_iff.1 hreplay
  obtain ⟨_, hcheck, -⟩ := bind_eq_ok_iff.1 hentry
  have hfollows := hconsistent.follows_of_replay hbefore
  obtain ⟨-, hzone⟩ := (Trap.checkGate_eq_ok_iff hb).1 hcheck
  obtain ⟨z, hgate, hsame⟩ := hzone hne
  have hruns := hconsistent.runs_of_replay (by rwa [harch]) hbefore
  have hbalance : (t.chain z).length + departures z before
      = (c.initialPlacement.getD z []).length + arrivals z before := by
    rw [← hplacement]
    exact hruns.length_balance (by rwa [harch]) z
  have hcapacity := hfollows.consistent.capacity z
  -- both facts are about the trap at the instruction, which has the architecture it was loaded with
  rw [hfollows.arch, harch] at hgate hcapacity
  rw [← hfollows.consistent.occupancy_eq] at hbalance hcapacity
  exact ⟨t, z, hbefore, hgate, hsame, hcapacity, by omega⟩

/-- In the crossing the second gate runs in a zone that a qubit has joined. -/
theorem occupancy_under_gate_crossing :
    Architecture.steepLine.validate = .ok () ∧ crossing.validate .steepLine = .ok () ∧
      ∃ loaded t, Trap.ofPlacement .steepLine 3 crossing.initialPlacement = .ok loaded ∧
        loaded.replay 0 (crossing.ops.take 4) = .ok t ∧
        arrivals 1 (crossing.ops.take 4) = 1 ∧ t.occupancy 1 ≤ 2 := by
  have hvalid : Architecture.steepLine.validate = .ok () := by decide
  have haccepted : crossing.validate .steepLine = .ok () := by decide
  obtain ⟨loaded, hload, hgates⟩ := occupancy_under_gate hvalid haccepted
  obtain ⟨t, z, ht, -, hsame, -, hiff⟩ :=
    hgates (crossing.ops.take 4) (.ofStandard .cx [2, 0]) [] rfl (by decide) (by decide)
  have hrun : (do
      let loaded ← liftTrap (Trap.ofPlacement .steepLine 3 crossing.initialPlacement)
      let t ← loaded.replay 0 (crossing.ops.take 4)
      return t.zoneOf 2) = .ok 1 := by
    decide
  have hload' : Trap.ofPlacement .steepLine 3 crossing.initialPlacement = .ok loaded := hload
  rw [hload', liftTrap_ok, ok_bind, ht, ok_bind] at hrun
  have hzone : z = 1 := by
    rw [← hsame 2 (by decide)]
    exact Except.ok.inj hrun
  rw [hzone] at hiff
  exact ⟨hvalid, haccepted, loaded, t, hload, ht, rfl, hiff.2 (by decide)⟩

/-- A qubit visits the next zone for a gate and goes back. The zone is full without it. -/
def crowded : RoutedCircuit where
  name := "crowded"
  numQubits := 3
  numClbits := 0
  inits := [⟨0, [0]⟩, ⟨1, [1, 2]⟩, ⟨2, []⟩]
  ops :=
    [.routing (.shuttle [0] 0 1 .p1 .p0), .gate (.ofStandard .cx [0, 1]),
      .routing (.shuttle [0] 1 0 .p0 .p1)]
  finalPlacement := [[0], [1, 2], []]

/-- The visit is accepted, although the gate runs in a zone with three qubits that may hold two
while gates run. -/
theorem crowded_accepted :
    Architecture.steepLine.validate = .ok () ∧ crowded.validate .steepLine = .ok () ∧
      ∃ loaded t, Trap.ofPlacement .steepLine 3 crowded.initialPlacement = .ok loaded ∧
        loaded.replay 0 (crowded.ops.take 1) = .ok t ∧
        crowded.ops[1]? = some (.gate (.ofStandard .cx [0, 1])) ∧
        t.zoneOf 0 = 1 ∧ t.zoneOf 1 = 1 ∧
        t.occupancy 1 = 3 ∧ Architecture.steepLine.gateCapacity 1 = 2 := by
  refine ⟨by decide, by decide, ?_⟩
  have hrun : (do
      let loaded ← liftTrap (Trap.ofPlacement .steepLine 3 crowded.initialPlacement)
      let t ← loaded.replay 0 (crowded.ops.take 1)
      return (t.zoneOf 0, t.zoneOf 1, t.occupancy 1)) = .ok (1, 1, 3) := by
    decide
  obtain ⟨loaded, hload, hrun⟩ := bind_eq_ok_iff.1 hrun
  obtain ⟨t, ht, hrun⟩ := bind_eq_ok_iff.1 hrun
  have hcounts : (t.zoneOf 0, t.zoneOf 1, t.occupancy 1) = (1, 1, 3) := Except.ok.inj hrun
  simp only [Prod.mk.injEq] at hcounts
  obtain ⟨hfirst, hsecond, hoccupancy⟩ := hcounts
  exact ⟨loaded, t, liftTrap_eq_ok_iff.1 hload, ht, rfl, hfirst, hsecond, hoccupancy, rfl⟩

end RoutedCircuit

end IonTrap
