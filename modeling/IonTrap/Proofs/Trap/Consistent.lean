import IonTrap.Proofs.Architecture.Ways
import IonTrap.Proofs.Placement
import IonTrap.RoutedCircuit.Replay

/-!
# Consistent traps

Beside its chains a live trap keeps the place of every qubit, the number of qubits per zone and the
passages of the port graph. `Trap.Consistent` says that all of them agree with the chains and that
no chain exceeds its transport capacity. A trap starts consistent (`Trap.consistent_ofPlacement`),
and what its tables say can be read off the chains and the other way round.
-/

namespace IonTrap

/-- The port graph of a trap whose zones hold the given numbers of qubits. -/
def PortGraph.loaded (a : Architecture) (occupancy : Nat → Nat) : PortGraph where
  edges := a.zones.mapIdx fun z zone =>
    (CapacityEdge.ofEmpty z zone).withOccupancy zone.swapCost (occupancy z)
  swapCosts := a.zones.map (·.swapCost)
  connections := a.connections

namespace PortGraph

theorem ofArchitecture_eq_loaded (a : Architecture) : ofArchitecture a = loaded a fun _ => 0 := by
  simp only [ofArchitecture, loaded]
  congr 1
  refine List.ext_getElem? fun z => ?_
  cases hz : a.zones[z]? with
  | none => simp [hz]
  | some zone => simp [hz, CapacityEdge.ofEmpty, CapacityEdge.withOccupancy]

theorem setOccupancy_loaded (a : Architecture) (f : Nat → Nat) (z n : Nat) :
    (loaded a f).setOccupancy z n = loaded a (Function.update f z n) := by
  simp only [setOccupancy, loaded]
  congr 1
  refine List.ext_getElem? fun w => ?_
  rw [List.getElem?_modify]
  by_cases h : z = w
  · subst h
    cases hz : a.zones[z]? with
    | none => simp [hz]
    | some zone =>
      simp [hz, CapacityEdge.withOccupancy, CapacityEdge.ofEmpty, List.getD_eq_getElem?_getD]
  · cases hw : a.zones[w]? with
    | none => simp [hw]
    | some zone => simp [hw, h, Function.update_of_ne (Ne.symm h)]

theorem exists_edge_loaded {a : Architecture} (f : Nat → Nat) {z : Nat} (hz : z < a.numZones) :
    ∃ e, (loaded a f).edges[z]? = some e ∧ e.free = a.transportCapacity z - f z := by
  have hz : z < a.zones.length := hz
  refine ⟨_, by simp only [loaded, List.getElem?_mapIdx, List.getElem?_eq_getElem hz]; rfl, ?_⟩
  simp [CapacityEdge.withOccupancy, CapacityEdge.ofEmpty, Architecture.transportCapacity, hz]

/-- Every qubit that passes is swapped with all that are there. -/
theorem crossingCost_loaded (a : Architecture) (f : Nat → Nat) (count z : Nat) :
    (loaded a f).crossingCost count z = wrap (f z * a.swapCost z * count) := by
  rw [crossingCost, Architecture.swapCost]
  cases hz : a.zones[z]? with
  | none => simp [loaded, hz]
  | some zone => simp [loaded, hz, CapacityEdge.withOccupancy, wrap_wrap_mul]

theorem numZones_loaded (a : Architecture) (f : Nat → Nat) :
    (loaded a f).numZones = a.numZones := by
  simp [loaded, numZones, Architecture.numZones]

end PortGraph

namespace Trap

/-- Places, occupancies and passages agree with the chains, and no chain is too long. -/
structure Consistent (t : Trap) : Prop where
  length_placement : t.placement.length = t.arch.numZones
  length_spots : t.spots.length = t.numQubits
  spot_iff : ∀ q z i : Nat, t.spots[q]? = some (z, i) ↔ (t.chain z)[i]? = some q
  occupancies : t.occupancies = t.placement.map List.length
  capacity : ∀ z, (t.chain z).length ≤ t.arch.transportCapacity z
  ports : t.ports = .loaded t.arch t.occupancy

/-- It is enough that the table is right about the chains and that no qubit is lost. -/
theorem spot_iff_of_chains {t : Trap}
    (hspot : ∀ q z i : Nat, (t.chain z)[i]? = some q → t.spots[q]? = some (z, i))
    (hcover : ∀ q < t.spots.length, ∃ z, q ∈ t.chain z) (q z i : Nat) :
    t.spots[q]? = some (z, i) ↔ (t.chain z)[i]? = some q := by
  refine ⟨fun h => ?_, hspot q z i⟩
  obtain ⟨w, hw⟩ := hcover q (List.getElem?_eq_some_iff.1 h).1
  obtain ⟨j, hj⟩ := List.getElem?_of_mem hw
  have := hspot q w j hj
  rw [h] at this
  obtain ⟨rfl, rfl⟩ := Prod.mk.inj (Option.some.inj this)
  exact hj

theorem chain_eq_nil {t : Trap} {z : Nat} (h : t.placement.length ≤ z) : t.chain z = [] :=
  List.getD_eq_default _ _ h

theorem getElem?_placement {t : Trap} {z : Nat} (hz : z < t.placement.length) :
    t.placement[z]? = some (t.chain z) := by
  rw [chain, List.getD_eq_getElem _ _ hz, List.getElem?_eq_getElem hz]

theorem chain_of_getElem? {t : Trap} {z : Nat} {chain : List Nat}
    (h : t.placement[z]? = some chain) : t.chain z = chain := by
  rw [Trap.chain, List.getD_eq_getElem?_getD, h, Option.getD_some]

theorem occupancy_of_occupancies {t : Trap} (h : t.occupancies = t.placement.map List.length)
    (z : Nat) : t.occupancy z = (t.chain z).length := by
  rw [occupancy, h, chain, List.getD_eq_getElem?_getD, List.getD_eq_getElem?_getD,
    List.getElem?_map]
  cases t.placement[z]? <;> rfl

/-! ## Reading the tables -/

namespace Consistent

variable {t : Trap} (h : t.Consistent) {q z i : Nat}
include h

theorem spot (hq : q < t.numQubits) : t.spots[q]? = some (t.zoneOf q, t.position q) := by
  have hq : q < t.spots.length := by rwa [h.length_spots]
  rw [List.getElem?_eq_getElem hq, zoneOf, position, List.getD_eq_getElem _ _ hq]

/-- Every qubit stands at its place. -/
theorem getElem?_chain (hq : q < t.numQubits) :
    (t.chain (t.zoneOf q))[t.position q]? = some q := (h.spot_iff _ _ _).1 (h.spot hq)

theorem position_lt (hq : q < t.numQubits) : t.position q < (t.chain (t.zoneOf q)).length :=
  (List.getElem?_eq_some_iff.1 (h.getElem?_chain hq)).1

/-- A qubit that stands somewhere has that place in the table. -/
theorem of_getElem?_chain (hq : (t.chain z)[i]? = some q) :
    q < t.numQubits ∧ t.zoneOf q = z ∧ t.position q = i := by
  have hspot := (h.spot_iff _ _ _).2 hq
  have hlt : q < t.numQubits := by
    rw [← h.length_spots]
    exact (List.getElem?_eq_some_iff.1 hspot).1
  rw [h.spot hlt] at hspot
  obtain ⟨hz, hi⟩ := Prod.mk.inj (Option.some.inj hspot)
  exact ⟨hlt, hz, hi⟩

theorem mem_chain_iff : q ∈ t.chain z ↔ q < t.numQubits ∧ t.zoneOf q = z := by
  constructor
  · intro hq
    obtain ⟨i, hi⟩ := List.getElem?_of_mem hq
    obtain ⟨hlt, hz, -⟩ := h.of_getElem?_chain hi
    exact ⟨hlt, hz⟩
  · rintro ⟨hlt, rfl⟩
    exact List.mem_of_getElem? (h.getElem?_chain hlt)

theorem nodup_chain (z : Nat) : (t.chain z).Nodup := by
  rw [List.nodup_iff_injective_getElem]
  intro i j hij
  have hij : (t.chain z)[i.val] = (t.chain z)[j.val] := hij
  have hi := h.of_getElem?_chain (List.getElem?_eq_getElem i.isLt)
  have hj := h.of_getElem?_chain (List.getElem?_eq_getElem j.isLt)
  rw [hij] at hi
  exact Fin.ext (hi.2.2.symm.trans hj.2.2)

theorem lt_numZones_of_mem (hq : q ∈ t.chain z) : z < t.arch.numZones := by
  by_contra hz
  rw [chain_eq_nil (by rw [h.length_placement]; omega)] at hq
  simp at hq

theorem zoneOf_lt (hq : q < t.numQubits) : t.zoneOf q < t.arch.numZones :=
  h.lt_numZones_of_mem (h.mem_chain_iff.2 ⟨hq, rfl⟩)

theorem occupancy_eq (z : Nat) : t.occupancy z = (t.chain z).length :=
  occupancy_of_occupancies h.occupancies z

theorem connections_ports : t.ports.connections = t.arch.connections := by
  rw [h.ports]
  rfl

theorem numZones_ports : t.ports.numZones = t.arch.numZones := by
  rw [h.ports, PortGraph.numZones_loaded]

/-- The passage through a zone has the free transport space of the zone. -/
theorem exists_edge (hz : z < t.arch.numZones) :
    ∃ e, t.ports.edges[z]? = some e ∧ e.free = t.freeSpace z := by
  rw [h.ports]
  exact PortGraph.exists_edge_loaded _ hz

/-- The places of all qubits are a placement of all qubits. -/
theorem perm_flatten : t.placement.flatten.Perm (List.range t.numQubits) := by
  refine Placement.perm_range_of_zones ?_ fun q z => h.mem_chain_iff
  intro chain hchain
  obtain ⟨z, hz, rfl⟩ := List.mem_iff_getElem.1 hchain
  have := h.nodup_chain z
  rwa [Trap.chain, List.getD_eq_getElem _ _ hz] at this

end Consistent

/-! ## The start -/

theorem setOccupancy_foldl (a : Architecture) (f : Nat → Nat) (z : Nat) (os : List Nat) :
    (os.zipIdx z).foldl (fun g o => g.setOccupancy o.2 o.1) (PortGraph.loaded a f)
      = .loaded a fun w => if z ≤ w ∧ w < z + os.length then os.getD (w - z) 0 else f w := by
  induction os generalizing f z with
  | nil =>
    simp only [List.zipIdx_nil, List.foldl_nil]
    congr 1
    funext w
    rw [if_neg (by simp only [List.length_nil]; omega)]
  | cons o os ih =>
    simp only [List.zipIdx_cons, List.foldl_cons]
    rw [PortGraph.setOccupancy_loaded, ih]
    congr 1
    funext w
    rcases Nat.lt_trichotomy w z with hlt | rfl | hgt
    · rw [if_neg (by omega), if_neg (by omega), Function.update_of_ne (by omega)]
    · rw [if_neg (by omega), if_pos (by simp), Function.update_self]
      simp
    · by_cases hw : w < z + 1 + os.length
      · rw [if_pos (by omega), if_pos (by simp only [List.length_cons]; omega)]
        rw [show w - z = (w - (z + 1)) + 1 by omega, List.getD_cons_succ]
      · rw [if_neg (by omega), if_neg (by simp only [List.length_cons]; omega),
          Function.update_of_ne (by omega)]

/-- What a freshly loaded trap is made of. -/
theorem ofPlacement_eq_ok {a : Architecture} {n : Nat} {p : Placement} {t : Trap}
    (h : ofPlacement a n p = .ok t) :
    p.Fits a n ∧ n ≤ a.maxQubits ∧ t = ⟨a, n, p, p.spots n, p.map List.length,
      .loaded a fun z => (p.map List.length).getD z 0⟩ := by
  obtain ⟨_, hvalid, h⟩ := bind_eq_ok_iff.1 h
  obtain ⟨_, hn, hvalid⟩ := bind_eq_ok_iff.1 hvalid
  have hmax : n ≤ a.maxQubits := by
    unfold Architecture.checkNumQubits at hn
    split at hn
    · simp at hn
    · omega
  refine ⟨Placement.validate_eq_ok_iff.1 hvalid, hmax, ?_⟩
  rw [← Except.ok.inj h, PortGraph.ofArchitecture_eq_loaded, setOccupancy_foldl]
  congr 2
  funext z
  by_cases hz : z < (p.map List.length).length
  · rw [if_pos (by omega), Nat.sub_zero]
  · rw [if_neg (by omega), List.getD_eq_default _ _ (by omega)]

theorem ofPlacement_eq_ok_iff {a : Architecture} {n : Nat} {p : Placement} :
    (∃ t, ofPlacement a n p = .ok t) ↔ p.Fits a n ∧ n ≤ a.maxQubits := by
  constructor
  · rintro ⟨t, h⟩
    obtain ⟨hp, hn, -⟩ := ofPlacement_eq_ok h
    exact ⟨hp, hn⟩
  · rintro ⟨hp, hn⟩
    have hcheck : a.checkNumQubits n = .ok () := if_neg (by omega)
    have hvalid : p.validateConfiguration a n = .ok () := by
      rw [Placement.validateConfiguration, hcheck, ok_bind, Placement.validate_eq_ok_iff.2 hp]
    exact ⟨_, by rw [ofPlacement, hvalid, ok_bind]; rfl⟩

theorem consistent_ofPlacement {a : Architecture} (ha : a.Legal) {n : Nat} {p : Placement}
    {t : Trap} (h : ofPlacement a n p = .ok t) : t.Consistent := by
  obtain ⟨hp, -, rfl⟩ := ofPlacement_eq_ok h
  refine ⟨hp.length, ?_, fun q z i => Placement.getElem?_spots_iff hp.perm, rfl, ?_, rfl⟩
  · rw [Placement.spots_eq_recordAll, Placement.length_recordAll, List.length_replicate]
  · intro z
    by_cases hz : z < p.length
    · have hcap := hp.capacity z _ (List.getElem?_eq_getElem hz)
      obtain ⟨zone, hzone, hgate, htransport, -⟩ :=
        Architecture.exists_zone (show z < a.numZones by rwa [← hp.length])
      have hle := ha.capacity zone (List.mem_of_getElem? hzone)
      simp only [chain, List.getD_eq_getElem _ _ hz]
      omega
    · rw [chain_eq_nil (by simpa using hz)]
      exact Nat.zero_le _

end Trap

end IonTrap
