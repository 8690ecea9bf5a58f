import IonTrap.Proofs.Number.Total
import IonTrap.Proofs.Trap.Consistent

/-!
# Cheapest ways through ports

Ports are the nodes of a graph. Connections are edges of cost one between ports of two zones, and a
zone that may be passed is an edge between its two ports, whose cost are the swaps past its
occupants. `Errand.Walk` are the walks in that graph, in any direction and with any detours.

Out of a port of the start there is only one way on, the *trail*: over the connection, through the
zone there, and so on. It never comes back to a zone (`Errand.Trail.notMem`), and what is found is
the trail up to the target (`Errand.path_eq_some_iff`). Going back and forth along a trail is all
that a walk can do, and its ports have labels that no walk undercuts (`Errand.Walk.exists_label`).
So no walk to the target is cheaper than the trail (`Errand.Walk.exists_trail`).
-/

namespace IonTrap

namespace ZonePort

/-- The other port of the same zone. -/
def flip (p : ZonePort) : ZonePort := ⟨p.zone, p.port.other⟩

@[simp] theorem zone_flip (p : ZonePort) : p.flip.zone = p.zone := rfl

@[simp] theorem flip_flip (p : ZonePort) : p.flip.flip = p := by
  simp [flip]

theorem flip_ne (p : ZonePort) : p.flip ≠ p := by
  obtain ⟨z, port⟩ := p
  cases port <;> simp [flip, Port.other]

theorem eq_or_eq_flip {p r : ZonePort} (h : p.zone = r.zone) : p = r ∨ p = r.flip := by
  obtain ⟨z, port⟩ := p
  obtain ⟨w, port'⟩ := r
  obtain rfl : z = w := h
  cases port <;> cases port' <;> simp [flip, Port.other]

end ZonePort

/-- Taking `count` qubits from the zone `start` to the zone `target` while the zones hold the given
numbers of qubits. -/
structure Errand where
  /-- The trap. -/
  arch : Architecture
  /-- Number of qubits per zone. -/
  occupancy : Nat → Nat
  /-- Where the qubits are. -/
  start : Nat
  /-- Where they go. -/
  target : Nat
  /-- How many they are. -/
  count : Nat

namespace Errand

/-- Cost of taking the qubits through a zone: each is swapped with all that are there. -/
def toll (e : Errand) (z : Nat) : Nat := e.count * (e.occupancy z * e.arch.swapCost z)

/-- A zone of the trap other than the ends that has room for the qubits. -/
structure Open (e : Errand) (z : Nat) : Prop where
  lt : z < e.arch.numZones
  ne_start : z ≠ e.start
  ne_target : z ≠ e.target
  room : e.count ≤ e.arch.transportCapacity z - e.occupancy z

/-- The edges of the port graph that the qubits may use, with their costs. -/
inductive Edge (e : Errand) : ZonePort → ZonePort → Nat → Prop
  | shuttle {p r : ZonePort} (h : e.arch.Linked p r) : Edge e p r 1
  | capacity {p : ZonePort} (h : e.Open p.zone) : Edge e p p.flip (e.toll p.zone)

/-- Walks from the port `here`, with their costs. -/
inductive Walk (e : Errand) (here : ZonePort) : ZonePort → Nat → Prop
  | refl : Walk e here here 0
  | step {p r : ZonePort} {c k : Nat} (h : Walk e here p c) (hedge : e.Edge p r k) :
      Walk e here r (c + k)

/-- The way out of the port `here`, through the zones that are entered by the ports `ps`, into the
port `r`. -/
def Trail (e : Errand) : ZonePort → List ZonePort → ZonePort → Prop
  | here, [], r => e.arch.Linked here r
  | here, p :: ps, r => e.arch.Linked here p ∧ e.Open p.zone ∧ e.Trail p.flip ps r

/-- Cost of entering and passing the zones with the ports `ps`. -/
def fare (e : Errand) (ps : List ZonePort) : Nat := total (ps.map fun p => 1 + e.toll p.zone)

/-- Cost of as many hops as there are zones and of a passage through each of them. -/
def outlay (e : Errand) : Nat :=
  e.arch.numZones + total ((List.range e.arch.numZones).map e.toll)

variable {e : Errand} {here p r : ZonePort} {ps ps' : List ZonePort} {c k : Nat}

theorem fare_append : e.fare (ps ++ ps') = e.fare ps + e.fare ps' := by
  simp [fare]

theorem fare_singleton : e.fare [p] = 1 + e.toll p.zone := by
  simp [fare]

theorem fare_eq (e : Errand) (ps : List ZonePort) :
    e.fare ps = ps.length
      + e.count * total ((ps.map (·.zone)).map fun z => e.occupancy z * e.arch.swapCost z) := by
  induction ps with
  | nil => simp [fare]
  | cons p ps ih =>
    have hcons : e.fare (p :: ps) = 1 + e.toll p.zone + e.fare ps := rfl
    rw [hcons, ih, toll, List.map_cons, List.map_cons, total_cons, Nat.mul_add, List.length_cons]
    omega

/-! ## Trails -/

theorem trail_append_iff :
    e.Trail here (ps ++ p :: ps') r ↔ e.Trail here ps p ∧ e.Open p.zone ∧ e.Trail p.flip ps' r := by
  induction ps generalizing here with
  | nil => rfl
  | cons p' ps ih =>
    rw [List.cons_append, Trail, Trail, ih]
    tauto

theorem Trail.open (h : e.Trail here ps r) (hp : p ∈ ps) : e.Open p.zone := by
  obtain ⟨ps₁, ps₂, rfl⟩ := List.append_of_mem hp
  exact (trail_append_iff.1 h).2.1

/-- A trail ends with a connection out of its start or out of the last zone that it passes. -/
theorem Trail.last_link (h : e.Trail here ps r) :
    (ps = [] ∧ e.arch.Linked here r) ∨
      ∃ ps' p, ps = ps' ++ [p] ∧ e.Trail here ps' p ∧ e.Open p.zone ∧ e.arch.Linked p.flip r := by
  rcases List.eq_nil_or_concat ps with rfl | ⟨ps', p, rfl⟩
  · exact .inl ⟨rfl, h⟩
  · exact .inr ⟨ps', p, by simp, trail_append_iff.1 (by simpa using h)⟩

/-- A trail is a walk. -/
theorem Trail.walk (h : e.Trail here ps r) : e.Walk here r (e.fare ps + 1) := by
  induction ps using List.reverseRecOn generalizing r with
  | nil => exact .step .refl (.shuttle h)
  | append_singleton ps p ih =>
    obtain ⟨htrail, hopen, hlink⟩ := trail_append_iff.1 h
    have hwalk := ((ih htrail).step (.capacity hopen)).step (.shuttle hlink)
    rwa [fare_append, fare_singleton, ← Nat.add_assoc]

section Legal

variable (ha : e.arch.Legal)
include ha

/-- A trail out of the start does not come back to a zone that it passed: both ports of that zone
lead to ports of the trail, and neither of these is the one where the trail goes on. -/
theorem Trail.notMem (hhere : here.zone = e.start) (h : e.Trail here ps r) :
    (ps.map (·.zone)).Nodup ∧ r.zone ∉ ps.map (·.zone) := by
  induction ps using List.reverseRecOn generalizing r with
  | nil => simp
  | append_singleton ps p ih =>
    obtain ⟨htrail, hopen, hlink⟩ := trail_append_iff.1 h
    have hlink : e.arch.Linked p.flip r := hlink
    obtain ⟨hnodup, hnot⟩ := ih htrail
    have hnew : ∀ s ∈ ps, s.zone ≠ p.zone := fun s hs hz => hnot (hz ▸ List.mem_map_of_mem hs)
    have hself : r.zone ≠ p.zone := (ha.linked_zones hlink).2.2.symm
    have hpassed : ∀ s ∈ ps, r.zone ≠ s.zone := by
      intro s hs hz
      obtain ⟨before, after, rfl⟩ := List.append_of_mem hs
      obtain ⟨harrive, -, hleave⟩ := trail_append_iff.1 htrail
      rcases ZonePort.eq_or_eq_flip hz with rfl | rfl
      · -- the port by which the zone was entered leads back to where the trail came from
        rcases harrive.last_link with ⟨rfl, hfirst⟩ | ⟨before, s', rfl, -, -, hprev⟩
        · have hback := ha.linked_unique hlink.symm hfirst.symm
          exact hopen.ne_start ((congrArg ZonePort.zone hback).trans hhere)
        · have hback := ha.linked_unique hlink.symm hprev.symm
          exact hnew s' (by simp) (congrArg ZonePort.zone hback).symm
      · -- the other one leads to where the trail went on
        cases after with
        | nil => exact p.flip_ne (ha.linked_unique hlink.symm hleave)
        | cons s' after =>
          have hnext := ha.linked_unique hlink.symm hleave.1
          exact hnew s' (by simp) (congrArg ZonePort.zone hnext).symm
    refine ⟨?_, ?_⟩
    · rw [List.map_append, List.nodup_append]
      refine ⟨hnodup, by simp, ?_⟩
      intro z hz w hw
      obtain ⟨s, hs, rfl⟩ := List.mem_map.1 hz
      obtain rfl : w = p.zone := by simpa using hw
      exact hnew s hs
    · rw [List.map_append, List.mem_append, not_or]
      refine ⟨fun hmem => ?_, by simpa using hself⟩
      obtain ⟨s, hs, hz⟩ := List.mem_map.1 hmem
      exact hpassed s hs hz.symm

/-- A trail to the target meets no zone twice. -/
theorem Trail.nodup (hne : e.start ≠ e.target) (hhere : here.zone = e.start)
    (hr : r.zone = e.target) (h : e.Trail here ps r) :
    (here.zone :: (ps.map (·.zone) ++ [r.zone])).Nodup := by
  obtain ⟨hnodup, hnot⟩ := h.notMem ha hhere
  rw [List.nodup_cons, List.mem_append, not_or, List.nodup_append]
  refine ⟨⟨fun hmem => ?_, ?_⟩, hnodup, by simp, ?_⟩
  · obtain ⟨s, hs, hz⟩ := List.mem_map.1 hmem
    exact (h.open hs).ne_start (hz.trans hhere)
  · rw [hhere, hr, List.mem_singleton]
    exact hne
  · intro z hz w hw
    obtain rfl : w = r.zone := by simpa using hw
    rintro rfl
    exact hnot hz

/-- A trail to the target passes fewer zones than the trap has. -/
theorem Trail.length_lt (hhere : here.zone = e.start) (h : e.Trail here ps r) :
    ps.length < e.arch.numZones := by
  have hr : r.zone < e.arch.numZones := by
    rcases h.last_link with ⟨-, hlink⟩ | ⟨_, _, -, -, -, hlink⟩
    · exact (ha.linked_zones hlink).2.1
    · exact (ha.linked_zones hlink).2.1
  obtain ⟨hnodup, hnot⟩ := h.notMem ha hhere
  have hsub : r.zone :: ps.map (·.zone) ⊆ List.range e.arch.numZones := by
    intro z hz
    rcases List.mem_cons.1 hz with rfl | hz
    · exact List.mem_range.2 hr
    · obtain ⟨s, hs, rfl⟩ := List.mem_map.1 hz
      exact List.mem_range.2 (h.open hs).lt
  have hlen := (List.subperm_of_subset (List.nodup_cons.2 ⟨hnot, hnodup⟩) hsub).length_le
  simpa using hlen

/-- No trail costs more than to hop to every zone and to pass it. -/
theorem Trail.fare_le_outlay (hhere : here.zone = e.start) (h : e.Trail here ps r) :
    e.fare ps + 1 ≤ e.outlay := by
  have hsub : ps.map (·.zone) ⊆ List.range e.arch.numZones := by
    intro z hz
    obtain ⟨p, hp, rfl⟩ := List.mem_map.1 hz
    exact List.mem_range.2 (h.open hp).lt
  have htolls := total_map_le_of_subset e.toll (h.notMem ha hhere).1 hsub
  have hfare : e.fare ps = ps.length + total ((ps.map (·.zone)).map e.toll) := by
    rw [fare, List.map_map, total_map_add, total_map_one]
    rfl
  have hlen := h.length_lt ha hhere
  rw [hfare, outlay]
  omega

/-! ## Ports along a trail -/

omit ha in
theorem Trail.isChain (h : e.Trail here ps r) :
    (here.zone :: (ps.map (·.zone) ++ [r.zone])).IsChain e.arch.Joined := by
  induction ps generalizing here with
  | nil =>
    have hjoined : e.arch.Joined here.zone r.zone := ⟨here.port, r.port, h⟩
    simpa using hjoined
  | cons p ps ih =>
    have hrest := ih h.2.2
    exact List.isChain_cons_cons.2 ⟨⟨here.port, p.port, h.1⟩, hrest⟩

/-- The first connection leaves through the port where the trail starts. -/
theorem Trail.exit_port (h : e.Trail here ps r) {x y : Nat}
    (hxy : [x, y] <+: here.zone :: (ps.map (·.zone) ++ [r.zone])) :
    ∃ arrival, e.arch.connectionPorts x y = .ok (here.port, arrival) := by
  cases ps with
  | nil =>
    obtain ⟨rfl, rfl⟩ : x = here.zone ∧ y = r.zone := by simpa using hxy
    exact ⟨r.port, ha.connectionPorts_eq_ok_iff.2 h⟩
  | cons p ps =>
    obtain ⟨rfl, rfl⟩ : x = here.zone ∧ y = p.zone := by simpa using hxy
    exact ⟨p.port, ha.connectionPorts_eq_ok_iff.2 h.1⟩

/-- Every zone on the way is left through the port opposite to the one by which it was entered. -/
theorem Trail.turn (h : e.Trail here ps r) {x y z : Nat}
    (hxyz : [x, y, z] <:+: here.zone :: (ps.map (·.zone) ++ [r.zone])) :
    ∃ exit arrival next, e.arch.connectionPorts x y = .ok (exit, arrival) ∧
      e.arch.connectionPorts y z = .ok (arrival.other, next) := by
  induction ps generalizing here with
  | nil =>
    have := hxyz.length_le
    simp at this
  | cons p ps ih =>
    rcases List.infix_cons_iff.1 hxyz with hfirst | hlater
    · obtain ⟨rfl, htail⟩ := List.cons_prefix_cons.1 hfirst
      obtain ⟨rfl, -⟩ := List.cons_prefix_cons.1 htail
      obtain ⟨next, hnext⟩ := Trail.exit_port ha h.2.2 htail
      exact ⟨here.port, p.port, next, ha.connectionPorts_eq_ok_iff.2 h.1, hnext⟩
    · exact ih h.2.2 hlater

/-- The last connection arrives at the port where the trail ends. -/
theorem Trail.arrival_port (h : e.Trail here ps r) {x y : Nat}
    (hxy : [x, y] <:+ here.zone :: (ps.map (·.zone) ++ [r.zone])) :
    ∃ exit, e.arch.connectionPorts x y = .ok (exit, r.port) := by
  induction ps generalizing here with
  | nil =>
    obtain ⟨rfl, rfl⟩ : x = here.zone ∧ y = r.zone := by
      simpa using hxy.eq_of_length_le (by simp)
    exact ⟨here.port, ha.connectionPorts_eq_ok_iff.2 h⟩
  | cons p ps ih =>
    rcases List.suffix_cons_iff.1 hxy with hwhole | hlater
    · have := congrArg List.length hwhole
      simp at this
    · exact ih h.2.2 hlater

/-! ## No walk is cheaper -/

/-- What the ports along a trail cost from its start. -/
inductive Label (e : Errand) (here : ZonePort) : ZonePort → Nat → Prop
  | start : Label e here here 0
  | entered {ps : List ZonePort} {r : ZonePort} (h : e.Trail here ps r) :
      Label e here r (e.fare ps + 1)
  | passed {ps : List ZonePort} {r : ZonePort} (h : e.Trail here ps r) (hopen : e.Open r.zone) :
      Label e here r.flip (e.fare ps + 1 + e.toll r.zone)

/-- Every edge at a labelled port leads to a labelled port, and labels grow no faster than costs. -/
theorem Label.exists_next (hhere : here.zone = e.start) (h : e.Label here p c)
    (hedge : e.Edge p r k) : ∃ c' ≤ c + k, e.Label here r c' := by
  cases h with
  | start =>
    cases hedge with
    | shuttle hlink =>
      have hfirst : e.Trail here [] r := hlink
      exact ⟨_, by simp [fare], .entered hfirst⟩
    | capacity hopen => exact absurd hhere hopen.ne_start
  | entered htrail =>
    cases hedge with
    | shuttle hlink =>
      -- the connection leads back
      rcases htrail.last_link with ⟨-, hfirst⟩ | ⟨before, s, rfl, hbefore, hopen, hprev⟩
      · obtain rfl := ha.linked_unique hfirst.symm hlink
        exact ⟨0, by omega, .start⟩
      · obtain rfl := ha.linked_unique hprev.symm hlink
        refine ⟨_, ?_, .passed hbefore hopen⟩
        rw [fare_append, fare_singleton]
        omega
    | capacity hopen => exact ⟨_, le_rfl, .passed htrail hopen⟩
  | passed htrail hopen =>
    cases hedge with
    | shuttle hlink =>
      have hnext : e.Trail here (_ ++ [_]) r := trail_append_iff.2 ⟨htrail, hopen, hlink⟩
      refine ⟨_, ?_, .entered hnext⟩
      rw [fare_append, fare_singleton]
      omega
    | capacity hopen' =>
      rw [ZonePort.flip_flip]
      exact ⟨_, by omega, .entered htrail⟩

/-- A walk out of the start stays on the trail and costs at least the label of its end. -/
theorem Walk.exists_label (hhere : here.zone = e.start) (h : e.Walk here p c) :
    ∃ c' ≤ c, e.Label here p c' := by
  induction h with
  | refl => exact ⟨0, le_rfl, .start⟩
  | step _ hedge ih =>
    obtain ⟨c₁, hc₁, hlabel⟩ := ih
    obtain ⟨c₂, hc₂, hlabel⟩ := hlabel.exists_next ha hhere hedge
    exact ⟨c₂, by omega, hlabel⟩

/-- A walk to the target costs at least as much as a trail to it. -/
theorem Walk.exists_trail (hne : e.start ≠ e.target) (hhere : here.zone = e.start)
    (hp : p.zone = e.target) (h : e.Walk here p c) :
    ∃ ps, e.Trail here ps p ∧ e.fare ps + 1 ≤ c := by
  obtain ⟨c', hle, hlabel⟩ := h.exists_label ha hhere
  cases hlabel with
  | start => exact absurd (hhere.symm.trans hp) hne
  | entered htrail => exact ⟨_, htrail, hle⟩
  | passed htrail hopen => exact absurd hp hopen.ne_target

/-- There is one trail to the target at most. -/
theorem Trail.unique {r' : ZonePort} (hr : r.zone = e.target) (hr' : r'.zone = e.target)
    (h : e.Trail here ps r) (h' : e.Trail here ps' r') : ps = ps' ∧ r = r' := by
  induction ps generalizing here ps' with
  | nil =>
    cases ps' with
    | nil => exact ⟨rfl, ha.linked_unique h h'⟩
    | cons p' ps' =>
      obtain rfl := ha.linked_unique h h'.1
      exact absurd hr h'.2.1.ne_target
  | cons p ps ih =>
    cases ps' with
    | nil =>
      obtain rfl := ha.linked_unique h' h.1
      exact absurd hr' h.2.1.ne_target
    | cons p' ps' =>
      obtain rfl := ha.linked_unique h.1 h'.1
      obtain ⟨rfl, rfl⟩ := ih h.2.2 h'.2.2
      exact ⟨rfl, rfl⟩

/-! ## What is found -/

/-- What following the way out of a port does first. -/
theorem follow_succ_eq_some_iff {fuel : Nat} {q : PortPath} :
    (PortGraph.loaded e.arch e.occupancy).follow e.start e.target e.count (fuel + 1) here = some q ↔
      ∃ r, e.arch.Linked here r ∧
        ((r.zone = e.target ∧ q = ⟨[e.target], 1, r.port⟩) ∨
          e.Open r.zone ∧ ∃ q',
            (PortGraph.loaded e.arch e.occupancy).follow e.start e.target e.count fuel r.flip
              = some q' ∧
            q = ⟨r.zone :: q'.zones, wrap (1 + e.toll r.zone + q'.cost), q'.targetPort⟩) := by
  rw [PortGraph.follow]
  cases hacross : (PortGraph.loaded e.arch e.occupancy).across here with
  | none =>
    simp only [reduceCtorEq, false_iff, not_exists, not_and]
    intro r hlink
    rw [(ha.across_eq_some_iff rfl).2 hlink] at hacross
    simp at hacross
  | some there =>
    have hlink : e.arch.Linked here there := (ha.across_eq_some_iff rfl).1 hacross
    have hlt := (ha.linked_zones hlink).2.1
    obtain ⟨edge, hedge, hfree⟩ := PortGraph.exists_edge_loaded e.occupancy hlt
    have hcost : ∀ c, wrap (shuttleCost + wrap (edge.cost * e.count) + c)
        = wrap (1 + e.toll there.zone + c) := by
      have hcross := PortGraph.crossingCost_loaded e.arch e.occupancy e.count there.zone
      rw [PortGraph.crossingCost, hedge, Option.map_some, Option.getD_some] at hcross
      intro c
      rw [hcross, toll, Nat.mul_comm e.count, Nat.add_right_comm, wrap_add_wrap,
        Nat.add_right_comm, shuttleCost]
    have honly : ∀ r, e.arch.Linked here r ↔ r = there := by
      intro r
      exact ⟨fun h => ha.linked_unique h hlink, fun h => h ▸ hlink⟩
    have hopen : e.Open there.zone ↔
        there.zone ≠ e.target ∧ there.zone ≠ e.start ∧ ¬ edge.free < e.count := by
      rw [hfree, Nat.not_lt]
      exact ⟨fun h => ⟨h.ne_target, h.ne_start, h.room⟩, fun h => ⟨hlt, h.2.1, h.1, h.2.2⟩⟩
    simp only [honly, exists_eq_left, hedge, hopen]
    split_ifs with htarget hstart hroom
    · simp [htarget, shuttleCost, eq_comm]
    · rw [hstart] at htarget
      simp [htarget, hstart]
    · simp [htarget, hroom]
    · simp only [htarget, hstart, hroom, Option.map_eq_some_iff, false_and, false_or,
        not_false_eq_true, ne_eq, true_and, hcost]
      simp only [ZonePort.flip, eq_comm]

theorem follow_eq_some_iff {fuel : Nat} {q : PortPath} :
    (PortGraph.loaded e.arch e.occupancy).follow e.start e.target e.count fuel here = some q ↔
      ∃ ps r, e.Trail here ps r ∧ r.zone = e.target ∧ ps.length < fuel ∧
        q = ⟨ps.map (·.zone) ++ [e.target], wrap (e.fare ps + 1), r.port⟩ := by
  induction fuel generalizing here q with
  | zero => simp [PortGraph.follow]
  | succ fuel ih =>
    rw [follow_succ_eq_some_iff ha]
    constructor
    · rintro ⟨p, hlink, ⟨hp, rfl⟩ | ⟨hopen, q', hq', rfl⟩⟩
      · exact ⟨[], p, hlink, hp, by simp, by simp [fare]⟩
      · obtain ⟨ps, r, htrail, hr, hlen, rfl⟩ := ih.1 hq'
        refine ⟨p :: ps, r, ⟨hlink, hopen, htrail⟩, hr, by simpa using hlen, ?_⟩
        have hfare : e.fare (p :: ps) = 1 + e.toll p.zone + e.fare ps := rfl
        rw [hfare, Nat.add_assoc (1 + _), wrap_add_wrap]
        rfl
    · rintro ⟨ps, r, htrail, hr, hlen, rfl⟩
      cases ps with
      | nil => exact ⟨r, htrail, .inl ⟨hr, by simp [fare]⟩⟩
      | cons p ps =>
        obtain ⟨hlink, hopen, htrail⟩ := htrail
        refine ⟨p, hlink, .inr ⟨hopen, _, ih.2 ⟨ps, r, htrail, hr, by simpa using hlen, rfl⟩, ?_⟩⟩
        have hfare : e.fare (p :: ps) = 1 + e.toll p.zone + e.fare ps := rfl
        rw [hfare, Nat.add_assoc (1 + _), wrap_add_wrap]
        rfl

/-- The way that is found is the trail to the target. -/
theorem path_eq_some_iff (hne : e.start ≠ e.target) {port : Port} {q : PortPath} :
    (PortGraph.loaded e.arch e.occupancy).path e.start port e.target e.count = some q ↔
      ∃ ps r, e.Trail ⟨e.start, port⟩ ps r ∧ r.zone = e.target ∧
        q = ⟨e.start :: (ps.map (·.zone) ++ [r.zone]), wrap (e.fare ps + 1), r.port⟩ := by
  rw [PortGraph.path, if_neg hne, PortGraph.numZones_loaded]
  simp only [Option.map_eq_some_iff, follow_eq_some_iff ha]
  constructor
  · rintro ⟨_, ⟨ps, r, htrail, hr, -, rfl⟩, rfl⟩
    exact ⟨ps, r, htrail, hr, by rw [hr]⟩
  · rintro ⟨ps, r, htrail, hr, rfl⟩
    exact ⟨_, ⟨ps, r, htrail, hr, htrail.length_lt ha rfl, rfl⟩, by rw [hr]⟩

end Legal

end Errand

/-! ## Occupancies set one by one -/

namespace PortGraph

/-- Sets occupancies, each given with its zone, one after the other. -/
def setAll (g : PortGraph) (updates : List (Nat × Nat)) : PortGraph :=
  updates.foldl (fun g u => g.setOccupancy u.1 u.2) g

/-- The occupancies of empty zones after some were set, the latest counting. -/
def occupancyAfter (updates : List (Nat × Nat)) : Nat → Nat :=
  updates.foldl (fun f u => Function.update f u.1 u.2) fun _ => 0

theorem setAll_loaded (a : Architecture) (f : Nat → Nat) (updates : List (Nat × Nat)) :
    (loaded a f).setAll updates
      = loaded a (updates.foldl (fun f u => Function.update f u.1 u.2) f) := by
  induction updates generalizing f with
  | nil => rfl
  | cons u updates ih =>
    rw [setAll, List.foldl_cons, setOccupancy_loaded, List.foldl_cons]
    exact ih _

theorem setAll_ofArchitecture (a : Architecture) (updates : List (Nat × Nat)) :
    (ofArchitecture a).setAll updates = loaded a (occupancyAfter updates) := by
  rw [ofArchitecture_eq_loaded, setAll_loaded, occupancyAfter]

end PortGraph

/-- The zones of a way out of `start` through `port` into `target`: neighbours are connected, none
is met twice, each one between the ends is left through the port opposite to the one by which it was
entered, and the last connection arrives at the target port. -/
structure PortPath.Threads (p : PortPath) (a : Architecture) (start : Nat) (port : Port)
    (target : Nat) : Prop where
  head : p.zones.head? = some start
  last : p.zones.getLast? = some target
  nodup : p.zones.Nodup
  chain : p.zones.IsChain a.Joined
  exit : ∀ x y, [x, y] <+: p.zones → ∃ arrival, a.connectionPorts x y = .ok (port, arrival)
  turn : ∀ x y z, [x, y, z] <:+: p.zones → ∃ exit arrival next,
    a.connectionPorts x y = .ok (exit, arrival) ∧ a.connectionPorts y z = .ok (arrival.other, next)
  arrival : ∀ x y, [x, y] <:+ p.zones → ∃ exit, a.connectionPorts x y = .ok (exit, p.targetPort)

theorem Errand.Trail.threads {e : Errand} (ha : e.arch.Legal) (hne : e.start ≠ e.target)
    {port : Port} {ps : List ZonePort} {r : ZonePort} (h : e.Trail ⟨e.start, port⟩ ps r)
    (hr : r.zone = e.target) (cost : Nat) :
    PortPath.Threads ⟨e.start :: (ps.map (·.zone) ++ [r.zone]), cost, r.port⟩ e.arch e.start port
      e.target where
  head := rfl
  last := by
    show ((e.start :: ps.map (·.zone)) ++ [r.zone]).getLast? = some e.target
    rw [List.getLast?_concat, hr]
  nodup := h.nodup ha hne rfl hr
  chain := h.isChain
  exit _ _ hxy := h.exit_port ha hxy
  turn _ _ _ hxyz := h.turn ha hxyz
  arrival _ _ hxy := h.arrival_port ha hxy

end IonTrap
