import IonTrap.Proofs.Architecture.PortPaths

/-!
# Searching for cheapest ways

The way out of a port is forced, but it can also be searched for, as a cheapest path in the graph
whose nodes are the numbers of the ports: the passages of zones that may not be crossed are left
out, a cheapest path to one of the two ports of the target is asked for, and its nodes are read as
zones. What answers for the path is a parameter (`PathFinder`), of which no more is assumed than
that it finds cheapest paths where costs can be added up (`PathFinder.Cheapest`). Ports are forced
in a path as in a way, so the search gives what following the connections gives
(`Errand.search_eq_path`).

Costs are words. A way costs what its hops and passages cost as long as that fits, and then no walk
is cheaper (`PortGraph.path_cheapest`).
-/

namespace IonTrap

/-! ## Cheapest paths -/

/-- The paths along given edges, with their costs. -/
inductive Route {α : Type} (edge : α → α → Nat → Prop) : List α → Nat → Prop
  | single (x : α) : Route edge [x] 0
  | cons {x y : α} {xs : List α} {k c : Nat} (hedge : edge x y k) (h : Route edge (y :: xs) c) :
      Route edge (x :: y :: xs) (k + c)

namespace Route

variable {α : Type} {edge : α → α → Nat → Prop} {x : α} {xs ys : List α} {c d : Nat}

theorem map {β : Type} {edge' : β → β → Nat → Prop} {f : α → β}
    (hf : ∀ x y k, edge x y k → edge' (f x) (f y) k) (h : Route edge xs c) :
    Route edge' (xs.map f) c := by
  induction h with
  | single x => exact .single (f x)
  | cons hedge _ ih => exact .cons (hf _ _ _ hedge) ih

theorem append (h : Route edge (xs ++ [x]) c) (h' : Route edge (x :: ys) d) :
    Route edge (xs ++ x :: ys) (c + d) := by
  induction xs generalizing c with
  | nil =>
    cases h
    rwa [Nat.zero_add]
  | cons y xs ih =>
    rcases xs with _ | ⟨z, xs⟩ <;> cases h with
    | cons hedge h =>
      rw [Nat.add_assoc]
      exact .cons hedge (ih h)

theorem exists_of_append (h : Route edge (xs ++ x :: ys) c) :
    ∃ c₁ c₂, c = c₁ + c₂ ∧ Route edge (xs ++ [x]) c₁ ∧ Route edge (x :: ys) c₂ := by
  induction xs generalizing c with
  | nil => exact ⟨0, c, (Nat.zero_add c).symm, .single x, h⟩
  | cons y xs ih =>
    rcases xs with _ | ⟨z, xs⟩ <;> cases h with
    | cons hedge h =>
      obtain ⟨c₁, c₂, rfl, h₁, h₂⟩ := ih h
      exact ⟨_, c₂, (Nat.add_assoc ..).symm, .cons hedge h₁, h₂⟩

end Route

/-- An edge between two nodes. -/
structure Arc where
  /-- One end. -/
  a : Nat
  /-- The other end. -/
  b : Nat
  /-- What it costs to go along it, either way. -/
  cost : Nat

/-- Going along one of some edges. -/
def Arc.Step (arcs : List Arc) (n m cost : Nat) : Prop := ⟨n, m, cost⟩ ∈ arcs ∨ ⟨m, n, cost⟩ ∈ arcs

/-- A path along edges from a node to one of the goals. -/
structure Arc.Reaches (arcs : List Arc) (start : Nat) (goal : Nat → Bool) (nodes : List Nat)
    (cost : Nat) : Prop where
  route : Route (Arc.Step arcs) nodes cost
  head : nodes.head? = some start
  last : ∃ n, nodes.getLast? = some n ∧ goal n = true

/-- Answers for a path along edges from a node to one of the goals, with the cost of the path and
its nodes. -/
abbrev PathFinder := List Arc → Nat → (Nat → Bool) → Option (Nat × List Nat)

/-- Finds a cheapest path that meets no node twice, if there is a path at all. This is asked for as
long as the costs of all edges, added up twice, fit into a word: no sum along a path and one edge
more then overflows. -/
structure PathFinder.Cheapest (find : PathFinder) : Prop where
  found : ∀ arcs start goal cost nodes, 2 * total (arcs.map (·.cost)) < wordSize →
    find arcs start goal = some (cost, nodes) → Arc.Reaches arcs start goal nodes cost ∧ nodes.Nodup
  least : ∀ arcs start goal cost nodes cost' nodes', 2 * total (arcs.map (·.cost)) < wordSize →
    find arcs start goal = some (cost, nodes) → Arc.Reaches arcs start goal nodes' cost' →
      cost ≤ cost'
  exists_of_reaches : ∀ arcs start goal cost nodes, 2 * total (arcs.map (·.cost)) < wordSize →
    Arc.Reaches arcs start goal nodes cost → ∃ answer, find arcs start goal = some answer

/-- Leaving a detour out makes a path no more expensive. -/
theorem Arc.Reaches.skip {arcs : List Arc} {start n : Nat} {goal : Nat → Bool} {cost : Nat}
    {xs ys zs : List Nat} (h : Arc.Reaches arcs start goal (xs ++ n :: ys ++ n :: zs) cost) :
    ∃ cost' ≤ cost, Arc.Reaches arcs start goal (xs ++ n :: zs) cost' := by
  obtain ⟨c₁, c₃, rfl, h₁, h₃⟩ := h.route.exists_of_append
  rw [List.append_assoc, List.cons_append] at h₁
  obtain ⟨c₁, c₂, rfl, h₁, -⟩ := h₁.exists_of_append
  refine ⟨c₁ + c₃, by omega, h₁.append h₃, ?_, ?_⟩
  · have hhead := h.head
    cases xs <;> simpa using hhead
  · have hlast := h.last
    rw [List.getLast?_append_cons] at hlast ⊢
    exact hlast

/-- A path that meets a node twice can be shortened without making it more expensive. -/
theorem Arc.Reaches.exists_shorter {arcs : List Arc} {start : Nat} {goal : Nat → Bool} {cost : Nat}
    {nodes : List Nat} (h : Arc.Reaches arcs start goal nodes cost) (hdup : ¬ nodes.Nodup) :
    ∃ cost' ≤ cost, ∃ nodes', nodes'.length < nodes.length ∧
      Arc.Reaches arcs start goal nodes' cost' := by
  -- split the path at the first two visits of the node
  obtain ⟨n, hn⟩ := List.exists_duplicate_iff_not_nodup.2 hdup
  obtain ⟨before, after, rfl, hn, hn'⟩ := List.cons_sublist_iff.1 (List.duplicate_iff_sublist.1 hn)
  obtain ⟨xs, ys, rfl⟩ := List.append_of_mem hn
  obtain ⟨ys', zs, rfl⟩ := List.append_of_mem (List.singleton_sublist.1 hn')
  rw [show xs ++ n :: ys ++ (ys' ++ n :: zs) = xs ++ n :: (ys ++ ys') ++ n :: zs by simp] at h ⊢
  obtain ⟨cost', hle, hskip⟩ := h.skip
  refine ⟨cost', hle, _, ?_, hskip⟩
  simp only [List.length_append, List.length_cons]
  omega

/-- If there is a path, then a cheapest one with the fewest nodes meets no node twice. -/
theorem Arc.Reaches.exists_cheapest (arcs : List Arc) (start : Nat) (goal : Nat → Bool)
    (hex : ∃ cost nodes, Arc.Reaches arcs start goal nodes cost) :
    ∃ answer : Nat × List Nat, Arc.Reaches arcs start goal answer.2 answer.1 ∧ answer.2.Nodup ∧
      ∀ cost nodes, Arc.Reaches arcs start goal nodes cost → answer.1 ≤ cost := by
  classical
  have hlen : ∃ n nodes, Arc.Reaches arcs start goal nodes (Nat.find hex) ∧ nodes.length = n := by
    obtain ⟨nodes, hnodes⟩ := Nat.find_spec hex
    exact ⟨_, nodes, hnodes, rfl⟩
  obtain ⟨nodes, hnodes, hshort⟩ := Nat.find_spec hlen
  refine ⟨(Nat.find hex, nodes), hnodes, ?_, fun cost nodes h => Nat.find_min' hex ⟨nodes, h⟩⟩
  by_contra hdup
  obtain ⟨cost, hle, nodes', hlt, hnodes'⟩ := hnodes.exists_shorter hdup
  obtain rfl : cost = Nat.find hex := le_antisymm hle (Nat.find_min' hex ⟨_, hnodes'⟩)
  have hmin := Nat.find_min' hlen ⟨_, hnodes', rfl⟩
  omega

/-- There are finders of cheapest paths. -/
theorem PathFinder.exists_cheapest : ∃ find : PathFinder, find.Cheapest := by
  classical
  choose! best hreach hnodup hleast using Arc.Reaches.exists_cheapest
  refine ⟨fun arcs start goal =>
    if ∃ cost nodes, Arc.Reaches arcs start goal nodes cost then some (best arcs start goal)
    else none, ?_, ?_, ?_⟩
  · intro arcs start goal cost nodes _ hfound
    split_ifs at hfound with hex
    have hans := Option.some.inj hfound
    have h := hreach arcs start goal hex
    have h' := hnodup arcs start goal hex
    rw [hans] at h h'
    exact ⟨h, h'⟩
  · intro arcs start goal cost nodes cost' nodes' _ hfound h
    split_ifs at hfound with hex
    have hle := hleast arcs start goal hex cost' nodes' h
    rwa [Option.some.inj hfound] at hle
  · intro arcs start goal cost nodes _ h
    exact ⟨_, if_pos ⟨cost, nodes, h⟩⟩

/-! ## Ports as nodes -/

/-- Number of a port among all ports of the trap. -/
def ZonePort.number (p : ZonePort) : Nat := portNumber p.zone p.port

theorem portOfNumber_number {p : ZonePort} (hp : p.zone < maxZones) :
    portOfNumber p.number = (p.zone, p.port) :=
  portOfNumber_portNumber hp p.port

theorem ZonePort.number_inj {p r : ZonePort} (hp : p.zone < maxZones) (hr : r.zone < maxZones)
    (h : p.number = r.number) : p = r := by
  have hdecoded := congrArg portOfNumber h
  rw [portOfNumber_number hp, portOfNumber_number hr] at hdecoded
  obtain ⟨hzone, hport⟩ := Prod.mk.inj hdecoded
  obtain ⟨z, port⟩ := p
  obtain ⟨w, port'⟩ := r
  simp_all

/-- There are no more connections than zones, because every port is an end of one at most. -/
theorem Architecture.Legal.length_connections_le {a : Architecture} (ha : a.Legal) :
    a.connections.length ≤ a.numZones := by
  have hnodup : (a.connections.flatMap fun c => [c.a, c.b]).Nodup := by
    rw [List.nodup_flatMap]
    refine ⟨fun c hc => ?_, ha.apart.imp fun hap => ?_⟩
    · have hends := (ha.ends c hc).2.2
      simpa using fun heq => hends (congrArg ZonePort.zone heq)
    · intro p hp hp'
      simp only [List.mem_cons, List.not_mem_nil, or_false] at hp hp'
      exact hap.ports p (hp.imp Eq.symm Eq.symm) (hp'.imp Eq.symm Eq.symm)
  have hsub : (a.connections.flatMap fun c => [c.a, c.b])
      ⊆ (List.range a.numZones).flatMap fun z => [⟨z, .p0⟩, ⟨z, .p1⟩] := by
    intro p hp
    obtain ⟨c, hc, hp⟩ := List.mem_flatMap.1 hp
    have hzone : p.zone < a.numZones := by
      obtain ⟨h₁, h₂, -⟩ := ha.ends c hc
      rcases List.mem_pair.1 hp with rfl | rfl <;> assumption
    refine List.mem_flatMap.2 ⟨p.zone, List.mem_range.2 hzone, ?_⟩
    obtain ⟨z, port⟩ := p
    cases port <;> simp
  have hlen := (List.subperm_of_subset hnodup hsub).length_le
  simp only [List.length_flatMap, List.length_cons, List.length_nil, List.map_const',
    List.sum_replicate, List.length_range, smul_eq_mul] at hlen
  omega

namespace PortGraph

/-- The edges of a search for `count` qubits: the passages of all zones with room but the two ends,
and the connections. -/
def arcs (g : PortGraph) (start target count : Nat) : List Arc :=
  (g.edges.filter fun e => e.zone != start && e.zone != target && count ≤ e.free).map
      (fun e => ⟨portNumber e.zone .p0, portNumber e.zone .p1, wrap (e.cost * count)⟩)
    ++ g.connections.map fun c => ⟨c.a.number, c.b.number, shuttleCost⟩

/-- The passages of a loaded trap, zone by zone. -/
theorem edges_loaded (a : Architecture) (f : Nat → Nat) :
    (loaded a f).edges = (List.range a.numZones).map fun z =>
      ⟨z, a.transportCapacity z, f z, a.transportCapacity z - f z, wrap (f z * a.swapCost z)⟩ := by
  refine List.ext_getElem (by simp [loaded, Architecture.numZones]) fun z hz _ => ?_
  have hz : z < a.zones.length := by simpa [loaded] using hz
  simp [loaded, CapacityEdge.withOccupancy, CapacityEdge.ofEmpty, Architecture.transportCapacity,
    Architecture.swapCost, hz]

/-- Whether a node is one of the ports of the target. -/
def isGoal (target n : Nat) : Bool :=
  [portNumber target .p0, portNumber target .p1].contains n

/-- Notes a zone unless it is the one noted last. -/
def note (zones : List Nat) (z : Nat) : List Nat :=
  if zones.getLast? = some z then zones else zones ++ [z]

/-- The way for `count` qubits out of `start` through `port` into `target` as a search finds it: a
cheapest path to one of the ports of the target, read zone by zone. -/
def search (find : PathFinder) (g : PortGraph) (start : Nat) (port : Port) (target count : Nat) :
    Option PortPath :=
  if start = target then some ⟨[start], 0, port⟩
  else
    match find (g.arcs start target count) (portNumber start port) (isGoal target) with
    | none => none
    | some (cost, nodes) =>
      nodes.getLast?.map fun last =>
        ⟨nodes.foldl (fun zones n => note zones (portOfNumber n).1) [], cost,
          (portOfNumber last).2⟩

end PortGraph

namespace Errand

variable {e : Errand} {here p r : ZonePort} {ps ports : List ZonePort} {c k : Nat}

/-- The ports of the zones that a trail passes, both of each. -/
def bothPorts (ps : List ZonePort) : List ZonePort := ps.flatMap fun p => [p, p.flip]

/-- A trail is a path. -/
theorem Trail.route (h : e.Trail here ps r) :
    Route e.Edge (here :: (bothPorts ps ++ [r])) (e.fare ps + 1) := by
  induction ps generalizing here with
  | nil =>
    have hpath : Route e.Edge [here, r] (1 + 0) := .cons (.shuttle h) (.single r)
    exact hpath
  | cons p ps ih =>
    have hpath : Route e.Edge (here :: p :: p.flip :: (bothPorts ps ++ [r]))
        (1 + (e.toll p.zone + (e.fare ps + 1))) :=
      .cons (.shuttle h.1) (.cons (.capacity h.2.1) (ih h.2.2))
    have hfare : e.fare (p :: ps) = 1 + e.toll p.zone + e.fare ps := rfl
    rw [hfare]
    simpa [bothPorts, Nat.add_assoc] using hpath

/-- The edges of the search for an errand. -/
def arcs (e : Errand) : List Arc :=
  (PortGraph.loaded e.arch e.occupancy).arcs e.start e.target e.count

theorem mem_arcs_iff {x : Arc} :
    x ∈ e.arcs ↔
      (∃ z, e.Open z ∧ x = ⟨portNumber z .p0, portNumber z .p1, wrap (e.toll z)⟩) ∨
        ∃ c ∈ e.arch.connections, x = ⟨c.a.number, c.b.number, 1⟩ := by
  have hcost : ∀ z,
      wrap (wrap (e.occupancy z * e.arch.swapCost z) * e.count) = wrap (e.toll z) := by
    intro z
    rw [wrap_wrap_mul, toll, Nat.mul_comm]
  rw [arcs, PortGraph.arcs, PortGraph.edges_loaded, List.mem_append]
  refine or_congr ?_ ?_
  · simp only [List.mem_map, List.mem_filter, List.mem_range, Bool.and_eq_true, bne_iff_ne, ne_eq,
      decide_eq_true_eq]
    constructor
    · rintro ⟨_, ⟨⟨z, hz, rfl⟩, ⟨hstart, htarget⟩, hroom⟩, rfl⟩
      exact ⟨z, ⟨hz, hstart, htarget, hroom⟩, by rw [hcost]⟩
    · rintro ⟨z, hopen, rfl⟩
      exact ⟨_, ⟨⟨z, hopen.lt, rfl⟩, ⟨hopen.ne_start, hopen.ne_target⟩, hopen.room⟩,
        by rw [hcost]⟩
  · simp [PortGraph.loaded, shuttleCost, eq_comm]

theorem toll_le_outlay {z : Nat} (hz : z < e.arch.numZones) : e.toll z ≤ e.outlay := by
  have hle := total_map_le_of_subset e.toll (List.nodup_singleton z)
    (show [z] ⊆ List.range e.arch.numZones by simpa using hz)
  simp only [List.map_cons, List.map_nil, total_cons, total_nil] at hle
  rw [outlay]
  omega

/-- Going along an edge of the search is going along an edge between ports. -/
theorem step_arcs_iff (hfit : e.outlay < wordSize) {n m : Nat} :
    Arc.Step e.arcs n m k ↔ ∃ p r, p.number = n ∧ r.number = m ∧ e.Edge p r k := by
  have htoll : ∀ z, e.Open z → wrap (e.toll z) = e.toll z := fun z hopen =>
    wrap_of_lt (Nat.lt_of_le_of_lt (toll_le_outlay hopen.lt) hfit)
  rw [Arc.Step, mem_arcs_iff, mem_arcs_iff]
  -- an edge of the search can be gone along either way, an edge between ports has a direction
  constructor
  · rintro ((⟨z, hopen, heq⟩ | ⟨c, hc, heq⟩) | (⟨z, hopen, heq⟩ | ⟨c, hc, heq⟩)) <;>
      obtain ⟨rfl, rfl, rfl⟩ := Arc.mk.inj heq
    · refine ⟨⟨z, .p0⟩, ⟨z, .p1⟩, rfl, rfl, ?_⟩
      rw [htoll z hopen]
      exact .capacity (p := ⟨z, .p0⟩) hopen
    · exact ⟨c.a, c.b, rfl, rfl, .shuttle ⟨c, hc, .inl ⟨rfl, rfl⟩⟩⟩
    · refine ⟨⟨z, .p1⟩, ⟨z, .p0⟩, rfl, rfl, ?_⟩
      rw [htoll z hopen]
      exact .capacity (p := ⟨z, .p1⟩) hopen
    · exact ⟨c.b, c.a, rfl, rfl, .shuttle ⟨c, hc, .inr ⟨rfl, rfl⟩⟩⟩
  · rintro ⟨p, r, rfl, rfl, hedge⟩
    cases hedge with
    | shuttle hlink =>
      obtain ⟨c, hc, ⟨rfl, rfl⟩ | ⟨rfl, rfl⟩⟩ := hlink
      · exact .inl (.inr ⟨c, hc, rfl⟩)
      · exact .inr (.inr ⟨c, hc, rfl⟩)
    | capacity hopen =>
      obtain ⟨z, port⟩ := p
      cases port with
      | p0 => exact .inl (.inl ⟨z, hopen, by rw [htoll z hopen]; rfl⟩)
      | p1 => exact .inr (.inl ⟨z, hopen, by rw [htoll z hopen]; rfl⟩)

section Legal

variable (ha : e.arch.Legal)
include ha

/-- All edges together cost no more than to hop to every zone and to pass it. -/
theorem total_arcs_le : total (e.arcs.map (·.cost)) ≤ e.outlay := by
  have hpassages : total (((PortGraph.loaded e.arch e.occupancy).edges.map
      fun x => wrap (x.cost * e.count))) ≤ total ((List.range e.arch.numZones).map e.toll) := by
    rw [PortGraph.edges_loaded, List.map_map]
    refine total_map_le fun z _ => ?_
    show wrap (wrap (e.occupancy z * e.arch.swapCost z) * e.count) ≤ e.toll z
    rw [wrap_wrap_mul, toll, Nat.mul_comm e.count]
    exact wrap_le _
  -- leaving out the passages of crowded zones makes the sum no larger
  have hfilter := total_le_of_sublist ((List.filter_sublist (p := fun x : CapacityEdge =>
    x.zone != e.start && x.zone != e.target && e.count ≤ x.free)
      (l := (PortGraph.loaded e.arch e.occupancy).edges)).map fun x => wrap (x.cost * e.count))
  have hconns := ha.length_connections_le
  rw [arcs, PortGraph.arcs, List.map_append, total_append, List.map_map, List.map_map, outlay]
  have hshuttles : total ((PortGraph.loaded e.arch e.occupancy).connections.map
      ((·.cost) ∘ fun c => Arc.mk c.a.number c.b.number shuttleCost))
        = e.arch.connections.length := total_map_one _
  rw [hshuttles]
  refine Nat.le_trans (Nat.add_le_add_right (Nat.le_trans hfilter hpassages) _) ?_
  omega

theorem Edge.zone_lt (h : e.Edge p r k) : p.zone < e.arch.numZones ∧ r.zone < e.arch.numZones := by
  cases h with
  | shuttle hlink =>
    obtain ⟨hp, hr, -⟩ := ha.linked_zones hlink
    exact ⟨hp, hr⟩
  | capacity hopen => exact ⟨hopen.lt, hopen.lt⟩

theorem zone_lt_of_route (hhere : here.zone < e.arch.numZones)
    (h : Route e.Edge (here :: ports) c) : ∀ p ∈ here :: ports, p.zone < e.arch.numZones := by
  induction ports generalizing here c with
  | nil => simpa using hhere
  | cons p ports ih =>
    cases h with
    | cons hedge h => exact List.forall_mem_cons.2 ⟨hhere, ih (hedge.zone_lt ha).2 h⟩

/-- A path along the edges of the search is a path from port to port. -/
theorem exists_ports_of_route (hzones : e.arch.numZones ≤ maxZones) (hfit : e.outlay < wordSize)
    (hhere : here.zone < e.arch.numZones) {nodes : List Nat}
    (h : Route (Arc.Step e.arcs) (here.number :: nodes) c) :
    ∃ ports, nodes = ports.map ZonePort.number ∧ Route e.Edge (here :: ports) c := by
  induction nodes generalizing here c with
  | nil =>
    cases h
    exact ⟨[], rfl, .single here⟩
  | cons n nodes ih =>
    cases h with
    | cons hstep h =>
      obtain ⟨p, r, hp, rfl, hedge⟩ := (step_arcs_iff hfit).1 hstep
      obtain ⟨hp', hr'⟩ := hedge.zone_lt ha
      obtain rfl : p = here := ZonePort.number_inj (by omega) (by omega) hp
      obtain ⟨ports, rfl, hroute⟩ := ih hr' h
      exact ⟨r :: ports, rfl, .cons hedge hroute⟩

/-- A path that meets no port twice is a trail. Out of a port it takes the connection, and from the
port where it arrives it cannot go back, so it passes the zone. -/
theorem exists_trail_of_route (hroute : Route e.Edge (here :: ports) c)
    (hnodup : (here :: ports).Nodup) (hfirst : e.Open here.zone → here.flip ∉ ports)
    (hhere : here.zone ≠ e.target) (hlast : (here :: ports).getLast? = some r)
    (hr : r.zone = e.target) :
    ∃ ps, e.Trail here ps r ∧ ports = bothPorts ps ++ [r] ∧ c = e.fare ps + 1 := by
  induction hn : ports.length using Nat.strong_induction_on generalizing here ports c with
  | _ n ih =>
  cases hroute with
  | single =>
    obtain rfl : here = r := by simpa using hlast
    exact absurd hr hhere
  | @cons _ p _ k _ hedge hroute =>
  -- the first edge is the connection, because the other port of the zone is not met any more
  obtain ⟨hlink, rfl⟩ : e.arch.Linked here p ∧ k = 1 := by
    cases hedge with
    | shuttle hlink => exact ⟨hlink, rfl⟩
    | capacity hopen => exact absurd (List.mem_cons_self ..) (hfirst hopen)
  cases hroute with
  | single =>
    obtain rfl : p = r := by simpa using hlast
    exact ⟨[], hlink, rfl, rfl⟩
  | @cons _ s rest _ c hedge' hroute =>
  rw [List.nodup_cons] at hnodup
  cases hedge' with
  | shuttle hback =>
    -- the connection leads back to where the path came from
    obtain rfl := ha.linked_unique hlink.symm hback
    exact absurd (by simp) hnodup.1
  | capacity hopen =>
  have hrest := List.nodup_cons.1 hnodup.2
  have hreturn : e.Open p.flip.zone → p.flip.flip ∉ rest := by
    intro _ hmem
    rw [ZonePort.flip_flip] at hmem
    exact hrest.1 (List.mem_cons_of_mem _ hmem)
  obtain ⟨ps, htrail, rfl, rfl⟩ := ih rest.length (by rw [← hn]; simp) hroute hrest.2 hreturn
    hopen.ne_target (by simpa using hlast) rfl
  refine ⟨p :: ps, ⟨hlink, hopen, htrail⟩, by simp [bothPorts], ?_⟩
  have hfare : e.fare (p :: ps) = 1 + e.toll p.zone + e.fare ps := rfl
  rw [hfare]
  omega

omit ha in
theorem foldl_note_zones {nodes : List ZonePort} (hzones : ∀ p ∈ nodes, p.zone < maxZones)
    (zones : List Nat) :
    (nodes.map ZonePort.number).foldl (fun zones n => PortGraph.note zones (portOfNumber n).1) zones
      = (nodes.map (·.zone)).foldl PortGraph.note zones := by
  rw [List.foldl_map, List.foldl_map]
  refine List.foldl_ext _ _ _ fun zones p hp => ?_
  rw [portOfNumber_number (hzones p hp)]

/-- Read zone by zone, the ports of a trail are its zones. -/
theorem Trail.foldl_note (h : e.Trail here ps r) {zones : List Nat}
    (hlast : zones.getLast? = some here.zone) :
    ((bothPorts ps ++ [r]).map (·.zone)).foldl PortGraph.note zones
      = zones ++ (ps.map (·.zone) ++ [r.zone]) := by
  have hnew : ∀ {p : ZonePort} {zones : List Nat} {here : ZonePort},
      zones.getLast? = some here.zone → e.arch.Linked here p →
        PortGraph.note zones p.zone = zones ++ [p.zone] := by
    intro p zones here hlast hlink
    rw [PortGraph.note, hlast, if_neg fun heq => (ha.linked_zones hlink).2.2 (Option.some.inj heq)]
  induction ps generalizing here zones with
  | nil => exact hnew hlast h
  | cons p ps ih =>
    obtain ⟨hlink, -, htrail⟩ := h
    have hboth : ((bothPorts (p :: ps) ++ [r]).map (·.zone))
        = p.zone :: p.zone :: ((bothPorts ps ++ [r]).map (·.zone)) := by
      simp [bothPorts]
    have hagain : PortGraph.note (zones ++ [p.zone]) p.zone = zones ++ [p.zone] := by
      rw [PortGraph.note, if_pos (by simp)]
    rw [hboth, List.foldl_cons, List.foldl_cons, hnew hlast hlink, hagain,
      ih htrail (by simp)]
    simp

omit ha in
theorem isGoal_number_iff (hzones : e.arch.numZones ≤ maxZones) (ht : e.target < e.arch.numZones)
    (hr : r.zone < e.arch.numZones) :
    PortGraph.isGoal e.target r.number = true ↔ r.zone = e.target := by
  rw [PortGraph.isGoal, List.contains_iff_mem, List.mem_pair]
  constructor
  · rintro (h | h)
    · rw [ZonePort.number_inj (r := ⟨e.target, .p0⟩) (by omega) (by simp; omega) h]
    · rw [ZonePort.number_inj (r := ⟨e.target, .p1⟩) (by omega) (by simp; omega) h]
  · obtain ⟨z, port⟩ := r
    rintro rfl
    cases port with
    | p0 => exact .inl rfl
    | p1 => exact .inr rfl

section Search

variable (hzones : e.arch.numZones ≤ maxZones) (hfit : e.outlay < wordSize)
  (hs : e.start < e.arch.numZones) (ht : e.target < e.arch.numZones) {port : Port}
include hzones hfit hs ht

omit ha hs in
/-- The numbers of the ports of a trail are a path of the search. -/
theorem Trail.reaches (h : e.Trail ⟨e.start, port⟩ ps r) (hr : r.zone = e.target) :
    Arc.Reaches e.arcs (portNumber e.start port) (PortGraph.isGoal e.target)
      ((⟨e.start, port⟩ :: (bothPorts ps ++ [r])).map ZonePort.number) (e.fare ps + 1) where
  route := h.route.map fun p r k hedge => (step_arcs_iff hfit).2 ⟨p, r, rfl, rfl, hedge⟩
  head := rfl
  last := by
    refine ⟨r.number, ?_, (isGoal_number_iff hzones ht (hr ▸ ht)).2 hr⟩
    rw [List.getLast?_map, ← List.cons_append, List.getLast?_concat, Option.map_some]

/-- A path of the search that meets no node twice is the path of a trail. -/
theorem exists_trail_of_reaches (hne : e.start ≠ e.target) {nodes : List Nat}
    (h : Arc.Reaches e.arcs (portNumber e.start port) (PortGraph.isGoal e.target) nodes c)
    (hnodup : nodes.Nodup) :
    ∃ ps r, e.Trail ⟨e.start, port⟩ ps r ∧ r.zone = e.target ∧ c = e.fare ps + 1 ∧
      nodes = (⟨e.start, port⟩ :: (bothPorts ps ++ [r])).map ZonePort.number := by
  obtain ⟨rest, rfl⟩ : ∃ rest, nodes = (⟨e.start, port⟩ : ZonePort).number :: rest :=
    List.head?_eq_some_iff.1 h.head
  obtain ⟨ports, rfl, hroute⟩ := exists_ports_of_route ha hzones hfit hs h.route
  obtain ⟨_, hnode, hgoal⟩ := h.last
  rw [← List.map_cons, List.getLast?_map] at hnode
  obtain ⟨r, hlast, rfl⟩ := Option.map_eq_some_iff.1 hnode
  have hr := zone_lt_of_route ha hs hroute r (List.mem_of_getLast? hlast)
  rw [isGoal_number_iff hzones ht hr] at hgoal
  obtain ⟨ps, htrail, rfl, rfl⟩ := exists_trail_of_route ha hroute (.of_map _ hnodup)
    (fun hopen => absurd rfl hopen.ne_start) hne hlast hgoal
  exact ⟨ps, r, htrail, hgoal, rfl, rfl⟩

end Search

/-- Any finder of cheapest paths gives the way that the ports force. -/
theorem search_eq_path {find : PathFinder} (hfind : find.Cheapest)
    (hzones : e.arch.numZones ≤ maxZones) (hfit : 2 * e.outlay < wordSize)
    (hs : e.start < e.arch.numZones) (ht : e.target < e.arch.numZones) (hne : e.start ≠ e.target)
    (port : Port) :
    (PortGraph.loaded e.arch e.occupancy).search find e.start port e.target e.count
      = (PortGraph.loaded e.arch e.occupancy).path e.start port e.target e.count := by
  have hcosts : 2 * total (e.arcs.map (·.cost)) < wordSize := by
    have := e.total_arcs_le ha
    omega
  have hfit : e.outlay < wordSize := by omega
  rw [PortGraph.search, if_neg hne]
  cases hanswer : find e.arcs (portNumber e.start port) (PortGraph.isGoal e.target) with
  | none =>
    -- the path of a way would have been found
    rw [arcs] at hanswer
    rw [hanswer, eq_comm, Option.eq_none_iff_forall_ne_some]
    intro q hq
    obtain ⟨ps, r, htrail, hr, -⟩ := (path_eq_some_iff ha hne).1 hq
    obtain ⟨answer, hsome⟩ := hfind.exists_of_reaches _ _ _ _ _ hcosts
      (htrail.reaches hzones hfit ht hr)
    rw [arcs, hanswer] at hsome
    simp at hsome
  | some answer =>
    obtain ⟨cost, nodes⟩ := answer
    -- what is found meets no node twice, so it is the only trail there is
    obtain ⟨hreach, hnodup⟩ := hfind.found _ _ _ _ _ hcosts hanswer
    obtain ⟨ps, r, htrail, hr, rfl, rfl⟩ :=
      exists_trail_of_reaches ha hzones hfit hs ht hne hreach hnodup
    have hlt : ∀ p ∈ ⟨e.start, port⟩ :: (bothPorts ps ++ [r]), p.zone < maxZones := fun p hp =>
      Nat.lt_of_lt_of_le (zone_lt_of_route ha hs htrail.route p hp) hzones
    have hlast : ((⟨e.start, port⟩ :: (bothPorts ps ++ [r])).map ZonePort.number).getLast?
        = some r.number := by
      rw [List.getLast?_map, ← List.cons_append, List.getLast?_concat, Option.map_some]
    have hcost := wrap_of_lt (Nat.lt_of_le_of_lt (htrail.fare_le_outlay ha rfl) hfit)
    rw [arcs] at hanswer
    rw [hanswer, (path_eq_some_iff ha hne).2 ⟨ps, r, htrail, hr, rfl⟩, hcost]
    simp only [hlast, Option.map_some, portOfNumber_number (hlt r (by simp)),
      foldl_note_zones hlt]
    rw [List.map_cons, List.foldl_cons]
    exact congrArg (fun zones => some (PortPath.mk zones _ _)) (htrail.foldl_note ha rfl)

end Legal

end Errand

/-! ## What a way costs -/

/-- Three gate zones in a line, where a swap in the middle costs half of what a word can tell. -/
def Architecture.dearLine : Architecture :=
  ⟨6, [.gate 2, ⟨2, 3, false, 9223372036854775808⟩, .gate 2], [.chain 0 1, .chain 1 2]⟩

end IonTrap
