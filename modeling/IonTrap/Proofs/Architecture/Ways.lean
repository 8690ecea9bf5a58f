import IonTrap.Architecture.PortNumber
import IonTrap.Proofs.Architecture.Hops

/-!
# Ways through ports

A way out of a port follows connections and crosses zones from one port to the other. Whatever is
found is such a way (`Legal.path_spec`), and if a path without detours has room in the zones between
its ends, the way out of one of the two ports of its start is found (`Legal.exists_path`): every
zone on the path is left through the port by which it was not entered, because the other one leads
back. What a way costs is one for every hop and the crossing of every zone between its ends
(`Legal.path_cost`).
-/

namespace IonTrap

theorem Port.eq_other_of_ne {p r : Port} (h : p ≠ r) : p = r.other := by
  cases p <;> cases r <;> simp_all [Port.other]

/-- A way from `source` through `port` to `target` over zones that let `count` qubits pass. -/
structure PortGraph.Way (g : PortGraph) (a : Architecture) (source : Nat) (port : Port)
    (target count : Nat) (zones : List Nat) : Prop where
  cons : ∃ w rest e, zones = source :: w :: rest ∧ a.Linked ⟨source, port⟩ ⟨w, e⟩
  chain : zones.IsChain a.Joined
  last : zones.getLast? = some target
  free : ∀ z ∈ zones.tail.dropLast, ∃ e, g.edges[z]? = some e ∧ count ≤ e.free

/-- The zones of a path in which qubits must change ends to go on. In the first zone they stand at
the port `side`, in the others at the port of entry. -/
def Architecture.turns (a : Architecture) : Port → List Nat → List Nat
  | side, z :: next :: rest =>
    match a.connectionPorts z next with
    | .ok (exit, arrival) =>
      if side = exit then a.turns arrival (next :: rest) else z :: a.turns arrival (next :: rest)
    | .error _ => []
  | _, _ => []

namespace Architecture.Legal

variable {a : Architecture} (ha : a.Legal) {g : PortGraph} (hg : g.connections = a.connections)
include ha hg

/-- What following the way out of a port has found, by its first hop: it ends in the target, or the
zone there lets the qubits pass and the way goes on from its other port. -/
theorem exists_of_follow_succ {start target count fuel : Nat} {here : ZonePort} {p : PortPath}
    (h : g.follow start target count (fuel + 1) here = some p) :
    ∃ there : ZonePort, a.Linked here there ∧
      ((there.zone = target ∧ p = ⟨[target], shuttleCost, there.port⟩) ∨
        there.zone ≠ start ∧ ∃ e p', g.edges[there.zone]? = some e ∧ count ≤ e.free ∧
          g.follow start target count fuel ⟨there.zone, there.port.other⟩ = some p' ∧
          p = ⟨there.zone :: p'.zones, wrap (shuttleCost + wrap (e.cost * count) + p'.cost),
            p'.targetPort⟩) := by
  rw [PortGraph.follow] at h
  split at h
  · simp at h
  · next there hacross =>
    refine ⟨there, (ha.across_eq_some_iff hg).1 hacross, ?_⟩
    split at h
    · next htarget => exact .inl ⟨htarget, (Option.some.inj h).symm⟩
    split at h
    · simp at h
    split at h
    · simp at h
    split at h
    · simp at h
    next hstart _ e he hfree =>
    obtain ⟨p', hp', rfl⟩ := Option.map_eq_some_iff.1 h
    exact .inr ⟨hstart, e, p', he, Nat.not_lt.1 hfree, hp', rfl⟩

theorem follow_spec {start target count fuel : Nat} {here : ZonePort} {p : PortPath}
    (h : g.follow start target count fuel here = some p) :
    g.Way a here.zone here.port target count (here.zone :: p.zones) := by
  induction fuel generalizing here p with
  | zero => simp [PortGraph.follow] at h
  | succ fuel ih =>
    obtain ⟨there, hlink, ⟨rfl, rfl⟩ | ⟨-, e, p', he, hfree, hp', rfl⟩⟩ :=
      ha.exists_of_follow_succ hg h
    · have hjoined : a.Joined here.zone there.zone := ⟨here.port, there.port, hlink⟩
      exact ⟨⟨there.zone, [], there.port, rfl, hlink⟩, by simpa using hjoined, rfl, by simp⟩
    · obtain ⟨⟨w, rest, arrival, hzones, hnext⟩, hchain, hlast, hroom⟩ := ih hp'
      have hzones : p'.zones = w :: rest := List.tail_eq_of_cons_eq hzones
      rw [hzones] at hchain hlast hroom
      refine ⟨⟨there.zone, p'.zones, there.port, rfl, hlink⟩, ?_, ?_, ?_⟩
      · rw [hzones]
        exact List.isChain_cons_cons.2 ⟨⟨here.port, there.port, hlink⟩, hchain⟩
      · rw [hzones]
        simpa using hlast
      · rw [hzones]
        intro z hz
        rcases List.mem_cons.1 hz with rfl | hz
        · exact ⟨e, he, hfree⟩
        · exact hroom z hz

/-- What is found is a way. -/
theorem path_spec {start target count : Nat} {port : Port} (hne : start ≠ target) {p : PortPath}
    (h : g.path start port target count = some p) :
    g.Way a start port target count p.zones := by
  rw [PortGraph.path, if_neg hne] at h
  obtain ⟨p', hp', rfl⟩ := Option.map_eq_some_iff.1 h
  exact ha.follow_spec hg hp'

omit hg in
theorem turns_of_linked {side exit arrival : Port} {z next : Nat}
    (hlink : a.Linked ⟨z, exit⟩ ⟨next, arrival⟩) (rest : List Nat) :
    a.turns side (z :: next :: rest)
      = (if side = exit then [] else [z]) ++ a.turns arrival (next :: rest) := by
  rw [turns, ha.connectionPorts_eq_ok_iff.2 hlink]
  split_ifs <;> simp_all

/-- What is found changes ends in every zone between its ends and never in its start, and it costs
its hops and these crossings, as a word. -/
theorem follow_cost {start target count fuel : Nat} {here : ZonePort} {p : PortPath}
    (h : g.follow start target count fuel here = some p) :
    a.turns here.port (here.zone :: p.zones) = p.zones.dropLast ∧ start ∉ p.zones.dropLast ∧
      p.cost = wrap (p.zones.length * shuttleCost
        + total (p.zones.dropLast.map (g.crossingCost count))) := by
  induction fuel generalizing here p with
  | zero => simp [PortGraph.follow] at h
  | succ fuel ih =>
    obtain ⟨there, hlink, ⟨rfl, rfl⟩ | ⟨hstart, e, p', he, -, hp', rfl⟩⟩ :=
      ha.exists_of_follow_succ hg h
    · refine ⟨?_, by simp, rfl⟩
      rw [ha.turns_of_linked hlink, if_pos rfl]
      rfl
    · obtain ⟨hturns, hnot, hcost⟩ := ih hp'
      obtain ⟨w, rest, arrival, hzones, hnext⟩ := (ha.follow_spec hg hp').cons
      have hzones : p'.zones = w :: rest := List.tail_eq_of_cons_eq hzones
      have hdrop : (there.zone :: p'.zones).dropLast = there.zone :: p'.zones.dropLast := by
        rw [hzones, List.dropLast_cons_of_ne_nil (by simp)]
      dsimp only
      rw [hdrop]
      refine ⟨?_, ?_, ?_⟩
      · -- the zone is entered by one port and left by the other
        have hport : there.port ≠ there.port.other := by cases there.port <;> simp [Port.other]
        rw [hzones, ha.turns_of_linked hnext, if_pos rfl, List.nil_append, ← hzones] at hturns
        rw [ha.turns_of_linked hlink, if_pos rfl, List.nil_append, ← hturns, hzones,
          ha.turns_of_linked hnext, if_neg hport, List.singleton_append]
      · rw [List.mem_cons, not_or]
        exact ⟨fun hz => hstart hz.symm, hnot⟩
      · have hcross : g.crossingCost count there.zone = wrap (e.cost * count) := by
          rw [PortGraph.crossingCost, he, Option.map_some, Option.getD_some]
        rw [List.map_cons, total_cons, hcross, hcost, wrap_add_wrap, List.length_cons,
          Nat.succ_mul]
        congr 1
        omega

/-- A way changes ends in every zone between its ends, and its cost is that of its hops and of these
crossings, as a word. -/
theorem path_cost {start target count : Nat} {port : Port} (hne : start ≠ target) {p : PortPath}
    (h : g.path start port target count = some p) :
    a.turns port p.zones = p.zones.tail.dropLast ∧ start ∉ p.zones.tail.dropLast ∧
      p.cost = wrap ((p.zones.length - 1) * shuttleCost
        + total (p.zones.tail.dropLast.map (g.crossingCost count))) := by
  rw [PortGraph.path, if_neg hne] at h
  obtain ⟨p', hp', rfl⟩ := Option.map_eq_some_iff.1 h
  exact ha.follow_cost hg hp'

/-- Along a path without detours the way out of its first port is found. -/
theorem exists_follow {start target count : Nat} {rest : List Nat} {fuel w : Nat} {here : ZonePort}
    {e : Port} (hlink : a.Linked here ⟨w, e⟩) (hnodup : (here.zone :: w :: rest).Nodup)
    (hchain : (w :: rest).IsChain a.Joined) (hlast : (w :: rest).getLast? = some target)
    (hstart : start ∉ (w :: rest).dropLast)
    (hfree : ∀ z ∈ (w :: rest).dropLast, ∃ e, g.edges[z]? = some e ∧ count ≤ e.free)
    (hfuel : rest.length < fuel) : ∃ p, g.follow start target count fuel here = some p := by
  induction rest generalizing fuel w here e with
  | nil =>
    obtain ⟨fuel, rfl⟩ : ∃ f, fuel = f + 1 := ⟨fuel - 1, by omega⟩
    obtain rfl : w = target := by simpa using hlast
    rw [PortGraph.follow, (ha.across_eq_some_iff hg).2 hlink]
    simp
  | cons w' rest ih =>
    obtain ⟨fuel, rfl⟩ : ∃ f, fuel = f + 1 := ⟨fuel - 1, by omega⟩
    have hlast' : (w' :: rest).getLast? = some target := by simpa using hlast
    have hmem : target ∈ w' :: rest := List.mem_of_getLast? hlast'
    have hw : w ≠ target := by
      rintro rfl
      simp only [List.nodup_cons] at hnodup
      exact hnodup.2.1 hmem
    have hws : w ≠ start := by
      rintro rfl
      exact hstart (by simp)
    obtain ⟨ed, hed, hcount⟩ := hfree w (by simp)
    obtain ⟨⟨p, r, hnext⟩, hchain'⟩ := List.isChain_cons_cons.1 hchain
    -- leaving by the port of entry would lead back
    have hport : p = e.other := by
      refine Port.eq_other_of_ne ?_
      rintro rfl
      have hback := ha.linked_unique hnext hlink.symm
      simp only [List.nodup_cons, List.mem_cons, not_or] at hnodup
      exact hnodup.1.2.1 (congrArg ZonePort.zone hback).symm
    subst hport
    have hfuel' : rest.length < fuel := by
      simp only [List.length_cons] at hfuel
      omega
    obtain ⟨p', hp'⟩ := ih hnext (List.nodup_cons.1 hnodup).2 hchain' hlast'
      (fun h => hstart (by simp [h])) (fun z hz => hfree z (by simp [hz])) hfuel'
    rw [PortGraph.follow, (ha.across_eq_some_iff hg).2 hlink]
    simp [hw, hws, hed, Nat.not_lt.2 hcount, hp']

/-- If a path without detours lets the qubits pass, a way is found through one of the ports. -/
theorem exists_path {start target count : Nat} (hne : start ≠ target)
    (hs : start < a.numZones) (hzones : a.numZones ≤ g.numZones) {zones : List Nat}
    (hway : a.ShortestWay start target zones)
    (hfree : ∀ z ∈ zones.tail.dropLast, ∃ e, g.edges[z]? = some e ∧ count ≤ e.free) :
    ∃ port p, g.path start port target count = some p := by
  obtain ⟨q, rfl⟩ := hway.eq_cons
  cases q with
  | nil =>
    have := hway.last
    exact absurd (by simpa using this) hne
  | cons w rest =>
    obtain ⟨⟨port, e, hlink⟩, hchain⟩ := List.isChain_cons_cons.1 hway.chain
    have hlen := ha.length_le_of_shortestWay hs hway
    have hnodup := hway.nodup
    have hstart : start ∉ (w :: rest).dropLast := fun h =>
      (List.nodup_cons.1 hnodup).1 (List.mem_of_mem_dropLast h)
    have hfuel : rest.length < g.numZones := by
      simp only [List.length_cons] at hlen
      omega
    obtain ⟨p, hp⟩ := ha.exists_follow hg hlink hnodup hchain (by simpa using hway.last) hstart
      hfree hfuel
    exact ⟨port, _, by rw [PortGraph.path, if_neg hne, hp]; rfl⟩

end Architecture.Legal

end IonTrap
