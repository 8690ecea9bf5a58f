import IonTrap.Proofs.Outcome
import IonTrap.Trap.Basic

/-!
# Links between ports

In a legal architecture a port is an end of at most one connection and two zones share at most one.
So a connection is known by either of its ports (`Legal.linked_unique`) and by the two zones that it
joins (`Legal.ports_unique`), and the three ways to look one up agree: the table of connection
ports, the step across a connection and the list of neighbours all speak about `Linked`.
-/

namespace IonTrap

/-- Two connections share neither both zones nor a port. -/
structure Connection.Apart (c d : Connection) : Prop where
  zones : c.joins d.a.zone d.b.zone = false
  ports : ∀ p, c.a = p ∨ c.b = p → ¬ (d.a = p ∨ d.b = p)

theorem Connection.Apart.symm {c d : Connection} (h : c.Apart d) : d.Apart c := by
  refine ⟨?_, fun p hd hc => h.ports p hc hd⟩
  have hz := h.zones
  simp only [Connection.joins, Bool.or_eq_false_iff, Bool.and_eq_false_iff,
    beq_eq_false_iff_ne] at hz ⊢
  omega

instance : Std.Symm Connection.Apart := ⟨fun _ _ h => h.symm⟩

namespace Architecture

/-- Two ports are the ends of a connection. -/
def Linked (a : Architecture) (p r : ZonePort) : Prop :=
  ∃ c ∈ a.connections, (c.a = p ∧ c.b = r) ∨ (c.b = p ∧ c.a = r)

/-- Two zones are joined by a connection. -/
def Joined (a : Architecture) (x y : Nat) : Prop := ∃ p r, a.Linked ⟨x, p⟩ ⟨y, r⟩

/-- Zones that store and run gates do not lose capacity during transport, and connections join
different zones of the trap, no two of them the same zones or a common port. -/
structure Legal (a : Architecture) : Prop where
  capacity : ∀ zone ∈ a.zones, zone.gateCapacity ≤ zone.transportCapacity
  ends : ∀ c ∈ a.connections, c.a.zone < a.numZones ∧ c.b.zone < a.numZones ∧ c.a.zone ≠ c.b.zone
  apart : a.connections.Pairwise Connection.Apart

/-- What is asked of a zone by its number is a field of the zone. -/
theorem exists_zone {a : Architecture} {z : Nat} (hz : z < a.numZones) :
    ∃ zone, a.zones[z]? = some zone ∧ a.gateCapacity z = zone.gateCapacity ∧
      a.transportCapacity z = zone.transportCapacity ∧ a.isGateZone z = !zone.memoryOnly := by
  have hzone := List.getElem?_eq_getElem (show z < a.zones.length from hz)
  refine ⟨_, hzone, ?_, ?_, ?_⟩
  · rw [gateCapacity, hzone, Option.map_some, Option.getD_some]
  · rw [transportCapacity, hzone, Option.map_some, Option.getD_some]
  · rw [isGateZone, hzone, Option.any_some]

/-! ## What validation asks for -/

theorem checkCapacities_eq_ok_iff {zones : List Zone} {z : Nat} :
    checkCapacities z zones = .ok () ↔
      ∀ zone ∈ zones, zone.gateCapacity ≤ zone.transportCapacity := by
  induction zones generalizing z with
  | nil => simp [checkCapacities]
  | cons zone zones ih =>
    rw [checkCapacities, List.forall_mem_cons]
    split_ifs with hlt
    · refine ⟨by simp, fun h => ?_⟩
      omega
    · rw [ih]
      exact ⟨fun h => ⟨by omega, h⟩, And.right⟩

theorem portUsed_eq_false_iff {cs : List Connection} {p : ZonePort} :
    portUsed cs p = false ↔ ∀ c ∈ cs, ¬ (c.a = p ∨ c.b = p) := by
  simp [portUsed]

/-- Connections are apart if they do not join the same zones and neither end of the second is one of
the first. -/
theorem apart_iff {c d : Connection} :
    d.Apart c ↔ d.joins c.a.zone c.b.zone = false ∧ ¬ (d.a = c.a ∨ d.b = c.a) ∧
      ¬ (d.a = c.b ∨ d.b = c.b) := by
  constructor
  · intro h
    exact ⟨h.zones, fun hd => h.ports c.a hd (.inl rfl), fun hd => h.ports c.b hd (.inr rfl)⟩
  · rintro ⟨hzones, ha, hb⟩
    refine ⟨hzones, ?_⟩
    rintro p hd (rfl | rfl)
    · exact ha hd
    · exact hb hd

theorem checkConnection_eq_ok_iff {n : Nat} {earlier : List Connection} {c : Connection} :
    checkConnection n earlier c = .ok () ↔
      (c.a.zone < n ∧ c.b.zone < n ∧ c.a.zone ≠ c.b.zone) ∧ ∀ d ∈ earlier, d.Apart c := by
  have hearlier : (∀ d ∈ earlier, d.Apart c) ↔ earlier.any (·.joins c.a.zone c.b.zone) = false ∧
      portUsed earlier c.a = false ∧ portUsed earlier c.b = false := by
    simp only [apart_iff, portUsed_eq_false_iff, List.any_eq_false, Bool.not_eq_true,
      forall_and]
  rw [hearlier, checkConnection]
  split_ifs with ha hb hne hjoins hpa hpb
  · exact ⟨by simp, by omega⟩
  · exact ⟨by simp, by omega⟩
  · exact ⟨by simp, by omega⟩
  · simp [hjoins]
  · simp [hpa]
  · simp [hpb]
  · simp only [Bool.not_eq_true] at hjoins hpa hpb
    simpa [hjoins, hpa, hpb] using ⟨by omega, by omega, hne⟩

theorem checkConnections_eq_ok_iff {n : Nat} {earlier cs : List Connection} :
    checkConnections n earlier cs = .ok () ↔
      (∀ c ∈ cs, c.a.zone < n ∧ c.b.zone < n ∧ c.a.zone ≠ c.b.zone) ∧
        (∀ c ∈ cs, ∀ d ∈ earlier, d.Apart c) ∧ cs.Pairwise Connection.Apart := by
  induction cs generalizing earlier with
  | nil => simp [checkConnections]
  | cons c cs ih =>
    rw [checkConnections, check_bind_eq_ok_iff, checkConnection_eq_ok_iff, ih]
    simp only [List.forall_mem_cons, List.pairwise_cons]
    -- what comes after `c` is apart from `c` as well as from the earlier ones
    constructor
    · rintro ⟨⟨hends, hearlier⟩, hcs, hapart, hpair⟩
      exact ⟨⟨hends, hcs⟩, ⟨hearlier, fun d hd => (hapart d hd).2⟩, fun d hd => (hapart d hd).1,
        hpair⟩
    · rintro ⟨⟨hends, hcs⟩, ⟨hearlier, hrest⟩, hc, hpair⟩
      exact ⟨⟨hends, hearlier⟩, hcs, fun d hd => ⟨hc d hd, hrest d hd⟩, hpair⟩

theorem validate_eq_ok_iff {a : Architecture} :
    a.validate = .ok () ↔ a.zones ≠ [] ∧ (∃ zone ∈ a.zones, zone.memoryOnly = false) ∧ a.Legal := by
  have hlegal : a.Legal ↔ checkCapacities 0 a.zones = .ok () ∧
      checkConnections a.numZones [] a.connections = .ok () := by
    rw [checkCapacities_eq_ok_iff, checkConnections_eq_ok_iff]
    exact ⟨fun h => ⟨h.capacity, h.ends, by simp, h.apart⟩, fun h => ⟨h.1, h.2.1, h.2.2.2⟩⟩
  rw [hlegal, validate]
  split_ifs with hempty hmemory
  · simp_all
  · refine ⟨by simp, ?_⟩
    rintro ⟨-, ⟨zone, hzone, hgate⟩, -⟩
    have := List.all_eq_true.1 hmemory zone hzone
    simp [hgate] at this
  · have hne : a.zones ≠ [] := by simpa using hempty
    have hgate : ∃ zone ∈ a.zones, zone.memoryOnly = false := by simpa using hmemory
    rw [check_bind_eq_ok_iff]
    exact ⟨fun h => ⟨hne, hgate, h⟩, fun h => h.2.2⟩

theorem legal_of_validate {a : Architecture} (h : a.validate = .ok ()) : a.Legal :=
  (validate_eq_ok_iff.1 h).2.2

/-! ## A port has one other end -/

theorem Linked.symm {a : Architecture} {p r : ZonePort} (h : a.Linked p r) : a.Linked r p := by
  obtain ⟨c, hc, ⟨hp, hr⟩ | ⟨hp, hr⟩⟩ := h
  · exact ⟨c, hc, .inr ⟨hr, hp⟩⟩
  · exact ⟨c, hc, .inl ⟨hr, hp⟩⟩

theorem Joined.symm {a : Architecture} {x y : Nat} (h : a.Joined x y) : a.Joined y x := by
  obtain ⟨p, r, h⟩ := h
  exact ⟨r, p, h.symm⟩

namespace Legal

variable {a : Architecture} (ha : a.Legal)
include ha

theorem linked_zones {p r : ZonePort} (h : a.Linked p r) :
    p.zone < a.numZones ∧ r.zone < a.numZones ∧ p.zone ≠ r.zone := by
  obtain ⟨c, hc, ⟨rfl, rfl⟩ | ⟨rfl, rfl⟩⟩ := h
  · exact ha.ends c hc
  · obtain ⟨h₁, h₂, h₃⟩ := ha.ends c hc
    exact ⟨h₂, h₁, h₃.symm⟩

/-- Connections that are not apart are one and the same. -/
theorem eq_of_not_apart {c d : Connection} (hc : c ∈ a.connections) (hd : d ∈ a.connections)
    (h : ¬ c.Apart d) : c = d := by
  by_contra hne
  exact h (ha.apart.forall hc hd hne)

/-- A port leads to one port only. -/
theorem linked_unique {p r r' : ZonePort} (h : a.Linked p r) (h' : a.Linked p r') : r = r' := by
  obtain ⟨c, hc, hcp⟩ := h
  obtain ⟨d, hd, hdp⟩ := h'
  have hcd : c = d := by
    refine ha.eq_of_not_apart hc hd fun hap => hap.ports p ?_ ?_
    · exact hcp.imp And.left And.left
    · exact hdp.imp And.left And.left
  subst hcd
  have hends := (ha.ends c hc).2.2
  rcases hcp with ⟨rfl, rfl⟩ | ⟨rfl, rfl⟩ <;> rcases hdp with ⟨hp, rfl⟩ | ⟨hp, rfl⟩
  · rfl
  · exact absurd (congrArg ZonePort.zone hp).symm hends
  · exact absurd (congrArg ZonePort.zone hp) hends
  · rfl

/-- Two zones are joined through one pair of ports only. -/
theorem ports_unique {x y : Nat} {p p' r r' : Port} (h : a.Linked ⟨x, p⟩ ⟨y, r⟩)
    (h' : a.Linked ⟨x, p'⟩ ⟨y, r'⟩) : p = p' ∧ r = r' := by
  obtain ⟨c, hc, hcp⟩ := h
  obtain ⟨d, hd, hdp⟩ := h'
  have hcd : c = d := by
    refine ha.eq_of_not_apart hc hd fun hap => ?_
    have hz := hap.zones
    rcases hcp with ⟨hp, hr⟩ | ⟨hp, hr⟩ <;> rcases hdp with ⟨hp', hr'⟩ | ⟨hp', hr'⟩ <;>
      simp [Connection.joins, hp, hr, hp', hr'] at hz
  subst hcd
  have hends := (ha.ends c hc).2.2
  rcases hcp with ⟨hp, hr⟩ | ⟨hp, hr⟩ <;> rcases hdp with ⟨hp', hr'⟩ | ⟨hp', hr'⟩ <;>
    simp_all

/-! ## The look-ups agree -/

theorem connectionPorts_eq_ok_iff {x y : Nat} {p r : Port} :
    a.connectionPorts x y = .ok (p, r) ↔ a.Linked ⟨x, p⟩ ⟨y, r⟩ := by
  have hsound : ∀ {p r}, a.connectionPorts x y = .ok (p, r) → a.Linked ⟨x, p⟩ ⟨y, r⟩ := by
    intro p r h
    unfold connectionPorts at h
    simp only at h
    split at h
    · next ports hfind =>
      obtain ⟨c, hc, hports⟩ := List.exists_of_findSome?_eq_some hfind
      obtain rfl := Except.ok.inj h
      obtain ⟨⟨za, pa⟩, ⟨zb, pb⟩⟩ := c
      refine ⟨_, hc, ?_⟩
      grind
    · simp at h
  refine ⟨hsound, fun h => ?_⟩
  -- some connection is found; it is the given one because two zones share at most one
  obtain ⟨c, hc, hcp⟩ := h
  have hfound : ∃ ports, a.connectionPorts x y = .ok ports := by
    unfold connectionPorts
    simp only
    split
    · next ports _ => exact ⟨ports, rfl⟩
    · next hnone =>
      have := List.findSome?_eq_none_iff.1 hnone c hc
      rcases hcp with ⟨hp, hr⟩ | ⟨hp, hr⟩ <;> simp only [hp, hr] at this <;> grind
  obtain ⟨⟨p', r'⟩, hok⟩ := hfound
  obtain ⟨rfl, rfl⟩ := ha.ports_unique (hsound hok) ⟨c, hc, hcp⟩
  exact hok

/-- The ports between joined zones are known from both sides. -/
theorem exists_connectionPorts {x y : Nat} (h : a.Joined x y) :
    ∃ p r, a.connectionPorts x y = .ok (p, r) ∧ a.connectionPorts y x = .ok (r, p) := by
  obtain ⟨p, r, hlink⟩ := h
  exact ⟨p, r, ha.connectionPorts_eq_ok_iff.2 hlink, ha.connectionPorts_eq_ok_iff.2 hlink.symm⟩

theorem across_eq_some_iff {g : PortGraph} (hg : g.connections = a.connections) {p r : ZonePort} :
    g.across p = some r ↔ a.Linked p r := by
  have hsound : ∀ {r}, g.across p = some r → a.Linked p r := by
    intro r h
    obtain ⟨c, hc, hports⟩ := List.exists_of_findSome?_eq_some h
    refine ⟨c, hg ▸ hc, ?_⟩
    grind
  refine ⟨hsound, fun h => ?_⟩
  obtain ⟨c, hc, hcp⟩ := h
  cases hfind : g.across p with
  | none =>
    have := List.findSome?_eq_none_iff.1 hfind c (hg ▸ hc)
    rcases hcp with ⟨hp, hr⟩ | ⟨hp, hr⟩ <;> simp only [hp, hr] at this <;> grind
  | some r' => rw [ha.linked_unique (hsound hfind) ⟨c, hc, hcp⟩]

theorem mem_neighbors_iff {x y : Nat} : y ∈ a.neighbors x ↔ a.Joined x y := by
  rw [neighbors, List.mem_filterMap]
  constructor
  · rintro ⟨⟨⟨za, pa⟩, ⟨zb, pb⟩⟩, hc, h⟩
    simp only at h
    split at h
    · next hx =>
      obtain rfl := Option.some.inj h
      exact ⟨pa, pb, _, hc, .inl ⟨by rw [hx], rfl⟩⟩
    · split at h
      · next hx =>
        obtain rfl := Option.some.inj h
        exact ⟨pb, pa, _, hc, .inr ⟨by rw [hx], rfl⟩⟩
      · simp at h
  · rintro ⟨p, r, c, hc, ⟨hp, hr⟩ | ⟨hp, hr⟩⟩
    · exact ⟨c, hc, by simp [hp, hr]⟩
    · have hne := (ha.ends c hc).2.2
      rw [hp, hr] at hne
      exact ⟨c, hc, by simp [hp, hr, hne]⟩

end Legal

end Architecture

end IonTrap
