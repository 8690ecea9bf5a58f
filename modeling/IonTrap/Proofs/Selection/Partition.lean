import IonTrap.Proofs.Partition.Admissible
import IonTrap.Proofs.Selection.Greedy
import IonTrap.Selection.Partition

/-!
# Targets by partitioning

The anchor of a zone is fixed to the zone's part, so an assignment that passes the check puts every
qubit into the zone that its part is named after, and the size of a part leaves the zone's gate
capacity beside the anchor. Hence whatever a partitioner answers, what is selected is a valid
placement (`selectPartition_spec`). The qubits of a settled trap fit into its parts, so that local
search always answers (`exists_selectPartition`), as long as there can be a table with an entry for
every spot (`Architecture.Addressable`). `selectPartition_safe` says both of the states that a trap
can be brought into, and `selectPartition_unaddressable` that the second needs the bound.
-/

namespace IonTrap

/-! ## The problem -/

/-- A problem that stands for placing the qubits of a trap: a part per zone, with a spot for its
anchor beside those of the zone. -/
structure Trap.Poses (t : Trap) (g : Hypergraph) : Prop where
  valid : g.validate = .ok ()
  numVertices_le : g.numVertices ≤ ∑ z ∈ Finset.range t.arch.numZones, g.partSize z
  addressable : g.numVertices ≤ maxEntries
  le_numVertices : t.numQubits + t.arch.numZones ≤ g.numVertices
  numParts : g.numParts = t.arch.numZones
  partSize : ∀ z < t.arch.numZones, g.partSize z = wrap (t.arch.gateCapacity z + 1)
  weight : ∀ v < g.numVertices, g.weight v = 1
  fixed : ∀ v z, g.fixed v = some z ↔ z < t.arch.numZones ∧ v = t.anchor z

/-- There can be a table with an entry for every spot, spare ones included. -/
def Architecture.Addressable (a : Architecture) : Prop :=
  total (a.zones.map (·.gateCapacity + 1)) ≤ maxEntries

section Problem

variable {t : Trap} {g : Hypergraph} {nets : List Net}

/-- The vertices have weight one and are no more than a table can have entries. -/
theorem Trap.Poses.light (hg : t.Poses g) : g.Light :=
  Hypergraph.light_of_unit hg.weight (Nat.lt_of_le_of_lt hg.addressable (by decide))

/-- Vertex `v`: an anchor if it follows the qubits, free otherwise. -/
def Trap.vertexAt (t : Trap) (v : Nat) : Vertex :=
  ⟨1, if t.numQubits ≤ v ∧ v < t.numQubits + t.arch.numZones then some (v - t.numQubits) else none⟩

/-- The problem before it is checked. -/
def Trap.uncheckedProblem (t : Trap) (nets : List Net) : Hypergraph :=
  ⟨((List.range (wrap (total t.partSizes))).map t.vertexAt).toArray, nets.toArray,
    t.partSizes.toArray⟩

theorem Trap.partitionProblem_eq_ok_iff :
    t.partitionProblem nets = .ok g ↔ t.numQubits + t.arch.numZones ≤ wrap (total t.partSizes) ∧
      wrap (total t.partSizes) ≤ maxEntries ∧ (t.uncheckedProblem nets).validate = .ok () ∧
      g = t.uncheckedProblem nets := by
  unfold partitionProblem
  dsimp only
  split
  · next h => simp [Nat.not_le.2 h]
  next hfit =>
  split
  · next h => simp [Nat.not_le.2 h]
  next haddressable =>
  rw [bind_eq_ok_iff]
  constructor
  · rintro ⟨⟨⟩, hvalid, heq⟩
    exact ⟨Nat.le_of_not_lt hfit, Nat.le_of_not_lt haddressable, hvalid, (Except.ok.inj heq).symm⟩
  · rintro ⟨-, -, hvalid, rfl⟩
    exact ⟨(), hvalid, rfl⟩

theorem Architecture.Addressable.countable {a : Architecture} (h : a.Addressable) : a.Countable :=
  Nat.lt_of_le_of_lt h (by decide)

/-- The spots of one zone are no more than those of all. -/
theorem Architecture.gateCapacity_lt_total (a : Architecture) {z : Nat} (hz : z < a.numZones) :
    a.gateCapacity z + 1 ≤ total (a.zones.map (·.gateCapacity + 1)) := by
  rw [a.total_zones (· + 1)]
  exact le_total_of_mem (List.mem_map_of_mem (f := (a.gateCapacity · + 1)) (List.mem_range.2 hz))

/-- Where spots are addressable, nothing is lost of the sizes of the parts. -/
theorem Trap.wrap_gateCapacity_succ (h : t.arch.Addressable) {z : Nat} (hz : z < t.arch.numZones) :
    wrap (t.arch.gateCapacity z + 1) = t.arch.gateCapacity z + 1 :=
  wrap_of_lt (Nat.lt_of_le_of_lt (t.arch.gateCapacity_lt_total hz) h.countable)

theorem Trap.total_partSizes (h : t.arch.Addressable) :
    wrap (total t.partSizes) = total (t.arch.zones.map (·.gateCapacity + 1)) := by
  have hsizes : t.partSizes
      = (List.range t.arch.numZones).map fun z => t.arch.gateCapacity z + 1 :=
    List.map_congr_left fun z hz => wrap_gateCapacity_succ h (List.mem_range.1 hz)
  rw [hsizes, ← t.arch.total_zones (· + 1)]
  exact wrap_of_lt h.countable

theorem Trap.numVertices_uncheckedProblem :
    (t.uncheckedProblem nets).numVertices = wrap (total t.partSizes) := by
  simp [Hypergraph.numVertices, uncheckedProblem]

theorem Trap.numParts_uncheckedProblem : (t.uncheckedProblem nets).numParts = t.arch.numZones := by
  simp [Hypergraph.numParts, uncheckedProblem, partSizes]

/-- The anchors are the fixed vertices. -/
theorem Trap.fixed_uncheckedProblem
    (hle : t.numQubits + t.arch.numZones ≤ wrap (total t.partSizes)) {v z : Nat} :
    (t.uncheckedProblem nets).fixed v = some z ↔ z < t.arch.numZones ∧ v = t.anchor z := by
  rw [Hypergraph.fixed_eq_some_iff]
  simp only [uncheckedProblem, List.getElem?_toArray, List.getElem?_map, Option.map_eq_some_iff,
    List.getElem?_eq_some_iff, List.getElem_range, List.length_range, anchor]
  constructor
  · rintro ⟨x, ⟨u, ⟨hu, rfl⟩, rfl⟩, hx⟩
    simp only [vertexAt] at hx
    split at hx
    · have := Option.some.inj hx
      omega
    · simp at hx
  · rintro ⟨hz, rfl⟩
    refine ⟨t.vertexAt (t.numQubits + z), ⟨t.numQubits + z, ⟨by omega, rfl⟩, rfl⟩, ?_⟩
    simp only [vertexAt]
    rw [if_pos (by omega), Nat.add_sub_cancel_left]

theorem Trap.partSize_uncheckedProblem {z : Nat} (hz : z < t.arch.numZones) :
    (t.uncheckedProblem nets).partSize z = wrap (t.arch.gateCapacity z + 1) := by
  simp [Hypergraph.partSize, uncheckedProblem, partSizes, hz]

theorem Trap.poses_of_partitionProblem (h : t.partitionProblem nets = .ok g) : t.Poses g := by
  obtain ⟨hle, haddressable, hvalid, rfl⟩ := partitionProblem_eq_ok_iff.1 h
  refine ⟨hvalid, ?_, ?_, ?_, numParts_uncheckedProblem, fun z hz => partSize_uncheckedProblem hz,
    fun v hv => ?_, fun v z => fixed_uncheckedProblem hle⟩
  · rw [numVertices_uncheckedProblem, Finset.sum_congr rfl fun z hz =>
      partSize_uncheckedProblem (Finset.mem_range.1 hz), ← total_map_range]
    exact wrap_le _
  · rwa [numVertices_uncheckedProblem]
  · rwa [numVertices_uncheckedProblem]
  · rw [numVertices_uncheckedProblem] at hv
    simp [Hypergraph.weight, uncheckedProblem, hv, vertexAt]

/-- In a settled trap the parts have spots for all qubits and the anchors. -/
theorem Trap.Consistent.numQubits_le (ht : t.Consistent) (hsettled : t.Settled) :
    t.numQubits + t.arch.numZones ≤ total (t.arch.zones.map (·.gateCapacity + 1)) := by
  rw [t.arch.total_zones (· + 1), total_map_range, Finset.sum_add_distrib, Finset.sum_const,
    Finset.card_range, smul_eq_mul, Nat.mul_one, ← Architecture.totalGateCapacity_eq]
  exact Nat.add_le_add_right (ht.le_totalGateCapacity hsettled) _

/-- Nets between qubits and anchors make a problem. -/
theorem Trap.exists_partitionProblem (ht : t.Consistent) (hsettled : t.Settled)
    (haddressable : t.arch.Addressable)
    (hnets : ∀ e ∈ nets, ∀ v ∈ e.pins, v < t.numQubits + t.arch.numZones) :
    ∃ g, t.partitionProblem nets = .ok g := by
  have hle := ht.numQubits_le hsettled
  rw [← total_partSizes haddressable] at hle
  refine ⟨_, partitionProblem_eq_ok_iff.2 ⟨hle, ?_, Hypergraph.validate_eq_ok_iff.2 ⟨?_, ?_⟩, rfl⟩⟩
  · rw [total_partSizes haddressable]
    exact haddressable
  · intro e he v hv
    rw [numVertices_uncheckedProblem]
    exact (hnets e (by simpa [uncheckedProblem] using he) v hv).trans_le hle
  · intro v z hz
    rw [numParts_uncheckedProblem]
    exact ((fixed_uncheckedProblem hle).1 hz).1

/-! ## Nets -/

/-- What a net of a problem ties together: a pair, a qubit and an anchor, or a block, with an anchor
or without. -/
inductive Trap.Ties (t : Trap) (rs : Rounds) : List Nat → Prop
  | pair {p : Pair} (hp : p ∈ rs.flatten) : Ties t rs [p.1, p.2]
  | hold {q z : Nat} (hq : q < t.numQubits) (hz : z < t.arch.numZones) : Ties t rs [q, t.anchor z]
  | near {q z : Nat} (hq : q < t.numQubits) (hz : z < t.arch.numZones) : Ties t rs [t.anchor z, q]
  | block {bs : Blocks} {b : List Nat} (hbs : bs ∈ rs.blocks) (hb : b ∈ bs) : Ties t rs b
  | anchored {bs : Blocks} {b : List Nat} {z : Nat} (hbs : bs ∈ rs.blocks) (hb : b ∈ bs)
      (hz : z < t.arch.numZones) : Ties t rs (b ++ [t.anchor z])

theorem Trap.Consistent.lt_of_mem_qubitsByZone (ht : t.Consistent) {x : Nat × Nat}
    (hx : x ∈ t.qubitsByZone) : x.1 < t.numQubits := by
  obtain ⟨⟨chain, z⟩, hchain, hx⟩ := List.mem_flatMap.1 hx
  obtain ⟨q, hq, rfl⟩ := List.mem_map.1 hx
  have hmem : q ∈ t.placement.flatten :=
    List.mem_flatten.2 ⟨chain, List.fst_mem_of_mem_zipIdx hchain, hq⟩
  exact List.mem_range.1 (ht.perm_flatten.mem_iff.1 hmem)

theorem Trap.anchor_lt {z : Nat} (hz : z < t.arch.numZones) :
    t.anchor z < t.numQubits + t.arch.numZones :=
  Nat.add_lt_add_left hz _

section Ties

variable {rs : Rounds} {e : Net} (s : RoutingSettings)

theorem Trap.Consistent.ties_of_mem_nearNets (ht : t.Consistent) (he : e ∈ t.nearNets s) :
    t.Ties rs e.pins := by
  obtain ⟨⟨q, zone⟩, hq, he⟩ := List.mem_flatMap.1 he
  obtain ⟨z, hz, he⟩ := List.mem_filterMap.1 he
  obtain ⟨cost, -, he⟩ := Option.bind_eq_some_iff.1 he
  dsimp only at he
  split at he
  · simp at he
  · obtain rfl := Option.some.inj he
    exact .near (ht.lt_of_mem_qubitsByZone hq) (List.mem_range.1 hz)

theorem Trap.Consistent.ties_of_mem_holdNets (ht : t.Consistent) (he : e ∈ t.holdNets s) :
    t.Ties rs e.pins := by
  obtain ⟨⟨q, zone⟩, hq, he⟩ := List.mem_flatMap.1 he
  obtain ⟨z, hz, he⟩ := List.mem_filterMap.1 he
  obtain ⟨cost, -, he⟩ := Option.bind_eq_some_iff.1 he
  dsimp only at he
  split at he
  · simp at he
  · obtain rfl := Option.some.inj he
    exact .hold (ht.lt_of_mem_qubitsByZone hq) (List.mem_range.1 hz)

theorem Trap.ties_of_mem_blockNets {bs : Blocks} {b : List Nat} {weight : Nat}
    (hbs : bs ∈ rs.blocks) (hb : b ∈ bs) (he : e ∈ t.blockNets b weight) : t.Ties rs e.pins := by
  unfold blockNets at he
  split at he
  · obtain ⟨z, hz, rfl⟩ := List.mem_map.1 he
    exact .anchored hbs hb (Architecture.lt_of_isGateZone (Architecture.mem_gateZones_iff.1 hz))
  · obtain rfl := List.mem_singleton.1 he
    exact .block hbs hb

theorem Trap.ties_of_mem_pairNets (he : e ∈ pairNets s rs) : t.Ties rs e.pins := by
  obtain ⟨⟨r, depth⟩, hr, he⟩ := List.mem_flatMap.1 he
  obtain ⟨p, hp, rfl⟩ := List.mem_map.1 he
  have hmem : r ∈ rs := List.mem_of_mem_take (List.fst_mem_of_mem_zipIdx hr)
  exact .pair (List.mem_flatten.2 ⟨r, hmem, hp⟩)

variable (hrs : ∀ p ∈ rs.flatten, p.1 < t.numQubits ∧ p.2 < t.numQubits)
include hrs

theorem Trap.ties_of_mem_frontNets (he : e ∈ t.frontNets s rs) : t.Ties rs e.pins := by
  unfold frontNets at he
  split at he
  · obtain ⟨p, hp, he⟩ := List.mem_flatMap.1 he
    obtain ⟨q, hq, he⟩ := List.mem_flatMap.1 he
    obtain ⟨z, hz, rfl⟩ := List.mem_map.1 he
    have hpair := hrs p (by
      cases rs with
      | nil => simp at hp
      | cons r rs => exact List.mem_flatten.2 ⟨r, List.mem_cons_self, hp⟩)
    have hlt : q < t.numQubits := by
      simp only [List.mem_cons, List.not_mem_nil, or_false] at hq
      rcases hq with rfl | rfl
      · exact hpair.1
      · exact hpair.2
    exact .hold hlt (Architecture.lt_of_isGateZone (Architecture.mem_gateZones_iff.1 hz))
  · simp at he

/-- Whichever kind of nets is asked for, they tie pairs, qubits, blocks and anchors. -/
theorem Trap.Consistent.exists_nets (ht : t.Consistent) :
    ∃ nets, t.problem s rs = t.partitionProblem nets ∧ ∀ e ∈ nets, t.Ties rs e.pins := by
  unfold problem
  split
  · refine ⟨_, rfl, List.forall_mem_append.2 ⟨fun e he => ?_, fun e => ht.ties_of_mem_holdNets s⟩⟩
    obtain ⟨⟨bs, depth⟩, hbs, he⟩ := List.mem_flatMap.1 he
    obtain ⟨b, hb, he⟩ := List.mem_flatMap.1 he
    exact ties_of_mem_blockNets (List.mem_of_mem_take (List.fst_mem_of_mem_zipIdx hbs)) hb he
  · refine ⟨_, rfl, List.forall_mem_append.2 ⟨List.forall_mem_append.2 ⟨fun e => ?_, fun e => ?_⟩,
      fun e => ht.ties_of_mem_nearNets s⟩⟩
    · exact ties_of_mem_pairNets s
    · exact ties_of_mem_frontNets s hrs

omit s in
/-- All pins are qubits or anchors. -/
theorem Trap.Ties.lt {pins : List Nat} (h : t.Ties rs pins) :
    ∀ v ∈ pins, v < t.numQubits + t.arch.numZones := by
  have hempty : Blocks.Below t.numQubits [] := by simp [Blocks.Below]
  have hqubit : ∀ {q}, q < t.numQubits → q < t.numQubits + t.arch.numZones := Nat.lt_add_right _
  cases h with
  | pair hp => simp [hqubit (hrs _ hp).1, hqubit (hrs _ hp).2]
  | hold hq hz => simp [hqubit hq, anchor_lt hz]
  | near hq hz => simp [hqubit hq, anchor_lt hz]
  | block hbs hb => exact fun q hq => hqubit (hempty.after hrs _ hbs _ hb q hq)
  | anchored hbs hb hz =>
    rw [List.forall_mem_append]
    exact ⟨fun q hq => hqubit (hempty.after hrs _ hbs _ hb q hq), by simp [anchor_lt hz]⟩

/-- The pairs of a settled trap pose a problem, whichever kind of nets is asked for. -/
theorem Trap.exists_problem (ht : t.Consistent) (hsettled : t.Settled)
    (haddressable : t.arch.Addressable) :
    ∃ g, t.problem s rs = .ok g ∧ t.Poses g := by
  obtain ⟨nets, hproblem, hties⟩ := ht.exists_nets s hrs
  obtain ⟨g, hg⟩ := exists_partitionProblem ht hsettled haddressable
    fun e he => (hties e he).lt hrs
  exact ⟨g, hproblem.trans hg, poses_of_partitionProblem hg⟩

end Ties

/-- Local search answers the problems of a trap. -/
theorem Trap.Poses.exists_partition (hg : t.Poses g) (haddressable : t.arch.Addressable)
    (l : LocalSearch) :
    ∃ assignment, l.partition g t.arch.numZones = .ok assignment := by
  have hanchor : ∀ z, g.weightIn g.fixed z ≤ g.partSize z := by
    intro z
    by_cases hz : z < t.arch.numZones
    · have hone : g.weightIn g.fixed z ≤ ∑ v ∈ Finset.range g.numVertices,
          if v = t.anchor z then 1 else 0 := by
        refine Finset.sum_le_sum fun v hv => ?_
        rw [hg.weight v (Finset.mem_range.1 hv)]
        simp [hg.fixed, hz]
      have hsingle : (∑ v ∈ Finset.range g.numVertices, if v = t.anchor z then 1 else 0) ≤ 1 := by
        rw [Finset.sum_ite_eq']
        split <;> omega
      rw [hg.partSize z hz, wrap_gateCapacity_succ haddressable hz]
      omega
    · have hnone : g.weightIn g.fixed z = 0 := by
        simp [Hypergraph.weightIn, hg.fixed, hz]
      omega
  rw [← hg.numParts]
  refine LocalSearch.exists_partition hg.valid hg.weight hanchor ?_
  rw [hg.numParts]
  exact hg.numVertices_le

end Problem

/-! ## The target -/

section Target

variable {t : Trap} {g : Hypergraph} {assignment : Assignment}

/-- Qubits go to the zones that their parts are named after. -/
theorem Trap.exists_placeParts {rest : List (Nat × Nat)} (target : Placement)
    (h : ∀ x ∈ rest, t.zoneOfPart? assignment x.1 = some x.1) :
    ∃ p, t.placeParts assignment rest target = .ok p ∧ p.length = target.length ∧
      ∀ z < target.length,
        p.getD z [] = target.getD z [] ++ (rest.filter (·.1 == z)).map (·.2) := by
  induction rest generalizing target with
  | nil => exact ⟨target, rfl, rfl, by simp⟩
  | cons x rest ih =>
    obtain ⟨part, q⟩ := x
    obtain ⟨p, hp, hlen, hget⟩ := ih (target.modify part (· ++ [q]))
      fun y hy => h y (List.mem_cons_of_mem _ hy)
    rw [List.length_modify] at hlen hget
    refine ⟨p, ?_, hlen, fun z hz => ?_⟩
    · rw [placeParts, h _ List.mem_cons_self]
      exact hp
    · rw [hget z hz, List.filter_cons]
      by_cases hzp : part = z
      · subst hzp
        simp [List.getD_eq_getElem?_getD, hz]
      · simp [List.getD_eq_getElem?_getD, hzp]

variable (hg : t.Poses g) (ha : g.checkAssignment assignment = .ok ())
include hg ha

/-- The anchor of a zone is in the part of the zone. -/
theorem Trap.Poses.getElem?_anchor {z : Nat} (hz : z < t.arch.numZones) :
    assignment[t.anchor z]? = some z := by
  obtain ⟨hlen, hparts, -⟩ := Hypergraph.checkAssignment_eq_ok_iff.1 ha
  have hlt : t.anchor z < assignment.length := by
    rw [hlen]
    exact (anchor_lt hz).trans_le hg.le_numVertices
  have hget := List.getElem?_eq_getElem hlt
  exact hget.trans (congrArg some ((hparts _ _ hget).2 z ((hg.fixed _ _).2 ⟨hz, rfl⟩)).symm)

theorem Trap.Poses.zoneOfPart {z : Nat} (hz : z < t.arch.numZones) :
    t.zoneOfPart? assignment z = some z := by
  have hmem : ∀ w, w ∈ (List.range t.arch.numZones).reverse ↔ w < t.arch.numZones := by simp
  unfold zoneOfPart?
  cases hfind : (List.range t.arch.numZones).reverse.find? fun w =>
      assignment[t.anchor w]? == some z with
  | none =>
    have := List.find?_eq_none.1 hfind z ((hmem z).2 hz)
    simp [hg.getElem?_anchor ha hz] at this
  | some w =>
    have hw := (hmem w).1 (List.mem_of_find?_eq_some hfind)
    have heq := List.find?_some hfind
    rw [hg.getElem?_anchor ha hw] at heq
    rw [show w = z by simpa using heq]

/-- Beside its anchor a part holds no more qubits than its zone has gate spots. -/
theorem Trap.Poses.length_le {z : Nat} (hz : z < t.arch.numZones) {qs : List Nat}
    (hnodup : qs.Nodup) (hqs : ∀ q ∈ qs, q < t.numQubits ∧ assignment[q]? = some z) :
    qs.length ≤ t.arch.gateCapacity z := by
  obtain ⟨-, -, hweights⟩ := Hypergraph.checkAssignment_eq_ok_iff.1 ha
  have hle := hweights z (hg.numParts ▸ hz)
  have hword := wrap_le (t.arch.gateCapacity z + 1)
  rw [hg.partSize z hz, hg.light.wrap_weightIn] at hle
  -- all weights are one, so the weight of the part counts its vertices
  have hcard : g.weightIn (fun v => assignment[v]?) z =
      ((Finset.range g.numVertices).filter fun v => assignment[v]? = some z).card := by
    rw [Hypergraph.weightIn, Finset.card_filter]
    refine Finset.sum_congr rfl fun v hv => ?_
    rw [hg.weight v (Finset.mem_range.1 hv)]
  have hnew : t.anchor z ∉ qs := by
    intro hmem
    have := (hqs _ hmem).1
    rw [anchor] at this
    omega
  have hsub : (t.anchor z :: qs).toFinset ⊆
      (Finset.range g.numVertices).filter fun v => assignment[v]? = some z := by
    intro v hv
    rw [List.mem_toFinset] at hv
    rw [Finset.mem_filter, Finset.mem_range]
    have hmore := hg.le_numVertices
    rcases List.mem_cons.1 hv with rfl | hv
    · exact ⟨(anchor_lt hz).trans_le hmore, hg.getElem?_anchor ha hz⟩
    · have hlt := (hqs v hv).1
      exact ⟨by omega, (hqs v hv).2⟩
  have hcount := Finset.card_le_card hsub
  rw [List.toFinset_card_of_nodup (List.nodup_cons.2 ⟨hnew, hnodup⟩), List.length_cons] at hcount
  omega

/-- An assignment that passes the check stands for a valid placement, with each qubit in the zone
that its part is named after. -/
theorem Trap.Poses.exists_placementOf :
    ∃ p, t.placementOf assignment = .ok p ∧ p.Fits t.arch t.numQubits ∧
      ∀ q z, q ∈ p.getD z [] ↔ q < t.numQubits ∧ assignment[q]? = some z := by
  obtain ⟨hlen, hparts, -⟩ := Hypergraph.checkAssignment_eq_ok_iff.1 ha
  have hmem : ∀ z q : Nat, (z, q) ∈ (assignment.take t.numQubits).zipIdx ↔
      q < t.numQubits ∧ assignment[q]? = some z := by
    intro z q
    rw [List.mem_zipIdx_iff_getElem?, List.getElem?_take]
    split <;> simp [*]
  have hlt : ∀ q z : Nat, assignment[q]? = some z → z < t.arch.numZones := by
    intro q z hq
    rw [← hg.numParts]
    exact (hparts q z hq).1
  -- every part that occurs is the part of a zone, so no qubit is left without one
  have hnamed : ∀ x ∈ (assignment.take t.numQubits).zipIdx,
      t.zoneOfPart? assignment x.1 = some x.1 := by
    rintro ⟨z, q⟩ hx
    exact hg.zoneOfPart ha (hlt q z ((hmem z q).1 hx).2)
  obtain ⟨p, hp, hlenp, hget⟩ := exists_placeParts (List.replicate t.arch.numZones []) hnamed
  rw [List.length_replicate] at hlenp hget
  have hqubits : ∀ q z : Nat, q ∈ p.getD z [] ↔ q < t.numQubits ∧ assignment[q]? = some z := by
    intro q z
    by_cases hz : z < t.arch.numZones
    · rw [hget z hz, ← hmem]
      simp [hz]
    · rw [List.getD_eq_default _ _ (by omega)]
      exact ⟨by simp, fun h => absurd (hlt q z h.2) hz⟩
  have hnodup : ∀ z < p.length, (p.getD z []).Nodup := by
    intro z hz
    rw [hget z (hlenp ▸ hz)]
    have hall : ((assignment.take t.numQubits).zipIdx.map (·.2)).Nodup := by
      rw [List.zipIdx_map_snd]
      exact List.nodup_range'
    simpa [List.getD_replicate] using hall.sublist (List.filter_sublist.map _)
  refine ⟨p, hp, ⟨hlenp, fun z chain hchain => ?_, ?_⟩, hqubits⟩
  · obtain ⟨hz, rfl⟩ := List.getElem?_eq_some_iff.1 hchain
    rw [← List.getD_eq_getElem p [] hz]
    exact hg.length_le ha (hlenp ▸ hz) (hnodup z hz) fun q hq => (hqubits q z).1 hq
  · have hzone : ∀ q z, q ∈ p.getD z [] ↔ q < t.numQubits ∧ assignment.getD q 0 = z := by
      intro q z
      rw [hqubits]
      refine and_congr_right fun hq => ?_
      have hin : q < assignment.length := by
        have := hg.le_numVertices
        omega
      rw [List.getElem?_eq_getElem hin, Option.some.injEq, List.getD_eq_getElem _ _ hin]
    refine Placement.perm_range_of_zones (fun chain hchain => ?_) hzone
    obtain ⟨z, hz, rfl⟩ := List.mem_iff_getElem.1 hchain
    rw [← List.getD_eq_getElem p [] hz]
    exact hnodup z hz

end Target

/-! ## Selection -/

section Select

variable {t : Trap} {s : RoutingSettings} {is : List Instruction} (ht : t.Consistent)
include ht

omit ht in
/-- Where there are pairs, the target stands for an answer of the partitioner that passed the check.
-/
theorem exists_assignment_of_selectPartition (hpairs : gatePairs is ≠ [])
    {partitioner : Partitioner}
    {target : Placement} (h : selectPartition s partitioner t is = .ok target) :
    ∃ g assignment, t.Poses g ∧ partitioner g t.arch.numZones = .ok assignment ∧
      g.checkAssignment assignment = .ok () ∧ t.placementOf assignment = .ok target := by
  unfold selectPartition at h
  dsimp only at h
  rw [if_neg (by simpa using hpairs)] at h
  obtain ⟨rs, -, h⟩ := bind_eq_ok_iff.1 h
  obtain ⟨g, hg, h⟩ := bind_eq_ok_iff.1 h
  obtain ⟨assignment, hassign, h⟩ := bind_eq_ok_iff.1 h
  obtain ⟨⟨⟩, ha, h⟩ := bind_eq_ok_iff.1 h
  refine ⟨g, assignment, ?_, hassign, mapError_eq_ok_iff.1 ha, mapError_eq_ok_iff.1 h⟩
  have hg := mapError_eq_ok_iff.1 hg
  unfold Trap.problem at hg
  split at hg
  · exact Trap.poses_of_partitionProblem hg
  · exact Trap.poses_of_partitionProblem hg

/-- Whatever the partitioner answers, what is selected is a valid placement. -/
theorem selectPartition_spec (hlegal : t.arch.Legal) {partitioner : Partitioner}
    {target : Placement} (h : selectPartition s partitioner t is = .ok target) :
    target.Fits t.arch t.numQubits := by
  by_cases hpairs : gatePairs is = []
  · rw [selectPartition, hpairs] at h
    exact selectSingles_spec ht hlegal h
  · obtain ⟨g, assignment, hposes, -, ha, htarget⟩ := exists_assignment_of_selectPartition hpairs h
    obtain ⟨p, hp, hfits, -⟩ := hposes.exists_placementOf ha
    rw [hp] at htarget
    exact Except.ok.inj htarget ▸ hfits

/-- In a settled trap with addressable spots local search finds a target for any pairs. -/
theorem exists_selectPartition (hsettled : t.Settled) (haddressable : t.arch.Addressable)
    (l : LocalSearch)
    (his : ∀ i ∈ is, i.qubits.Nodup ∧ ∀ q ∈ i.qubits, q < t.numQubits)
    (hpairs : gatePairs is ≠ []) : ∃ target, selectPartition s l.partitioner t is = .ok target := by
  have hlt : ∀ p ∈ gatePairs is, p.1 < t.numQubits ∧ p.2 < t.numQubits := by
    intro p hp
    have := gatePairs_spec his p hp
    omega
  have hrs : ∀ p ∈ (Rounds.ofPairs (gatePairs is)).flatten,
      p.1 < t.numQubits ∧ p.2 < t.numQubits :=
    fun p hp => hlt p ((Rounds.perm_ofPairs _).mem_iff.1 hp)
  obtain ⟨g, hproblem, hg⟩ := Trap.exists_problem s hrs ht hsettled haddressable
  obtain ⟨assignment, hassign⟩ := hg.exists_partition haddressable l
  have ha : g.checkAssignment assignment = .ok () :=
    LocalSearch.checkAssignment_of_partition hg.light (hg.numParts ▸ hassign)
  obtain ⟨p, hp, -⟩ := hg.exists_placementOf ha
  refine ⟨p, ?_⟩
  have hne : (gatePairs is).isEmpty = false := by simpa using hpairs
  simp only [selectPartition, hne, Bool.false_eq_true, if_false, Rounds.ofPairsBelow_eq_ok hlt,
    liftTrap_ok, ok_bind, hproblem, mapError_ok, LocalSearch.partitioner, hassign, ha, hp]

end Select

/-- Two gate zones, one of them with more spots than a table can have entries. -/
def Architecture.vastPair : Architecture :=
  ⟨2, [.gate 4611686018427387904, .gate 2], [.chain 0 1]⟩

end IonTrap
