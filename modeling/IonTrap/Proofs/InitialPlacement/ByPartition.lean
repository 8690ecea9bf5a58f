import IonTrap.Proofs.Architecture.Hops
import IonTrap.Proofs.Circuit.Checks
import IonTrap.Proofs.InitialPlacement.Matching
import IonTrap.Proofs.Partition.Assignment
import IonTrap.Proofs.Placement
import IonTrap.Proofs.Rounds

/-!
# Placing qubits by any partitioner

Whatever partitioner is used, an answer that passes the check leads to a valid placement. A part
holds no more qubits than the zone of the same number has usable spots, so the identity is a
feasible matching, and the exchanges keep it feasible. What they lower is the weighted number of
hops between parts (`cost_matchingOf`): links inside a part cost nothing, and hops count the same in
both directions.
-/

namespace IonTrap

/-- The usable spots of every zone. -/
def Architecture.usableSpots (a : Architecture) (free : Nat) : List Nat :=
  a.zones.map (Zone.usable free)

/-- Hops between two zones. There are fewer than zones, which is what unconnected ones count. -/
def Architecture.hops (a : Architecture) (x y : Nat) : Nat := (a.distance x y).getD a.numZones

/-- Whether an interaction is between qubits of two parts, in either order. -/
def joinsParts (parts : List Nat) (e : Pair) (x y : Nat) : Prop :=
  (parts.getD e.1 0 = x ∧ parts.getD e.2 0 = y) ∨ (parts.getD e.1 0 = y ∧ parts.getD e.2 0 = x)

instance (parts : List Nat) (e : Pair) (x y : Nat) : Decidable (joinsParts parts e x y) :=
  inferInstanceAs (Decidable (_ ∨ _))

/-- Weight of the interactions between two parts. -/
def weightBetween (parts : List Nat) (es : List (Pair × Nat)) (x y : Nat) : Nat :=
  total (es.map fun e => if joinsParts parts e.1 x y then e.2 else 0)

/-- The weighted number of hops between the zones of all parts, when part `p` has zone `f[p]`. -/
def hopCost (a : Architecture) (parts : List Nat) (es : List (Pair × Nat)) (f : Array Nat) : Nat :=
  ∑ y ∈ Finset.range a.numZones, ∑ x ∈ Finset.range y,
    weightBetween parts es x y * a.hops (f.getD x 0) (f.getD y 0)

namespace Architecture.Legal

variable {a : Architecture} (ha : a.Legal) {x y : Nat}
include ha

theorem hops_self (hx : x < a.numZones) : a.hops x x = 0 := by
  rw [hops, ha.distance_self hx, Option.getD_some]

theorem hops_comm (hx : x < a.numZones) (hy : y < a.numZones) : a.hops x y = a.hops y x := by
  rw [hops, hops, ha.distance_comm hx hy]

end Architecture.Legal

variable {a : Architecture} {free : Nat} {spots parts : List Nat} {es : List (Pair × Nat)}
  {f : Array Nat}

/-! ## The tables of a matching -/

section Tables

@[simp] theorem size_sizes_matchingOf : (matchingOf a spots parts es).sizes.size = a.numZones := by
  simp [matchingOf]

theorem sizes_matchingOf {p : Nat} (hp : p < a.numZones) :
    (matchingOf a spots parts es).sizes.getD p 0 = parts.count p := by
  simp [matchingOf, Array.getD_eq_getD_getElem?, hp]

theorem spots_matchingOf (z : Nat) :
    (matchingOf a spots parts es).spots.getD z 0 = spots.getD z 0 := by
  simp [matchingOf, Array.getD_eq_getD_getElem?]

theorem distance_matchingOf (x y : Nat) : (matchingOf a spots parts es).distance x y
    = if x < a.numZones ∧ y < a.numZones then a.hops x y else 0 := by
  rw [Matching.distance, matchingOf, Architecture.distances]
  by_cases hx : x < a.numZones
  · by_cases hy : y < a.numZones
    · simp [Array.getD_eq_getD_getElem?, hx, hy, Architecture.hops]
    · simp [Array.getD_eq_getD_getElem?, hx, hy]
  · simp [Array.getD_eq_getD_getElem?, hx]

theorem tabled_matchingOf (hspots : spots.length = a.numZones)
    (hes : ∀ e ∈ es, parts.getD e.1.1 0 < a.numZones ∧ parts.getD e.1.2 0 < a.numZones) :
    (matchingOf a spots parts es).Tabled where
  spots := by simpa [matchingOf] using hspots
  distances := by simp [matchingOf, Architecture.distances]
  rows x hx := by
    rw [size_sizes_matchingOf] at hx
    simp [matchingOf, Architecture.distances, Array.getD_eq_getD_getElem?, hx]
  links l hl := by
    obtain ⟨e, he, rfl⟩ := List.mem_map.1 hl
    simpa using hes e he

theorem metric_matchingOf (ha : a.Legal) : (matchingOf a spots parts es).Metric where
  self x := by
    rw [distance_matchingOf]
    split_ifs with hx
    · exact ha.hops_self hx.1
    · rfl
  comm x y := by
    rw [distance_matchingOf, distance_matchingOf]
    by_cases hxy : x < a.numZones ∧ y < a.numZones
    · rw [if_pos hxy, if_pos hxy.symm, ha.hops_comm hxy.1 hxy.2]
    · rw [if_neg hxy, if_neg fun h => hxy h.symm]

end Tables

/-! ## What a matching costs -/

/-- Of all pairs of parts, an interaction counts for the one that it joins. -/
theorem sum_joinsParts {e : Pair} {u v k : Nat} (hu : parts.getD e.1 0 = u)
    (hv : parts.getD e.2 0 = v) (huk : u < k) (hvk : v < k) (w : Nat) {d : Nat → Nat → Nat}
    (hself : d u u = 0) (hcomm : d u v = d v u) :
    ∑ y ∈ Finset.range k, ∑ x ∈ Finset.range y,
      (if joinsParts parts e x y then w else 0) * d x y = w * d u v := by
  -- all other pairs of parts contribute nothing
  have hzero : ∀ x y, x < y → ¬ (x = min u v ∧ y = max u v) →
      (if joinsParts parts e x y then w else 0) * d x y = 0 := by
    intro x y hxy hne
    rw [if_neg, Nat.zero_mul]
    rw [joinsParts, hu, hv]
    omega
  rcases Nat.lt_or_ge (min u v) (max u v) with hlt | hge
  · rw [Finset.sum_eq_single_of_mem (max u v) (Finset.mem_range.2 (by omega)),
      Finset.sum_eq_single_of_mem (min u v) (Finset.mem_range.2 hlt)]
    · rcases Nat.le_total u v with hle | hle
      · rw [min_eq_left hle, max_eq_right hle, if_pos (.inl ⟨hu, hv⟩)]
      · rw [min_eq_right hle, max_eq_left hle, if_pos (.inr ⟨hu, hv⟩), hcomm]
    · intro x hx hne
      exact hzero x _ (Finset.mem_range.1 hx) fun h => hne h.1
    · intro y _ hne
      refine Finset.sum_eq_zero fun x hx => ?_
      exact hzero x y (Finset.mem_range.1 hx) fun h => hne h.2
  · obtain rfl : u = v := by omega
    rw [hself, Nat.mul_zero]
    refine Finset.sum_eq_zero fun y _ => Finset.sum_eq_zero fun x hx => ?_
    have := Finset.mem_range.1 hx
    exact hzero x y this (by omega)

theorem cost_matchingOf (ha : a.Legal) (hf : ∀ p < a.numZones, f.getD p 0 < a.numZones)
    (hes : ∀ e ∈ es, parts.getD e.1.1 0 < a.numZones ∧ parts.getD e.1.2 0 < a.numZones) :
    (matchingOf a spots parts es).cost f = hopCost a parts es f := by
  induction es with
  | nil => simp [Matching.cost, matchingOf, hopCost, weightBetween]
  | cons e es ih =>
    rw [List.forall_mem_cons] at hes
    have hx := hf _ hes.1.1
    have hy := hf _ hes.1.2
    have hcost : (matchingOf a spots parts (e :: es)).cost f
        = e.2 * a.hops (f.getD (parts.getD e.1.1 0) 0) (f.getD (parts.getD e.1.2 0) 0)
          + (matchingOf a spots parts es).cost f := by
      have hdist : (matchingOf a spots parts es).distance (f.getD (parts.getD e.1.1 0) 0)
          (f.getD (parts.getD e.1.2 0) 0)
          = a.hops (f.getD (parts.getD e.1.1 0) 0) (f.getD (parts.getD e.1.2 0) 0) := by
        rw [distance_matchingOf, if_pos ⟨hx, hy⟩]
      rw [← hdist]
      rfl
    have hone := sum_joinsParts rfl rfl hes.1.1 hes.1.2 e.2
      (d := fun x y => a.hops (f.getD x 0) (f.getD y 0)) (ha.hops_self hx) (ha.hops_comm hx hy)
    rw [hcost, ih hes.2, ← hone]
    simp only [hopCost, weightBetween, List.map_cons, total_cons, Nat.add_mul,
      Finset.sum_add_distrib]

/-! ## The problem -/

theorem forall_mem_interactions {P : Pair → Prop} {is : List Instruction}
    (h : ∀ p ∈ gatePairs is, P p) (maxDepth : Nat) : ∀ e ∈ interactions is maxDepth, P e.1 := by
  refine List.foldlRecOn (motive := fun acc : List (Pair × Nat) => ∀ e ∈ acc, P e.1) _ _ (by simp)
    fun acc hacc r hr => ?_
  refine List.foldlRecOn (motive := fun acc : List (Pair × Nat) => ∀ e ∈ acc, P e.1) _ _ hacc
    fun acc hacc p hp => ?_
  have hmem : r.1 ∈ Rounds.ofPairs (gatePairs is) :=
    List.mem_of_mem_take (List.fst_mem_of_mem_zipIdx hr)
  have hpair := (Rounds.perm_ofPairs _).mem_iff.1 (List.mem_flatten.2 ⟨r.1, hmem, hp⟩)
  exact Matching.forall_mem_addInteraction (h p hpair) hacc

section Problem

variable {assignment : Assignment}

theorem numVertices_interactionProblem :
    (interactionProblem spots es).numVertices = wrap (total spots) := by
  simp [interactionProblem, Hypergraph.numVertices]

theorem numParts_interactionProblem : (interactionProblem spots es).numParts = spots.length := by
  simp [interactionProblem, Hypergraph.numParts]

theorem partSize_interactionProblem (p : Nat) :
    (interactionProblem spots es).partSize p = spots.getD p 0 := by
  simp [interactionProblem, Hypergraph.partSize, Array.getD_eq_getD_getElem?]

theorem validate_interactionProblem
    (hes : ∀ e ∈ es, e.1.1 < wrap (total spots) ∧ e.1.2 < wrap (total spots)) :
    (interactionProblem spots es).validate = .ok () := by
  rw [Hypergraph.validate_eq_ok_iff, numVertices_interactionProblem]
  constructor
  · intro net hnet
    rw [interactionProblem, List.mem_toArray, List.mem_map] at hnet
    obtain ⟨e, he, rfl⟩ := hnet
    simpa using hes e he
  · intro v p hp
    obtain ⟨x, hx, hfixed⟩ := Hypergraph.fixed_eq_some_iff.1 hp
    have hx := Array.mem_of_getElem? hx
    rw [interactionProblem, Array.mem_replicate] at hx
    simp [hx.2] at hfixed

theorem countP_zipIdx {α : Type} (P : α → Bool) (xs : List α) :
    xs.zipIdx.countP (fun x => P x.1) = xs.countP P := by
  conv_rhs => rw [← List.zipIdx_map_fst 0 xs, List.countP_map]
  rfl

theorem partWeight_interactionProblem (h : assignment.length = wrap (total spots)) (p : Nat) :
    (interactionProblem spots es).partWeight assignment p = assignment.count p := by
  have hweight : ∀ v ∈ assignment.zipIdx.filter (·.1 == p),
      (interactionProblem spots es).weight v.2 = 1 := by
    intro v hv
    have hlt := List.snd_lt_of_mem_zipIdx (List.mem_of_mem_filter hv)
    simp [interactionProblem, Hypergraph.weight, show v.2 < wrap (total spots) by omega]
  have hword : assignment.count p < wordSize := by
    have hle := List.count_le_length (a := p) (l := assignment)
    have hlt := wrap_lt (total spots)
    omega
  rw [Hypergraph.partWeight, List.map_congr_left hweight, total_map_one,
    ← List.countP_eq_length_filter, countP_zipIdx (· == p)]
  exact wrap_of_lt hword

/-- An accepted assignment puts every spot into a part, and no more into a part than fit
its zone. -/
theorem checkAssignment_interactionProblem
    (h : (interactionProblem spots es).checkAssignment assignment = .ok ()) :
    assignment.length = wrap (total spots) ∧ (∀ p ∈ assignment, p < spots.length) ∧
      ∀ p < spots.length, assignment.count p ≤ spots.getD p 0 := by
  rw [Hypergraph.checkAssignment_eq_ok_iff, numVertices_interactionProblem,
    numParts_interactionProblem] at h
  obtain ⟨hlen, hparts, hsizes⟩ := h
  refine ⟨hlen, fun p hp => ?_, fun p hp => ?_⟩
  · obtain ⟨v, hv⟩ := List.getElem?_of_mem hp
    exact (hparts v p hv).1
  · have hsize := hsizes p hp
    rwa [← Hypergraph.partWeight_eq (by rw [hlen, numVertices_interactionProblem]),
      partWeight_interactionProblem hlen, partSize_interactionProblem] at hsize

end Problem

/-! ## The placement -/

section Place

variable {n q z : Nat}

theorem getD_placeByPart (n : Nat) (parts : List Nat) (f : Array Nat) (z : Nat) :
    (placeByPart n parts f).getD z [] = if z < n
      then (parts.zipIdx.filter fun p => f.getD p.1 0 == z).map (·.2) else [] := by
  by_cases hz : z < n
  · simp [placeByPart, hz]
  · simp [placeByPart, hz]

theorem mem_getD_placeByPart : q ∈ (placeByPart n parts f).getD z [] ↔
    z < n ∧ q < parts.length ∧ f.getD (parts.getD q 0) 0 = z := by
  rw [getD_placeByPart]
  split_ifs with hz
  · simp only [List.mem_map, List.mem_filter, List.mem_zipIdx_iff_getElem?, beq_iff_eq, hz,
      true_and]
    constructor
    · rintro ⟨⟨p, r⟩, ⟨hp, hzone⟩, rfl⟩
      obtain ⟨hlt, hget⟩ := List.getElem?_eq_some_iff.1 hp
      rw [List.getD_eq_getElem _ _ hlt, hget]
      exact ⟨hlt, hzone⟩
    · rintro ⟨hlt, hzone⟩
      rw [List.getD_eq_getElem _ _ hlt] at hzone
      exact ⟨(parts[q], q), ⟨List.getElem?_eq_getElem hlt, hzone⟩, rfl⟩
  · simp [hz]

theorem length_getD_placeByPart (hz : z < n) :
    ((placeByPart n parts f).getD z []).length = parts.countP (f.getD · 0 == z) := by
  rw [getD_placeByPart, if_pos hz, List.length_map, ← List.countP_eq_length_filter,
    countP_zipIdx (f.getD · 0 == z)]

/-- Parts with zones of their own that have room for them fill no zone beyond its spots. -/
theorem length_placeByPart_le (hperm : f.toList.Perm (List.range n)) (hparts : ∀ p ∈ parts, p < n)
    (hroom : ∀ p < n, parts.count p ≤ spots.getD (f.getD p 0) 0) (z : Nat) :
    ((placeByPart n parts f).getD z []).length ≤ spots.getD z 0 := by
  by_cases hz : z < n
  · have hsize := Matching.size_eq_of_perm hperm
    have hnodup : f.toList.Nodup := hperm.nodup_iff.2 List.nodup_range
    obtain ⟨r, hr, hrz⟩ : ∃ r < n, f.getD r 0 = z := by
      obtain ⟨r, hr, hrz⟩ := List.mem_iff_getElem.1 (hperm.mem_iff.2 (List.mem_range.2 hz))
      rw [Array.length_toList] at hr
      exact ⟨r, by omega, by simpa [Array.getD_eq_getD_getElem?, hr] using hrz⟩
    -- the zone has one part
    have hone : ∀ p ∈ parts, (f.getD p 0 == z) = true ↔ (p == r) = true := by
      intro p hp
      have hp : p < f.size := hsize ▸ hparts p hp
      have hr : r < f.size := hsize ▸ hr
      have hinj : f[p] = f[r] ↔ p = r := hnodup.getElem_inj_iff
      rw [beq_iff_eq, beq_iff_eq, ← hrz, ← hinj]
      simp [Array.getD_eq_getD_getElem?, hp, hr]
    rw [length_getD_placeByPart hz, List.countP_congr hone, ← hrz]
    exact hroom r hr
  · rw [getD_placeByPart, if_neg hz]
    exact Nat.zero_le _

theorem fits_placeByPart (hf : ∀ p ∈ parts, f.getD p 0 < a.numZones)
    (hcap : ∀ z, ((placeByPart a.numZones parts f).getD z []).length ≤ a.gateCapacity z) :
    (placeByPart a.numZones parts f).Fits a parts.length := by
  have hlen : (placeByPart a.numZones parts f).length = a.numZones := by simp [placeByPart]
  refine ⟨hlen, fun z chain hz => ?_, ?_⟩
  · have hz' := hcap z
    rwa [List.getD_eq_getElem?_getD, hz, Option.getD_some] at hz'
  · have hmem : ∀ q z, q ∈ (placeByPart a.numZones parts f).getD z [] ↔
        q < parts.length ∧ f.getD (parts.getD q 0) 0 = z := by
      intro q z
      rw [mem_getD_placeByPart, and_iff_right_iff_imp]
      rintro ⟨hq, rfl⟩
      rw [List.getD_eq_getElem _ _ hq]
      exact hf _ (List.getElem_mem hq)
    refine Placement.perm_range_of_zones (fun chain hchain => ?_) hmem
    obtain ⟨z, -, rfl⟩ := List.mem_map.1 hchain
    have hall : (parts.zipIdx.map (·.2)).Nodup := by
      rw [List.zipIdx_map_snd]
      exact List.nodup_range'
    exact hall.sublist (List.filter_sublist.map _)

end Place

theorem Architecture.length_usableSpots (a : Architecture) (free : Nat) :
    (a.usableSpots free).length = a.numZones := List.length_map _

theorem getD_usableSpots_le (a : Architecture) (free z : Nat) :
    (a.usableSpots free).getD z 0 ≤ a.gateCapacity z := by
  rw [Architecture.usableSpots, List.getD_eq_getElem?_getD, List.getElem?_map,
    Architecture.gateCapacity]
  cases a.zones[z]? with
  | none => exact le_rfl
  | some zone =>
    show Zone.usable free zone ≤ zone.gateCapacity
    rw [Zone.usable]
    split_ifs <;> omega

/-! ## Any partitioner -/

/-- A circuit is not too wide for the trap, its qubits fit the usable spots, as far as a word can
count them, there can be a table of the spots, and the partitioner answers the problem of the
interactions with an assignment that passes the check. -/
structure Accepted (a : Architecture) (c : Circuit) (free maxDepth : Nat)
    (partitioner : Partitioner) (assignment : Assignment) : Prop where
  width : c.numQubits ≤ a.maxQubits
  room : c.numQubits ≤ wrap (total (a.usableSpots free))
  addressable : wrap (total (a.usableSpots free)) ≤ maxEntries
  answer : partitioner (interactionProblem (a.usableSpots free)
    (interactions c.instructions maxDepth)) a.numZones = .ok assignment
  check : (interactionProblem (a.usableSpots free)
    (interactions c.instructions maxDepth)).checkAssignment assignment = .ok ()

/-- The problem of matching the parts of an assignment to zones. -/
def partMatching (a : Architecture) (c : Circuit) (free maxDepth : Nat) (assignment : Assignment) :
    Matching :=
  matchingOf a (a.usableSpots free) (assignment.take c.numQubits)
    (interactions c.instructions maxDepth)

variable {c : Circuit} {maxDepth : Nat} {partitioner : Partitioner} {assignment : Assignment}

theorem Architecture.checkNumQubits_eq_ok_iff {n : Nat} :
    a.checkNumQubits n = .ok () ↔ n ≤ a.maxQubits := by
  unfold checkNumQubits
  split_ifs with h
  · simp [h]
  · simp [Nat.le_of_not_lt h]

/-- The placement is made from an accepted assignment and checked once more. -/
theorem placeByPartition_eq_ok_iff (hc : ∀ i ∈ c.instructions, c.check i = .ok ()) {p : Placement} :
    placeByPartition a c free maxDepth partitioner = .ok p ↔
      ∃ assignment, Accepted a c free maxDepth partitioner assignment ∧
        p = placeByPart a.numZones (assignment.take c.numQubits)
          (partMatching a c free maxDepth assignment).solve ∧
        p.validate a c.numQubits = .ok () := by
  have hpairs := gatePairs_spec fun i hi => Circuit.operands_of_check (hc i hi)
  have hspots : a.zones.map (Zone.usable free) = a.usableSpots free := rfl
  unfold placeByPartition
  dsimp only
  rw [check_bind_eq_ok_iff, liftTrap_eq_ok_iff, Architecture.checkNumQubits_eq_ok_iff, hspots]
  by_cases hroom : c.numQubits ≤ wrap (total (a.usableSpots free))
  swap
  · rw [if_pos (by omega)]
    constructor
    · rintro ⟨-, h⟩
      simp at h
    · rintro ⟨assignment, h, -⟩
      exact absurd h.room hroom
  by_cases haddressable : wrap (total (a.usableSpots free)) ≤ maxEntries
  swap
  · rw [if_neg (by omega), if_pos (by omega)]
    constructor
    · rintro ⟨-, h⟩
      simp at h
    · rintro ⟨assignment, h, -⟩
      exact absurd h.addressable haddressable
  have hes : ∀ e ∈ interactions c.instructions maxDepth,
      e.1.1 < wrap (total (a.usableSpots free)) ∧ e.1.2 < wrap (total (a.usableSpots free)) := by
    refine forall_mem_interactions (P := fun p => p.1 < _ ∧ p.2 < _) (fun p hp => ?_) maxDepth
    have := hpairs p hp
    omega
  rw [if_neg (by omega), if_neg (by omega), validate_interactionProblem hes, mapError_ok, ok_bind,
    bind_eq_ok_iff]
  simp only [check_bind_eq_ok_iff, mapError_eq_ok_iff, liftTrap_eq_ok_iff]
  constructor
  · rintro ⟨hwidth, assignment, hanswer, hcheck, hvalid, hp⟩
    obtain rfl := Except.ok.inj hp
    exact ⟨assignment, ⟨hwidth, hroom, haddressable, hanswer, hcheck⟩, rfl, hvalid⟩
  · rintro ⟨assignment, h, rfl, hvalid⟩
    exact ⟨h.width, assignment, h.answer, h.check, hvalid, rfl⟩

/-- What is wanted of the zones of the parts: each part has a zone of its own with room for its
qubits, the hops cost no more than with the zones of the same numbers, and no two parts that fit
each other's zones can be exchanged to lower that. -/
structure Matched (a : Architecture) (spots parts : List Nat) (es : List (Pair × Nat))
    (f : Array Nat) : Prop where
  perm : f.toList.Perm (List.range a.numZones)
  room : ∀ p < a.numZones, parts.count p ≤ spots.getD (f.getD p 0) 0
  le_identity : hopCost a parts es f ≤ hopCost a parts es (Array.range a.numZones)
  best : ∀ p q, p < q → q < a.numZones → parts.count p ≤ spots.getD (f.getD q 0) 0 →
    parts.count q ≤ spots.getD (f.getD p 0) 0 →
    hopCost a parts es f ≤ hopCost a parts es (f.swapIfInBounds p q)

section Solve

/-- With the zones of the same numbers the parts fit, as they do after all exchanges. -/
theorem feasible_range (hroom : ∀ p < a.numZones, parts.count p ≤ spots.getD p 0) :
    (matchingOf a spots parts es).Feasible (Array.range a.numZones) := by
  refine ⟨by simp, fun p hp => ?_⟩
  rw [size_sizes_matchingOf] at hp
  rw [sizes_matchingOf hp, spots_matchingOf]
  simpa [Array.getD_eq_getD_getElem?, hp] using hroom p hp

theorem solve_matchingOf : (matchingOf a spots parts es).solve
    = (matchingOf a spots parts es).improve (Array.range a.numZones) := by
  rw [Matching.solve, size_sizes_matchingOf]

theorem feasible_solve (hroom : ∀ p < a.numZones, parts.count p ≤ spots.getD p 0) :
    (matchingOf a spots parts es).Feasible (matchingOf a spots parts es).solve := by
  rw [solve_matchingOf]
  exact (feasible_range hroom).improve

variable (ha : a.Legal)
  (hes : ∀ e ∈ es, parts.getD e.1.1 0 < a.numZones ∧ parts.getD e.1.2 0 < a.numZones)
include ha hes

theorem cost_eq_hopCost (hf : (matchingOf a spots parts es).Feasible f) :
    (matchingOf a spots parts es).cost f = hopCost a parts es f := by
  refine cost_matchingOf ha (fun p hp => ?_) hes
  simpa using hf.lt (p := p) (by simpa using hp)

variable (hroom : ∀ p < a.numZones, parts.count p ≤ spots.getD p 0)
include hroom

theorem matched_solve : Matched a spots parts es (matchingOf a spots parts es).solve := by
  have hrange : (matchingOf a spots parts es).Feasible (Array.range a.numZones) :=
    feasible_range hroom
  have hsolve : (matchingOf a spots parts es).Feasible (matchingOf a spots parts es).solve :=
    feasible_solve hroom
  have hbest : (matchingOf a spots parts es).LocallyBest (matchingOf a spots parts es).solve := by
    rw [solve_matchingOf]
    exact Matching.locallyBest_improve _ _
  refine ⟨by simpa using hsolve.perm, fun p hp => ?_, ?_, fun p q hpq hq hp₁ hq₁ => ?_⟩
  · have hp₁ := hsolve.room p (by simpa using hp)
    rwa [sizes_matchingOf hp, spots_matchingOf] at hp₁
  · rw [← cost_eq_hopCost ha hes hsolve, ← cost_eq_hopCost ha hes hrange, solve_matchingOf]
    exact Matching.cost_improve_le _ _
  · have hp : p < a.numZones := by omega
    have hfits : (matchingOf a spots parts es).fits (matchingOf a spots parts es).solve p q
        = true := by
      rw [Matching.fits_iff, sizes_matchingOf hp, sizes_matchingOf hq, spots_matchingOf,
        spots_matchingOf]
      exact ⟨hp₁, hq₁⟩
    have hswap := hsolve.swap (by simpa using hp) (by simpa using hq) hfits
    rw [← cost_eq_hopCost ha hes hsolve, ← cost_eq_hopCost ha hes hswap]
    exact hbest p q hpq (by simpa using hq) hfits

/-- Run in place on links that are condensed first, the exchanges come to the same zones. -/
theorem ends_solve (hspots : spots.length = a.numZones) :
    Climb.Ends (matchingOf a spots parts es).condensed (hopCost a parts es)
      (matchingOf a spots parts es).solve := by
  have hrange : (matchingOf a spots parts es).Feasible (Array.range a.numZones) :=
    feasible_range hroom
  have hmetric : (matchingOf a spots parts es).Metric := metric_matchingOf ha
  have hsize : (matchingOf a spots parts es).condensed.sizes.size = a.numZones := by
    rw [Matching.condensed, size_sizes_matchingOf]
  obtain ⟨visited, hcourse, hlen⟩ := Climb.exists_course (tabled_matchingOf hspots hes).condensed
    (f := Array.range a.numZones) ⟨hrange.perm, hrange.room⟩
  rw [Climb.of, Climb.of, Matching.improve_condensed hmetric, Matching.cost_condensed hmetric,
    ← solve_matchingOf, cost_eq_hopCost ha hes hrange,
    cost_eq_hopCost ha hes (feasible_solve hroom), Array.toList_range] at hcourse
  rw [Matching.cost_condensed hmetric, cost_eq_hopCost ha hes hrange] at hlen
  rw [Climb.Ends, hsize]
  exact ⟨visited, hcourse, hlen⟩

end Solve

namespace Accepted

variable (h : Accepted a c free maxDepth partitioner assignment)
include h

theorem length_take : (assignment.take c.numQubits).length = c.numQubits := by
  have hlen := (checkAssignment_interactionProblem h.check).1
  have hroom := h.room
  rw [List.length_take]
  omega

theorem part_lt : ∀ p ∈ assignment.take c.numQubits, p < a.numZones := by
  intro p hp
  have hlt := (checkAssignment_interactionProblem h.check).2.1 p (List.mem_of_mem_take hp)
  rwa [a.length_usableSpots] at hlt

theorem getD_lt {q : Nat} (hq : q < c.numQubits) :
    (assignment.take c.numQubits).getD q 0 < a.numZones := by
  have hq : q < (assignment.take c.numQubits).length := by rwa [h.length_take]
  rw [List.getD_eq_getElem _ _ hq]
  exact h.part_lt _ (List.getElem_mem hq)

/-- The qubits of a part are among its spots. -/
theorem count_le : ∀ p < a.numZones,
    (assignment.take c.numQubits).count p ≤ (a.usableSpots free).getD p 0 := by
  intro p hp
  have hall := (checkAssignment_interactionProblem h.check).2.2 p (by rwa [a.length_usableSpots])
  exact ((List.take_sublist _ _).count_le p).trans hall

theorem link_lt (hc : ∀ i ∈ c.instructions, c.check i = .ok ()) :
    ∀ e ∈ interactions c.instructions maxDepth,
      (assignment.take c.numQubits).getD e.1.1 0 < a.numZones ∧
        (assignment.take c.numQubits).getD e.1.2 0 < a.numZones := by
  have hpairs := gatePairs_spec fun i hi => Circuit.operands_of_check (hc i hi)
  intro e he
  have he := forall_mem_interactions hpairs maxDepth e he
  exact ⟨h.getD_lt (by omega), h.getD_lt (by omega)⟩

/-- The placement that zones with room for the parts lead to. -/
theorem placeByPart_spec (hf : Matched a (a.usableSpots free) (assignment.take c.numQubits) es f) :
    (placeByPart a.numZones (assignment.take c.numQubits) f).validate a c.numQubits = .ok () ∧
      (∀ z, ((placeByPart a.numZones (assignment.take c.numQubits) f).getD z []).length
        ≤ (a.usableSpots free).getD z 0) ∧
      ∀ q z, q ∈ (placeByPart a.numZones (assignment.take c.numQubits) f).getD z [] ↔
        q < c.numQubits ∧ f.getD (assignment.getD q 0) 0 = z := by
  have hlt : ∀ p < a.numZones, f.getD p 0 < a.numZones := fun p =>
    Matching.getD_lt_of_perm hf.perm
  have hspots := length_placeByPart_le hf.perm h.part_lt hf.room
  have hfits := fits_placeByPart (fun p hp => hlt p (h.part_lt p hp))
    fun z => (hspots z).trans (getD_usableSpots_le a free z)
  rw [h.length_take] at hfits
  refine ⟨Placement.validate_eq_ok_iff.2 hfits, hspots, fun q z => ?_⟩
  have htake : q < c.numQubits → (assignment.take c.numQubits).getD q 0 = assignment.getD q 0 := by
    intro hq
    simp [List.getD_eq_getElem?_getD, hq]
  rw [mem_getD_placeByPart, h.length_take]
  constructor
  · rintro ⟨-, hq, hz⟩
    exact ⟨hq, htake hq ▸ hz⟩
  · rintro ⟨hq, rfl⟩
    rw [← htake hq]
    exact ⟨hlt _ (h.getD_lt hq), hq, rfl⟩

end Accepted

/-- Three qubits, each with a gate to the next. -/
def threeInARow : Circuit := ⟨"row", 3, 0, [.ofStandard .cx [0, 1], .ofStandard .cx [1, 2]]⟩

end IonTrap
