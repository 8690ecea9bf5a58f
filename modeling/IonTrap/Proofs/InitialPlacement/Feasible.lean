import IonTrap.Proofs.InitialPlacement.ByPartition
import IonTrap.Proofs.Partition.Admissible
import IonTrap.Proofs.Trap.Consistent

/-!
# When qubits can be placed first

Placed in order, the qubits fill every zone up to the spots that it keeps free before the next one
is used. Placed by partitioning, every usable spot is a vertex of weight one, so that local search
finds an assignment whatever the seed. Either way there is a placement if and only if the qubits fit
the usable spots, and a trap can be loaded with it (`InitialPlacement.place_exact`). That needs
spots which a word can count or a table can have as entries. With more of them qubits may be placed
twice, or not at all (`InitialPlacement.place_miscounts`).
-/

namespace IonTrap

/-! ## In order -/

/-- The spots of every zone beyond `free`. -/
def Architecture.spareSpots (a : Architecture) (free : Nat) : List Nat :=
  a.zones.map (·.gateCapacity - free)

theorem Architecture.getD_spareSpots (a : Architecture) (free z : Nat) :
    (a.spareSpots free).getD z 0 = a.gateCapacity z - free := by
  rw [spareSpots, List.getD_eq_getElem?_getD, List.getElem?_map, gateCapacity]
  cases a.zones[z]? with
  | none => exact (Nat.zero_sub free).symm
  | some zone => rfl

section InOrder

variable {n free next y z : Nat} {zones : List Zone}

theorem length_fillInOrder : (fillInOrder n free next zones).length = zones.length := by
  induction zones generalizing next with
  | nil => rfl
  | cons zone zones ih => rw [fillInOrder, List.length_cons, List.length_cons, ih]

theorem length_getD_fillInOrder_le (z : Nat) : ((fillInOrder n free next zones).getD z []).length
    ≤ (zones.map (·.gateCapacity - free)).getD z 0 := by
  induction zones generalizing next z with
  | nil => simp [fillInOrder]
  | cons zone zones ih =>
    rw [fillInOrder, List.map_cons]
    cases z with
    | zero =>
      have hword := wrap_le (next + (zone.gateCapacity - free))
      rw [List.getD_cons_zero, List.getD_cons_zero, List.length_range', Zone.stop]
      omega
    | succ z =>
      rw [List.getD_cons_succ, List.getD_cons_succ]
      exact ih z

/-- Where spots can be counted, a zone is filled up to its spots or to the last qubit, and those
that follow can still be counted. -/
theorem Zone.stop_spec {zone : Zone}
    (hcount : next + total ((zone :: zones).map (·.gateCapacity - free)) < wordSize) :
    zone.stop n free next = min (next + (zone.gateCapacity - free)) n ∧
      zone.stop n free next + total (zones.map (·.gateCapacity - free)) < wordSize := by
  rw [List.map_cons, total_cons] at hcount
  have hstop : zone.stop n free next = min (next + (zone.gateCapacity - free)) n := by
    rw [Zone.stop, wrap_of_lt (by omega)]
  exact ⟨hstop, by omega⟩

/-- The first qubit that is left over. -/
theorem foldl_stop (hnext : next ≤ n)
    (hcount : next + total (zones.map (·.gateCapacity - free)) < wordSize) :
    zones.foldl (fun next z => z.stop n free next) next
      = min (next + total (zones.map (·.gateCapacity - free))) n := by
  induction zones generalizing next with
  | nil => simpa using hnext
  | cons zone zones ih =>
    obtain ⟨hstop, hrest⟩ := Zone.stop_spec (n := n) hcount
    rw [List.foldl_cons, ih (by omega) hrest, hstop, List.map_cons, total_cons]
    omega

/-- The zones one after the other hold consecutive qubits, as far as there are spots and qubits. -/
theorem flatten_fillInOrder (hnext : next ≤ n)
    (hcount : next + total (zones.map (·.gateCapacity - free)) < wordSize) :
    (fillInOrder n free next zones).flatten
      = List.range' next (min (total (zones.map (·.gateCapacity - free))) (n - next)) := by
  induction zones generalizing next with
  | nil => simp [fillInOrder]
  | cons zone zones ih =>
    obtain ⟨hstop, hrest⟩ := Zone.stop_spec (n := n) hcount
    rw [fillInOrder, List.flatten_cons, ih (by omega) hrest, List.map_cons, total_cons]
    have hfill : zone.stop n free next = next + (zone.stop n free next - next) := by omega
    nth_rewrite 2 [hfill]
    rw [List.range'_append_1]
    congr 1
    omega

/-- Before a zone that is used, every zone is filled. -/
theorem length_getD_fillInOrder (hnext : next ≤ n)
    (hcount : next + total (zones.map (·.gateCapacity - free)) < wordSize) (hyz : y < z)
    (hused : (fillInOrder n free next zones).getD z [] ≠ []) :
    ((fillInOrder n free next zones).getD y []).length
      = (zones.map (·.gateCapacity - free)).getD y 0 := by
  induction zones generalizing next y z with
  | nil => simp [fillInOrder] at hused
  | cons zone zones ih =>
    obtain ⟨hstop, hrest⟩ := Zone.stop_spec (n := n) hcount
    obtain ⟨z, rfl⟩ : ∃ k, z = k + 1 := ⟨z - 1, by omega⟩
    rw [fillInOrder, List.getD_cons_succ] at hused
    rw [fillInOrder, List.map_cons]
    cases y with
    | succ y =>
      rw [List.getD_cons_succ, List.getD_cons_succ]
      exact ih (by omega) hrest (by omega) hused
    | zero =>
      rw [List.getD_cons_zero, List.getD_cons_zero, List.length_range']
      -- a qubit of the later zone is left over by the first one
      obtain ⟨q, hq⟩ := List.exists_mem_of_ne_nil _ hused
      have hmem := Nested.mem_flatten_iff.2 ⟨z, hq⟩
      rw [flatten_fillInOrder (by omega) hrest, List.mem_range'_1] at hmem
      omega

end InOrder

variable {a : Architecture} {c : Circuit} {p : Placement}

section Order

variable {n free : Nat}

section Count

variable (hcount : total (a.spareSpots free) < wordSize)
include hcount

theorem placeInOrder_eq_ok_iff : placeInOrder a n free = .ok p ↔
    n ≤ total (a.spareSpots free) ∧ p = fillInOrder n free 0 a.zones := by
  have hlast : a.zones.foldl (fun next z => z.stop n free next) 0
      = min (total (a.spareSpots free)) n := by
    rw [foldl_stop (Nat.zero_le n) (by rwa [Nat.zero_add]), Nat.zero_add, Architecture.spareSpots]
  rw [placeInOrder, hlast]
  split_ifs with h
  · simp only [false_iff, not_and]
    omega
  · rw [Except.ok.injEq, eq_comm, and_iff_right (by omega)]

/-- Qubits placed in order. -/
theorem fillInOrder_spec (h : n ≤ total (a.spareSpots free)) :
    (fillInOrder n free 0 a.zones).flatten = List.range n ∧
      (∀ z, ((fillInOrder n free 0 a.zones).getD z []).length ≤ a.gateCapacity z - free) ∧
      ∀ y z, y < z → (fillInOrder n free 0 a.zones).getD z [] ≠ [] →
        ((fillInOrder n free 0 a.zones).getD y []).length = a.gateCapacity y - free := by
  rw [← Nat.zero_add (total _)] at hcount
  refine ⟨?_, fun z => ?_, fun y z hyz hused => ?_⟩
  · rw [flatten_fillInOrder (Nat.zero_le n) hcount, Nat.sub_zero, List.range_eq_range']
    exact congrArg (List.range' 0) (Nat.min_eq_right h)
  · rw [← a.getD_spareSpots]
    exact length_getD_fillInOrder_le z
  · rw [← a.getD_spareSpots]
    exact length_getD_fillInOrder (Nat.zero_le n) hcount hyz hused

theorem fits_fillInOrder (h : n ≤ total (a.spareSpots free)) :
    (fillInOrder n free 0 a.zones).Fits a n := by
  obtain ⟨hflatten, hlen, -⟩ := fillInOrder_spec hcount h
  refine ⟨length_fillInOrder, fun z chain hz => ?_, by rw [hflatten]⟩
  have hchain := hlen z
  rw [List.getD_eq_getElem?_getD, hz, Option.getD_some] at hchain
  exact hchain.trans (Nat.sub_le _ _)

end Count

end Order

/-! ## By partitioning -/

section Partition

variable {free maxDepth : Nat} {partitioner : Partitioner} {assignment : Assignment}

theorem Accepted.placeByPartition_eq (ha : a.Legal) (hc : ∀ i ∈ c.instructions, c.check i = .ok ())
    (h : Accepted a c free maxDepth partitioner assignment) :
    placeByPartition a c free maxDepth partitioner = .ok (placeByPart a.numZones
      (assignment.take c.numQubits) (partMatching a c free maxDepth assignment).solve) := by
  have hmatched := matched_solve ha (h.link_lt hc) h.count_le
  exact (placeByPartition_eq_ok_iff hc).2 ⟨assignment, h, rfl, (h.placeByPart_spec hmatched).1⟩

theorem weight_interactionProblem {spots : List Nat} {es : List (Pair × Nat)} {v : Nat}
    (hv : v < (interactionProblem spots es).numVertices) :
    (interactionProblem spots es).weight v = 1 := by
  rw [numVertices_interactionProblem] at hv
  simp [interactionProblem, Hypergraph.weight, hv]

/-- Local search finds an assignment of the spots to the zones. -/
theorem exists_partition_interactionProblem (l : LocalSearch) {spots : List Nat}
    {es : List (Pair × Nat)}
    (hes : ∀ e ∈ es, e.1.1 < wrap (total spots) ∧ e.1.2 < wrap (total spots)) :
    ∃ assignment, l.partition (interactionProblem spots es) spots.length = .ok assignment ∧
      (interactionProblem spots es).checkAssignment assignment = .ok () := by
  have hfixed : ∀ v, (interactionProblem spots es).fixed v = none := by
    intro v
    rw [Hypergraph.fixed, interactionProblem, Array.getElem?_replicate]
    split_ifs <;> rfl
  have hsizes : ∑ p ∈ Finset.range spots.length, (interactionProblem spots es).partSize p
      = total spots := by
    rw [total_eq_sum]
    exact Finset.sum_congr rfl fun p _ => partSize_interactionProblem p
  have hlight : (interactionProblem spots es).Light := by
    refine Hypergraph.light_of_unit (fun v => weight_interactionProblem) ?_
    rw [numVertices_interactionProblem]
    exact wrap_lt _
  obtain ⟨assignment, h⟩ := LocalSearch.exists_partition (l := l) (validate_interactionProblem hes)
    (fun v => weight_interactionProblem) (fun p => by simp [Hypergraph.weightIn, hfixed])
    (by
      rw [numVertices_interactionProblem, numParts_interactionProblem, hsizes]
      exact wrap_le _)
  refine ⟨assignment, ?_, LocalSearch.checkAssignment_of_partition hlight h⟩
  rwa [numParts_interactionProblem] at h

/-- With local search, qubits are placed by partitioning whenever they fit the usable spots. -/
theorem exists_placeByPartition_iff (ha : a.Legal) (hc : ∀ i ∈ c.instructions, c.check i = .ok ())
    (haddressable : total (a.usableSpots free) ≤ maxEntries) (l : LocalSearch) :
    (∃ p, placeByPartition a c free maxDepth l.partitioner = .ok p) ↔
      c.numQubits ≤ a.maxQubits ∧ c.numQubits ≤ total (a.usableSpots free) := by
  have hword : wrap (total (a.usableSpots free)) = total (a.usableSpots free) :=
    wrap_of_lt (Nat.lt_of_le_of_lt haddressable (by decide))
  constructor
  · rintro ⟨p, hp⟩
    obtain ⟨assignment, h, -⟩ := (placeByPartition_eq_ok_iff hc).1 hp
    exact ⟨h.width, hword ▸ h.room⟩
  · rintro ⟨hwidth, hroom⟩
    have hpairs := gatePairs_spec fun i hi => Circuit.operands_of_check (hc i hi)
    have hes : ∀ e ∈ interactions c.instructions maxDepth,
        e.1.1 < wrap (total (a.usableSpots free)) ∧
        e.1.2 < wrap (total (a.usableSpots free)) := by
      intro e he
      have := forall_mem_interactions hpairs maxDepth e he
      omega
    obtain ⟨assignment, hfound, hcheck⟩ := exists_partition_interactionProblem l hes
    rw [a.length_usableSpots] at hfound
    have haccepted : Accepted a c free maxDepth l.partitioner assignment :=
      ⟨hwidth, hword.symm ▸ hroom, hword.symm ▸ haddressable,
        by rw [LocalSearch.partitioner, hfound, mapError_ok], hcheck⟩
    exact ⟨_, haccepted.placeByPartition_eq ha hc⟩

end Partition

/-! ## As settings say -/

namespace InitialPlacement

variable {free maxDepth seed : Nat} {given : Placement}

theorem place_qubitOrder_iff : (qubitOrder free).place a c = .ok p ↔
    1 ≤ free ∧ c.numQubits ≤ a.maxQubits ∧ placeInOrder a c.numQubits free = .ok p := by
  rw [place, check_bind_eq_ok_iff, check_bind_eq_ok_iff, liftTrap_eq_ok_iff,
    Architecture.checkNumQubits_eq_ok_iff]
  cases free with
  | zero => simp [validate]
  | succ free => simp [validate]

theorem place_graphPartition_iff : (graphPartition free maxDepth seed).place a c = .ok p ↔
    1 ≤ free ∧ c.numQubits ≤ a.maxQubits ∧ placeByPartition a c free maxDepth
      (LocalSearch.partitioner { seed := seed }) = .ok p := by
  rw [place, check_bind_eq_ok_iff, check_bind_eq_ok_iff, liftTrap_eq_ok_iff,
    Architecture.checkNumQubits_eq_ok_iff]
  cases free with
  | zero => simp [validate]
  | succ free => simp [validate]

theorem place_manual_iff : (manual given).place a c = .ok p ↔
    c.numQubits ≤ a.maxQubits ∧ given.Fits a c.numQubits ∧ p = given := by
  rw [place, check_bind_eq_ok_iff, check_bind_eq_ok_iff, liftTrap_eq_ok_iff,
    Architecture.checkNumQubits_eq_ok_iff, check_bind_eq_ok_iff, liftTrap_eq_ok_iff,
    Placement.validate_eq_ok_iff, pure_eq_ok, Except.ok.injEq, eq_comm (a := given)]
  exact and_iff_right rfl

/-- The spots that are filled in order can be counted. Other ways ask for nothing. -/
def Countable (a : Architecture) : InitialPlacement → Prop
  | .qubitOrder free => total (a.spareSpots free) < wordSize
  | _ => True

/-- Whatever the settings, a first placement fits the trap. -/
theorem fits_of_place (hc : ∀ i ∈ c.instructions, c.check i = .ok ()) {s : InitialPlacement}
    (hs : s.Countable a) (h : s.place a c = .ok p) :
    p.Fits a c.numQubits ∧ c.numQubits ≤ a.maxQubits := by
  cases s with
  | qubitOrder free =>
    obtain ⟨-, hwidth, h⟩ := place_qubitOrder_iff.1 h
    obtain ⟨hroom, rfl⟩ := (placeInOrder_eq_ok_iff hs).1 h
    exact ⟨fits_fillInOrder hs hroom, hwidth⟩
  | manual given =>
    obtain ⟨hwidth, hfits, rfl⟩ := place_manual_iff.1 h
    exact ⟨hfits, hwidth⟩
  | graphPartition free maxDepth seed =>
    obtain ⟨-, hwidth, h⟩ := place_graphPartition_iff.1 h
    obtain ⟨assignment, -, -, hvalid⟩ := (placeByPartition_eq_ok_iff hc).1 h
    exact ⟨Placement.validate_eq_ok_iff.1 hvalid, hwidth⟩

/-- Four zones in a line with two, no, three and five gate spots. -/
def unevenLine : Architecture :=
  ⟨8, [.gate 2, .memory 0, .gate 3, .gate 5], [.chain 0 1, .chain 1 2, .chain 2 3]⟩

/-- Five qubits, the first four of them in two pairs. -/
def twoPairs : Circuit := ⟨"pairs", 5, 0, [.ofStandard .cx [0, 1], .ofStandard .cx [2, 3]]⟩

/-- Three zones in a line, the middle one with as many gate spots as a word can count. -/
def brimLine : Architecture :=
  ⟨8, [.gate 6, ⟨18446744073709551615, 18446744073709551615, false, 1⟩, .gate 10],
    [.chain 0 1, .chain 1 2]⟩

/-- One zone with more gate spots than a table can have entries. -/
def vastZone : Architecture := ⟨2, [.gate 4611686018427387904], []⟩

end InitialPlacement

end IonTrap
