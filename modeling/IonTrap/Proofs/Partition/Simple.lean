import IonTrap.Proofs.InitialPlacement.ByPartition
import IonTrap.Proofs.Partition.LocalOptimum
import IonTrap.Proofs.Rounds.Components
import IonTrap.Proofs.Selection.Partition

/-!
# Problems without repeated pins

What a net of a trap ties together are different vertices, since the qubits of a pair differ, no
qubit is in a block twice and anchors are no qubits (`Trap.Ties.nodup`). The nets between qubits
that are placed first are pairs too. So where no pass improves an answer to one of these problems,
the answer is a local optimum (`LocalSearch.refinement_descends`).
-/

namespace IonTrap

/-! ## The problems of a trap -/

section Problem

variable {t : Trap} {rs : Rounds}
  (hrs : ∀ p ∈ rs.flatten, p.1 ≠ p.2 ∧ p.1 < t.numQubits ∧ p.2 < t.numQubits)
include hrs

theorem Trap.nodup_of_mem_blocks {bs : Blocks} {b : List Nat} (hbs : bs ∈ rs.blocks) (hb : b ∈ bs) :
    b.Nodup ∧ ∀ q ∈ b, q < t.numQubits := by
  obtain ⟨d, hd⟩ := List.getElem?_of_mem hbs
  have hcomponents := Blocks.spans_nil.isComponents_after (fun p hp => (hrs p hp).1) hd
  have hempty : Blocks.Below t.numQubits [] := by simp [Blocks.Below]
  exact ⟨(List.nodup_flatten.1 hcomponents.nodup).1 b hb,
    hempty.after (fun p hp => (hrs p hp).2) bs hbs b hb⟩

/-- No net ties a vertex to itself. -/
theorem Trap.Ties.nodup {pins : List Nat} (h : t.Ties rs pins) : pins.Nodup := by
  have hanchor : ∀ {q : Nat} (z : Nat), q < t.numQubits → q ≠ t.anchor z := by
    intro q z hq
    rw [anchor]
    omega
  cases h with
  | pair hp => simpa using (hrs _ hp).1
  | hold hq => simpa using hanchor _ hq
  | near hq => simpa using (hanchor _ hq).symm
  | block hbs hb => exact (nodup_of_mem_blocks hrs hbs hb).1
  | anchored hbs hb =>
    obtain ⟨hnodup, hbelow⟩ := nodup_of_mem_blocks hrs hbs hb
    refine List.nodup_append.2 ⟨hnodup, List.nodup_singleton _, fun q hq v hv => ?_⟩
    rw [List.mem_singleton.1 hv]
    exact hanchor _ (hbelow q hq)

theorem Trap.Consistent.simple_problem (ht : t.Consistent) {s : RoutingSettings} {g : Hypergraph}
    (h : t.problem s rs = .ok g) : g.Simple := by
  obtain ⟨nets, hproblem, hties⟩ := ht.exists_nets s fun p hp => (hrs p hp).2
  obtain ⟨-, -, -, rfl⟩ := partitionProblem_eq_ok_iff.1 (hproblem.symm.trans h)
  intro e he
  exact (hties e (by simpa [uncheckedProblem] using he)).nodup hrs

end Problem

/-! ## The problem of the first placement -/

theorem simple_interactionProblem {c : Circuit} (hc : ∀ i ∈ c.instructions, c.check i = .ok ())
    (spots : List Nat) (maxDepth : Nat) :
    (interactionProblem spots (interactions c.instructions maxDepth)).Simple := by
  have hpairs := gatePairs_spec fun i hi => Circuit.operands_of_check (hc i hi)
  intro net hnet
  rw [interactionProblem, List.mem_toArray, List.mem_map] at hnet
  obtain ⟨e, he, rfl⟩ := hnet
  have hlt := (forall_mem_interactions hpairs maxDepth e he).1
  simpa using Nat.ne_of_lt hlt

namespace LocalSearch

variable {g : Hypergraph}

open Search

/-- Four vertices in a row, of which the two in the middle are drawn to each other. -/
def rowOfFour : Hypergraph where
  vertices := #[⟨1, none⟩, ⟨1, none⟩, ⟨1, none⟩, ⟨1, none⟩]
  nets := #[⟨[0, 3], 2⟩, ⟨[1, 2], 1⟩, ⟨[1, 3], 2⟩]
  partSizes := #[2, 2]

/-- No two vertices are equally strong, so the seed does not matter. -/
theorem freeOrder_rowOfFour (seed : Nat) : (start rowOfFour).freeOrder seed = [3, 1, 0, 2] := by
  have hperm : ((start rowOfFour).freeOrder seed).Perm [3, 1, 0, 2] :=
    (perm_freeOrder _ seed).trans (by decide)
  refine hperm.eq_of_pairwise (fun a b ha hb hab hba => ?_) (pairwise_freeOrder _ seed) (by decide)
  have hall : ∀ a ∈ [3, 1, 0, 2], ∀ b ∈ [3, 1, 0, 2],
      (start rowOfFour).strength a = (start rowOfFour).strength b → a = b := by decide
  exact hall a (hperm.mem_iff.1 ha) b hb (Nat.le_antisymm hba hab)

end LocalSearch

end IonTrap
