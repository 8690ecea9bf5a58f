import IonTrap.Proofs.Trap.SwapCount

/-!
# Qubits in the order of their chain

The members of a zone among some qubits can be read off its chain, or the qubits can be sorted by
their places. For qubits that are all in the zone both give the same list, whatever the order in
which they are listed (`Trap.Consistent.byDistance_p0`). Nor does the number of swaps that line them
up at a port depend on it (`Trap.swapCount_perm`).
-/

namespace IonTrap

section Sorting

variable {le : Nat → Nat → Bool} (htrans : ∀ x y w, le x y = true → le y w = true → le x w = true)
  (htotal : ∀ x y, (le x y || le y x) = true)
include htrans htotal

theorem pairwise_insertBy {ys : List Nat} (h : ys.Pairwise fun x y => le x y = true) (x : Nat) :
    (insertBy le x ys).Pairwise fun x y => le x y = true := by
  induction ys with
  | nil => exact List.pairwise_singleton _ _
  | cons y ys ih =>
    obtain ⟨hy, hys⟩ := List.pairwise_cons.1 h
    rw [insertBy]
    split_ifs with hxy
    · refine List.pairwise_cons.2 ⟨List.forall_mem_cons.2 ⟨hxy, fun w hw => ?_⟩, h⟩
      exact htrans x y w hxy (hy w hw)
    · refine List.pairwise_cons.2 ⟨fun w hw => ?_, ih hys⟩
      rcases List.mem_cons.1 ((insertBy_perm le x ys).mem_iff.1 hw) with rfl | hw
      · exact (Bool.or_eq_true_iff.1 (htotal w y)).resolve_left hxy
      · exact hy w hw

theorem pairwise_sortBy (xs : List Nat) : (sortBy le xs).Pairwise fun x y => le x y = true := by
  induction xs with
  | nil => exact .nil
  | cons x xs ih => exact pairwise_insertBy htrans htotal ih x

end Sorting

namespace Trap

theorem nearer_trans (t : Trap) (port : Port) (x y w : Nat) (hxy : t.nearer port x y = true)
    (hyw : t.nearer port y w = true) : t.nearer port x w = true := by
  cases port <;> simp only [nearer, decide_eq_true_eq] at hxy hyw ⊢ <;> omega

theorem nearer_total (t : Trap) (port : Port) (x y : Nat) :
    (t.nearer port x y || t.nearer port y x) = true := by
  cases port <;> simp only [nearer, Bool.or_eq_true, decide_eq_true_eq] <;> omega

theorem pairwise_nearer (t : Trap) (port : Port) (qs : List Nat) :
    (t.byDistance port qs).Pairwise fun x y => t.nearer port x y = true :=
  pairwise_sortBy (t.nearer_trans port) (t.nearer_total port) qs

theorem mem_cohort_iff {t : Trap} {z q : Nat} {qs : List Nat} :
    q ∈ t.cohort z qs ↔ q ∈ t.chain z ∧ q ∈ qs := by
  simp [cohort]

/-- A cohort does not depend on how its members are listed. -/
theorem cohort_congr (t : Trap) (z : Nat) {qs qs' : List Nat} (h : ∀ q, q ∈ qs ↔ q ∈ qs') :
    t.cohort z qs = t.cohort z qs' := by
  refine List.filter_congr fun q _ => ?_
  rw [Bool.eq_iff_iff, List.contains_iff_mem, List.contains_iff_mem]
  exact h q

theorem swapCount_perm (t : Trap) {qs qs' : List Nat} (h : qs.Perm qs') (z : Nat) (port : Port) :
    t.swapCount qs z port = t.swapCount qs' z port := by
  unfold swapCount
  rw [h.length_eq]
  cases port <;> exact congrArg (· - _) (total_perm (h.map _))

namespace Consistent

variable {t : Trap} (h : t.Consistent) {z : Nat} {qs : List Nat}
include h

/-- Places grow along a chain. -/
theorem pairwise_chain (z : Nat) :
    (t.chain z).Pairwise fun x y => t.position x < t.position y := by
  rw [List.pairwise_iff_getElem]
  intro i j hi hj hlt
  rw [(h.of_getElem?_chain (List.getElem?_eq_getElem hi)).2.2,
    (h.of_getElem?_chain (List.getElem?_eq_getElem hj)).2.2]
  exact hlt

theorem nodup_cohort (z : Nat) (qs : List Nat) : (t.cohort z qs).Nodup :=
  (h.nodup_chain z).filter _

/-- Qubits of one zone are a cohort of it. -/
theorem perm_cohort (hnodup : qs.Nodup) (hin : ∀ q ∈ qs, q ∈ t.chain z) :
    (t.cohort z qs).Perm qs := by
  refine (List.perm_ext_iff_of_nodup (h.nodup_cohort z qs) hnodup).2 fun q => ?_
  rw [mem_cohort_iff]
  exact ⟨And.right, fun hq => ⟨hin q hq, hq⟩⟩

theorem eq_of_position {x y : Nat} (hx : x ∈ t.chain z) (hy : y ∈ t.chain z)
    (hpos : t.position x = t.position y) : x = y := by
  have hx := h.mem_chain_iff.1 hx
  have hy := h.mem_chain_iff.1 hy
  have hxi := h.getElem?_chain hx.1
  have hyi := h.getElem?_chain hy.1
  rw [hx.2, hpos] at hxi
  rw [hy.2] at hyi
  exact Option.some.inj (hxi.symm.trans hyi)

/-- Of qubits of one zone there is only one list from the nearest to the farthest. -/
theorem byDistance_eq_of_pairwise {port : Port} {sorted : List Nat}
    (hin : ∀ q ∈ qs, q ∈ t.chain z) (hperm : sorted.Perm qs)
    (hsorted : sorted.Pairwise fun x y => t.nearer port x y = true) :
    t.byDistance port qs = sorted := by
  have hperm' : (t.byDistance port qs).Perm sorted := (t.byDistance_perm port qs).trans hperm.symm
  refine hperm'.eq_of_pairwise (fun x y hx hy hxy hyx => ?_)
    (t.pairwise_nearer port qs) hsorted
  have hx := hin x ((t.byDistance_perm port qs).mem_iff.1 hx)
  have hy := hin y (hperm.mem_iff.1 hy)
  refine h.eq_of_position hx hy ?_
  cases port <;> simp only [nearer, decide_eq_true_eq] at hxy hyx <;> omega

/-- Sorting qubits of a zone by their places gives them as they stand in its chain. -/
theorem byDistance_p0 (hnodup : qs.Nodup) (hin : ∀ q ∈ qs, q ∈ t.chain z) :
    t.byDistance .p0 qs = t.cohort z qs := by
  refine h.byDistance_eq_of_pairwise hin (h.perm_cohort hnodup hin) ?_
  refine ((h.pairwise_chain z).filter _).imp fun hlt => ?_
  simp only [nearer, decide_eq_true_eq]
  omega

/-- From the other end it gives them the other way round. -/
theorem byDistance_p1 (hnodup : qs.Nodup) (hin : ∀ q ∈ qs, q ∈ t.chain z) :
    t.byDistance .p1 qs = (t.cohort z qs).reverse := by
  refine h.byDistance_eq_of_pairwise hin
    ((List.reverse_perm _).trans (h.perm_cohort hnodup hin)) (List.pairwise_reverse.2 ?_)
  refine ((h.pairwise_chain z).filter _).imp fun hlt => ?_
  simp only [nearer, decide_eq_true_eq]
  omega

end Consistent

end Trap

end IonTrap
