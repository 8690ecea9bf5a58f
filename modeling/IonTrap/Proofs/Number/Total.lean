import IonTrap.Number.Basic
import Mathlib.Algebra.BigOperators.Group.Finset.Basic
import Mathlib.Algebra.BigOperators.Group.Finset.Piecewise
import Mathlib.Data.List.Range
import Mathlib.Data.List.Sublists

/-!
# Sums of lists

Totals as sums over ranges, and how they compare: a part of a list has no more in total than the
list (`total_map_le_of_subset`), and of a sorted list no part of a given length has less than the
first elements (`total_take_le_of_sublist`).
-/

namespace IonTrap

theorem total_perm {ms ns : List Nat} (h : ms.Perm ns) : total ms = total ns := by
  induction h with
  | nil => rfl
  | cons n _ ih => rw [total_cons, total_cons, ih]
  | swap m n ns =>
    simp only [total_cons]
    omega
  | trans _ _ ih ih' => exact ih.trans ih'

theorem total_eq_sum (ns : List Nat) : total ns = ∑ i ∈ Finset.range ns.length, ns.getD i 0 := by
  induction ns with
  | nil => rfl
  | cons n ns ih =>
    rw [total_cons, List.length_cons, Finset.sum_range_succ', ih, Nat.add_comm]
    rfl

theorem total_map_range (f : Nat → Nat) (n : Nat) :
    total ((List.range n).map f) = ∑ z ∈ Finset.range n, f z := by
  induction n with
  | zero => rfl
  | succ n ih =>
    rw [List.range_succ, List.map_append, total_append, ih, Finset.sum_range_succ]
    rfl

/-- A list of numbers below `n` has each of them as often as it occurs. -/
theorem total_map_eq_sum_count (f : Nat → Nat) {n : Nat} {xs : List Nat} (h : ∀ x ∈ xs, x < n) :
    total (xs.map f) = ∑ x ∈ Finset.range n, xs.count x * f x := by
  induction xs with
  | nil => simp
  | cons y ys ih =>
    rw [List.forall_mem_cons] at h
    have hy : ∑ x ∈ Finset.range n, (if y == x then 1 else 0) * f x = f y := by
      simp [h.1]
    simp only [List.map_cons, total_cons, List.count_cons, Nat.add_mul, Finset.sum_add_distrib]
    rw [ih h.2, hy, Nat.add_comm]

theorem total_map_one {α : Type} (xs : List α) : total (xs.map fun _ => 1) = xs.length := by
  induction xs with
  | nil => rfl
  | cons x xs ih => rw [List.map_cons, total_cons, ih, List.length_cons, Nat.add_comm]

theorem total_map_zero {α : Type} (xs : List α) : total (xs.map fun _ => 0) = 0 := by
  induction xs with
  | nil => rfl
  | cons x xs ih => rw [List.map_cons, total_cons, ih]

theorem total_map_add {α : Type} (f g : α → Nat) (xs : List α) :
    total (xs.map fun x => f x + g x) = total (xs.map f) + total (xs.map g) := by
  induction xs with
  | nil => rfl
  | cons x xs ih =>
    simp only [List.map_cons, total_cons, ih]
    omega

theorem total_map_le {α : Type} {f g : α → Nat} {xs : List α} (h : ∀ x ∈ xs, f x ≤ g x) :
    total (xs.map f) ≤ total (xs.map g) := by
  induction xs with
  | nil => exact Nat.le_refl _
  | cons x xs ih =>
    rw [List.forall_mem_cons] at h
    exact Nat.add_le_add h.1 (ih h.2)

theorem total_le_of_sublist {ms ns : List Nat} (h : ms.Sublist ns) : total ms ≤ total ns := by
  induction h with
  | slnil => exact Nat.le_refl _
  | cons n _ ih => exact ih.trans (Nat.le_add_left _ _)
  | cons_cons n _ ih => exact Nat.add_le_add_left ih n

theorem le_total_of_mem {n : Nat} {ns : List Nat} (h : n ∈ ns) : n ≤ total ns := by
  simpa using total_le_of_sublist (List.singleton_sublist.2 h)

/-- Elements picked once each from a list have no more in total than the list. -/
theorem total_map_le_of_subset {α : Type} (f : α → Nat) {xs ys : List α} (hxs : xs.Nodup)
    (h : xs ⊆ ys) : total (xs.map f) ≤ total (ys.map f) := by
  obtain ⟨zs, hperm, hsub⟩ := List.subperm_of_subset hxs h
  rw [← total_perm (hperm.map f)]
  exact total_le_of_sublist (hsub.map f)

/-- Of a list sorted by a key, no part has a smaller total than the first elements. -/
theorem total_take_le_of_sublist {key : Nat → Nat} {part all : List Nat}
    (hsub : part.Sublist all) (hsorted : all.Pairwise fun x y => key x ≤ key y) :
    total ((all.take part.length).map key) ≤ total (part.map key) := by
  induction hsub with
  | slnil => exact Nat.le_refl _
  | @cons part all x hsub ih =>
    rw [List.pairwise_cons] at hsorted
    cases part with
    | nil => exact Nat.le_refl _
    | cons y part =>
      -- the part leaves `x` out, so one that is no smaller can be exchanged for it
      have hlt : part.length < all.length := hsub.length_le
      have hle := hsorted.1 _ (List.getElem_mem hlt)
      have hpart := ih hsorted.2
      rw [List.length_cons, List.take_succ_eq_append_getElem hlt, List.map_append,
        total_append] at hpart
      rw [List.length_cons, List.take_succ_cons, List.map_cons, total_cons]
      simp only [List.map_cons, List.map_nil, total_cons, total_nil] at hpart ⊢
      omega
  | @cons_cons part all x hsub ih =>
    rw [List.pairwise_cons] at hsorted
    have hpart := ih hsorted.2
    simp only [List.length_cons, List.take_succ_cons, List.map_cons, total_cons]
    omega

end IonTrap
