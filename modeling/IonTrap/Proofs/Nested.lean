import Mathlib

/-!
# Lists of lists

Chains of zones, rounds of pairs and blocks of qubits are lists of lists that are looked up with an
empty default. The entries of such a list can be told from its lookups, and if no entry is listed
twice, the lookups are disjoint (`Nested.eq_of_mem_getD`).
-/

namespace IonTrap.Nested

variable {α : Type} {xss : List (List α)} {x : α} {i j : Nat}

theorem lt_length_of_mem_getD (h : x ∈ xss.getD i []) : i < xss.length := by
  by_contra hi
  rw [List.getD_eq_default _ _ (by omega)] at h
  simp at h

theorem mem_flatten_iff : x ∈ xss.flatten ↔ ∃ i, x ∈ xss.getD i [] := by
  rw [List.mem_flatten]
  constructor
  · rintro ⟨xs, hxs, hx⟩
    obtain ⟨i, hi, rfl⟩ := List.mem_iff_getElem.1 hxs
    exact ⟨i, by rwa [List.getD_eq_getElem _ _ hi]⟩
  · rintro ⟨i, hx⟩
    have hi := lt_length_of_mem_getD hx
    rw [List.getD_eq_getElem _ _ hi] at hx
    exact ⟨_, List.getElem_mem hi, hx⟩

theorem getElem?_getD_iff :
    (xss.getD i [])[j]? = some x ↔ ∃ xs, xss[i]? = some xs ∧ xs[j]? = some x := by
  rw [List.getD_eq_getElem?_getD]
  cases xss[i]? <;> simp

theorem mem_iff_getD {xs : List α} : xs ∈ xss ↔ ∃ i < xss.length, xss.getD i [] = xs := by
  rw [List.mem_iff_getElem]
  constructor
  · rintro ⟨i, hi, rfl⟩
    exact ⟨i, hi, List.getD_eq_getElem _ _ hi⟩
  · rintro ⟨i, hi, rfl⟩
    exact ⟨i, hi, (List.getD_eq_getElem _ _ hi).symm⟩

/-- An entry that is listed once is found at one place. -/
theorem eq_of_mem_getD (h : xss.flatten.Nodup) (hi : x ∈ xss.getD i []) (hj : x ∈ xss.getD j []) :
    i = j := by
  have hpair := List.pairwise_iff_getElem.1 (List.nodup_flatten.1 h).2
  have hli := lt_length_of_mem_getD hi
  have hlj := lt_length_of_mem_getD hj
  rw [List.getD_eq_getElem _ _ hli] at hi
  rw [List.getD_eq_getElem _ _ hlj] at hj
  rcases Nat.lt_trichotomy i j with hlt | heq | hlt
  · exact absurd hj (hpair i j hli hlj hlt hi)
  · exact heq
  · exact absurd hi (hpair j i hlj hli hlt hj)

theorem getD_concat (xss : List (List α)) (xs : List α) (i : Nat) :
    (xss ++ [xs]).getD i [] = if i = xss.length then xs else xss.getD i [] := by
  rw [List.getD_eq_getElem?_getD, List.getElem?_append]
  split_ifs with hlt heq heq
  · omega
  · rw [List.getD_eq_getElem?_getD]
  · rw [heq, Nat.sub_self]
    rfl
  · rw [List.getElem?_eq_none (by simpa using by omega), List.getD_eq_default _ _ (by omega)]
    rfl

theorem getD_modify (hi : i < xss.length) (f : List α → List α) (j : Nat) :
    (xss.modify i f).getD j [] = if j = i then f (xss.getD i []) else xss.getD j [] := by
  rw [List.getD_eq_getElem?_getD, List.getElem?_modify]
  split_ifs with hij hji hji
  · subst hij
    simp [hi]
  · omega
  · omega
  · simp

theorem getD_set (hi : i < xss.length) (xs : List α) (j : Nat) :
    (xss.set i xs).getD j [] = if j = i then xs else xss.getD j [] := by
  rw [List.getD_eq_getElem?_getD, List.getElem?_set]
  split_ifs with hij hji hji
  · rfl
  · omega
  · omega
  · rw [List.getD_eq_getElem?_getD]

/-- Entries added to one of the lists. -/
theorem flatten_modify_perm (hi : i < xss.length) (more : List α) :
    (xss.modify i (· ++ more)).flatten.Perm (more ++ xss.flatten) := by
  induction xss generalizing i with
  | nil => simp at hi
  | cons xs xss ih =>
    cases i with
    | zero =>
      rw [List.modify_zero_cons, List.flatten_cons, List.flatten_cons, ← List.append_assoc]
      exact List.perm_append_comm.append_right xss.flatten
    | succ i =>
      rw [List.modify_succ_cons, List.flatten_cons, List.flatten_cons]
      refine ((ih (by simpa using hi)).append_left xs).trans ?_
      rw [← List.append_assoc, ← List.append_assoc]
      exact List.perm_append_comm.append_right xss.flatten

/-- One of the lists taken out. -/
theorem flatten_set_nil_perm (hi : i < xss.length) :
    xss.flatten.Perm (xss.getD i [] ++ (xss.set i []).flatten) := by
  induction xss generalizing i with
  | nil => simp at hi
  | cons xs xss ih =>
    cases i with
    | zero => exact .refl _
    | succ i =>
      rw [List.set_cons_succ, List.flatten_cons, List.flatten_cons, List.getD_cons_succ]
      refine ((ih (by simpa using hi)).append_left xs).trans ?_
      rw [← List.append_assoc, ← List.append_assoc]
      exact List.perm_append_comm.append_right _

end IonTrap.Nested
