import Mathlib
import IonTrap.Error

/-!
# Checks that pass and choices that are made

Checks, moves and selections are steps of one error monad. The lemmas here take a sequence of steps
that ended well apart, one step at a time, so that later proofs never open the monad. The search for
the best of some candidates is a fold that takes or leaves each of them: it ends with a candidate
(`foldl_choice`), and with some candidate if one of them cannot be left (`exists_foldl_choice`).
Candidates that are ranked carry a tag while they are sorted (`pairwise_untag_mergeSort`).
-/

namespace IonTrap

variable {ε ε' α β : Type}

theorem ok_bind (x : α) (f : α → Except ε β) : (Except.ok x >>= f) = f x := rfl

theorem error_bind (e : ε) (f : α → Except ε β) : (Except.error e >>= f) = .error e := rfl

theorem pure_eq_ok (x : α) : (pure x : Except ε α) = .ok x := rfl

/-- Two steps end well if the first does and the second does with its result. -/
theorem bind_eq_ok_iff {x : Except ε α} {f : α → Except ε β} {b : β} :
    (x >>= f) = .ok b ↔ ∃ a, x = .ok a ∧ f a = .ok b := by
  cases x with
  | error e => simp [error_bind]
  | ok a => simp [ok_bind]

/-- A check and the step after it. -/
theorem check_bind_eq_ok_iff {x : Except ε Unit} {f : Unit → Except ε β} {b : β} :
    (x >>= f) = .ok b ↔ x = .ok () ∧ f () = .ok b := by
  cases x with
  | error e => simp [error_bind]
  | ok a => simp [ok_bind]

theorem map_eq_ok_iff {x : Except ε α} {f : α → β} {b : β} :
    x.map f = .ok b ↔ ∃ a, x = .ok a ∧ f a = b := by
  cases x <;> simp [Except.map]

theorem mapError_ok (g : ε → ε') (x : α) : (Except.ok x : Except ε α).mapError g = .ok x := rfl

theorem mapError_eq_ok_iff {x : Except ε α} {g : ε → ε'} {a : α} :
    x.mapError g = .ok a ↔ x = .ok a := by
  cases x <;> simp [Except.mapError]

theorem liftTrap_ok (x : α) : liftTrap (.ok x) = .ok x := rfl

theorem liftTrap_eq_ok_iff {x : Except TrapError α} {a : α} : liftTrap x = .ok a ↔ x = .ok a :=
  mapError_eq_ok_iff

/-! ## Errors that do not arise -/

/-- No error of the outcome is one of `P`. -/
def Avoids (P : ε → Prop) (x : Except ε α) : Prop := ∀ e, x = .error e → ¬ P e

section Avoids

variable {P : ε → Prop}

theorem avoids_ok (a : α) : Avoids P (.ok a) := by
  intro e h
  simp at h

theorem avoids_error {e : ε} (h : ¬ P e) : Avoids P (.error e : Except ε α) := by
  intro e' he
  obtain rfl := Except.error.inj he
  exact h

theorem avoids_ite {p : Prop} [Decidable p] {x y : Except ε α} (hx : p → Avoids P x)
    (hy : ¬ p → Avoids P y) : Avoids P (if p then x else y) := by
  split_ifs with h
  · exact hx h
  · exact hy h

theorem Avoids.bind {x : Except ε α} {f : α → Except ε β} (hx : Avoids P x)
    (hf : ∀ a, x = .ok a → Avoids P (f a)) : Avoids P (x >>= f) := by
  cases x with
  | ok a => exact hf a rfl
  | error e => exact avoids_error (hx e rfl)

theorem Avoids.mapError {Q : ε' → Prop} {x : Except ε α} (hx : Avoids P x) {g : ε → ε'}
    (hg : ∀ e, Q (g e) → P e) : Avoids Q (x.mapError g) := by
  cases x with
  | ok a => exact avoids_ok a
  | error e => exact avoids_error fun h => hx e rfl (hg e h)

end Avoids

/-! ## Choices -/

section Choice

variable {choose : Option β → α → Option β} {P : α → β → Prop}
  (hchoose : ∀ best x, choose best x = best ∨ ∃ y, choose best x = some y ∧ P x y)
include hchoose

/-- A choice that takes or leaves each candidate ends with one of them. -/
theorem foldl_choice (xs : List α) (best : Option β) :
    xs.foldl choose best = best ∨ ∃ x ∈ xs, ∃ y, xs.foldl choose best = some y ∧ P x y := by
  induction xs generalizing best with
  | nil => exact .inl rfl
  | cons x xs ih =>
    rw [List.foldl_cons]
    rcases ih (choose best x) with h | ⟨w, hw, y, h⟩
    · rw [h]
      rcases hchoose best x with hx | ⟨y, hx⟩
      · exact .inl hx
      · exact .inr ⟨x, List.mem_cons_self, y, hx⟩
    · exact .inr ⟨w, List.mem_cons_of_mem _ hw, y, h⟩

/-- A candidate that is never left for nothing makes the choice end with something. -/
theorem exists_foldl_choice {xs : List α} {x : α} (hx : x ∈ xs)
    (hfound : ∀ best, choose best x ≠ none) : ∃ y, xs.foldl choose none = some y := by
  have hkeep : ∀ (ys : List α) (best : Option β), best ≠ none → ys.foldl choose best ≠ none := by
    intro ys best hbest
    rcases foldl_choice hchoose ys best with h | ⟨_, -, y, h, -⟩
    · rwa [h]
    · simp [h]
  -- whatever was chosen before the candidate, something is chosen after it
  obtain ⟨before, after, rfl⟩ := List.append_of_mem hx
  rw [List.foldl_append, List.foldl_cons]
  exact Option.ne_none_iff_exists'.1 (hkeep after _ (hfound _))

end Choice

/-! ## Ranking -/

theorem perm_untag_mergeSort {tag : α → β} {untag : β → α} (huntag : ∀ x, untag (tag x) = x)
    {le : β → β → Bool} (xs : List α) : (((xs.map tag).mergeSort le).map untag).Perm xs := by
  refine ((List.mergeSort_perm _ _).map _).trans ?_
  rw [List.map_map]
  simp [Function.comp_def, huntag]

/-- Sorted by their tags, the candidates stand in the order of the tags. -/
theorem pairwise_untag_mergeSort (tag : α → β) (untag : β → α) (le : β → β → Bool)
    (huntag : ∀ x, untag (tag x) = x) (htrans : ∀ x y z, le x y → le y z → le x z)
    (htotal : ∀ x y, le x y || le y x) (xs : List α) :
    (((xs.map tag).mergeSort le).map untag).Pairwise fun x y => le (tag x) (tag y) := by
  rw [List.pairwise_map]
  refine (List.pairwise_mergeSort htrans htotal (xs.map tag)).imp_of_mem fun hx hy hle => ?_
  rw [List.mem_mergeSort, List.mem_map] at hx hy
  obtain ⟨x, -, rfl⟩ := hx
  obtain ⟨y, -, rfl⟩ := hy
  rwa [huntag, huntag]

end IonTrap
