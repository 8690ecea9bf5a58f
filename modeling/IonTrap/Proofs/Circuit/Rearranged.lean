import Mathlib
import IonTrap.Circuit.Instruction

/-!
# Rearranging a program

Two instructions that act on no common qubit may be exchanged when they stand next to each other.
What such exchanges make of a program is a *rearrangement* of it. The relation is stated for lists
of anything with a relation `meets`, since the order of instructions is followed through lists that
carry their positions along (`Rearranged.exists_map`).

* `Rearranged.perm` and `Rearranged.filter_eq`: nothing is lost, and entries that all meet each
  other keep their order.
* `Rearranged.exists_positions`: every entry can be told where it came from, and of two entries that
  meet the earlier one still comes first.
* `Rearranged.filter_eq_of_hangsOn`: entries keep their order as soon as chains of entries that meet
  lead from the earlier to the later ones.
-/

namespace IonTrap

/-- `ys` comes from `xs` by exchanging neighbours that do not meet. -/
inductive Rearranged {α : Type} (meets : α → α → Prop) : List α → List α → Prop
  | refl (xs : List α) : Rearranged meets xs xs
  | cons (x : α) {xs ys : List α} (h : Rearranged meets xs ys) :
      Rearranged meets (x :: xs) (x :: ys)
  | swap {x y : α} (xs : List α) (h : ¬ meets x y) : Rearranged meets (x :: y :: xs) (y :: x :: xs)
  | trans {xs ys zs : List α} (h : Rearranged meets xs ys) (h' : Rearranged meets ys zs) :
    Rearranged meets xs zs

/-- The entry at position `l` meets the one at the earlier position `k`. -/
def MeetsAt {α : Type} (meets : α → α → Prop) (xs : List α) (k l : Nat) : Prop :=
  k < l ∧ ∃ x y, xs[k]? = some x ∧ xs[l]? = some y ∧ meets x y

/-- Position `l` hangs on the earlier position `k`: a chain of positions leads from `k` to `l`, each
entry of which meets the one before. -/
def HangsOn {α : Type} (meets : α → α → Prop) (xs : List α) : Nat → Nat → Prop :=
  Relation.TransGen (MeetsAt meets xs)

namespace Rearranged

variable {α β : Type} {meets : α → α → Prop} {xs ys zs : List α}

theorem perm (h : Rearranged meets xs ys) : xs.Perm ys := by
  induction h with
  | refl xs => exact .refl xs
  | cons x _ ih => exact ih.cons x
  | swap xs _ => exact .swap _ _ xs
  | trans _ _ ih ih' => exact ih.trans ih'

theorem append_left (zs : List α) (h : Rearranged meets xs ys) :
    Rearranged meets (zs ++ xs) (zs ++ ys) := by
  induction zs with
  | nil => exact h
  | cons z zs ih => exact ih.cons z

/-- An entry moves back past entries that it does not meet. -/
theorem move_back {x : α} (zs : List α) (h : ∀ y ∈ ys, ¬ meets x y) :
    Rearranged meets (x :: (ys ++ zs)) (ys ++ x :: zs) := by
  induction ys with
  | nil => exact .refl _
  | cons y ys ih =>
    have hfirst : Rearranged meets (x :: y :: (ys ++ zs)) (y :: x :: (ys ++ zs)) :=
      .swap _ (h y List.mem_cons_self)
    have hrest : Rearranged meets (x :: (ys ++ zs)) (ys ++ x :: zs) :=
      ih fun z hz => h z (List.mem_cons_of_mem _ hz)
    exact hfirst.trans (hrest.cons y)

/-- Entries that all meet each other keep their order. -/
theorem filter_eq {p : α → Bool} (hp : ∀ x y, p x → p y → meets x y)
    (h : Rearranged meets xs ys) : ys.filter p = xs.filter p := by
  induction h with
  | refl xs => rfl
  | cons x _ ih => rw [List.filter_cons, List.filter_cons, ih]
  | @swap x y xs hfree =>
    by_cases hx : p x
    · have hy : ¬ p y := fun hy => hfree (hp x y hx hy)
      simp [hx, hy]
    · simp [List.filter_cons, hx]
  | trans _ _ ih ih' => exact ih'.trans ih

/-- A rearrangement of the images is the image of a rearrangement. -/
theorem exists_map {f : β → α} (h : Rearranged meets xs ys) {us : List β} (hu : us.map f = xs) :
    ∃ vs, vs.map f = ys ∧ Rearranged (fun a b => meets (f a) (f b)) us vs := by
  induction h generalizing us with
  | refl xs => exact ⟨us, hu, .refl us⟩
  | cons x _ ih =>
    obtain ⟨u, us', rfl, rfl, hu'⟩ := List.map_eq_cons_iff.1 hu
    obtain ⟨vs, hv, hr⟩ := ih hu'
    exact ⟨u :: vs, by rw [List.map_cons, hv], hr.cons u⟩
  | swap xs hfree =>
    obtain ⟨u, us', rfl, rfl, hu'⟩ := List.map_eq_cons_iff.1 hu
    obtain ⟨v, us'', rfl, rfl, rfl⟩ := List.map_eq_cons_iff.1 hu'
    exact ⟨v :: u :: us'', rfl, .swap us'' hfree⟩
  | trans _ _ ih ih' =>
    obtain ⟨vs, hv, hr⟩ := ih hu
    obtain ⟨ws, hw, hr'⟩ := ih' hv
    exact ⟨ws, hw, hr.trans hr'⟩

/-- A relation between earlier and later entries survives if it says nothing about entries that may
be exchanged. -/
theorem pairwise {r : α → α → Prop} (hr : ∀ x y, ¬ meets x y → r y x) (h : Rearranged meets xs ys)
    (hp : xs.Pairwise r) : ys.Pairwise r := by
  induction h with
  | refl xs => exact hp
  | cons x h ih =>
    rw [List.pairwise_cons] at hp ⊢
    exact ⟨fun y hy => hp.1 y (h.perm.mem_iff.2 hy), ih hp.2⟩
  | @swap x y xs hfree =>
    simp only [List.pairwise_cons, List.mem_cons, forall_eq_or_imp] at hp ⊢
    exact ⟨⟨hr x y hfree, hp.2.1⟩, hp.1.2, hp.2.2⟩
  | trans _ _ ih ih' => exact ih' (ih hp)

/-! ## Where the entries came from -/

/-- Positions grow along a list that is counted through. -/
theorem pairwise_zipIdx (xs : List α) : xs.zipIdx.Pairwise fun a b => a.2 < b.2 := by
  have hsnd : (xs.zipIdx.map Prod.snd).Pairwise (· < ·) := by
    rw [List.zipIdx_map_snd]
    exact List.pairwise_lt_range'
  exact List.pairwise_map.1 hsnd

/-- Every entry of a rearrangement can be told its old position, so that entries which meet stand in
the order of their positions. -/
theorem exists_positions (hsymm : ∀ x y, meets x y → meets y x) (h : Rearranged meets xs ys) :
    ∃ order : List (α × Nat), order.Perm xs.zipIdx ∧ order.map Prod.fst = ys ∧
      order.Pairwise fun a b => meets a.1 b.1 → a.2 < b.2 := by
  have hfst : xs.zipIdx.map Prod.fst = xs := by simp
  obtain ⟨order, hmap, hr⟩ := h.exists_map hfst
  refine ⟨order, hr.perm.symm, hmap, hr.pairwise ?_ ?_⟩
  · intro a b hab hba
    exact absurd (hsymm _ _ hba) hab
  · refine (pairwise_zipIdx xs).imp ?_
    intro a b hab _
    exact hab

/-- In a listing of counted entries the position of an entry tells the entry. -/
theorem getElem?_position {order : List (α × Nat)} (hperm : order.Perm xs.zipIdx) {i : Nat}
    (hi : i < order.length) : xs[(order[i]).2]? = some (order[i]).1 :=
  List.mem_zipIdx_iff_getElem?.1 (hperm.mem_iff.1 (List.getElem_mem hi))

/-- In such a listing a position comes after every position it hangs on. -/
theorem idxOf_lt_of_hangsOn {order : List (α × Nat)} (hperm : order.Perm xs.zipIdx)
    (hsymm : ∀ x y, meets x y → meets y x)
    (hord : order.Pairwise fun a b => meets a.1 b.1 → a.2 < b.2) {k l : Nat}
    (h : HangsOn meets xs k l) :
    (order.map Prod.snd).idxOf k < (order.map Prod.snd).idxOf l := by
  -- one link of the chain at a time
  have hone : ∀ {k l}, MeetsAt meets xs k l →
      (order.map Prod.snd).idxOf k < (order.map Prod.snd).idxOf l := by
    intro k l hkl
    obtain ⟨hlt, x, y, hx, hy, hm⟩ := hkl
    have hxmem : (x, k) ∈ order := hperm.mem_iff.2 (List.mem_zipIdx_iff_getElem?.2 hx)
    have hymem : (y, l) ∈ order := hperm.mem_iff.2 (List.mem_zipIdx_iff_getElem?.2 hy)
    have hk : k ∈ order.map Prod.snd := List.mem_map.2 ⟨_, hxmem, rfl⟩
    have hl : l ∈ order.map Prod.snd := List.mem_map.2 ⟨_, hymem, rfl⟩
    rcases Nat.lt_trichotomy ((order.map Prod.snd).idxOf k) ((order.map Prod.snd).idxOf l) with
      h | h | h
    · exact h
    · have : k = l := (List.idxOf_inj hk).1 h
      omega
    · -- the later position would come first although the two meet
      exfalso
      have hik := List.idxOf_lt_length_iff.2 hk
      have hil := List.idxOf_lt_length_iff.2 hl
      rw [List.length_map] at hik hil
      have hbefore := List.pairwise_iff_getElem.1 hord _ _ hil hik h
      have hsndk : (order[(order.map Prod.snd).idxOf k]).2 = k := by
        rw [← List.getElem_map Prod.snd (h := by simpa using hik)]
        exact List.getElem_idxOf _
      have hsndl : (order[(order.map Prod.snd).idxOf l]).2 = l := by
        rw [← List.getElem_map Prod.snd (h := by simpa using hil)]
        exact List.getElem_idxOf _
      have hfstk := getElem?_position hperm hik
      have hfstl := getElem?_position hperm hil
      rw [hsndk, hx] at hfstk
      rw [hsndl, hy] at hfstl
      rw [← Option.some.inj hfstk, ← Option.some.inj hfstl, hsndk, hsndl] at hbefore
      have := hbefore (hsymm _ _ hm)
      omega
  induction h with
  | single h => exact hone h
  | tail _ h ih => exact ih.trans (hone h)

/-- Entries keep their order if the later of any two hangs on the earlier. -/
theorem filter_eq_of_hangsOn (hsymm : ∀ x y, meets x y → meets y x) {p : α → Bool}
    (hp : ∀ k l x y, k < l → xs[k]? = some x → xs[l]? = some y → p x → p y → HangsOn meets xs k l)
    (h : Rearranged meets xs ys) : ys.filter p = xs.filter p := by
  obtain ⟨order, hperm, rfl, hord⟩ := h.exists_positions hsymm
  have hnodup : (order.map Prod.snd).Nodup := by
    refine (hperm.map Prod.snd).nodup_iff.2 ?_
    rw [List.zipIdx_map_snd]
    exact List.nodup_range'
  -- among the chosen entries the listing follows the old positions
  have hsorted : (order.filter fun a => p a.1).Pairwise fun a b => a.2 < b.2 := by
    rw [List.pairwise_filter, List.pairwise_iff_getElem]
    intro m n hm hn hmn ha hb
    have hidx : ∀ {i} (hi : i < order.length), (order.map Prod.snd).idxOf (order[i]).2 = i := by
      intro i hi
      have := hnodup.idxOf_getElem i (by rwa [List.length_map])
      rwa [List.getElem_map] at this
    rcases Nat.lt_trichotomy (order[m]).2 (order[n]).2 with h | h | h
    · exact h
    · have hmn' := hidx hm
      rw [h, hidx hn] at hmn'
      omega
    · have hlt := idxOf_lt_of_hangsOn hperm hsymm hord
        (hp _ _ _ _ h (getElem?_position hperm hn) (getElem?_position hperm hm) hb ha)
      rw [hidx hn, hidx hm] at hlt
      omega
  have heq : (order.filter fun a => p a.1) = xs.zipIdx.filter fun a => p a.1 := by
    refine List.Perm.eq_of_pairwise ?_ hsorted ((pairwise_zipIdx xs).filter _) (hperm.filter _)
    intro a b _ _ hab hba
    omega
  calc (order.map Prod.fst).filter p
      = (order.filter fun a => p a.1).map Prod.fst := List.filter_map
    _ = (xs.zipIdx.filter fun a => p a.1).map Prod.fst := by rw [heq]
    _ = (xs.zipIdx.map Prod.fst).filter p := List.filter_map.symm
    _ = xs.filter p := by rw [List.zipIdx_map_fst]

end Rearranged

/-! ## Instructions -/

namespace Instruction

/-- Two instructions meet if they act on a common qubit. -/
def Meets (i j : Instruction) : Prop := ∃ q ∈ i.qubits, q ∈ j.qubits

theorem Meets.symm {i j : Instruction} (h : i.Meets j) : j.Meets i := by
  obtain ⟨q, hi, hj⟩ := h
  exact ⟨q, hj, hi⟩

end Instruction

end IonTrap
