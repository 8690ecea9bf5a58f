import IonTrap.Proofs.Circuit.Rearranged
import IonTrap.Proofs.Outcome
import IonTrap.Compile

/-!
# What is emitted and what waits

Splitting the remaining instructions only moves those that wait back behind those that can run, and
none of the latter shares a qubit with one that waits before it.
-/

namespace IonTrap

/-- The instructions of a stream. -/
def emitted (ops : List RoutedOp) : List Instruction := ops.filterMap (·.gate?)

@[simp] theorem emitted_nil : emitted [] = [] := rfl

@[simp] theorem emitted_append (xs ys : List RoutedOp) :
    emitted (xs ++ ys) = emitted xs ++ emitted ys := List.filterMap_append

@[simp] theorem emitted_map_gate (is : List Instruction) : emitted (is.map .gate) = is := by
  rw [emitted, List.filterMap_map]
  exact List.filterMap_some

@[simp] theorem emitted_map_routing (ops : List RoutingOp) : emitted (ops.map .routing) = [] := by
  rw [emitted, List.filterMap_map, List.filterMap_eq_nil_iff]
  intro op _
  rfl

/-- At most two operands, unless the instruction is a barrier. -/
def Instruction.Routable (i : Instruction) : Prop := i.isBarrier ∨ i.qubits.length ≤ 2

theorem routable_of_checkOperands {is : List Instruction} (h : checkOperands is = .ok ()) :
    ∀ i ∈ is, i.Routable := by
  unfold checkOperands at h
  split at h
  · simp at h
  · next hnone =>
    intro i hi
    have hi := List.find?_eq_none.1 hnone i hi
    simp only [Bool.and_eq_true, Bool.not_eq_true', decide_eq_true_eq, not_and, not_lt] at hi
    cases hb : i.isBarrier with
    | true => exact .inl hb
    | false => exact .inr (hi hb)

theorem checkOperands_eq_ok {is : List Instruction} (h : ∀ i ∈ is, i.Routable) :
    checkOperands is = .ok () := by
  have hnone : is.find? (fun i => !i.isBarrier && 2 < i.qubits.length) = none := by
    rw [List.find?_eq_none]
    intro i hi
    rcases h i hi with hb | hl
    · simp [hb]
    · simp [hl]
  rw [checkOperands, hnone]

namespace Trap

variable {t : Trap} {s : List Nat} {i : Instruction} {is ready waiting : List Instruction}

theorem mem_addStragglers {s qs : List Nat} {q : Nat} :
    q ∈ addStragglers s qs ↔ q ∈ s ∨ q ∈ qs := by
  induction qs generalizing s with
  | nil => simp [addStragglers]
  | cons p qs ih =>
    have := ih (s := s.insert p)
    simp only [addStragglers, List.foldl_cons, List.mem_insert_iff, List.mem_cons] at this ⊢
    rw [this]
    tauto

/-- An instruction that may run touches no straggler. -/
theorem notMem_of_mustWait (hr : i.Routable) (h : t.mustWait s i = .ok false) :
    ∀ q ∈ i.qubits, q ∉ s := by
  unfold mustWait at h
  split at h
  · simpa using h
  · next hb =>
    have hlen : i.qubits.length ≤ 2 := hr.resolve_left hb
    split at h
    · next hq => simp [hq]
    · next q hq =>
      split at h
      · simp at h
      · next hs => simpa [hq] using hs
    · next a b rest hq =>
      obtain ⟨z, -, h⟩ := bind_eq_ok_iff.1 h
      split at h
      · simp [pure_eq_ok] at h
      · next hs =>
        have hrest : rest = [] := by
          rw [hq] at hlen
          simpa using hlen
        simp only [Bool.or_eq_true, List.contains_iff_mem, not_or] at hs
        simpa [hq, hrest] using hs

/-- What splitting does with the first instruction. -/
theorem split_cons (h : t.split s (i :: is) = .ok (ready, waiting)) :
    (t.mustWait s i = .ok true ∧ ((ready = [] ∧ waiting = i :: is) ∨
      ∃ w, waiting = i :: w ∧ t.split (addStragglers s i.qubits) is = .ok (ready, w))) ∨
    (t.mustWait s i = .ok false ∧ ∃ r, ready = i :: r ∧ t.split s is = .ok (r, waiting)) := by
  rw [split] at h
  obtain ⟨w, hw, h⟩ := bind_eq_ok_iff.1 h
  cases w with
  | true =>
    refine .inl ⟨hw, ?_⟩
    simp only [if_true] at h
    split at h
    · obtain ⟨rfl, rfl⟩ := Prod.mk.inj (Except.ok.inj h)
      exact .inl ⟨rfl, rfl⟩
    · obtain ⟨⟨r, w⟩, hsplit, h⟩ := bind_eq_ok_iff.1 h
      obtain ⟨rfl, rfl⟩ := Prod.mk.inj (Except.ok.inj h)
      exact .inr ⟨w, rfl, hsplit⟩
  | false =>
    refine .inr ⟨hw, ?_⟩
    simp only [Bool.false_eq_true, if_false] at h
    obtain ⟨⟨r, w⟩, hsplit, h⟩ := bind_eq_ok_iff.1 h
    obtain ⟨rfl, rfl⟩ := Prod.mk.inj (Except.ok.inj h)
    exact ⟨r, rfl, hsplit⟩

/-- No instruction that may run touches a straggler. -/
theorem notMem_of_split (hr : ∀ i ∈ is, i.Routable)
    (h : t.split s is = .ok (ready, waiting)) : ∀ i ∈ ready, ∀ q ∈ i.qubits, q ∉ s := by
  induction is generalizing s ready waiting with
  | nil =>
    obtain ⟨rfl, rfl⟩ := Prod.mk.inj (Except.ok.inj h)
    simp
  | cons i is ih =>
    have hr' : ∀ j ∈ is, j.Routable := fun j hj => hr j (List.mem_cons_of_mem _ hj)
    rcases split_cons h with ⟨-, ⟨rfl, -⟩ | ⟨w, -, hs⟩⟩ | ⟨hw, r, rfl, hs⟩
    · simp
    · intro j hj q hq hqs
      exact ih hr' hs j hj q hq (mem_addStragglers.2 (.inl hqs))
    · intro j hj
      rcases List.mem_cons.1 hj with rfl | hj
      · exact notMem_of_mustWait (hr j List.mem_cons_self) hw
      · exact ih hr' hs j hj

/-- Splitting moves waiting instructions back past instructions on other qubits. -/
theorem rearranged_split (hr : ∀ i ∈ is, i.Routable)
    (h : t.split s is = .ok (ready, waiting)) :
    Rearranged Instruction.Meets is (ready ++ waiting) := by
  induction is generalizing s ready waiting with
  | nil =>
    obtain ⟨rfl, rfl⟩ := Prod.mk.inj (Except.ok.inj h)
    exact .refl _
  | cons i is ih =>
    have hr' : ∀ j ∈ is, j.Routable := fun j hj => hr j (List.mem_cons_of_mem _ hj)
    rcases split_cons h with ⟨-, ⟨rfl, rfl⟩ | ⟨w, rfl, hs⟩⟩ | ⟨-, r, rfl, hs⟩
    · exact .refl _
    · -- the qubits of `i` are stragglers from here on
      have hfree : ∀ j ∈ ready, ¬ i.Meets j := by
        rintro j hj ⟨q, hi, hq⟩
        exact notMem_of_split hr' hs j hj q hq (mem_addStragglers.2 (.inr hi))
      exact ((ih hr' hs).cons i).trans (.move_back w hfree)
    · exact (ih hr' hs).cons i

end Trap

end IonTrap
