import IonTrap.Proofs.Nested
import IonTrap.Rounds

/-!
# Rounds hold the pairs they were made of

Scheduling loses no pair and makes none up (`Rounds.perm_ofPairs`), and the first pair of the
program is the first pair of the first round (`Rounds.ofPairs_cons`).
-/

namespace IonTrap

namespace Pair

/-- Two pairs meet if they share a qubit. -/
theorem meets_iff {p r : Pair} :
    p.meets r = true ↔ ∃ q, p.uses q = true ∧ r.uses q = true := by
  simp only [meets, uses, Bool.or_eq_true, beq_iff_eq]
  constructor
  · rintro (h | h)
    · exact ⟨p.1, .inl rfl, h⟩
    · exact ⟨p.2, .inr rfl, h⟩
  · rintro ⟨q, rfl | rfl, h⟩
    · exact .inl h
    · exact .inr h

theorem meets_comm {p r : Pair} : p.meets r = true ↔ r.meets p = true := by
  simp only [meets_iff, and_comm]

theorem uses_fst (p : Pair) : p.uses p.1 = true := by simp [uses]

theorem uses_snd (p : Pair) : p.uses p.2 = true := by simp [uses]

/-- What holds of both qubits of a pair holds of all that it uses. -/
theorem forall_uses {p : Pair} {P : Nat → Prop} (h₁ : P p.1) (h₂ : P p.2) :
    ∀ q, p.uses q = true → P q := by
  intro q hq
  simp only [uses, Bool.or_eq_true, beq_iff_eq] at hq
  rcases hq with rfl | rfl
  · exact h₁
  · exact h₂

end Pair

namespace Rounds

theorem perm_insert (rs : Rounds) (p : Pair) : (rs.insert p).flatten.Perm (p :: rs.flatten) := by
  unfold insert
  dsimp only
  split
  · next h => exact Nested.flatten_modify_perm (Nested.lt_length_of_mem_getD h.2) [p]
  · split
    · next h => exact Nested.flatten_modify_perm h [p]
    · simp only [List.flatten_append, List.flatten_singleton]
      exact List.perm_append_singleton p rs.flatten

/-- The rounds hold the pairs, each as often as it is listed. -/
theorem perm_ofPairs (ps : List Pair) : (ofPairs ps).flatten.Perm ps := by
  have hfold : ∀ (ps : List Pair) (rs : Rounds),
      (ps.foldl insert rs).flatten.Perm (rs.flatten ++ ps) := by
    intro ps
    induction ps with
    | nil => simp
    | cons p ps ih =>
      intro rs
      refine (ih (rs.insert p)).trans ?_
      exact ((perm_insert rs p).append_right ps).trans List.perm_middle.symm
  exact hfold ps []

/-- Scheduling more pairs leaves the first one first. -/
theorem insert_cons (p q : Pair) (r : List Pair) (rs : Rounds) :
    ∃ r' rs', insert ((p :: r) :: rs) q = (p :: r') :: rs' := by
  have hmodify : ∀ i, ∃ r' rs', ((p :: r) :: rs).modify i (· ++ [q]) = (p :: r') :: rs' := by
    intro i
    cases i with
    | zero => exact ⟨r ++ [q], rs, rfl⟩
    | succ i => exact ⟨r, rs.modify i (· ++ [q]), rfl⟩
  unfold insert
  dsimp only
  split
  · exact hmodify _
  · split
    · exact hmodify _
    · exact ⟨r, rs ++ [[q]], rfl⟩

theorem ofPairs_cons (p : Pair) (ps : List Pair) :
    ∃ r rs, ofPairs (p :: ps) = (p :: r) :: rs := by
  have hfold : ∀ (ps : List Pair) (r : List Pair) (rs : Rounds),
      ∃ r' rs', ps.foldl insert ((p :: r) :: rs) = (p :: r') :: rs' := by
    intro ps
    induction ps with
    | nil => exact fun r rs => ⟨r, rs, rfl⟩
    | cons q ps ih =>
      intro r rs
      obtain ⟨r₁, rs₁, h₁⟩ := insert_cons p q r rs
      rw [List.foldl_cons, h₁]
      exact ih r₁ rs₁
  exact hfold ps [] []

theorem ofPairs_ne_nil {ps : List Pair} (h : ps ≠ []) : ofPairs ps ≠ [] := by
  obtain ⟨p, ps, rfl⟩ := List.exists_cons_of_ne_nil h
  obtain ⟨r, rs, h⟩ := ofPairs_cons p ps
  simp [h]

/-- Pruning never drops what was kept before. -/
theorem mem_foldl_keep {satisfied : Pair → Bool} {p : Pair} (ps kept : List Pair) (h : p ∈ kept) :
    p ∈ ps.foldl (keep satisfied) kept := by
  induction ps generalizing kept with
  | nil => exact h
  | cons q ps ih =>
    refine ih _ ?_
    unfold keep
    split
    · exact h
    · exact List.mem_append_left _ h

/-- A program whose first pair is unsatisfied is not pruned away. -/
theorem prune_ne_nil {satisfied : Pair → Bool} {p : Pair} {ps : List Pair}
    (h : satisfied p = false) : prune satisfied (ofPairs (p :: ps)) ≠ [] := by
  obtain ⟨r, rs, hrounds⟩ := ofPairs_cons p ps
  refine ofPairs_ne_nil (List.ne_nil_of_mem (a := p) ?_)
  rw [hrounds]
  exact mem_foldl_keep _ _ (by simp [h])

theorem ofPairsBelow_eq_ok {n : Nat} {ps : List Pair} (h : ∀ p ∈ ps, p.1 < n ∧ p.2 < n) :
    ofPairsBelow n ps = .ok (ofPairs ps) := by
  refine if_pos (List.all_eq_true.2 fun p hp => ?_)
  simpa [Pair.below] using h p hp

theorem ofPairsBelow_eq_ok_iff {n : Nat} {ps : List Pair} {rs : Rounds} :
    ofPairsBelow n ps = .ok rs ↔ rs = ofPairs ps ∧ ∀ p ∈ ps, p.1 < n ∧ p.2 < n := by
  constructor
  · intro h
    unfold ofPairsBelow at h
    split_ifs at h with hall
    refine ⟨(Except.ok.inj h).symm, fun p hp => ?_⟩
    simpa [Pair.below] using List.all_eq_true.1 hall p hp
  · rintro ⟨rfl, h⟩
    exact ofPairsBelow_eq_ok h

end Rounds

/-! ## Blocks -/

namespace Blocks

variable {n : Nat} {bs : Blocks}

/-- All qubits of the blocks are below `n`. -/
def Below (n : Nat) (bs : Blocks) : Prop := ∀ b ∈ bs, ∀ q ∈ b, q < n

theorem Below.getD (h : bs.Below n) (y : Nat) : ∀ q ∈ bs.getD y [], q < n := by
  by_cases hy : y < bs.length
  · rw [List.getD_eq_getElem _ _ hy]
    exact h _ (List.getElem_mem hy)
  · rw [List.getD_eq_default _ _ (by omega)]
    simp

theorem Below.modify (h : bs.Below n) (x : Nat) {more : List Nat} (hmore : ∀ q ∈ more, q < n) :
    Below n (bs.modify x (· ++ more)) := by
  intro b hb
  obtain ⟨i, hi⟩ := List.getElem?_of_mem hb
  rw [List.getElem?_modify] at hi
  obtain ⟨b', hb', hi⟩ := Option.map_eq_some_iff.1 hi
  have hold := h b' (List.mem_of_getElem? hb')
  split at hi
  · subst hi
    intro q hq
    rcases List.mem_append.1 hq with hq | hq
    · exact hold q hq
    · exact hmore q hq
  · subst hi
    exact hold

theorem Below.connect (h : bs.Below n) {p : Pair} (hp : p.1 < n ∧ p.2 < n) :
    (bs.connect p).Below n := by
  unfold Blocks.connect
  split
  · next x y _ _ =>
    split
    · exact h
    · intro b hb
      rcases List.mem_or_eq_of_mem_set hb with hb | rfl
      · exact h.modify x (h.getD y) b hb
      · simp
  · next x _ _ => exact h.modify x (by simpa using hp.2)
  · next y _ _ => exact h.modify y (by simpa using hp.1)
  · intro b hb
    rcases List.mem_append.1 hb with hb | hb
    · exact h b hb
    · obtain rfl := List.mem_singleton.1 hb
      simpa using hp

theorem Below.foldl_connect (h : bs.Below n) {r : List Pair} (hr : ∀ p ∈ r, p.1 < n ∧ p.2 < n) :
    Below n (r.foldl Blocks.connect bs) := by
  induction r generalizing bs with
  | nil => exact h
  | cons p r ih =>
    exact ih (h.connect (hr p List.mem_cons_self)) fun q hq => hr q (List.mem_cons_of_mem _ hq)

theorem Below.connectRound (h : bs.Below n) {r : List Pair} (hr : ∀ p ∈ r, p.1 < n ∧ p.2 < n) :
    (bs.connectRound r).Below n := fun b hb =>
  h.foldl_connect hr b (List.mem_of_mem_filter hb)

/-- Blocks of pairs below `n` hold qubits below `n`. -/
theorem Below.after (h : bs.Below n) {rs : Rounds} (hrs : ∀ p ∈ rs.flatten, p.1 < n ∧ p.2 < n) :
    ∀ bs' ∈ Blocks.after bs rs, bs'.Below n := by
  induction rs generalizing bs with
  | nil => simp [Blocks.after]
  | cons r rs ih =>
    rw [List.flatten_cons] at hrs
    have hround := h.connectRound fun p hp => hrs p (List.mem_append_left _ hp)
    intro bs' hbs'
    rw [Blocks.after] at hbs'
    rcases List.mem_cons.1 hbs' with rfl | hbs'
    · exact hround
    · exact ih hround (fun p hp => hrs p (List.mem_append_right _ hp)) bs' hbs'

end Blocks

/-! ## Pairs of instructions -/

theorem Instruction.pair?_eq_some_iff {i : Instruction} {p : Pair} :
    i.pair? = some p ↔ i.isTwoQubitGate = true ∧
      ∃ a b, i.qubits = [a, b] ∧ p = (min a b, max a b) := by
  unfold pair?
  split
  · next h =>
    have hlen : i.qubits.length = 2 := by
      simp only [isTwoQubitGate, Bool.and_eq_true, beq_iff_eq] at h
      exact h.2
    obtain ⟨a, b, hab⟩ := List.length_eq_two.1 hlen
    simp only [hab, h, true_and]
    constructor
    · intro hp
      exact ⟨a, b, rfl, (Option.some.inj hp).symm⟩
    · rintro ⟨a', b', hq, rfl⟩
      simp only [List.cons.injEq, and_true] at hq
      rw [hq.1, hq.2]
  · next h => simp [h]

theorem Instruction.exists_pair {i : Instruction} (h : i.isTwoQubitGate = true) :
    ∃ p, i.pair? = some p := by
  have hlen : i.qubits.length = 2 := by
    simp only [isTwoQubitGate, Bool.and_eq_true, beq_iff_eq] at h
    exact h.2
  obtain ⟨a, b, hab⟩ := List.length_eq_two.1 hlen
  exact ⟨_, pair?_eq_some_iff.2 ⟨h, a, b, hab, rfl⟩⟩

/-- The pairs of instructions with distinct operands below `n` are pairs of different qubits. -/
theorem gatePairs_spec {n : Nat} {is : List Instruction}
    (h : ∀ i ∈ is, i.qubits.Nodup ∧ ∀ q ∈ i.qubits, q < n) :
    ∀ p ∈ gatePairs is, p.1 < p.2 ∧ p.2 < n := by
  intro p hp
  obtain ⟨i, hi, hpair⟩ := List.mem_filterMap.1 hp
  obtain ⟨-, a, b, hab, rfl⟩ := Instruction.pair?_eq_some_iff.1 hpair
  obtain ⟨hnodup, hlt⟩ := h i hi
  rw [hab] at hnodup hlt
  have hne : a ≠ b := by simpa using hnodup
  have ha := hlt a (by simp)
  have hb := hlt b (by simp)
  omega

end IonTrap
