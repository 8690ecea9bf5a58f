import IonTrap.Proofs.Rounds.Schedule

/-!
# Rounds cannot be packed closer

A pair stands in a later round only because it waits for another pair of the round before
(`Rounds.Packed`). Rounds are made that way (`Rounds.packed_ofPairs`), and rounds of this kind are
their own schedule: listed one after the other and scheduled again, they come out as they were
(`Rounds.ofPairs_flatten`).
-/

namespace IonTrap

namespace Rounds

variable {rs : Rounds} {p : Pair} {r : List Pair} {d q : Nat}

/-- Tidy rounds in which every pair of a later round meets another pair of the round before. -/
structure Packed (rs : Rounds) : Prop extends Tidy rs where
  waits : ∀ d, ∀ p ∈ rs.getD (d + 1) [], ∃ r ∈ rs.getD d [], r.meets p = true ∧ r ≠ p

theorem packed_nil : Packed [] := ⟨tidy_nil, by simp⟩

/-- A pair that waits for another one does not stand beside it. -/
theorem Packed.notMem_of_mem_succ (h : rs.Packed) (hp : p ∈ rs.getD (d + 1) []) :
    p ∉ rs.getD d [] := by
  intro hmem
  obtain ⟨r, hr, hmeets, hne⟩ := h.waits d p hp
  exact hne (h.apart d r hr p hmem hmeets)

/-- A pair that does not join a round waits for the last pair on one of its qubits. -/
theorem exists_before_slot (hjoin : ¬ rs.Joins p) (hslot : rs.slot p = d + 1) :
    ∃ r ∈ rs.getD d [], r.meets p = true ∧ r ≠ p := by
  rw [slot_of_not_joins hjoin] at hslot
  have hlast : lastUse p.1 rs = d + 1 ∨ lastUse p.2 rs = d + 1 := by omega
  obtain ⟨q, hq, huse⟩ : ∃ q, p.uses q = true ∧ UsedIn rs q d := by
    rcases hlast with hlast | hlast
    · exact ⟨p.1, p.uses_fst, usedIn_of_lastUse hlast⟩
    · exact ⟨p.2, p.uses_snd, usedIn_of_lastUse hlast⟩
  obtain ⟨r, hr, hrq⟩ := huse
  refine ⟨r, hr, Pair.meets_iff.2 ⟨q, hrq, hq⟩, ?_⟩
  rintro rfl
  apply hjoin
  rw [Joins, hslot]
  exact ⟨Nat.succ_pos d, hr⟩

theorem Packed.insert (h : rs.Packed) (p : Pair) : Packed (rs.insert p) := by
  refine ⟨h.toTidy.insert p, fun d s hs => ?_⟩
  have hbefore : ∃ r ∈ rs.getD d [], r.meets s = true ∧ r ≠ s := by
    rcases mem_getD_insert.1 hs with hs | ⟨hslot, rfl⟩
    · exact h.waits d s hs
    by_cases hjoin : rs.Joins s
    · -- the same pair stands there already, and waits
      apply h.waits d s
      rw [hslot, slot_of_joins hjoin]
      exact hjoin.2
    · exact exists_before_slot hjoin hslot.symm
  obtain ⟨r, hr, hmeets⟩ := hbefore
  exact ⟨r, mem_getD_insert.2 (.inl hr), hmeets⟩

/-- Scheduled pairs are packed. -/
theorem packed_ofPairs (ps : List Pair) : Packed (ofPairs ps) := by
  induction ps using List.reverseRecOn with
  | nil => exact packed_nil
  | append_singleton ps p ih =>
    rw [ofPairs_concat]
    exact ih.insert p

/-! ## The last pair of the last round -/

/-- The rounds with `r` as the last one, if it holds anything. -/
def close (rs : Rounds) (r : List Pair) : Rounds := if r.isEmpty then rs else rs ++ [r]

theorem close_nil (rs : Rounds) : rs.close [] = rs := rfl

theorem close_of_ne_nil (rs : Rounds) (h : r ≠ []) : rs.close r = rs ++ [r] := by
  rw [close, if_neg (by simpa using h)]

/-- An empty last round makes no difference to what the rounds hold. -/
theorem getD_close (rs : Rounds) (r : List Pair) (d : Nat) :
    (rs.close r).getD d [] = if d = rs.length then r else rs.getD d [] := by
  by_cases hr : r = []
  · subst hr
    rw [close_nil]
    split_ifs with hd
    · rw [hd, List.getD_eq_default _ _ le_rfl]
    · rfl
  · rw [close_of_ne_nil rs hr, Nested.getD_concat]

theorem length_close_le (rs : Rounds) (r : List Pair) : (rs.close r).length ≤ rs.length + 1 := by
  unfold close
  split_ifs
  · omega
  · simp

theorem flatten_close (rs : Rounds) (r : List Pair) : (rs.close r).flatten = rs.flatten ++ r := by
  by_cases hr : r = []
  · subst hr
    rw [close_nil, List.append_nil]
  · rw [close_of_ne_nil rs hr, List.flatten_append, List.flatten_singleton]

theorem mem_getD_concat_of_close {s : Pair} (hs : s ∈ (rs.close r).getD d []) :
    s ∈ (rs ++ [r ++ [p]]).getD d [] := by
  rw [getD_close] at hs
  rw [Nested.getD_concat]
  split_ifs at hs ⊢ with hd
  · exact List.mem_append_left _ hs
  · exact hs

/-- Without their last pair the rounds are still packed. -/
theorem Packed.close (h : (rs ++ [r ++ [p]]).Packed) : (rs.close r).Packed := by
  have hlen : ∀ d s, s ∈ (rs.close r).getD (d + 1) [] → d < rs.length := by
    intro d s hs
    have hlt := Nested.lt_length_of_mem_getD hs
    have hle := length_close_le rs r
    omega
  refine ⟨⟨fun d hd => ?_, fun d s hs t ht => ?_⟩, fun d s hs => ?_⟩
  · by_cases heq : d = rs.length
    · intro hempty
      rw [getD_close, if_pos heq] at hempty
      rw [hempty, close_nil] at hd
      omega
    · have hle := length_close_le rs r
      have hne := h.nonempty d (by simpa using by omega)
      rw [Nested.getD_concat, if_neg heq] at hne
      rwa [getD_close, if_neg heq]
  · exact h.apart d s (mem_getD_concat_of_close hs) t (mem_getD_concat_of_close ht)
  · -- the round before the one of a pair is not the last one, so it is complete
    have hd := hlen d s hs
    have hwaits := h.waits d s (mem_getD_concat_of_close hs)
    rw [Nested.getD_concat, if_neg (by omega)] at hwaits
    rwa [getD_close, if_neg (by omega)]

/-- A pair that stands in the last round already joins it. -/
theorem slot_close_of_mem (hp : p ∈ r) : (rs.close r).slot p = rs.length := by
  have hmem : p ∈ (rs.close r).getD rs.length [] := by rwa [getD_close, if_pos rfl]
  have hlt := lt_lastUse ⟨p, hmem, p.uses_fst⟩
  have h₁ := lastUse_le_length p.1 (rs.close r)
  have h₂ := lastUse_le_length p.2 (rs.close r)
  have hle := length_close_le rs r
  have hmax : max (lastUse p.1 (rs.close r)) (lastUse p.2 (rs.close r)) = rs.length + 1 := by
    omega
  have hjoin : (rs.close r).Joins p := by
    rw [Joins, hmax]
    exact ⟨Nat.succ_pos _, hmem⟩
  rw [slot_of_joins hjoin, hmax, Nat.add_sub_cancel]

section Last

variable (h : (rs ++ [r ++ [p]]).Packed) (hp : p ∉ r)
include h hp

/-- Nothing else in the last round meets its last pair. -/
theorem Packed.lastUse_close_le (hq : p.uses q = true) : lastUse q (rs.close r) ≤ rs.length := by
  by_contra hlt
  have hlen := lastUse_le_length q (rs.close r)
  have hle := length_close_le rs r
  have hlast : lastUse q (rs.close r) = rs.length + 1 := by omega
  obtain ⟨s, hs, hsq⟩ := usedIn_of_lastUse hlast
  have heq := h.apart rs.length s (mem_getD_concat_of_close hs) p (by simp)
    (Pair.meets_iff.2 ⟨q, hsq, hq⟩)
  rw [getD_close, if_pos rfl, heq] at hs
  exact hp hs

theorem Packed.max_lastUse_close :
    max (lastUse p.1 (rs.close r)) (lastUse p.2 (rs.close r)) = rs.length := by
  apply le_antisymm
  · exact max_le (h.lastUse_close_le hp p.uses_fst) (h.lastUse_close_le hp p.uses_snd)
  cases hlen : rs.length with
  | zero => exact Nat.zero_le _
  | succ d =>
    -- the pair waits for one of the round before
    obtain ⟨s, hs, hmeets, -⟩ := h.waits d p (by simp [← hlen])
    obtain ⟨q, hsq, hpq⟩ := Pair.meets_iff.1 hmeets
    rw [Nested.getD_concat, if_neg (by omega)] at hs
    have hlt : d < lastUse q (rs.close r) :=
      lt_lastUse ⟨s, by rwa [getD_close, if_neg (by omega)], hsq⟩
    have hmax := lastUse_le_max (rs.close r) hpq
    omega

theorem Packed.not_joins_close : ¬ (rs.close r).Joins p := by
  rintro ⟨hpos, hmem⟩
  rw [h.max_lastUse_close hp] at hpos hmem
  obtain ⟨d, hd⟩ : ∃ d, rs.length = d + 1 := ⟨rs.length - 1, by omega⟩
  rw [hd, Nat.add_sub_cancel] at hmem
  exact h.notMem_of_mem_succ (by simp [← hd]) (mem_getD_concat_of_close hmem)

end Last

/-- The last pair of packed rounds goes to the last round. -/
theorem Packed.slot_close (h : (rs ++ [r ++ [p]]).Packed) : (rs.close r).slot p = rs.length := by
  by_cases hp : p ∈ r
  · exact slot_close_of_mem hp
  · rw [slot_of_not_joins (h.not_joins_close hp), h.max_lastUse_close hp]

theorem Packed.insert_close (h : (rs ++ [r ++ [p]]).Packed) :
    (rs.close r).insert p = rs ++ [r ++ [p]] := by
  rw [insert_eq, h.slot_close]
  by_cases hr : r = []
  · subst hr
    rw [close_nil, if_neg (by omega)]
    rfl
  · rw [close_of_ne_nil rs hr, if_pos (by simp), List.modify_eq_take_cons_drop (by simp)]
    simp

/-- Packed rounds are their own schedule. -/
theorem ofPairs_flatten (h : rs.Packed) : ofPairs rs.flatten = rs := by
  induction rs using List.reverseRecOn with
  | nil => rfl
  | append_singleton rs r ih =>
    induction r using List.reverseRecOn with
    | nil =>
      have hne := h.nonempty rs.length (by simp)
      rw [Nested.getD_concat, if_pos rfl] at hne
      exact absurd rfl hne
    | append_singleton r p ihr =>
      have hclose : ofPairs (close rs r).flatten = close rs r := by
        by_cases hr : r = []
        · subst hr
          exact ih h.close
        · have hpacked := h.close
          rw [close_of_ne_nil rs hr] at hpacked ⊢
          exact ihr hpacked
      rw [List.flatten_append, List.flatten_singleton, ← List.append_assoc, ← flatten_close,
        ofPairs_concat, hclose, h.insert_close]

end Rounds

end IonTrap
