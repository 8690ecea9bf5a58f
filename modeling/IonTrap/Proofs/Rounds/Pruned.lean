import IonTrap.Proofs.Rounds.Packed

/-!
# What pruning drops

Of the pairs of a schedule, in the order of its rounds, pruning drops those that are satisfied and
share no qubit with an earlier one that stays. The first round is pruned by the predicate alone.
That is the same, since only repetitions of one pair meet there, and these are satisfied together
(`Rounds.pending_eq_foldl`).

Pruning can also be done in place, with a mark on every qubit of a pair that stays (`Sieve`). The
marks are exact at any time, and no mark is looked for that does not exist (`Sieve.exec_siftAll`).
-/

namespace IonTrap

namespace Rounds

variable {satisfied : Pair → Bool} {ps : List Pair} {rs : Rounds} {kept : List Nat} {p : Pair}

/-- The positions of the pairs that stay. A pair is dropped if it is satisfied and shares no qubit
with an earlier pair that stays, and in no other case. -/
structure IsPruning (satisfied : Pair → Bool) (ps : List Pair) (kept : List Nat) : Prop where
  sorted : kept.Pairwise (· < ·)
  lt_length : ∀ i ∈ kept, i < ps.length
  dropped_iff : ∀ i p, ps[i]? = some p → (i ∉ kept ↔
    satisfied p = true ∧ ∀ j ∈ kept, j < i → ∀ r, ps[j]? = some r → p.meets r = false)

theorem isPruning_nil (satisfied : Pair → Bool) : IsPruning satisfied [] [] :=
  ⟨.nil, by simp, by simp⟩

/-! ## One more pair -/

/-- Earlier positions hold the same pairs when one more is listed. -/
theorem filterMap_concat (hlt : ∀ i ∈ kept, i < ps.length) (p : Pair) :
    kept.filterMap ((ps ++ [p])[·]?) = kept.filterMap (ps[·]?) :=
  List.filterMap_congr fun i hi => List.getElem?_append_left (hlt i hi)

theorem any_meets_eq_false_iff :
    (kept.filterMap (ps[·]?)).any p.meets = false ↔
      ∀ j ∈ kept, ∀ r, ps[j]? = some r → p.meets r = false := by
  simp only [List.any_eq_false, List.mem_filterMap, Bool.not_eq_true]
  exact ⟨fun h j hj r hr => h r ⟨j, hj, hr⟩, fun h r ⟨j, hj, hr⟩ => h j hj r hr⟩

namespace IsPruning

variable (h : IsPruning satisfied ps kept)
include h

/-- The pairs before the new one are dropped as before, whether or not it stays. -/
theorem dropped_iff_concat {i : Nat} {r : Pair} (more : List Nat) (hi : i < ps.length)
    (hmore : ∀ j ∈ more, j = ps.length) (hr : (ps ++ [p])[i]? = some r) :
    i ∉ kept ++ more ↔ satisfied r = true ∧
      ∀ j ∈ kept ++ more, j < i → ∀ s, (ps ++ [p])[j]? = some s → r.meets s = false := by
  rw [List.getElem?_append_left hi] at hr
  have hold : i ∉ kept ++ more ↔ i ∉ kept := by
    rw [List.mem_append, not_or]
    refine ⟨And.left, fun hkept => ⟨hkept, fun hi' => ?_⟩⟩
    have := hmore i hi'
    omega
  rw [hold, h.dropped_iff i r hr]
  refine and_congr_right fun _ => ⟨fun hclear j hj hji s hs => ?_, fun hclear j hj hji s hs => ?_⟩
  · rw [List.getElem?_append_left (by omega)] at hs
    rcases List.mem_append.1 hj with hj | hj
    · exact hclear j hj hji s hs
    · have := hmore j hj
      omega
  · apply hclear j (List.mem_append_left _ hj) hji s
    rwa [List.getElem?_append_left (by omega)]

/-- A satisfied pair that meets nothing is dropped. -/
theorem concat_drop (hp : satisfied p = true)
    (hclear : ∀ j ∈ kept, ∀ r, ps[j]? = some r → p.meets r = false) :
    IsPruning satisfied (ps ++ [p]) kept := by
  refine ⟨h.sorted, fun i hi => ?_, fun i r hr => ?_⟩
  · have := h.lt_length i hi
    rw [List.length_append]
    omega
  rcases Nat.lt_or_ge i ps.length with hi | hi
  · simpa using h.dropped_iff_concat [] hi (by simp) hr
  · have hlen := (List.getElem?_eq_some_iff.1 hr).1
    obtain rfl : i = ps.length := by simp at hlen; omega
    obtain rfl : p = r := by simpa using hr
    refine ⟨fun _ => ⟨hp, fun j hj hji s hs => ?_⟩, fun _ hmem => ?_⟩
    · rw [List.getElem?_append_left hji] at hs
      exact hclear j hj s hs
    · exact Nat.lt_irrefl _ (h.lt_length _ hmem)

/-- A pair that is not satisfied, or waits for one that stays, stays. -/
theorem concat_keep
    (hp : ¬ (satisfied p = true ∧ ∀ j ∈ kept, ∀ r, ps[j]? = some r → p.meets r = false)) :
    IsPruning satisfied (ps ++ [p]) (kept ++ [ps.length]) := by
  refine ⟨?_, fun i hi => ?_, fun i r hr => ?_⟩
  · rw [List.pairwise_append]
    exact ⟨h.sorted, List.pairwise_singleton _ _, by simpa using h.lt_length⟩
  · rw [List.length_append, List.length_singleton]
    rcases List.mem_append.1 hi with hi | hi
    · have := h.lt_length i hi
      omega
    · simp at hi
      omega
  rcases Nat.lt_or_ge i ps.length with hi | hi
  · exact h.dropped_iff_concat [ps.length] hi (by simp) hr
  · have hlen := (List.getElem?_eq_some_iff.1 hr).1
    obtain rfl : i = ps.length := by simp at hlen; omega
    obtain rfl : p = r := by simpa using hr
    refine ⟨fun hdropped => absurd (by simp) hdropped, fun hdrop => absurd hdrop fun hdrop => hp ?_⟩
    refine ⟨hdrop.1, fun j hj s hs => hdrop.2 j (List.mem_append_left _ hj) (h.lt_length j hj) s ?_⟩
    rwa [List.getElem?_append_left (h.lt_length j hj)]

end IsPruning

/-- Keeping pairs one by one leaves those at the positions that pruning is to leave. -/
theorem exists_isPruning (satisfied : Pair → Bool) (ps : List Pair) :
    ∃ kept, IsPruning satisfied ps kept ∧
      ps.foldl (keep satisfied) [] = kept.filterMap (ps[·]?) := by
  induction ps using List.reverseRecOn with
  | nil => exact ⟨[], isPruning_nil satisfied, rfl⟩
  | append_singleton ps p ih =>
    obtain ⟨kept, h, hfold⟩ := ih
    have hcond : (satisfied p && !(kept.filterMap (ps[·]?)).any p.meets) = true ↔
        satisfied p = true ∧ ∀ j ∈ kept, ∀ r, ps[j]? = some r → p.meets r = false := by
      rw [Bool.and_eq_true, Bool.not_eq_true', any_meets_eq_false_iff]
    rw [List.foldl_append, hfold, List.foldl_cons, List.foldl_nil, keep]
    split_ifs with hdrop
    · rw [hcond] at hdrop
      exact ⟨kept, h.concat_drop hdrop.1 hdrop.2, (filterMap_concat h.lt_length p).symm⟩
    · rw [hcond] at hdrop
      refine ⟨kept ++ [ps.length], h.concat_keep hdrop, ?_⟩
      rw [List.filterMap_append, filterMap_concat h.lt_length p]
      simp

/-! ## The first round -/

/-- In one round only repetitions of a pair meet it, so the predicate decides alone. -/
theorem foldl_keep_round (satisfied : Pair → Bool) {r : List Pair} (stay : List Pair)
    (hstay : ∀ s ∈ stay, satisfied s = false)
    (hapart : ∀ s ∈ stay ++ r, ∀ t ∈ stay ++ r, s.meets t = true → s = t) :
    r.foldl (keep satisfied) stay = stay ++ r.filter (!satisfied ·) := by
  induction r generalizing stay with
  | nil => simp
  | cons p r ih =>
    rw [List.foldl_cons, List.filter_cons, keep]
    cases hp : satisfied p with
    | true =>
      have hclear : stay.any p.meets = false := by
        rw [List.any_eq_false]
        intro s hs hmeets
        obtain rfl := hapart p (by simp) s (by simp [hs]) hmeets
        rw [hstay p hs] at hp
        exact Bool.false_ne_true hp
      rw [hclear]
      refine ih stay hstay fun s hs t ht => hapart s ?_ t ?_
      · simp only [List.mem_append, List.mem_cons] at hs ⊢
        tauto
      · simp only [List.mem_append, List.mem_cons] at ht ⊢
        tauto
    | false =>
      have hnext := ih (stay ++ [p]) (by simpa [hp, or_imp, forall_and] using hstay) (by
        simpa using hapart)
      simpa using hnext

/-- What is left is what keeping pairs one by one leaves, the first round included. -/
theorem pending_eq_foldl (h : rs.Tidy) (satisfied : Pair → Bool) :
    pending satisfied rs = rs.flatten.foldl (keep satisfied) [] := by
  cases rs with
  | nil => rfl
  | cons r rs =>
    have hround := foldl_keep_round satisfied (r := r) [] (by simp) (h.apart 0)
    rw [List.nil_append] at hround
    rw [List.flatten_cons, List.foldl_append, hround]
    rfl

/-! ## In place -/

/-- Pruning under way: a mark for every qubit of a pair that stays, and these pairs. -/
structure Sieve where
  marks : List Bool
  stay : List Pair

namespace Sieve

open Indexed

/-- The marks. -/
def marked : Table Sieve Bool where
  read s := s.marks
  write marks s := { s with marks }

/-- Whether a pair may go. In the first round no mark is looked at. -/
def loose (first : Bool) (p : Pair) : Indexed Sieve Empty Bool :=
  if first then return true
  else do
    let x ← marked.get p.1
    if x then return false
    else do
      let y ← marked.get p.2
      return !y

/-- Drops a pair, or lets it stay and marks its qubits. -/
def sift (satisfied : Pair → Bool) (first : Bool) (p : Pair) : Indexed Sieve Empty Unit := do
  let free ← loose first p
  if free && satisfied p then return ()
  else do
    marked.set p.1 true
    marked.set p.2 true
    modify fun s => { s with stay := s.stay ++ [p] }

/-- Goes through the pairs of a round. -/
def siftRound (satisfied : Pair → Bool) (first : Bool) : List Pair → Indexed Sieve Empty Unit
  | [] => pure ()
  | p :: ps => do
    sift satisfied first p
    siftRound satisfied first ps

/-- Goes through the rounds; `first` tells whether the next one is the first. -/
def siftAll (satisfied : Pair → Bool) : Bool → Rounds → Indexed Sieve Empty Unit
  | _, [] => pure ()
  | first, r :: rs => do
    siftRound satisfied first r
    siftAll satisfied false rs

/-- The marks that belong to pairs below `n`. -/
def of (n : Nat) (stay : List Pair) : Sieve :=
  ⟨(List.range n).map fun q => stay.any (·.uses q), stay⟩

variable {n : Nat} {stay : List Pair} {first : Bool}

theorem exec_get_marked {q : Nat} (hq : q < n) (stay : List Pair) :
    (marked.get q : Indexed Sieve Empty Bool).exec (of n stay)
      = some (.ok (stay.any (·.uses q)), of n stay) := by
  rw [marked.exec_get (by simpa [marked, of] using hq) false]
  simp [marked, of, hq]

theorem any_meets (stay : List Pair) (p : Pair) :
    stay.any p.meets = (stay.any (·.uses p.1) || stay.any (·.uses p.2)) := by
  induction stay with
  | nil => rfl
  | cons r stay ih =>
    rw [List.any_cons, List.any_cons, List.any_cons, ih, Pair.meets]
    cases r.uses p.1 <;> cases r.uses p.2 <;> simp

/-- The marks tell whether a pair meets one that stays. -/
theorem exec_loose (h₁ : p.1 < n) (h₂ : p.2 < n) (first : Bool) (stay : List Pair) :
    (loose first p).exec (of n stay) = some (.ok (first || !stay.any p.meets), of n stay) := by
  cases first with
  | true => exact exec_pure true _
  | false =>
    show Indexed.exec (marked.get p.1 >>= _) _ = _
    rw [exec_bind (exec_get_marked h₁ stay), any_meets]
    cases hx : stay.any (·.uses p.1) with
    | true => exact exec_pure false _
    | false =>
      show Indexed.exec (marked.get p.2 >>= _) _ = _
      rw [exec_bind (exec_get_marked h₂ stay), exec_pure]
      rfl

theorem marks_concat (n : Nat) (stay : List Pair) (p : Pair) :
    (of n (stay ++ [p])).marks = ((of n stay).marks.set p.1 true).set p.2 true := by
  refine List.ext_getElem (by simp [of]) fun q hq hq' => ?_
  simp only [of, List.getElem_map, List.getElem_range, List.getElem_set, List.any_append,
    List.any_cons, List.any_nil, Pair.uses]
  by_cases h₁ : p.1 = q <;> by_cases h₂ : p.2 = q <;> simp [h₁, h₂]

theorem exec_sift (h₁ : p.1 < n) (h₂ : p.2 < n) (satisfied : Pair → Bool) (first : Bool)
    (stay : List Pair) :
    (sift satisfied first p).exec (of n stay) = some (.ok (),
      of n (if (first || !stay.any p.meets) && satisfied p then stay else stay ++ [p])) := by
  rw [sift, exec_bind (exec_loose h₁ h₂ first stay)]
  split_ifs with hdrop
  · exact exec_pure () _
  · rw [exec_bind (marked.exec_set (by simpa [marked, of] using h₁) true),
      exec_bind (marked.exec_set (by simpa [marked, of] using h₂) true)]
    have hof : of n (stay ++ [p])
        = ⟨((of n stay).marks.set p.1 true).set p.2 true, stay ++ [p]⟩ := by
      rw [← marks_concat]
      rfl
    rw [hof]
    rfl

/-- In the first round the satisfied pairs go. -/
theorem exec_siftRound_first {r : List Pair} (hr : ∀ p ∈ r, p.1 < n ∧ p.2 < n)
    (satisfied : Pair → Bool) (stay : List Pair) :
    (siftRound satisfied true r).exec (of n stay)
      = some (.ok (), of n (stay ++ r.filter (!satisfied ·))) := by
  induction r generalizing stay with
  | nil =>
    rw [List.filter_nil, List.append_nil]
    exact exec_pure () _
  | cons p r ih =>
    rw [List.forall_mem_cons] at hr
    rw [siftRound, exec_bind (exec_sift hr.1.1 hr.1.2 satisfied true stay), ih hr.2]
    cases hp : satisfied p <;> simp [hp]

theorem exec_siftRound {r : List Pair} (hr : ∀ p ∈ r, p.1 < n ∧ p.2 < n)
    (satisfied : Pair → Bool) (stay : List Pair) :
    (siftRound satisfied false r).exec (of n stay)
      = some (.ok (), of n (r.foldl (keep satisfied) stay)) := by
  induction r generalizing stay with
  | nil => exact exec_pure () _
  | cons p r ih =>
    rw [List.forall_mem_cons] at hr
    rw [siftRound, exec_bind (exec_sift hr.1.1 hr.1.2 satisfied false stay), ih hr.2,
      List.foldl_cons, keep, Bool.false_or, Bool.and_comm]

theorem exec_siftAll_rest (hrs : ∀ p ∈ rs.flatten, p.1 < n ∧ p.2 < n) (satisfied : Pair → Bool)
    (stay : List Pair) :
    (siftAll satisfied false rs).exec (of n stay)
      = some (.ok (), of n (rs.flatten.foldl (keep satisfied) stay)) := by
  induction rs generalizing stay with
  | nil => exact exec_pure () _
  | cons r rs ih =>
    rw [List.flatten_cons, List.forall_mem_append] at hrs
    rw [siftAll, exec_bind (exec_siftRound hrs.1 satisfied stay), ih hrs.2, List.flatten_cons,
      List.foldl_append]

/-- Done in place, pruning leaves the same pairs, and every index that is used exists. -/
theorem exec_siftAll (hrs : ∀ p ∈ rs.flatten, p.1 < n ∧ p.2 < n) (satisfied : Pair → Bool) :
    (siftAll satisfied true rs).exec (of n []) = some (.ok (), of n (pending satisfied rs)) := by
  cases rs with
  | nil => exact exec_pure () _
  | cons r rs =>
    rw [List.flatten_cons, List.forall_mem_append] at hrs
    rw [siftAll, exec_bind (exec_siftRound_first hrs.1 satisfied []), exec_siftAll_rest hrs.2]
    rfl

end Sieve

/-! ## Pruned schedules -/

theorem pruneBelow_eq_ok {n : Nat} (hrs : ∀ p ∈ rs.flatten, p.1 < n ∧ p.2 < n)
    (satisfied : Pair → Bool) : pruneBelow n satisfied rs = .ok (prune satisfied rs) := by
  refine if_pos (List.all_eq_true.2 fun p hp => ?_)
  have hmem : p ∈ rs.flatten := by
    cases rs with
    | nil => simp at hp
    | cons r rs =>
      rw [List.flatten_cons, List.mem_append]
      rcases List.mem_append.1 hp with hp | hp
      · exact .inl (List.mem_of_mem_filter hp)
      · exact .inr hp
  simpa [Pair.below] using hrs p hmem

theorem ofPairs_eq_nil_iff : ofPairs ps = [] ↔ ps = [] := by
  constructor
  · intro h
    by_contra hne
    exact ofPairs_ne_nil hne h
  · rintro rfl
    rfl

/-- Nothing stays if all pairs are satisfied, and only then. -/
theorem IsPruning.eq_nil_iff (h : IsPruning satisfied ps kept) :
    kept = [] ↔ ∀ p ∈ ps, satisfied p = true := by
  constructor
  · rintro rfl p hp
    obtain ⟨i, hi⟩ := List.getElem?_of_mem hp
    exact ((h.dropped_iff i p hi).1 (by simp)).1
  · intro hall
    -- the first position that stays would have nothing to wait for
    cases kept with
    | nil => rfl
    | cons i kept =>
      have hi := h.lt_length i List.mem_cons_self
      have hstays := h.dropped_iff i ps[i] (List.getElem?_eq_getElem hi)
      refine absurd List.mem_cons_self (hstays.2 ⟨hall _ (List.getElem_mem hi), fun j hj hji => ?_⟩)
      rcases List.mem_cons.1 hj with rfl | hj
      · omega
      · have := List.rel_of_pairwise_cons h.sorted hj
        omega

theorem IsPruning.filterMap_eq_nil_iff (h : IsPruning satisfied ps kept) :
    kept.filterMap (ps[·]?) = [] ↔ ∀ p ∈ ps, satisfied p = true := by
  rw [← h.eq_nil_iff, List.filterMap_eq_nil_iff, List.eq_nil_iff_forall_not_mem]
  refine forall₂_congr fun i hi => ?_
  simp [h.lt_length i hi]

/-- If no pair is satisfied, all stay. -/
theorem foldl_keep_of_unsatisfied (hall : ∀ p ∈ ps, satisfied p = false) (stay : List Pair) :
    ps.foldl (keep satisfied) stay = stay ++ ps := by
  induction ps generalizing stay with
  | nil => simp
  | cons p ps ih =>
    rw [List.forall_mem_cons] at hall
    rw [List.foldl_cons, keep, hall.1, Bool.false_and, if_neg Bool.false_ne_true, ih hall.2,
      List.append_assoc, List.singleton_append]

/-- Let pairs of qubits below `n` be scheduled. Of the pairs of the schedule, round by round,
pruning drops those that are satisfied and share no qubit with an earlier one that stays, and gives
the schedule of those that stay. So nothing is left exactly if all pairs are satisfied, and the
schedule is left as it was if none is. The program that marks qubits in place leaves the same pairs,
and never uses an index that does not exist. -/
theorem pruneBelow_exact {n : Nat} {ps : List Pair} (hps : ∀ p ∈ ps, p.1 < n ∧ p.2 < n)
    (satisfied : Pair → Bool) :
    ∃ rs kept, ofPairsBelow n ps = .ok rs ∧ IsPruning satisfied rs.flatten kept ∧
      pruneBelow n satisfied rs = .ok (ofPairs (kept.filterMap (rs.flatten[·]?))) ∧
      (pruneBelow n satisfied rs = .ok [] ↔ ∀ p ∈ ps, satisfied p = true) ∧
      ((∀ p ∈ ps, satisfied p = false) → pruneBelow n satisfied rs = .ok rs) ∧
      (Sieve.siftAll satisfied true rs).exec ⟨List.replicate n false, []⟩
        = some (.ok (), .of n (kept.filterMap (rs.flatten[·]?))) := by
  have hpacked := packed_ofPairs ps
  have hmem : ∀ p, p ∈ (ofPairs ps).flatten ↔ p ∈ ps := fun p => (perm_ofPairs ps).mem_iff
  have hrs : ∀ p ∈ (ofPairs ps).flatten, p.1 < n ∧ p.2 < n := fun p hp => hps p ((hmem p).1 hp)
  obtain ⟨kept, hkept, hfold⟩ := exists_isPruning satisfied (ofPairs ps).flatten
  have hpending : pending satisfied (ofPairs ps) = kept.filterMap ((ofPairs ps).flatten[·]?) := by
    rw [pending_eq_foldl hpacked.toTidy, hfold]
  have hprune : pruneBelow n satisfied (ofPairs ps)
      = .ok (ofPairs (kept.filterMap ((ofPairs ps).flatten[·]?))) := by
    rw [pruneBelow_eq_ok hrs, prune, hpending]
  refine ⟨ofPairs ps, kept, ofPairsBelow_eq_ok hps, hkept, hprune, ?_, fun hall => ?_, ?_⟩
  · have hall : (∀ p ∈ (ofPairs ps).flatten, satisfied p = true) ↔ ∀ p ∈ ps, satisfied p = true :=
      forall_congr' fun p => imp_congr_left (hmem p)
    rw [hprune, Except.ok.injEq, ofPairs_eq_nil_iff, hkept.filterMap_eq_nil_iff, hall]
  · rw [hprune, ← hfold, foldl_keep_of_unsatisfied fun p hp => hall p ((hmem p).1 hp),
      List.nil_append, ofPairs_flatten hpacked]
  · have hstart : (⟨List.replicate n false, []⟩ : Sieve) = .of n [] := by
      simp [Sieve.of]
    rw [hstart, Sieve.exec_siftAll hrs, hpending]

/-- All pairs but one are satisfied. The second `(0, 1)` waits for that one and stays as well. -/
theorem pruneBelow_exact_waiting :
    (∀ p ∈ [(0, 1), (2, 3), (1, 2), (0, 1)], p.1 < 4 ∧ p.2 < 4) ∧
      ∃ kept, IsPruning (· != (1, 2)) [(0, 1), (2, 3), (1, 2), (0, 1)] kept ∧
        pruneBelow 4 (· != (1, 2)) [[(0, 1), (2, 3)], [(1, 2)], [(0, 1)]]
          = .ok [[(1, 2)], [(0, 1)]] ∧
        ofPairs (kept.filterMap ([(0, 1), (2, 3), (1, 2), (0, 1)][·]?)) = [[(1, 2)], [(0, 1)]] := by
  have hps : ∀ p ∈ [(0, 1), (2, 3), (1, 2), (0, 1)], p.1 < 4 ∧ p.2 < 4 := by decide
  have hrun : ofPairsBelow 4 [(0, 1), (2, 3), (1, 2), (0, 1)]
      = .ok [[(0, 1), (2, 3)], [(1, 2)], [(0, 1)]] := by decide
  have hprune : pruneBelow 4 (· != (1, 2)) [[(0, 1), (2, 3)], [(1, 2)], [(0, 1)]]
      = .ok [[(1, 2)], [(0, 1)]] := by decide
  obtain ⟨rs, kept, hrs, hkept, hpruned, -⟩ := pruneBelow_exact hps (· != (1, 2))
  obtain rfl := Except.ok.inj (hrun.symm.trans hrs)
  exact ⟨hps, kept, hkept, hprune, (Except.ok.inj (hprune.symm.trans hpruned)).symm⟩

end Rounds

end IonTrap
