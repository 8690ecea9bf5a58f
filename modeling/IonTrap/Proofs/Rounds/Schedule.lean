import IonTrap.Proofs.Indexed
import IonTrap.Proofs.Rounds

/-!
# Which round a pair goes to

A pair goes to the round after the last one that uses one of its qubits, or joins that last round if
it stands there already. This never lets a pair overtake another one on the same qubit, and the
round of a pair can be said from the pairs before it alone (`Rounds.roundAt`): it depends on the
latest earlier pair on either qubit. `Rounds.ofPairs_isSchedule` puts this together.

The rounds can also be made in place, with a table of the last round of every qubit beside them
(`Planner`). The table is exact at any time, so that no round is looked for that does not exist
(`Planner.exec_plan`).
-/

namespace IonTrap

namespace Rounds

variable {rs rs' : Rounds} {p : Pair} {q d : Nat}

/-! ## The last round of a qubit -/

/-- Some pair of round `d` uses the qubit. -/
def UsedIn (rs : Rounds) (q d : Nat) : Prop := ∃ p ∈ rs.getD d [], p.uses q = true

theorem usedIn_cons_zero {r : List Pair} :
    UsedIn (r :: rs) q 0 ↔ r.any (·.uses q) = true := by
  simp [UsedIn]

theorem usedIn_cons_succ {r : List Pair} : UsedIn (r :: rs) q (d + 1) ↔ UsedIn rs q d := by
  simp [UsedIn]

theorem lt_lastUse (h : UsedIn rs q d) : d < lastUse q rs := by
  induction rs generalizing d with
  | nil => simp [UsedIn] at h
  | cons r rs ih =>
    cases d with
    | zero =>
      rw [usedIn_cons_zero] at h
      rw [lastUse, if_pos h]
      split <;> omega
    | succ d =>
      have hlt := ih (usedIn_cons_succ.1 h)
      rw [lastUse]
      split <;> omega

theorem usedIn_of_lastUse (h : lastUse q rs = d + 1) : UsedIn rs q d := by
  induction rs generalizing d with
  | nil => simp [lastUse] at h
  | cons r rs ih =>
    rw [lastUse] at h
    split at h
    · split_ifs at h with hr
      obtain rfl : d = 0 := by omega
      exact usedIn_cons_zero.2 hr
    · next k hk =>
      obtain rfl : d = k + 1 := by omega
      exact usedIn_cons_succ.2 (ih hk)

theorem lastUse_le_length (q : Nat) (rs : Rounds) : lastUse q rs ≤ rs.length := by
  cases hlast : lastUse q rs with
  | zero => exact Nat.zero_le _
  | succ d =>
    obtain ⟨p, hp, -⟩ := usedIn_of_lastUse hlast
    by_contra hlen
    rw [List.getD_eq_default _ _ (by omega)] at hp
    simp at hp

/-- The last round of a qubit is told by the rounds that use it. -/
theorem lastUse_le_of_usedIn (h : ∀ d, UsedIn rs q d → UsedIn rs' q d) :
    lastUse q rs ≤ lastUse q rs' := by
  cases hlast : lastUse q rs with
  | zero => exact Nat.zero_le _
  | succ d => exact lt_lastUse (h d (usedIn_of_lastUse hlast))

/-! ## One more pair -/

/-- The round that the next pair goes to. -/
def slot (rs : Rounds) (p : Pair) : Nat :=
  let d := max (lastUse p.1 rs) (lastUse p.2 rs)
  if 0 < d && (rs.getD (d - 1) []).contains p then d - 1 else d

/-- The last round that uses a qubit of the pair holds the pair itself. -/
def Joins (rs : Rounds) (p : Pair) : Prop :=
  0 < max (lastUse p.1 rs) (lastUse p.2 rs) ∧
    p ∈ rs.getD (max (lastUse p.1 rs) (lastUse p.2 rs) - 1) []

theorem slot_of_joins (h : rs.Joins p) : rs.slot p = max (lastUse p.1 rs) (lastUse p.2 rs) - 1 := by
  rw [slot, if_pos]
  rw [Bool.and_eq_true, decide_eq_true_eq, List.contains_iff_mem]
  exact h

theorem slot_of_not_joins (h : ¬ rs.Joins p) :
    rs.slot p = max (lastUse p.1 rs) (lastUse p.2 rs) := by
  rw [slot, if_neg]
  rw [Bool.and_eq_true, decide_eq_true_eq, List.contains_iff_mem]
  exact h

/-- A pair joins the last round that uses one of its qubits, or goes to the one after. -/
theorem slot_cases (rs : Rounds) (p : Pair) :
    (p ∈ rs.getD (rs.slot p) [] ∧ rs.slot p + 1 = max (lastUse p.1 rs) (lastUse p.2 rs)) ∨
      rs.slot p = max (lastUse p.1 rs) (lastUse p.2 rs) := by
  by_cases h : rs.Joins p
  · left
    obtain ⟨hpos, hmem⟩ := h
    rw [slot_of_joins ⟨hpos, hmem⟩]
    exact ⟨hmem, by omega⟩
  · exact .inr (slot_of_not_joins h)

theorem lastUse_le_max (rs : Rounds) (hq : p.uses q = true) :
    lastUse q rs ≤ max (lastUse p.1 rs) (lastUse p.2 rs) := by
  simp only [Pair.uses, Bool.or_eq_true, beq_iff_eq] at hq
  rcases hq with rfl | rfl
  · exact le_max_left _ _
  · exact le_max_right _ _

/-- No round after that of a pair uses its qubits. -/
theorem lastUse_le_slot (rs : Rounds) (hq : p.uses q = true) :
    lastUse q rs ≤ rs.slot p + 1 := by
  have hmax := lastUse_le_max rs hq
  rcases slot_cases rs p with ⟨-, h⟩ | h <;> omega

theorem slot_le_length (rs : Rounds) (p : Pair) : rs.slot p ≤ rs.length := by
  have h₁ := lastUse_le_length p.1 rs
  have h₂ := lastUse_le_length p.2 rs
  rcases slot_cases rs p with ⟨-, h⟩ | h <;> omega

/-- Scheduling a pair adds it at the end of one round, which may be a new one. -/
theorem insert_eq (rs : Rounds) (p : Pair) :
    rs.insert p = if rs.slot p < rs.length then rs.modify (rs.slot p) (· ++ [p])
      else rs ++ [[p]] := by
  unfold insert
  dsimp only
  by_cases hjoin : rs.Joins p
  · rw [slot_of_joins hjoin, if_pos (Nested.lt_length_of_mem_getD hjoin.2)]
    exact if_pos hjoin
  · rw [slot_of_not_joins hjoin]
    exact if_neg hjoin

theorem length_insert (rs : Rounds) (p : Pair) :
    (rs.insert p).length = max rs.length (rs.slot p + 1) := by
  have hle := slot_le_length rs p
  rw [insert_eq]
  split_ifs with hlt
  · rw [List.length_modify]
    omega
  · rw [List.length_append, List.length_singleton]
    omega

theorem getD_insert (rs : Rounds) (p : Pair) (d : Nat) :
    (rs.insert p).getD d [] = rs.getD d [] ++ if d = rs.slot p then [p] else [] := by
  have hle := slot_le_length rs p
  rw [insert_eq]
  split_ifs with hlt hd hd
  · subst hd
    simp [List.getD_eq_getElem?_getD, hlt]
  · simp [List.getD_eq_getElem?_getD, Ne.symm hd]
  · obtain rfl : d = rs.length := by omega
    simp [List.getD_eq_getElem?_getD]
  · have hne : d ≠ rs.length := by omega
    rw [List.append_nil, List.getD_eq_getElem?_getD, List.getD_eq_getElem?_getD,
      List.getElem?_append]
    split_ifs with hlt'
    · rfl
    · rw [List.getElem?_eq_none (by simpa using by omega), List.getElem?_eq_none (by omega)]

theorem mem_getD_insert {r : Pair} :
    r ∈ (rs.insert p).getD d [] ↔ r ∈ rs.getD d [] ∨ d = rs.slot p ∧ r = p := by
  rw [getD_insert, List.mem_append]
  split_ifs with hd <;> simp [hd]

/-- The round of the new pair is the last one of its qubits; for other qubits nothing changes. -/
theorem lastUse_insert (rs : Rounds) (p : Pair) (q : Nat) :
    lastUse q (rs.insert p) = if p.uses q then rs.slot p + 1 else lastUse q rs := by
  split_ifs with hq
  · have hnew : UsedIn (rs.insert p) q (rs.slot p) :=
      ⟨p, mem_getD_insert.2 (.inr ⟨rfl, rfl⟩), hq⟩
    have hlt := lt_lastUse hnew
    -- a later round that uses the qubit would have used it before
    by_contra hne
    obtain ⟨d, hd⟩ : ∃ d, lastUse q (rs.insert p) = d + 1 := ⟨_, (Nat.succ_pred (by omega)).symm⟩
    obtain ⟨r, hr, hrq⟩ := usedIn_of_lastUse hd
    rcases mem_getD_insert.1 hr with hr | ⟨hslot, -⟩
    · have hold := lt_lastUse ⟨r, hr, hrq⟩
      have hle := lastUse_le_slot rs hq
      omega
    · omega
  · have hiff : ∀ d, UsedIn (rs.insert p) q d ↔ UsedIn rs q d := by
      intro d
      constructor
      · rintro ⟨r, hr, hrq⟩
        rcases mem_getD_insert.1 hr with hr | ⟨-, rfl⟩
        · exact ⟨r, hr, hrq⟩
        · exact absurd hrq hq
      · rintro ⟨r, hr, hrq⟩
        exact ⟨r, mem_getD_insert.2 (.inl hr), hrq⟩
    exact le_antisymm (lastUse_le_of_usedIn fun d => (hiff d).1)
      (lastUse_le_of_usedIn fun d => (hiff d).2)

/-- Rounds as they should be: none is empty, and pairs of one round that meet are equal. -/
structure Tidy (rs : Rounds) : Prop where
  nonempty : ∀ d < rs.length, rs.getD d [] ≠ []
  apart : ∀ d, ∀ p ∈ rs.getD d [], ∀ r ∈ rs.getD d [], p.meets r = true → p = r

theorem tidy_nil : Tidy [] := ⟨by simp, by simp⟩

/-- A pair that is in its round already meets only its like there, and a new one meets nobody. -/
theorem Tidy.eq_of_mem_slot (h : rs.Tidy) {r : Pair} (hr : r ∈ rs.getD (rs.slot p) [])
    (hq : p.uses q = true) (hrq : r.uses q = true) : r = p := by
  rcases slot_cases rs p with ⟨hp, -⟩ | hslot
  · exact h.apart _ r hr p hp (Pair.meets_iff.2 ⟨q, hrq, hq⟩)
  · have hlt := lt_lastUse ⟨r, hr, hrq⟩
    have hle := lastUse_le_max rs hq
    omega

theorem Tidy.insert (h : rs.Tidy) (p : Pair) : Tidy (rs.insert p) := by
  refine ⟨fun d hd => ?_, fun d r hr s hs hmeets => ?_⟩
  · rw [getD_insert]
    split_ifs with hslot
    · simp
    · have hle := slot_le_length rs p
      rw [length_insert] at hd
      rw [List.append_nil]
      exact h.nonempty d (by omega)
  · obtain ⟨q, hrq, hsq⟩ := Pair.meets_iff.1 hmeets
    rcases mem_getD_insert.1 hr with hr | ⟨rfl, rfl⟩
    · rcases mem_getD_insert.1 hs with hs | ⟨rfl, rfl⟩
      · exact h.apart d r hr s hs hmeets
      · exact h.eq_of_mem_slot hr hsq hrq
    · rcases mem_getD_insert.1 hs with hs | ⟨-, rfl⟩
      · exact (h.eq_of_mem_slot hs hrq hsq).symm
      · rfl

/-! ## The rounds, told from the pairs before -/

/-- The latest position before `i` whose pair uses a qubit. -/
def latest (ps : List Pair) (q : Nat) : Nat → Option Nat
  | 0 => none
  | i + 1 => if ps[i]?.any (·.uses q) then some i else latest ps q i

variable {ps : List Pair} {i j : Nat}

theorem latest_eq_some (h : latest ps q i = some j) :
    j < i ∧ ∃ r, ps[j]? = some r ∧ r.uses q = true := by
  induction i with
  | zero => simp [latest] at h
  | succ i ih =>
    rw [latest] at h
    split_ifs at h with huses
    · obtain rfl := Option.some.inj h
      rw [Option.any_eq_true] at huses
      exact ⟨by omega, huses⟩
    · obtain ⟨hlt, hr⟩ := ih h
      exact ⟨by omega, hr⟩

/-- Nothing that uses the qubit stands between the latest position and `i`. -/
theorem le_latest {k : Nat} {r : Pair} (hk : k < i) (hr : ps[k]? = some r) (hq : r.uses q = true) :
    ∃ j, latest ps q i = some j ∧ k ≤ j := by
  induction i with
  | zero => omega
  | succ i ih =>
    rw [latest]
    split_ifs with huses
    · exact ⟨i, rfl, by omega⟩
    · have hne : k ≠ i := by
        rintro rfl
        simp [hr, hq] at huses
      exact ih (by omega)

/-- The round of the pair at position `i`. It is 0 if no earlier pair meets the pair, that of the
latest earlier pair on its qubits if that is the same pair, and otherwise one more than the larger
round of the latest earlier pairs on either qubit. -/
def roundAt (ps : List Pair) (i : Nat) : Nat :=
  match ps[i]? with
  | none => 0
  | some p =>
    match h₁ : latest ps p.1 i, h₂ : latest ps p.2 i with
    | none, none => 0
    | some j, none => roundAt ps j + 1
    | none, some k => roundAt ps k + 1
    | some j, some k =>
      if ps[j]? = some p ∧ ps[k]? = some p then roundAt ps j
      else max (roundAt ps j) (roundAt ps k) + 1
termination_by i
decreasing_by
  · exact (latest_eq_some h₁).1
  · exact (latest_eq_some h₂).1
  · exact (latest_eq_some h₁).1
  · exact (latest_eq_some h₁).1
  · exact (latest_eq_some h₂).1

/-- Number of rounds up to that of the latest pair on a qubit. -/
def lastRound (ps : List Pair) (q i : Nat) : Nat :=
  match latest ps q i with
  | none => 0
  | some j => roundAt ps j + 1

/-- Unless the latest pairs on both qubits are the pair itself, it goes behind them. -/
theorem roundAt_eq (hp : ps[i]? = some p)
    (hne : ∀ j k, latest ps p.1 i = some j → latest ps p.2 i = some k →
      ¬ (ps[j]? = some p ∧ ps[k]? = some p)) :
    roundAt ps i = max (lastRound ps p.1 i) (lastRound ps p.2 i) := by
  rw [roundAt, hp]
  dsimp only [lastRound]
  split
  · next h₁ h₂ => rw [h₁, h₂]; rfl
  · next j h₁ h₂ => rw [h₁, h₂]; simp
  · next k h₁ h₂ => rw [h₁, h₂]; simp
  · next j k h₁ h₂ =>
    rw [if_neg (hne j k h₁ h₂), h₁, h₂]
    dsimp only
    omega

theorem roundAt_repeated {k : Nat} (hp : ps[i]? = some p) (h₁ : latest ps p.1 i = some j)
    (h₂ : latest ps p.2 i = some k) (hj : ps[j]? = some p) (hk : ps[k]? = some p) :
    roundAt ps i = roundAt ps j := by
  rw [roundAt, hp]
  dsimp only
  split
  · next h _ => simp [h] at h₁
  · next h => simp [h] at h₂
  · next h _ => simp [h] at h₁
  · next h₁' h₂' =>
    obtain rfl := Option.some.inj (h₁.symm.trans h₁')
    obtain rfl := Option.some.inj (h₂.symm.trans h₂')
    rw [if_pos ⟨hj, hk⟩]

/-! ## The two agree -/

/-- The positions before `i` of the pairs that belong into round `d`. -/
def positions (ps : List Pair) (i d : Nat) : List Nat :=
  (List.range i).filter (roundAt ps · == d)

theorem mem_positions : j ∈ positions ps i d ↔ j < i ∧ roundAt ps j = d := by
  simp [positions]

/-- Rounds of the first `i` pairs: each pair is in its round, in program order, and the last round
of a qubit is that of the latest pair on it. -/
structure Agrees (ps : List Pair) (i : Nat) (rs : Rounds) : Prop where
  tidy : rs.Tidy
  pairs : ∀ d, rs.getD d [] = (positions ps i d).filterMap (ps[·]?)
  last : ∀ q, lastUse q rs = lastRound ps q i

theorem agrees_zero (ps : List Pair) : Agrees ps 0 [] :=
  ⟨tidy_nil, fun d => by simp [positions], fun q => rfl⟩

namespace Agrees

variable (h : Agrees ps i rs)
include h

theorem mem_iff {r : Pair} :
    r ∈ rs.getD d [] ↔ ∃ j < i, roundAt ps j = d ∧ ps[j]? = some r := by
  rw [h.pairs, List.mem_filterMap]
  simp only [mem_positions, and_assoc]

/-- The latest pair on a qubit stands in the last round of that qubit. -/
theorem mem_of_latest (hj : latest ps q i = some j) :
    ∃ r, ps[j]? = some r ∧ r.uses q = true ∧ r ∈ rs.getD (roundAt ps j) [] ∧
      lastUse q rs = roundAt ps j + 1 := by
  obtain ⟨hlt, r, hr, hrq⟩ := latest_eq_some hj
  exact ⟨r, hr, hrq, h.mem_iff.2 ⟨j, hlt, rfl, hr⟩, by rw [h.last, lastRound, hj]⟩

/-- A pair that stands in the last round of one of its qubits is the latest pair on it. -/
theorem latest_of_mem (hmem : p ∈ rs.getD d []) (hq : p.uses q = true)
    (hlast : lastUse q rs ≤ d + 1) :
    ∃ j, latest ps q i = some j ∧ ps[j]? = some p ∧ roundAt ps j = d := by
  obtain ⟨k, hk, -, hp⟩ := h.mem_iff.1 hmem
  obtain ⟨j, hj, -⟩ := le_latest hk hp hq
  obtain ⟨r, hr, hrq, hin, huse⟩ := h.mem_of_latest hj
  have hround : roundAt ps j = d := by
    have hlt := lt_lastUse ⟨p, hmem, hq⟩
    omega
  rw [hround] at hin
  obtain rfl := h.tidy.apart d r hin p hmem (Pair.meets_iff.2 ⟨q, hrq, hq⟩)
  exact ⟨j, hj, hr, hround⟩

/-- The next pair goes to its round. -/
theorem slot_eq (hp : ps[i]? = some p) : rs.slot p = roundAt ps i := by
  by_cases hjoin : p ∈ rs.getD (rs.slot p) []
  · -- it stands there already, so it is the latest pair on both of its qubits
    obtain ⟨j, hj, hpj, hround⟩ := h.latest_of_mem hjoin p.uses_fst (lastUse_le_slot rs p.uses_fst)
    obtain ⟨k, hk, hpk, -⟩ := h.latest_of_mem hjoin p.uses_snd (lastUse_le_slot rs p.uses_snd)
    rw [roundAt_repeated hp hj hk hpj hpk, hround]
  · have hslot := (slot_cases rs p).resolve_left fun hboth => hjoin hboth.1
    rw [hslot, h.last, h.last, ← roundAt_eq hp]
    rintro j k hj hk ⟨hpj, hpk⟩
    -- if it were the latest pair on both, these would be one position, and it would have joined
    have hjk : j = k := by
      obtain ⟨k', hk', hle⟩ := le_latest (latest_eq_some hj).1 hpj p.uses_snd
      obtain ⟨j', hj', hle'⟩ := le_latest (latest_eq_some hk).1 hpk p.uses_fst
      obtain rfl := Option.some.inj (hk.symm.trans hk')
      obtain rfl := Option.some.inj (hj.symm.trans hj')
      omega
    subst hjk
    obtain ⟨r, hr, -, hin, huse⟩ := h.mem_of_latest hj
    obtain ⟨-, -, -, -, huse'⟩ := h.mem_of_latest hk
    obtain rfl := Option.some.inj (hpj.symm.trans hr)
    refine hjoin ?_
    have hmax : max (lastUse p.1 rs) (lastUse p.2 rs) = roundAt ps j + 1 := by
      rw [huse, huse', max_self]
    have hjoins : rs.Joins p := by
      rw [Joins, hmax]
      exact ⟨Nat.succ_pos _, hin⟩
    rw [slot_of_joins hjoins]
    exact hjoins.2

theorem insert (hp : ps[i]? = some p) : Agrees ps (i + 1) (rs.insert p) := by
  have hslot := h.slot_eq hp
  refine ⟨h.tidy.insert p, fun d => ?_, fun q => ?_⟩
  · rw [getD_insert, h.pairs, positions, positions, List.range_succ, List.filter_append,
      List.filterMap_append, hslot]
    congr 1
    by_cases hd : roundAt ps i = d
    · simp [hd, hp]
    · simp [hd, Ne.symm hd]
  · rw [lastUse_insert, h.last, lastRound, lastRound, latest, hp, hslot, Option.any_some]
    split_ifs <;> rfl

/-- Pairs that meet keep their order: the later one goes to no earlier round. -/
theorem roundAt_le {r : Pair} (hp : ps[i]? = some p) (hj : j < i) (hr : ps[j]? = some r)
    (hmeets : r.meets p = true) : roundAt ps j ≤ roundAt ps i := by
  obtain ⟨q, hrq, hpq⟩ := Pair.meets_iff.1 hmeets
  have hlt := lt_lastUse ⟨r, h.mem_iff.2 ⟨j, hj, rfl, hr⟩, hrq⟩
  have hle := lastUse_le_slot rs hpq
  rw [h.slot_eq hp] at hle
  omega

end Agrees

theorem ofPairs_concat (ps : List Pair) (p : Pair) :
    ofPairs (ps ++ [p]) = (ofPairs ps).insert p := by
  rw [ofPairs, List.foldl_append]
  rfl

/-- The rounds of every prefix of the program agree with the rounds told from the pairs before. -/
theorem agrees_take (ps : List Pair) (hi : i ≤ ps.length) : Agrees ps i (ofPairs (ps.take i)) := by
  induction i with
  | zero => exact agrees_zero ps
  | succ i ih =>
    have hp : ps[i]? = some ps[i] := List.getElem?_eq_getElem (by omega)
    rw [List.take_add_one, hp, Option.toList_some, ofPairs_concat]
    exact (ih (by omega)).insert hp

theorem agrees_ofPairs (ps : List Pair) : Agrees ps ps.length (ofPairs ps) := by
  have h := agrees_take ps le_rfl
  rwa [List.take_length] at h

/-! ## In place -/

/-- Rounds under way, with the number of rounds up to the last one of every qubit. -/
structure Planner where
  last : List Nat
  rounds : Rounds

namespace Planner

open Indexed

/-- The last rounds. -/
def lasts : Table Planner Nat where
  read s := s.last
  write last s := { s with last }

/-- The rounds. -/
def rows : Table Planner (List Pair) where
  read s := s.rounds
  write rounds s := { s with rounds }

/-- Whether the round before round `d` lists a pair. -/
def listedBefore (d : Nat) (p : Pair) : Indexed Planner Empty Bool :=
  if 0 < d then do
    let round ← rows.get (d - 1)
    return round.contains p
  else return false

/-- Opens round `d` if it is the next one. -/
def openRound (d : Nat) : Indexed Planner Empty Unit :=
  modify fun s => if d = s.rounds.length then { s with rounds := s.rounds ++ [[]] } else s

/-- Puts a pair into round `d` and makes that the last round of its qubits. -/
def enterRound (d : Nat) (p : Pair) : Indexed Planner Empty Unit := do
  openRound d
  rows.modify d (· ++ [p])
  lasts.set p.1 (d + 1)
  lasts.set p.2 (d + 1)

/-- Schedules one more pair. A pair that joins an earlier round changes no last round. -/
def planPair (p : Pair) : Indexed Planner Empty Unit := do
  let x ← lasts.get p.1
  let y ← lasts.get p.2
  let listed ← listedBefore (max x y) p
  if listed then rows.modify (max x y - 1) (· ++ [p]) else enterRound (max x y) p

/-- Schedules pairs in order. -/
def plan : List Pair → Indexed Planner Empty Unit
  | [] => pure ()
  | p :: ps => do
    planPair p
    plan ps

/-- Rounds of pairs below `n`, with the table that belongs to them. -/
def of (n : Nat) (rs : Rounds) : Planner := ⟨(List.range n).map (lastUse · rs), rs⟩

variable {n : Nat}

theorem exec_get_lasts (hq : q < n) (rs : Rounds) :
    (lasts.get q : Indexed Planner Empty Nat).exec (of n rs)
      = some (.ok (lastUse q rs), of n rs) := by
  rw [lasts.exec_get (by simpa [lasts, of] using hq) 0]
  simp [lasts, of, hq]

theorem exec_listedBefore (hd : d ≤ rs.length) (n : Nat) (p : Pair) :
    (listedBefore d p).exec (of n rs)
      = some (.ok (decide (0 < d ∧ p ∈ rs.getD (d - 1) [])), of n rs) := by
  unfold listedBefore
  split_ifs with hpos
  · have hlt : d - 1 < rs.length := by omega
    rw [exec_bind (rows.exec_get (s := of n rs) (by simpa [rows, of] using hlt) []), exec_pure]
    simp [hpos, rows, of]
  · rw [exec_pure]
    simp [hpos]

/-- A pair that joins an earlier round changes no last round. -/
theorem map_lastUse_joined (n : Nat) (hmem : p ∈ rs.getD (rs.slot p) []) :
    (List.range n).map (lastUse · (rs.insert p)) = (List.range n).map (lastUse · rs) := by
  refine List.map_congr_left fun q _ => ?_
  rw [lastUse_insert]
  split_ifs with hq
  · have hlt := lt_lastUse ⟨p, hmem, hq⟩
    have hle := lastUse_le_slot rs hq
    omega
  · rfl

theorem map_lastUse_insert (n : Nat) (rs : Rounds) (p : Pair) :
    (List.range n).map (lastUse · (rs.insert p))
      = (((List.range n).map (lastUse · rs)).set p.1 (rs.slot p + 1)).set p.2 (rs.slot p + 1) := by
  refine List.ext_getElem (by simp) fun q hq hq' => ?_
  simp only [List.getElem_map, List.getElem_range, List.getElem_set, lastUse_insert, Pair.uses]
  by_cases h₁ : p.1 = q <;> by_cases h₂ : p.2 = q <;> simp [h₁, h₂]

/-- Opening the round first makes no difference. -/
theorem modify_opened (rs : Rounds) (p : Pair) :
    (if rs.slot p = rs.length then rs ++ [[]] else rs).modify (rs.slot p) (· ++ [p])
      = rs.insert p := by
  have hle := slot_le_length rs p
  rw [insert_eq]
  split_ifs with heq hlt hlt
  · omega
  · rw [heq, List.modify_eq_take_cons_drop (by simp)]
    simp
  · rfl
  · omega

theorem exec_enterRound (h₁ : p.1 < n) (h₂ : p.2 < n) (rs : Rounds) :
    (enterRound (rs.slot p) p).exec (of n rs) = some (.ok (), of n (rs.insert p)) := by
  have hle := slot_le_length rs p
  have hopen : (openRound (rs.slot p)).exec (of n rs)
      = some (.ok (), ⟨(of n rs).last, if rs.slot p = rs.length then rs ++ [[]] else rs⟩) := by
    show some (Except.ok (), if rs.slot p = rs.length then _ else _) = _
    split_ifs <;> rfl
  rw [enterRound, exec_bind hopen, exec_bind (rows.exec_modify ?_ _),
    exec_bind (lasts.exec_set ?_ _), lasts.exec_set ?_]
  · simp only [lasts, rows, of, modify_opened, map_lastUse_insert]
  · simpa [lasts, rows, of] using h₂
  · simpa [lasts, rows, of] using h₁
  · simp only [rows]
    split_ifs with heq
    · simp [heq]
    · omega

theorem exec_planPair (h₁ : p.1 < n) (h₂ : p.2 < n) (rs : Rounds) :
    (planPair p).exec (of n rs) = some (.ok (), of n (rs.insert p)) := by
  have hlen₁ := lastUse_le_length p.1 rs
  have hlen₂ := lastUse_le_length p.2 rs
  rw [planPair, exec_bind (exec_get_lasts h₁ rs), exec_bind (exec_get_lasts h₂ rs),
    exec_bind (exec_listedBefore (by omega) n p)]
  by_cases hjoin : rs.Joins p
  · have hslot := slot_of_joins hjoin
    have hmem := hjoin.2
    rw [← hslot] at hmem
    rw [decide_eq_true (p := _ ∧ _) hjoin, if_pos rfl, ← hslot]
    have hlt := Nested.lt_length_of_mem_getD hmem
    have hafter :
        of n (rs.insert p) = { of n rs with rounds := rs.modify (rs.slot p) (· ++ [p]) } := by
      rw [of, map_lastUse_joined n hmem, insert_eq, if_pos hlt]
      rfl
    rw [rows.exec_modify (by simpa [rows, of] using hlt), hafter]
    rfl
  · rw [decide_eq_false (p := _ ∧ _) hjoin, if_neg (by simp), ← slot_of_not_joins hjoin]
    exact exec_enterRound h₁ h₂ rs

/-- Made in place, the rounds are the same, and every index that is used exists. -/
theorem exec_plan {ps : List Pair} (hps : ∀ p ∈ ps, p.1 < n ∧ p.2 < n) (rs : Rounds) :
    (plan ps).exec (of n rs) = some (.ok (), of n (ps.foldl Rounds.insert rs)) := by
  induction ps generalizing rs with
  | nil => rfl
  | cons p ps ih =>
    rw [List.forall_mem_cons] at hps
    rw [plan, exec_bind (exec_planPair hps.1.1 hps.1.2 rs), ih hps.2]
    rfl

end Planner

/-! ## Schedules -/

/-- The positions of the pairs of a program, listed round by round. -/
structure IsSchedule (ps : List Pair) (rs : Rounds) (slots : List (List Nat)) : Prop where
  /-- The rounds hold the pairs at these positions. -/
  pairs : rs = slots.map fun slot => slot.filterMap (ps[·]?)
  /-- Every position is listed once. -/
  perm : slots.flatten.Perm (List.range ps.length)
  /-- Of two pairs that share a qubit the earlier one still comes first. -/
  ordered : slots.flatten.Pairwise fun i j => ∀ p r, ps[i]? = some p → ps[j]? = some r →
    p.meets r = true → i < j
  /-- No round is empty. -/
  nonempty : ∀ round ∈ rs, round ≠ []
  /-- Different pairs of one round share no qubit. -/
  apart : ∀ round ∈ rs, ∀ p ∈ round, ∀ r ∈ round, p ≠ r → p.meets r = false
  /-- Every pair is in the round that the pairs before it call for. -/
  round : ∀ d slot, slots[d]? = some slot → ∀ i ∈ slot, roundAt ps i = d

/-- Every position is listed in one round. -/
theorem Agrees.perm_positions (h : Agrees ps ps.length rs) :
    ((List.range rs.length).map (positions ps ps.length)).flatten.Perm (List.range ps.length) := by
  have hlt : ∀ i < ps.length, roundAt ps i < rs.length := fun i hi =>
    Nested.lt_length_of_mem_getD (h.mem_iff.2 ⟨i, hi, rfl, List.getElem?_eq_getElem hi⟩)
  have hnodup : ((List.range rs.length).map (positions ps ps.length)).flatten.Nodup := by
    rw [List.nodup_flatten, List.pairwise_map]
    refine ⟨?_, List.nodup_range.imp ?_⟩
    · intro slot hslot
      obtain ⟨d, -, rfl⟩ := List.mem_map.1 hslot
      exact List.nodup_range.filter _
    · intro d e hde i hd he
      exact hde ((mem_positions.1 hd).2.symm.trans (mem_positions.1 he).2)
  refine (List.perm_ext_iff_of_nodup hnodup List.nodup_range).2 fun i => ?_
  simp only [List.mem_flatten, List.mem_map, List.mem_range, exists_exists_and_eq_and,
    mem_positions]
  exact ⟨fun ⟨_, _, hi, _⟩ => hi, fun hi => ⟨_, hlt i hi, hi, rfl⟩⟩

/-- Listed round by round, positions of pairs that meet stay in order. -/
theorem pairwise_positions (ps : List Pair) (n : Nat) :
    ((List.range n).map (positions ps ps.length)).flatten.Pairwise fun i j => ∀ p r,
      ps[i]? = some p → ps[j]? = some r → p.meets r = true → i < j := by
  rw [List.pairwise_flatten, List.pairwise_map]
  refine ⟨?_, List.pairwise_lt_range.imp ?_⟩
  · intro slot hslot
    obtain ⟨d, -, rfl⟩ := List.mem_map.1 hslot
    exact (List.pairwise_lt_range.filter _).imp fun hlt _ _ _ _ _ => hlt
  · intro d e hde i hi j hj p r hp hr hmeets
    obtain ⟨hlt, rfl⟩ := mem_positions.1 hi
    obtain ⟨-, rfl⟩ := mem_positions.1 hj
    -- if the second came before the first in the program, its round would be no later
    rcases Nat.lt_trichotomy i j with hij | rfl | hji
    · exact hij
    · omega
    · have := (agrees_take ps hlt.le).roundAt_le hp hji hr (Pair.meets_comm.1 hmeets)
      omega

/-- Rounds that agree with a program are a schedule of it. -/
theorem Agrees.isSchedule (h : Agrees ps ps.length rs) :
    IsSchedule ps rs ((List.range rs.length).map (positions ps ps.length)) := by
  have hget : ∀ round ∈ rs, ∃ d < rs.length, rs.getD d [] = round := by
    intro round hround
    obtain ⟨d, hd, rfl⟩ := List.mem_iff_getElem.1 hround
    exact ⟨d, hd, List.getD_eq_getElem _ _ hd⟩
  refine ⟨?_, h.perm_positions, pairwise_positions ps rs.length, ?_, ?_, ?_⟩
  · refine List.ext_getElem (by simp) fun d hd hd' => ?_
    rw [← List.getD_eq_getElem _ [] hd, h.pairs]
    simp
  · intro round hround
    obtain ⟨d, hd, rfl⟩ := hget round hround
    exact h.tidy.nonempty d hd
  · intro round hround p hp r hr hne
    obtain ⟨d, hd, rfl⟩ := hget round hround
    rw [Bool.eq_false_iff]
    exact fun hmeets => hne (h.tidy.apart d p hp r hr hmeets)
  · intro d slot hslot i hi
    rw [List.getElem?_map] at hslot
    obtain ⟨e, he, rfl⟩ := Option.map_eq_some_iff.1 hslot
    obtain ⟨_, rfl⟩ := List.getElem?_eq_some_iff.1 he
    rw [List.getElem_range] at hi
    exact (mem_positions.1 hi).2

/-- Pairs of qubits below `n` are scheduled: the rounds are a rearrangement of the program that
keeps the order of any two pairs that share a qubit, no round is empty, different pairs of one round
share no qubit, and every pair is in the round told by the latest earlier pairs on its qubits. The
program that keeps the rounds and the last rounds in place makes the same rounds, and never uses an
index that does not exist. -/
theorem ofPairs_isSchedule {n : Nat} {ps : List Pair} (hps : ∀ p ∈ ps, p.1 < n ∧ p.2 < n) :
    ∃ rs slots, ofPairsBelow n ps = .ok rs ∧ rs.flatten.Perm ps ∧ IsSchedule ps rs slots ∧
      (Planner.plan ps).exec ⟨List.replicate n 0, []⟩ = some (.ok (), .of n rs) := by
  have hstart : (⟨List.replicate n 0, []⟩ : Planner) = .of n [] := by
    simp [Planner.of, lastUse]
  refine ⟨ofPairs ps, _, ofPairsBelow_eq_ok hps, perm_ofPairs ps,
    (agrees_ofPairs ps).isSchedule, ?_⟩
  rw [hstart, Planner.exec_plan hps []]
  rfl

/-- The third pair repeats the first one and joins it, and the last pair comes after all of them. -/
theorem ofPairs_isSchedule_repeated :
    (∀ p ∈ [(0, 1), (2, 3), (0, 1), (1, 2)], p.1 < 4 ∧ p.2 < 4) ∧
      ∃ slots, ofPairsBelow 4 [(0, 1), (2, 3), (0, 1), (1, 2)]
          = .ok [[(0, 1), (2, 3), (0, 1)], [(1, 2)]] ∧
        IsSchedule [(0, 1), (2, 3), (0, 1), (1, 2)] [[(0, 1), (2, 3), (0, 1)], [(1, 2)]] slots := by
  have hps : ∀ p ∈ [(0, 1), (2, 3), (0, 1), (1, 2)], p.1 < 4 ∧ p.2 < 4 := by decide
  obtain ⟨rs, slots, hrs, -, hschedule, -⟩ := ofPairs_isSchedule hps
  have hrun : ofPairsBelow 4 [(0, 1), (2, 3), (0, 1), (1, 2)]
      = .ok [[(0, 1), (2, 3), (0, 1)], [(1, 2)]] := by decide
  obtain rfl := Except.ok.inj (hrun.symm.trans hrs)
  exact ⟨hps, slots, hrun, hschedule⟩

end Rounds

end IonTrap
