import IonTrap.Proofs.Nested
import IonTrap.Proofs.Rounds

/-!
# Blocks are connected components

Connecting the pairs of a program one by one keeps the blocks disjoint, keeps each of them
connected, and puts both qubits of every pair into one block (`Blocks.Spans`). Blocks with these
three properties are the connected components of the graph of the pairs
(`Blocks.Spans.isComponents`). What one pair does to the blocks is said once (`Blocks.Joins`), for
all ways in which its qubits may be known.
-/

namespace IonTrap

theorem Pair.uses_iff {p : Pair} {q : Nat} : p.uses q = true ↔ q = p.1 ∨ q = p.2 := by
  rw [Pair.uses, Bool.or_eq_true, beq_iff_eq, beq_iff_eq, eq_comm, @eq_comm _ p.2]

/-- The graph on qubits whose edges are the pairs. -/
def pairGraph (ps : List Pair) : SimpleGraph Nat := SimpleGraph.fromRel fun q r => (q, r) ∈ ps

theorem pairGraph_adj {ps : List Pair} {q r : Nat} :
    (pairGraph ps).Adj q r ↔ q ≠ r ∧ ((q, r) ∈ ps ∨ (r, q) ∈ ps) :=
  SimpleGraph.fromRel_adj _ q r

theorem pairGraph_mono {ps ps' : List Pair} (h : ps ⊆ ps') : pairGraph ps ≤ pairGraph ps' := by
  intro q r hadj
  rw [pairGraph_adj] at hadj ⊢
  exact ⟨hadj.1, hadj.2.imp (@h _) (@h _)⟩

/-- The qubits of a pair are connected. -/
theorem reachable_of_mem {ps : List Pair} {p : Pair} (hp : p ∈ ps) :
    (pairGraph ps).Reachable p.1 p.2 := by
  by_cases hne : p.1 = p.2
  · rw [hne]
  · exact (pairGraph_adj.2 ⟨hne, .inl hp⟩).reachable

theorem reachable_of_uses {ps : List Pair} {p : Pair} {q : Nat} (hp : p ∈ ps)
    (hq : p.uses q = true) : (pairGraph ps).Reachable q p.1 := by
  revert hq
  apply Pair.forall_uses
  · exact .refl _
  · exact (reachable_of_mem hp).symm

namespace Blocks

variable {bs bs' : Blocks} {p : Pair} {q x y i : Nat} {b : List Nat}

/-! ## The block of a qubit -/

/-- The block that lists a qubit. -/
def owner (bs : Blocks) (q : Nat) : Option Nat := bs.findIdx? (·.contains q)

theorem owner_eq_none_iff : bs.owner q = none ↔ q ∉ bs.flatten := by
  simp [owner, List.findIdx?_eq_none_iff]

theorem mem_getD_of_owner (h : bs.owner q = some i) : q ∈ bs.getD i [] := by
  obtain ⟨hi, hq, -⟩ := List.findIdx?_eq_some_iff_getElem.1 h
  rw [List.getD_eq_getElem _ _ hi]
  simpa using hq

theorem owner_eq_some_iff (h : bs.flatten.Nodup) : bs.owner q = some i ↔ q ∈ bs.getD i [] := by
  refine ⟨mem_getD_of_owner, fun hq => ?_⟩
  cases howner : bs.owner q with
  | none => exact absurd (Nested.mem_flatten_iff.2 ⟨i, hq⟩) (owner_eq_none_iff.1 howner)
  | some j => rw [Nested.eq_of_mem_getD h (mem_getD_of_owner howner) hq]

/-! ## One more pair -/

/-- The qubits that the pair connects: its own and those in a block with one of them. -/
def Near (bs : Blocks) (p : Pair) (q : Nat) : Prop :=
  p.uses q = true ∨ ∃ b ∈ bs, q ∈ b ∧ ∃ r ∈ b, p.uses r = true

/-- What connecting a pair does: no qubit is listed twice, the pair's qubits are listed and no other
new ones, old blocks stay together, the pair is in one block, and a block that is not an old one
holds only qubits that the pair connects. -/
structure Joins (bs : Blocks) (p : Pair) (bs' : Blocks) : Prop where
  nodup : bs'.flatten.Nodup
  mem_iff : ∀ q, q ∈ bs'.flatten ↔ q ∈ bs.flatten ∨ p.uses q = true
  grows : ∀ b ∈ bs, ∃ b' ∈ bs', b ⊆ b'
  pair : ∃ b' ∈ bs', p.1 ∈ b' ∧ p.2 ∈ b'
  near : ∀ b' ∈ bs', b' ∈ bs ∨ ∀ q ∈ b', bs.Near p q

theorem near_of_mem {r : Nat} (hr : r ∈ bs.getD x []) (hp : p.uses r = true)
    (hq : q ∈ bs.getD x []) : bs.Near p q :=
  .inr ⟨_, Nested.mem_iff_getD.2 ⟨x, Nested.lt_length_of_mem_getD hr, rfl⟩, hq, r, hr, hp⟩

theorem getD_merge (hx : x < bs.length) (hy : y < bs.length) (i : Nat) :
    ((bs.modify x (· ++ bs.getD y [])).set y []).getD i []
      = if i = y then [] else if i = x then bs.getD x [] ++ bs.getD y [] else bs.getD i [] := by
  rw [Nested.getD_set (by simpa), Nested.getD_modify hx]

/-- Moving a block into another one loses no qubit. -/
theorem flatten_merge_perm (hx : x < bs.length) (hy : y < bs.length) (hne : x ≠ y) :
    ((bs.modify x (· ++ bs.getD y [])).set y []).flatten.Perm bs.flatten := by
  have hmodify := Nested.flatten_modify_perm hx (bs.getD y [])
  have hy' : y < (bs.modify x (· ++ bs.getD y [])).length := by simpa
  have hmoved := Nested.flatten_set_nil_perm hy'
  rw [Nested.getD_modify hx, if_neg (Ne.symm hne)] at hmoved
  exact (List.perm_append_left_iff _).1 (hmoved.symm.trans hmodify)

section Cases

variable (h : bs.flatten.Nodup)
include h

/-- Both qubits are in one block already. -/
theorem joins_self (hx : p.1 ∈ bs.getD x []) (hy : p.2 ∈ bs.getD x []) : bs.Joins p bs where
  nodup := h
  mem_iff q := by
    refine ⟨.inl, ?_⟩
    rintro (hq | hq)
    · exact hq
    · exact Nested.mem_flatten_iff.2 ⟨x, Pair.forall_uses hx hy q hq⟩
  grows b hb := ⟨b, hb, List.Subset.refl b⟩
  pair := ⟨_, Nested.mem_iff_getD.2 ⟨x, Nested.lt_length_of_mem_getD hx, rfl⟩, hx, hy⟩
  near b hb := .inl hb

/-- The qubits are in two blocks, and the second moves into the first. -/
theorem joins_merge (hx : p.1 ∈ bs.getD x []) (hy : p.2 ∈ bs.getD y []) (hne : x ≠ y) :
    bs.Joins p ((bs.modify x (· ++ bs.getD y [])).set y []) := by
  have hlx := Nested.lt_length_of_mem_getD hx
  have hly := Nested.lt_length_of_mem_getD hy
  have hget := getD_merge hlx hly
  have hlen : ((bs.modify x (· ++ bs.getD y [])).set y []).length = bs.length := by simp
  have hperm := flatten_merge_perm hlx hly hne
  have hall : ∀ q, p.uses q = true → q ∈ bs.flatten := by
    apply Pair.forall_uses
    · exact Nested.mem_flatten_iff.2 ⟨x, hx⟩
    · exact Nested.mem_flatten_iff.2 ⟨y, hy⟩
  refine ⟨hperm.nodup_iff.2 h, fun q => ?_, fun b hb => ?_, ?_, fun b hb => ?_⟩
  · rw [hperm.mem_iff]
    exact ⟨.inl, fun hq => hq.elim id (hall q)⟩
  · obtain ⟨i, hi, rfl⟩ := Nested.mem_iff_getD.1 hb
    by_cases hiy : i = y
    · refine ⟨_, Nested.mem_iff_getD.2 ⟨x, by omega, rfl⟩, ?_⟩
      rw [hget, if_neg hne, if_pos rfl, hiy]
      exact List.subset_append_right _ _
    · refine ⟨_, Nested.mem_iff_getD.2 ⟨i, by omega, rfl⟩, ?_⟩
      rw [hget, if_neg hiy]
      split_ifs with hix
      · rw [hix]
        exact List.subset_append_left _ _
      · exact List.Subset.refl _
  · refine ⟨_, Nested.mem_iff_getD.2 ⟨x, by omega, rfl⟩, ?_⟩
    rw [hget, if_neg hne, if_pos rfl]
    exact ⟨List.mem_append_left _ hx, List.mem_append_right _ hy⟩
  · obtain ⟨i, hi, rfl⟩ := Nested.mem_iff_getD.1 hb
    rw [hget]
    split_ifs with hiy hix
    · exact .inr (by simp)
    · refine .inr fun q hq => ?_
      rcases List.mem_append.1 hq with hq | hq
      · exact near_of_mem hx p.uses_fst hq
      · exact near_of_mem hy p.uses_snd hq
    · exact .inl (Nested.mem_iff_getD.2 ⟨i, by omega, rfl⟩)

/-- One qubit is in a block, and the other one, `r`, comes new. -/
theorem joins_add {s r : Nat} (huses : ∀ q, p.uses q = true ↔ q = s ∨ q = r)
    (hs : s ∈ bs.getD x []) (hr : r ∉ bs.flatten) : bs.Joins p (bs.modify x (· ++ [r])) := by
  have hlx := Nested.lt_length_of_mem_getD hs
  have hperm := Nested.flatten_modify_perm hlx [r]
  have hget := Nested.getD_modify hlx (· ++ [r])
  have hlen : (bs.modify x (· ++ [r])).length = bs.length := by simp
  have hblock : ∀ q, p.uses q = true → q ∈ (bs.modify x (· ++ [r])).getD x [] := by
    intro q hq
    rw [hget, if_pos rfl]
    rcases (huses q).1 hq with rfl | rfl
    · exact List.mem_append_left _ hs
    · exact List.mem_append_right _ (List.mem_singleton.2 rfl)
  refine ⟨?_, fun q => ?_, fun b hb => ?_, ?_, fun b hb => ?_⟩
  · rw [hperm.nodup_iff]
    exact List.nodup_cons.2 ⟨hr, h⟩
  · have hsmem : s ∈ bs.flatten := Nested.mem_flatten_iff.2 ⟨x, hs⟩
    rw [hperm.mem_iff, List.singleton_append, List.mem_cons, huses]
    constructor
    · rintro (hq | hq)
      · exact .inr (.inr hq)
      · exact .inl hq
    · rintro (hq | rfl | hq)
      · exact .inr hq
      · exact .inr hsmem
      · exact .inl hq
  · obtain ⟨i, hi, rfl⟩ := Nested.mem_iff_getD.1 hb
    refine ⟨_, Nested.mem_iff_getD.2 ⟨i, by omega, rfl⟩, ?_⟩
    rw [hget]
    split_ifs with hix
    · rw [hix]
      exact List.subset_append_left _ _
    · exact List.Subset.refl _
  · exact ⟨_, Nested.mem_iff_getD.2 ⟨x, by omega, rfl⟩, hblock _ p.uses_fst, hblock _ p.uses_snd⟩
  · obtain ⟨i, hi, rfl⟩ := Nested.mem_iff_getD.1 hb
    rw [hget]
    split_ifs with hix
    · refine .inr fun q hq => ?_
      rcases List.mem_append.1 hq with hq | hq
      · exact near_of_mem hs ((huses s).2 (.inl rfl)) hq
      · exact .inl ((huses q).2 (.inr (List.mem_singleton.1 hq)))
    · exact .inl (Nested.mem_iff_getD.2 ⟨i, by omega, rfl⟩)

/-- Both qubits come new. -/
theorem joins_open (hne : p.1 ≠ p.2) (h₁ : p.1 ∉ bs.flatten) (h₂ : p.2 ∉ bs.flatten) :
    bs.Joins p (bs ++ [[p.1, p.2]]) := by
  have huses : ∀ q, p.uses q = true ↔ q ∈ [p.1, p.2] := by
    intro q
    simp [Pair.uses_iff]
  refine ⟨?_, fun q => ?_, fun b hb => ?_, ?_, fun b hb => ?_⟩
  · rw [List.flatten_append, List.flatten_singleton, List.nodup_append]
    refine ⟨h, by simpa using hne, fun q hq r hr hqr => ?_⟩
    subst hqr
    rcases Pair.uses_iff.1 ((huses q).2 hr) with rfl | rfl
    · exact h₁ hq
    · exact h₂ hq
  · rw [List.flatten_append, List.flatten_singleton, List.mem_append, huses]
  · exact ⟨b, List.mem_append_left _ hb, List.Subset.refl b⟩
  · exact ⟨[p.1, p.2], by simp, by simp, by simp⟩
  · rcases List.mem_append.1 hb with hb | hb
    · exact .inl hb
    · rw [List.mem_singleton.1 hb]
      exact .inr fun q hq => .inl ((huses q).2 hq)

theorem joins_connect (hne : p.1 ≠ p.2) : bs.Joins p (bs.connect p) := by
  unfold connect
  split
  · next x y hx hy =>
    have hx := mem_getD_of_owner hx
    have hy := mem_getD_of_owner hy
    split_ifs with hxy
    · exact joins_self h hx (hxy ▸ hy)
    · exact joins_merge h hx hy hxy
  · next x hx hy =>
    exact joins_add h (fun q => Pair.uses_iff) (mem_getD_of_owner hx) (owner_eq_none_iff.1 hy)
  · next y hx hy =>
    refine joins_add h (fun q => ?_) (mem_getD_of_owner hy) (owner_eq_none_iff.1 hx)
    rw [Pair.uses_iff, or_comm]
  · next hx hy => exact joins_open h hne (owner_eq_none_iff.1 hx) (owner_eq_none_iff.1 hy)

end Cases

/-! ## The pairs so far -/

/-- Blocks that go with some pairs: no qubit is listed twice, the qubits of the pairs are listed and
no others, every pair is in one block, and every block is connected. -/
structure Spans (ps : List Pair) (bs : Blocks) : Prop where
  nodup : bs.flatten.Nodup
  mem_iff : ∀ q, q ∈ bs.flatten ↔ ∃ p ∈ ps, p.uses q = true
  pair : ∀ p ∈ ps, ∃ b ∈ bs, p.1 ∈ b ∧ p.2 ∈ b
  linked : ∀ b ∈ bs, ∀ q ∈ b, ∀ r ∈ b, (pairGraph ps).Reachable q r

variable {ps : List Pair}

theorem spans_nil : Spans [] [] := ⟨.nil, by simp, by simp, by simp⟩

/-- What the new pair connects, it connects to its first qubit. -/
theorem Spans.reachable_of_near (h : bs.Spans ps) (hq : bs.Near p q) :
    (pairGraph (ps ++ [p])).Reachable q p.1 := by
  have hp : p ∈ ps ++ [p] := by simp
  rcases hq with hq | ⟨b, hb, hq, r, hr, huses⟩
  · exact reachable_of_uses hp hq
  · have hold := (h.linked b hb q hq r hr).mono (pairGraph_mono (List.subset_append_left ps [p]))
    exact hold.trans (reachable_of_uses hp huses)

theorem Spans.joins (h : bs.Spans ps) (hj : bs.Joins p bs') : bs'.Spans (ps ++ [p]) := by
  refine ⟨hj.nodup, fun q => ?_, fun r hr => ?_, fun b hb q hq r hr => ?_⟩
  · rw [hj.mem_iff, h.mem_iff]
    simp [or_and_right, exists_or]
  · rcases List.mem_append.1 hr with hr | hr
    · obtain ⟨b, hb, h₁, h₂⟩ := h.pair r hr
      obtain ⟨b', hb', hsub⟩ := hj.grows b hb
      exact ⟨b', hb', hsub h₁, hsub h₂⟩
    · rw [List.mem_singleton.1 hr]
      exact hj.pair
  · rcases hj.near b hb with hold | hnear
    · exact (h.linked b hold q hq r hr).mono (pairGraph_mono (List.subset_append_left ps [p]))
    · exact (h.reachable_of_near (hnear q hq)).trans (h.reachable_of_near (hnear r hr)).symm

theorem Spans.connect (h : bs.Spans ps) (hne : p.1 ≠ p.2) : (bs.connect p).Spans (ps ++ [p]) :=
  h.joins (joins_connect h.nodup hne)

/-- Empty blocks do not matter. -/
theorem Spans.filter (h : bs.Spans ps) : Spans ps (bs.filter (!·.isEmpty)) := by
  have hmem : ∀ b, b ∈ bs.filter (!·.isEmpty) ↔ b ∈ bs ∧ b ≠ [] := by simp
  have hflat : (bs.filter (!·.isEmpty)).flatten = bs.flatten := List.flatten_filter_not_isEmpty
  refine ⟨by rw [hflat]; exact h.nodup, by rw [hflat]; exact h.mem_iff, fun p hp => ?_, ?_⟩
  · obtain ⟨b, hb, h₁, h₂⟩ := h.pair p hp
    exact ⟨b, (hmem b).2 ⟨hb, List.ne_nil_of_mem h₁⟩, h₁, h₂⟩
  · exact fun b hb => h.linked b ((hmem b).1 hb).1

theorem Spans.foldl_connect {r : List Pair} (h : bs.Spans ps) (hr : ∀ p ∈ r, p.1 ≠ p.2) :
    Spans (ps ++ r) (r.foldl Blocks.connect bs) := by
  induction r generalizing ps bs with
  | nil => simpa using h
  | cons p r ih =>
    rw [List.forall_mem_cons] at hr
    have hrest := ih (h.connect hr.1) hr.2
    rwa [List.append_assoc] at hrest

theorem Spans.connectRound {r : List Pair} (h : bs.Spans ps) (hr : ∀ p ∈ r, p.1 ≠ p.2) :
    (bs.connectRound r).Spans (ps ++ r) := (h.foldl_connect hr).filter

/-! ## Components -/

/-- The blocks are the connected components of the graph of the pairs: none is empty, every qubit of
the pairs is listed once and no other, and the block of a qubit holds what it is connected to. -/
structure IsComponents (ps : List Pair) (bs : Blocks) : Prop where
  nonempty : ∀ b ∈ bs, b ≠ []
  nodup : bs.flatten.Nodup
  mem_iff : ∀ q, q ∈ bs.flatten ↔ ∃ p ∈ ps, p.uses q = true
  component : ∀ b ∈ bs, ∀ q ∈ b, ∀ r, r ∈ b ↔ (pairGraph ps).Reachable q r

/-- No edge leads out of a block. -/
theorem Spans.mem_of_adj (h : bs.Spans ps) {r : Nat} (hb : b ∈ bs) (hq : q ∈ b)
    (hadj : (pairGraph ps).Adj q r) : r ∈ b := by
  obtain ⟨b', hb', hq', hr'⟩ : ∃ b' ∈ bs, q ∈ b' ∧ r ∈ b' := by
    rcases (pairGraph_adj.1 hadj).2 with hp | hp
    · exact h.pair _ hp
    · obtain ⟨b', hb', hr', hq'⟩ := h.pair _ hp
      exact ⟨b', hb', hq', hr'⟩
  obtain ⟨i, -, rfl⟩ := Nested.mem_iff_getD.1 hb
  obtain ⟨j, -, rfl⟩ := Nested.mem_iff_getD.1 hb'
  rwa [Nested.eq_of_mem_getD h.nodup hq hq']

theorem Spans.isComponents (h : bs.Spans ps) (hnonempty : ∀ b ∈ bs, b ≠ []) :
    bs.IsComponents ps := by
  refine ⟨hnonempty, h.nodup, h.mem_iff, fun b hb q hq r => ⟨h.linked b hb q hq r, fun hr => ?_⟩⟩
  rw [SimpleGraph.reachable_iff_reflTransGen] at hr
  induction hr with
  | refl => exact hq
  | tail _ hadj ih => exact h.mem_of_adj hb ih hadj

/-- After every round the blocks are the components of the pairs so far. -/
theorem Spans.isComponents_after {rs : Rounds} (h : bs.Spans ps)
    (hrs : ∀ p ∈ rs.flatten, p.1 ≠ p.2) {d : Nat} (hd : (after bs rs)[d]? = some bs') :
    bs'.IsComponents (ps ++ (rs.take (d + 1)).flatten) := by
  induction rs generalizing ps bs d with
  | nil => simp [after] at hd
  | cons r rs ih =>
    rw [List.flatten_cons, List.forall_mem_append] at hrs
    have hround := h.connectRound hrs.1
    rw [after] at hd
    cases d with
    | zero =>
      obtain rfl : bs.connectRound r = bs' := by simpa using hd
      have hnonempty : ∀ b ∈ bs.connectRound r, b ≠ [] := by simp [Blocks.connectRound]
      simpa using hround.isComponents hnonempty
    | succ d =>
      have hrest := ih hround hrs.2 (by simpa using hd)
      rwa [List.append_assoc, ← List.flatten_cons, ← List.take_succ_cons] at hrest

theorem length_after (bs : Blocks) (rs : Rounds) : (after bs rs).length = rs.length := by
  induction rs generalizing bs with
  | nil => rfl
  | cons r rs ih => rw [after, List.length_cons, List.length_cons, ih]

end Blocks

end IonTrap
