import IonTrap.Proofs.Routing.Carry
import IonTrap.Proofs.Trap.ChainOrder
import IonTrap.Routing.Router

/-!
# Journeys to a target placement

The router is left with groups of qubits that must change zone. `Trap.Pending` ties the groups to
the live trap and the target: they name where their qubits are and belong, and no misplaced qubit is
missing. Every batch the router picks from such groups can be carried out, and afterwards the groups
are again the ones of the new trap (`Journey.Underway.exists_moves`). What a step does is said once
(`Journey.Underway.step_cases`), and what every step keeps holds when the run stops
(`Journey.exists_of_run`). So a finished journey has every qubit in its target zone, and what it
logged replays to the trap it left (`Trap.routeTo_spec`).
-/

namespace IonTrap

/-! ## Batches -/

/-- The qubits of a batch are a whole cohort of their zone, the move was priced for them, and their
way and target have room. -/
structure Batch.Movable (b : Batch) (m : CostModel) (t : Trap) (soft : Bool) : Prop where
  cohort : t.cohort b.source b.qubits = b.qubits
  priced : ∃ port, m.fromPort t b.qubits b.source b.target port = some b.move
  move : b.move.Passable t b.source b.target b.qubits.length
  spots : b.qubits.length ≤ t.spotsFor b.target soft

theorem largest?_eq_none_iff {α : Type} {f : Nat → Option α} {n : Nat} :
    largest? f n = none ↔ ∀ k, 0 < k → k ≤ n → f k = none := by
  induction n with
  | zero =>
    refine ⟨fun _ k hk hkn => ?_, fun _ => rfl⟩
    omega
  | succ n ih =>
    rw [largest?]
    cases hf : f (n + 1) with
    | some y =>
      refine ⟨by simp, fun hall => ?_⟩
      simp [hall (n + 1) (by omega) (Nat.le_refl _)] at hf
    | none =>
      refine ih.trans ⟨fun hall k hk hkn => ?_, fun hall k hk hkn => hall k hk (by omega)⟩
      rcases Nat.lt_or_eq_of_le hkn with hlt | rfl
      · exact hall k hk (by omega)
      · exact hf

/-- The value found is at an argument above which there is none. -/
theorem exists_of_largest? {α : Type} {f : Nat → Option α} {n : Nat} {x : α}
    (h : largest? f n = some x) :
    ∃ k, 0 < k ∧ k ≤ n ∧ f k = some x ∧ ∀ l, k < l → l ≤ n → f l = none := by
  induction n with
  | zero => simp [largest?] at h
  | succ n ih =>
    rw [largest?] at h
    split at h
    · next y hy => exact ⟨n + 1, by omega, Nat.le_refl _, hy.trans h, by omega⟩
    · next hnone =>
      obtain ⟨k, hpos, hk, hx, hall⟩ := ih h
      refine ⟨k, hpos, by omega, hx, fun l hkl hl => ?_⟩
      rcases Nat.lt_or_eq_of_le hl with hlt | rfl
      · exact hall l hkl (by omega)
      · exact hnone

theorem Trap.cohort_cohort (t : Trap) (z : Nat) (qs : List Nat) :
    t.cohort z (t.cohort z qs) = t.cohort z qs := by
  refine List.filter_congr fun q hq => ?_
  simp [cohort, hq]

/-- The qubits of a group are listed once each, are all in its zone and have to leave it. -/
structure Group.Waits (t : Trap) (g : Group) : Prop where
  ne : g.source ≠ g.target
  nodup : g.qubits.Nodup
  mem : ∀ q ∈ g.qubits, q ∈ t.chain g.source

theorem Group.mem_nearest {t : Trap} {g : Group} {port : Port} {q : Nat} :
    q ∈ g.nearest t port ↔ q ∈ g.qubits :=
  (t.byDistance_perm port g.qubits).mem_iff

theorem Group.nodup_nearest {t : Trap} {g : Group} (hg : g.Waits t) (port : Port) :
    (g.nearest t port).Nodup :=
  (t.byDistance_perm port g.qubits).nodup_iff.2 hg.nodup

section Batch

variable {m : CostModel} {t : Trap} (h : t.Consistent) (hlegal : t.arch.Legal)
include h hlegal

omit hlegal in
/-- The qubits of a batch stand in the order of their chain. -/
theorem Group.byDistance_take {g : Group} (hg : g.Waits t) (port : Port) (n : Nat) :
    t.byDistance .p0 ((g.nearest t port).take n)
      = t.cohort g.source ((g.nearest t port).take n) := by
  refine h.byDistance_p0 ((g.nodup_nearest hg port).sublist (List.take_sublist _ _)) ?_
  exact fun q hq => hg.mem q (g.mem_nearest.1 (List.mem_of_mem_take hq))

theorem Group.movable_of_batchOf {g : Group} {soft : Bool} {port : Port} {n : Nat} {b : Batch}
    (hg : g.Waits t) (hn : n ≤ t.spotsFor g.target soft) (hb : g.batchOf? m t port n = some b) :
    b.Movable m t soft := by
  have hcohort := g.byDistance_take h hg port n
  unfold Group.batchOf? at hb
  split at hb
  · simp at hb
  · next q qs hsorted =>
    obtain ⟨c, hc, rfl⟩ := Option.map_eq_some_iff.1 hb
    have hperm := t.byDistance_perm .p0 ((g.nearest t port).take n)
    rw [hsorted] at hperm hcohort
    have hlen : (q :: qs).length ≤ t.spotsFor g.target soft := by
      rw [hperm.length_eq, List.length_take]
      omega
    have hs : g.source < t.arch.numZones := by
      have hq := List.mem_of_mem_take (hperm.mem_iff.1 (List.mem_cons_self ..))
      exact h.lt_numZones_of_mem (hg.mem q (g.mem_nearest.1 hq))
    have hroom : (q :: qs).length ≤ t.freeSpace g.target := hlen.trans (Nat.min_le_right _ _)
    refine ⟨?_, ⟨port, hc⟩, CostModel.passable_of_fromPort hlegal hg.ne h hs hroom hc, hlen⟩
    rw [hcohort]
    exact t.cohort_cohort _ _

theorem movable_of_batchAmong {gs : List Group} {soft : Bool} {b : Batch}
    (hgs : ∀ g ∈ gs, g.Waits t) (hb : batchAmong? m t soft gs = some b) :
    ∃ g ∈ gs, b.PartOf g ∧ b.Movable m t soft := by
  obtain ⟨g, hg, hb⟩ := List.mem_filterMap.1 (Batch.mem_of_cheapest hb)
  obtain ⟨port, -, hp⟩ := List.mem_filterMap.1 (Batch.mem_of_cheapest hb)
  obtain ⟨n, -, hn, hb', -⟩ := exists_of_largest? hp
  have hspots : n ≤ t.spotsFor g.target soft := hn.trans (Nat.min_le_right _ _)
  exact ⟨g, hg, Group.partOf_of_batch hb,
    Group.movable_of_batchOf h hlegal (hgs g hg) hspots hb'⟩

/-- Whatever is picked next is a part of a group that can move. -/
theorem movable_of_nextBatch {gs : List Group} {forced : Option Nat} {soft : Bool} {b : Batch}
    (hgs : ∀ g ∈ gs, g.Waits t) (hb : nextBatch? m t gs forced soft = some b) :
    ∃ g ∈ gs, b.PartOf g ∧ b.Movable m t soft := by
  unfold nextBatch? at hb
  split at hb
  · exact movable_of_batchAmong h hlegal hgs hb
  · split at hb
    · next hb' =>
      obtain ⟨g, hg, hpart⟩ := movable_of_batchAmong h hlegal
        (fun g hg => hgs g (List.mem_of_mem_filter hg)) (hb'.trans hb)
      exact ⟨g, List.mem_of_mem_filter hg, hpart⟩
    · exact movable_of_batchAmong h hlegal hgs hb

end Batch

/-! ## Groups of a live trap -/

namespace Trap

/-- The groups hold exactly the qubits that are not yet where the target has them, each once. -/
structure Pending (t : Trap) (target : Placement) (gs : List Group) : Prop where
  distinct : (gs.flatMap (·.qubits)).Nodup
  ne : ∀ g ∈ gs, g.source ≠ g.target
  nonempty : ∀ g ∈ gs, g.qubits ≠ []
  mem : ∀ g ∈ gs, ∀ q ∈ g.qubits, q ∈ t.chain g.source ∧ q ∈ target.getD g.target []
  cover : ∀ q z, q ∈ target.getD z [] → q ∉ t.chain z → ∃ g ∈ gs, q ∈ g.qubits

theorem mem_groups_iff {t : Trap} {target : Placement} {g : Group} :
    g ∈ t.groups target ↔ g.source < t.arch.numZones ∧ g.target < target.length ∧
      g.source ≠ g.target ∧ g.qubits ≠ [] ∧
      g.qubits = (target.getD g.target []).filter fun q => t.zoneOf q == g.source := by
  simp only [groups, List.mem_flatMap, List.mem_range, List.mem_filterMap, Prod.exists]
  constructor
  · rintro ⟨s, hs, chain, z, hz, hg⟩
    have hz : target[z]? = some chain := List.mem_zipIdx_iff_getElem?.1 hz
    split at hg
    · simp at hg
    · next qs hqs hne =>
      split_ifs at hg with hsz
      obtain rfl := Option.some.inj hg
      have hlt := (List.getElem?_eq_some_iff.1 hz).1
      refine ⟨hs, hlt, hsz, hne, ?_⟩
      simp [List.getD_eq_getElem?_getD, hz]
  · rintro ⟨hs, hlt, hsz, hne, hqs⟩
    refine ⟨g.source, hs, target.getD g.target [], g.target, ?_, ?_⟩
    · rw [List.mem_zipIdx_iff_getElem?, List.getD_eq_getElem _ _ hlt, List.getElem?_eq_getElem hlt]
    · rw [← hqs]
      split
      · contradiction
      · rw [if_neg hsz]

/-- No two groups have the same way to go. -/
theorem pairwise_groups (t : Trap) (target : Placement) :
    (t.groups target).Pairwise fun g g' => g.source ≠ g'.source ∨ g.target ≠ g'.target := by
  rw [groups, List.pairwise_flatMap]
  constructor
  · -- out of one zone, the groups go to different zones
    intro s _
    have hindex : target.zipIdx.Pairwise fun x y => x.2 ≠ y.2 := by
      rw [← List.pairwise_map, List.zipIdx_map_snd]
      exact List.nodup_range'
    rw [List.pairwise_filterMap]
    refine hindex.imp fun {x y} hxy g hg g' hg' => .inr ?_
    grind
  · -- out of different zones, they have different sources
    refine List.pairwise_lt_range.imp fun {s s'} hlt g hg g' hg' => .inl ?_
    obtain ⟨x, -, hx⟩ := List.mem_filterMap.1 hg
    obtain ⟨y, -, hy⟩ := List.mem_filterMap.1 hg'
    grind

/-- The groups the router starts with. -/
theorem Consistent.pending_groups {t : Trap} (h : t.Consistent) {target : Placement}
    (ht : target.Fits t.arch t.numQubits) : t.Pending target (t.groups target) := by
  have hlt : ∀ q z, q ∈ target.getD z [] → q < t.numQubits := fun q z hq =>
    List.mem_range.1 (ht.perm.mem_iff.1 (Nested.mem_flatten_iff.2 ⟨_, hq⟩))
  refine ⟨?_, fun g hg => (mem_groups_iff.1 hg).2.2.1, fun g hg => (mem_groups_iff.1 hg).2.2.2.1,
    ?_, ?_⟩
  · rw [List.nodup_flatMap]
    refine ⟨fun g hg => ?_, (pairwise_groups t target).imp_of_mem fun {g g'} hg hg' hne => ?_⟩
    · rw [(mem_groups_iff.1 hg).2.2.2.2]
      exact (ht.nodup_getD _).filter _
    · -- a qubit of two groups would have two zones or two targets
      intro q hq hq'
      change q ∈ g.qubits at hq
      change q ∈ g'.qubits at hq'
      rw [(mem_groups_iff.1 hg).2.2.2.2, List.mem_filter, beq_iff_eq] at hq
      rw [(mem_groups_iff.1 hg').2.2.2.2, List.mem_filter, beq_iff_eq] at hq'
      rcases hne with hne | hne
      · exact hne (hq.2.symm.trans hq'.2)
      · exact hne (ht.eq_of_mem hq.1 hq'.1)
  · intro g hg q hq
    rw [(mem_groups_iff.1 hg).2.2.2.2, List.mem_filter, beq_iff_eq] at hq
    exact ⟨h.mem_chain_iff.2 ⟨hlt q _ hq.1, hq.2⟩, hq.1⟩
  · intro q z hq hnot
    have hq' : q ∈ (target.getD z []).filter fun r => t.zoneOf r == t.zoneOf q :=
      List.mem_filter.2 ⟨hq, by simp⟩
    have hz : z < target.length := by
      by_contra hz
      rw [List.getD_eq_default _ _ (by omega)] at hq
      simp at hq
    refine ⟨⟨t.zoneOf q, z, (target.getD z []).filter fun r => t.zoneOf r == t.zoneOf q⟩, ?_, hq'⟩
    refine mem_groups_iff.2 ⟨h.zoneOf_lt (hlt q z hq), hz, ?_, List.ne_nil_of_mem hq', rfl⟩
    intro hzone
    exact hnot (h.mem_chain_iff.2 ⟨hlt q _ hq, hzone⟩)

theorem mem_removeBatch {gs : List Group} {b : Batch} {g : Group} :
    g ∈ removeBatch gs b ↔ ∃ g' ∈ gs, g'.without? b = some g := List.mem_filterMap

/-- What is left of a group. -/
theorem without?_eq_some {b : Batch} {g g' : Group} (h : g.without? b = some g') :
    g'.source = g.source ∧ g'.target = g.target ∧ (g.qubits ≠ [] → g'.qubits ≠ []) ∧
      ∀ q, q ∈ g'.qubits ↔
        q ∈ g.qubits ∧ ¬ (g.source = b.source ∧ g.target = b.target ∧ q ∈ b.qubits) := by
  unfold Group.without? at h
  split_ifs at h with hsame
  · dsimp only at h
    split_ifs at h with hempty
    obtain rfl := Option.some.inj h
    refine ⟨rfl, rfl, fun _ => by simpa using hempty, fun q => ?_⟩
    simp [hsame]
  · obtain rfl := Option.some.inj h
    refine ⟨rfl, rfl, id, fun q => ?_⟩
    tauto

theorem exists_without {b : Batch} {g : Group} {q : Nat} (hq : q ∈ g.qubits) (hb : q ∉ b.qubits) :
    ∃ g', g.without? b = some g' ∧ q ∈ g'.qubits := by
  have hleft : q ∈ g.qubits.filter (!b.qubits.contains ·) := by simp [hq, hb]
  unfold Group.without?
  split_ifs with hsame
  · have hempty : ¬ (g.qubits.filter (!b.qubits.contains ·)).isEmpty := by
      simpa using List.ne_nil_of_mem hleft
    exact ⟨_, if_neg hempty, hleft⟩
  · exact ⟨g, rfl, hq⟩

theorem sublist_of_without {b : Batch} {g g' : Group} (h : g.without? b = some g') :
    g'.qubits.Sublist g.qubits := by
  unfold Group.without? at h
  split_ifs at h
  · dsimp only at h
    split_ifs at h
    obtain rfl := Option.some.inj h
    exact List.filter_sublist
  · obtain rfl := Option.some.inj h
    exact .refl _

/-- Removing a batch only shortens the groups. -/
theorem sublist_removeBatch (gs : List Group) (b : Batch) :
    ((removeBatch gs b).flatMap (·.qubits)).Sublist (gs.flatMap (·.qubits)) := by
  induction gs with
  | nil => exact .refl _
  | cons g gs ih =>
    rw [removeBatch, List.filterMap_cons]
    cases hg : g.without? b with
    | none => exact ih.trans (List.sublist_append_right _ _)
    | some g' => exact (sublist_of_without hg).append ih

/-- A cohort that was carried to its target is where it belongs, and nobody else moved. -/
theorem Carries.mem_chain_iff {t t' : Trap} {qs : List Nat} {target : Nat} {side : Port}
    (hc : t'.Carries qs target side (t.without qs)) (q w : Nat) :
    q ∈ t'.chain w ↔ (q ∈ qs ∧ w = target) ∨ (q ∉ qs ∧ q ∈ t.chain w) := by
  by_cases hw : w = target
  · subst hw
    rw [hc.here, mem_enter, without]
    by_cases hq : q ∈ qs <;> simp [hq]
  · rw [hc.others w hw, without]
    by_cases hq : q ∈ qs <;> simp [hq, hw]

/-- The groups left after a batch was carried out are the ones of the new trap. -/
theorem Pending.of_moved {t t' : Trap} {target : Placement} {gs : List Group} {b : Batch}
    (hp : t.Pending target gs) (hpart : ∃ g ∈ gs, b.PartOf g)
    (hmem : ∀ q w, q ∈ t'.chain w ↔
      (q ∈ b.qubits ∧ w = b.target) ∨ (q ∉ b.qubits ∧ q ∈ t.chain w))
    (hunique : ∀ q z w, q ∈ t.chain z → q ∈ t.chain w → z = w)
    (hhome : ∀ q z w, q ∈ target.getD z [] → q ∈ target.getD w [] → z = w) :
    t'.Pending target (removeBatch gs b) := by
  obtain ⟨g₀, hg₀, hsource, htarget, -, hsub⟩ := hpart
  refine ⟨hp.distinct.sublist (sublist_removeBatch gs b), ?_, ?_, ?_, ?_⟩
  · intro g hg
    obtain ⟨g', hg', hw⟩ := mem_removeBatch.1 hg
    rw [(without?_eq_some hw).1, (without?_eq_some hw).2.1]
    exact hp.ne g' hg'
  · intro g hg
    obtain ⟨g', hg', hw⟩ := mem_removeBatch.1 hg
    exact (without?_eq_some hw).2.2.1 (hp.nonempty g' hg')
  · intro g hg q hq
    obtain ⟨g', hg', hw⟩ := mem_removeBatch.1 hg
    obtain ⟨hs, ht, -, hqs⟩ := without?_eq_some hw
    obtain ⟨hq', hnot⟩ := (hqs q).1 hq
    obtain ⟨hin, hto⟩ := hp.mem g' hg' q hq'
    rw [hs, ht, hmem]
    refine ⟨.inr ⟨fun hb => hnot ?_, hin⟩, hto⟩
    -- a qubit of the batch is in the zone and has the target of the batch
    obtain ⟨hin₀, hto₀⟩ := hp.mem g₀ hg₀ q (hsub q hb)
    exact ⟨(hunique q _ _ hin hin₀).trans hsource, (hhome q _ _ hto hto₀).trans htarget, hb⟩
  · intro q z hq hnot
    rw [hmem] at hnot
    push Not at hnot
    have hb : q ∉ b.qubits := by
      intro hb
      have hto := (hp.mem g₀ hg₀ q (hsub q hb)).2
      rw [htarget] at hto
      exact hnot.1 hb (hhome q _ _ hq hto)
    obtain ⟨g, hg, hqg⟩ := hp.cover q z hq (hnot.2 hb)
    obtain ⟨g', hw, hq'⟩ := exists_without hqg hb
    exact ⟨g', mem_removeBatch.2 ⟨g, hg, hw⟩, hq'⟩

theorem Pending.waits {t : Trap} {target : Placement} {gs : List Group}
    (hp : t.Pending target gs) : ∀ g ∈ gs, g.Waits t := fun g hg =>
  ⟨hp.ne g hg, (List.nodup_flatMap.1 hp.distinct).1 g hg, fun q hq => (hp.mem g hg q hq).1⟩

/-- A movable batch is carried out, and the groups stay right. -/
theorem Pending.exists_execute {m : CostModel} {p : Progress} (h : p.trap.Consistent)
    (hlegal : p.trap.arch.Legal) {target : Placement}
    (ht : target.Fits p.trap.arch p.trap.numQubits) {gs : List Group}
    (hp : p.trap.Pending target gs) {soft : Bool} {b : Batch} (hpart : ∃ g ∈ gs, b.PartOf g)
    (hmov : b.Movable m p.trap soft) :
    ∃ p', p.execute b.source b.qubits b.move = .ok p' ∧
      p.Delivers p' b.source b.target b.qubits b.move ∧
      p'.trap.Pending target (removeBatch gs b) := by
  obtain ⟨p', hexec, hdel⟩ := Progress.execute_spec h hlegal hmov.cohort hmov.move
  obtain ⟨side, hcarry⟩ := hdel.carries
  refine ⟨p', hexec, hdel, ?_⟩
  exact hp.of_moved hpart hcarry.mem_chain_iff (fun q z w => h.eq_of_mem)
    (fun q z w => ht.eq_of_mem)

end Trap

/-! ## Whole journeys -/

namespace Journey

variable {m : CostModel} {j j' : Journey}

/-- A step carries out a batch or enters soft-lock. -/
theorem step_eq_ok (h : j.step m = .ok j') :
    (j.soft = false ∧ nextBatch? m j.trap j.groups j.forced false = none ∧
        j' = { j with soft := true }) ∨
      ∃ soft b p, soft = (j.soft || !j.trap.hasSpace j.groups false) ∧
        nextBatch? m j.trap j.groups j.forced soft = some b ∧
        Progress.execute ⟨j.trap, j.ops⟩ b.source b.qubits b.move = .ok p ∧
        j' = j.afterBatch soft b p := by
  unfold step at h
  dsimp only at h
  split at h
  · simp at h
  split at h
  · next hnone =>
    split_ifs at h with hsoft
    rw [Bool.not_eq_true] at hsoft
    rw [hsoft] at hnone
    exact .inl ⟨(Bool.or_eq_false_iff.1 hsoft).1, hnone, (Except.ok.inj h).symm⟩
  · next b hb =>
    split at h
    · simp at h
    · next p hp => exact .inr ⟨_, b, p, rfl, hb, hp, (Except.ok.inj h).symm⟩

/-- A step fails if no batch can move, or if one could not be carried out. -/
theorem step_eq_error {t : Trap} {e : CompileError} (h : j.step m = .error (t, e)) :
    (t = j.trap ∧ e = .infeasible (remaining j.groups)) ∨
      ∃ soft b fault, nextBatch? m j.trap j.groups j.forced soft = some b ∧
        Progress.execute ⟨j.trap, j.ops⟩ b.source b.qubits b.move = .error (t, fault) := by
  unfold step at h
  dsimp only at h
  split at h
  · obtain ⟨ht, he⟩ := Prod.mk.inj (Except.error.inj h)
    exact .inl ⟨ht.symm, he.symm⟩
  split at h
  · split_ifs at h
    obtain ⟨ht, he⟩ := Prod.mk.inj (Except.error.inj h)
    exact .inl ⟨ht.symm, he.symm⟩
  · next b hb =>
    split at h
    · next fault hexec =>
      obtain ⟨rfl, -⟩ := Prod.mk.inj (Except.error.inj h)
      exact .inr ⟨_, b, fault, hb, hexec⟩
    · simp at h

theorem run_of_step (hgroups : j.groups ≠ []) (hs : j.step m = .ok j') : j.run m = j'.run m := by
  rw [run, if_neg (by simpa using hgroups)]
  split
  · next h => simp [hs] at h
  · next h =>
    rw [hs] at h
    rw [Except.ok.inj h]

theorem run_of_error {t : Trap} {e : CompileError} (hgroups : j.groups ≠ [])
    (hs : j.step m = .error (t, e)) : j.run m = (t, .error e) := by
  rw [run, if_neg (by simpa using hgroups)]
  split
  · next h =>
    rw [hs] at h
    obtain ⟨rfl, rfl⟩ := Prod.mk.inj (Except.error.inj h)
    rfl
  · next h => simp [hs] at h

/-- What holds at first and survives every step holds when the run stops: with no group left, or at
a step that fails. -/
theorem exists_of_run {P : Journey → Prop} (hstep : ∀ j j', P j → j.step m = .ok j' → P j')
    (hj : P j) {t : Trap} {r : Except CompileError RoutingResult} (h : j.run m = (t, r)) :
    ∃ j', P j' ∧ ((j'.groups = [] ∧ j'.trap = t ∧ r = .ok j'.result) ∨
      ∃ e, j'.step m = .error (t, e) ∧ r = .error e) := by
  fun_induction Journey.run m j with
  | case1 j hempty =>
    obtain ⟨ht, hr⟩ := Prod.mk.inj h
    exact ⟨j, hj, .inl ⟨List.isEmpty_iff.1 hempty, ht, hr.symm⟩⟩
  | case2 j _ t' e hs =>
    obtain ⟨rfl, hr⟩ := Prod.mk.inj h
    exact ⟨j, hj, .inr ⟨e, hs, hr.symm⟩⟩
  | case3 j _ j' hs _ ih => exact ih (hstep j j' hj hs) h

theorem exists_of_run_ok {P : Journey → Prop} (hstep : ∀ j j', P j → j.step m = .ok j' → P j')
    (hj : P j) {t : Trap} {r : RoutingResult} (h : j.run m = (t, .ok r)) :
    ∃ j', P j' ∧ j'.groups = [] ∧ j'.trap = t ∧ j'.result = r := by
  obtain ⟨j', hj', ⟨hgroups, ht, hr⟩ | ⟨e, -, he⟩⟩ := exists_of_run hstep hj h
  · exact ⟨j', hj', hgroups, ht, (Except.ok.inj hr).symm⟩
  · simp at he

theorem exists_of_run_error {P : Journey → Prop} (hstep : ∀ j j', P j → j.step m = .ok j' → P j')
    (hj : P j) {t : Trap} {e : CompileError} (h : j.run m = (t, .error e)) :
    ∃ j', P j' ∧ j'.step m = .error (t, e) := by
  obtain ⟨j', hj', ⟨-, -, hr⟩ | ⟨e', hs, he⟩⟩ := exists_of_run hstep hj h
  · simp at hr
  · rw [Except.error.inj he]
    exact ⟨j', hj', hs⟩

/-- A journey that left the trap `t` for `target`: its log replays, and its groups are the ones of
the live trap. -/
structure Underway (t : Trap) (target : Placement) (j : Journey) : Prop where
  reaches : Progress.Reaches ⟨t, []⟩ ⟨j.trap, j.ops⟩
  pending : j.trap.Pending target j.groups

/-- A batch of a journey was carried out: it was a movable part of a group, and the groups left are
the ones of the new trap. -/
structure Moves (m : CostModel) (target : Placement) (j : Journey) (soft : Bool) (b : Batch)
    (p : Progress) : Prop where
  part : ∃ g ∈ j.groups, b.PartOf g
  movable : b.Movable m j.trap soft
  delivers : Progress.Delivers ⟨j.trap, j.ops⟩ p b.source b.target b.qubits b.move
  pending : p.trap.Pending target (removeBatch j.groups b)

section Underway

variable {t : Trap} {target : Placement} (hlegal : t.arch.Legal)
  (ht : target.Fits t.arch t.numQubits) (hj : Underway t target j)
include hlegal ht hj

/-- Whatever batch a journey under way picks, it is carried out. -/
theorem Underway.exists_moves {forced : Option Nat} {soft : Bool} {b : Batch}
    (hb : nextBatch? m j.trap j.groups forced soft = some b) :
    ∃ p, Progress.execute ⟨j.trap, j.ops⟩ b.source b.qubits b.move = .ok p ∧
      Moves m target j soft b p := by
  have h : j.trap.Consistent := hj.reaches.follows.consistent
  have harch : j.trap.arch = t.arch := hj.reaches.follows.arch
  have hn : j.trap.numQubits = t.numQubits := hj.reaches.follows.numQubits
  rw [← harch] at hlegal
  rw [← harch, ← hn] at ht
  obtain ⟨g, hg, hpart, hmov⟩ := movable_of_nextBatch h hlegal hj.pending.waits hb
  obtain ⟨p, hexec, hdel, hpending⟩ := Trap.Pending.exists_execute (p := ⟨j.trap, j.ops⟩) h hlegal
    ht hj.pending ⟨g, hg, hpart⟩ hmov
  exact ⟨p, hexec, ⟨g, hg, hpart⟩, hmov, hdel, hpending⟩

/-- A step of a journey under way enters soft-lock or carries out a batch. -/
theorem Underway.step_cases (h : j.step m = .ok j') :
    j' = { j with soft := true } ∨
      ∃ soft b p, Moves m target j soft b p ∧ j' = j.afterBatch soft b p := by
  rcases step_eq_ok h with ⟨-, -, rfl⟩ | ⟨soft, b, p, -, hb, hp, rfl⟩
  · exact .inl rfl
  · obtain ⟨p', hp', hmoves⟩ := hj.exists_moves hlegal ht hb
    obtain rfl := Except.ok.inj (hp'.symm.trans hp)
    exact .inr ⟨soft, b, p', hmoves, rfl⟩

theorem Underway.step (h : j.step m = .ok j') : Underway t target j' := by
  rcases hj.step_cases hlegal ht h with rfl | ⟨soft, b, p, hmoves, rfl⟩
  · exact ⟨hj.reaches, hj.pending⟩
  · exact ⟨hj.reaches.trans hmoves.delivers.toReaches, hmoves.pending⟩

/-- A journey under way stops only because no batch can move. -/
theorem Underway.step_eq_error {t' : Trap} {e : CompileError} (h : j.step m = .error (t', e)) :
    t' = j.trap ∧ e = .infeasible (remaining j.groups) := by
  rcases Journey.step_eq_error h with h | ⟨soft, b, fault, hb, hexec⟩
  · exact h
  · obtain ⟨p, hp, -⟩ := hj.exists_moves hlegal ht hb
    rw [hexec] at hp
    simp at hp

end Underway

theorem underway_start {t : Trap} (h : t.Consistent) {target : Placement}
    (ht : target.Fits t.arch t.numQubits) : Underway t target (start t target) :=
  ⟨Progress.reaches_self (p := ⟨t, []⟩) h, h.pending_groups ht⟩

/-- The closing barrier replays as well. -/
theorem Underway.replayOps_result {t : Trap} {target : Placement} (hj : Underway t target j) :
    t.replayOps j.result.ops = .ok j.trap := by
  obtain ⟨ops, hops, hreplay⟩ := hj.reaches.replay
  change j.ops = [] ++ ops at hops
  change t.replayOps ops = .ok j.trap at hreplay
  rw [List.nil_append] at hops
  unfold result
  split_ifs with hempty
  · rw [← hreplay, ← hops, List.isEmpty_iff.1 hempty]
  · dsimp only
    rw [hops, Trap.replayOps_append, hreplay, ok_bind, Trap.replayOps_singleton]
    rfl

end Journey

theorem Trap.checkTarget_eq_ok_iff {t : Trap} {target : Placement} :
    t.checkTarget target = .ok () ↔ target.Fits t.arch t.numQubits := by
  rw [← Placement.validate_eq_ok_iff, checkTarget]
  split <;> simp_all

/-- With nothing pending the chains hold what the target lists. -/
theorem Trap.Pending.mem_chain_iff {t : Trap} (h : t.Consistent) {target : Placement}
    (ht : target.Fits t.arch t.numQubits) (hp : t.Pending target []) (q z : Nat) :
    q ∈ t.chain z ↔ q ∈ target.getD z [] := by
  have hto : ∀ z, q ∈ target.getD z [] → q ∈ t.chain z := by
    intro z hq
    by_contra hnot
    obtain ⟨g, hg, -⟩ := hp.cover q z hq hnot
    simp at hg
  refine ⟨fun hq => ?_, hto z⟩
  obtain ⟨w, hw⟩ := ht.exists_mem (h.mem_chain_iff.1 hq).1
  rwa [h.eq_of_mem hq (hto w hw)]

/-- A target that does not fit is refused at once, one that fits is what a journey starts for. -/
theorem Trap.routeTo_cases (m : CostModel) (t : Trap) (target : Placement) :
    (∃ e fault, target.validate t.arch t.numQubits = .error fault ∧
      t.routeTo m target = (t, .error e)) ∨
    (target.Fits t.arch t.numQubits ∧ t.routeTo m target = (Journey.start t target).run m) := by
  cases hv : target.validate t.arch t.numQubits with
  | ok _ =>
    have ht := Placement.validate_eq_ok_iff.1 hv
    refine .inr ⟨ht, ?_⟩
    rw [routeTo, checkTarget_eq_ok_iff.2 ht]
  | error fault =>
    left
    unfold routeTo checkTarget
    rw [hv]
    cases fault <;> exact ⟨_, _, rfl, rfl⟩

/-- A journey that ends has brought every qubit to its target zone, by operations that replay. -/
theorem Trap.routeTo_spec {m : CostModel} {t t' : Trap} {target : Placement} {r : RoutingResult}
    (h : t.Consistent) (hlegal : t.arch.Legal) (hr : t.routeTo m target = (t', .ok r)) :
    t.Follows t' ∧ (∀ q z, q ∈ t'.chain z ↔ q ∈ target.getD z []) ∧
      t.replayOps r.ops = .ok t' := by
  obtain ⟨e, fault, -, herror⟩ | ⟨ht, hrun⟩ := routeTo_cases m t target
  · simp [herror] at hr
  rw [hrun] at hr
  obtain ⟨j, hj, hgroups, rfl, rfl⟩ := Journey.exists_of_run_ok
    (fun j j' hj hs => hj.step hlegal ht hs) (Journey.underway_start h ht) hr
  have hfollows : t.Follows j.trap := hj.reaches.follows
  have hpending := hj.pending
  rw [hgroups] at hpending
  refine ⟨hfollows, ?_, hj.replayOps_result⟩
  refine hpending.mem_chain_iff hfollows.consistent ?_
  rw [hfollows.arch, hfollows.numQubits]
  exact ht

/-- Zone by zone, a journey that ends has brought together the qubits of the target. -/
theorem Trap.perm_of_routeTo {m : CostModel} {t t' : Trap} {target : Placement} {r : RoutingResult}
    (h : t.Consistent) (hlegal : t.arch.Legal) (hr : t.routeTo m target = (t', .ok r)) (z : Nat) :
    (t'.chain z).Perm (target.getD z []) := by
  obtain ⟨hfollows, hmem, -⟩ := routeTo_spec h hlegal hr
  obtain ⟨e, fault, -, herror⟩ | ⟨ht, -⟩ := routeTo_cases m t target
  · simp [herror] at hr
  · exact (List.perm_ext_iff_of_nodup (hfollows.consistent.nodup_chain z) (ht.nodup_getD z)).2
      fun q => hmem q z

end IonTrap
