import IonTrap.Architecture.Named
import IonTrap.Proofs.Circuit.Rearranged
import IonTrap.Proofs.Rounds.Schedule
import IonTrap.Proofs.Selection.Greedy

/-!
# Nobody is served before those they wait for

Greedy selection marks the qubits of a pair that cannot be served, and a pair with a marked qubit is
held back. Where a locked qubit has no spot beside it only its partner is marked. The locked qubit
itself may be used by later pairs, but its zone is full from then on, and no later pair can lock
anybody into it. So a pair that locks a qubit hangs only on pairs that have been brought into the
same zone (`Greedy.lock_together_of_hangsOn`).

This holds in any state of the trap and for any pairs of its qubits, so that the tracker is only
asked to have tables of the right size and its locks in gate zones (`Greedy.Proper`).
-/

namespace IonTrap

namespace Greedy

variable {m : CostModel} {t : Trap} {g g' g'' : Greedy} {p : Pair} {q r z : Nat}

/-! ## What a step keeps -/

@[simp] theorem waits_mark (g : Greedy) (q r : Nat) :
    (g.mark q).waits r = (g.waits r || r == q) := by
  unfold mark
  split_ifs with hq
  · by_cases hr : r = q
    · simp [hr, hq]
    · simp [hr]
  · simp [waits, Bool.beq_eq_decide_eq]

/-- Tables of the right size, and locks in gate zones only. -/
structure Proper (t : Trap) (g : Greedy) : Prop extends Tracker.Sized t g.tracker where
  gate : ∀ q, g.tracker.isLocked q = true → t.arch.isGateZone (g.tracker.zoneOf q) = true

theorem proper_start (t : Trap) : Proper t ⟨.ofTrap t, []⟩ :=
  ⟨Tracker.sized_ofTrap t, fun q hq => by simp [Tracker.isLocked_ofTrap] at hq⟩

/-- A later state: locks are kept, rooms only shrink, and who waits goes on waiting. -/
structure Later (t : Trap) (g g' : Greedy) : Prop where
  keeps : ∀ q, g.tracker.isLocked q = true →
    g'.tracker.isLocked q = true ∧ g'.tracker.zoneOf q = g.tracker.zoneOf q
  room : ∀ z, g'.tracker.gateRoom t z ≤ g.tracker.gateRoom t z
  waits : ∀ q, g.waits q = true → g'.waits q = true

theorem Later.refl (t : Trap) (g : Greedy) : Later t g g :=
  ⟨fun _ hq => ⟨hq, rfl⟩, fun _ => le_rfl, fun _ hq => hq⟩

theorem Later.trans (h : Later t g g') (h' : Later t g' g'') : Later t g g'' := by
  refine ⟨fun q hq => ?_, fun z => (h'.room z).trans (h.room z),
    fun q hq => h'.waits q (h.waits q hq)⟩
  obtain ⟨hq', hz⟩ := h.keeps q hq
  obtain ⟨hq'', hz'⟩ := h'.keeps q hq'
  exact ⟨hq'', hz'.trans hz⟩

theorem Later.together (h : Later t g g') (hp : g.tracker.Together z p) :
    g'.tracker.Together z p := by
  intro q hq
  obtain ⟨hlocked, hzone⟩ := hp q hq
  obtain ⟨hlocked', hzone'⟩ := h.keeps q hlocked
  exact ⟨hlocked', hzone'.trans hzone⟩

theorem proper_mark (h : Proper t g) (q : Nat) : Proper t (g.mark q) := by
  have htracker := tracker_mark g q
  exact ⟨by rw [htracker]; exact h.toSized, by rw [htracker]; exact h.gate⟩

theorem later_mark (t : Trap) (g : Greedy) (q : Nat) : Later t g (g.mark q) := by
  refine ⟨?_, ?_, fun r hr => by simp [hr]⟩
  · simp
  · simp

section Lock

variable (h : Proper t g) (hq : q < t.numQubits) (hz : t.arch.isGateZone z = true) (old : Nat)
include h hq hz

theorem proper_lock : Proper t { g with tracker := g.tracker.lock q old z } := by
  refine ⟨h.toSized.lock old, fun r hr => ?_⟩
  dsimp only at hr ⊢
  rw [Tracker.isLocked_lock h.toSized hq] at hr
  rw [Tracker.zoneOf_lock h.toSized hq]
  split_ifs at hr ⊢
  · exact hz
  · exact h.gate r hr

/-- Locking a free qubit, or one that is locked into the same zone. -/
theorem later_lock (hfree : g.tracker.isLocked q = true → g.tracker.zoneOf q = z) :
    Later t g { g with tracker := g.tracker.lock q old z } := by
  refine ⟨fun r hr => ?_, fun w => ?_, fun r hr => hr⟩
  · dsimp only
    rw [Tracker.isLocked_lock h.toSized hq, Tracker.zoneOf_lock h.toSized hq]
    split_ifs with hrq
    · subst hrq
      exact ⟨rfl, (hfree hr).symm⟩
    · exact ⟨hr, rfl⟩
  · have hnew := Tracker.numNew_lock (q := q) h.toSized (Architecture.lt_of_isGateZone hz) old w
    simp only [Tracker.gateRoom, hnew]
    omega

end Lock

/-- Serving a pair of the trap's qubits leaves a proper state that is later. -/
theorem proper_serve (h : Proper t g) (hp : ∀ q, p.uses q = true → q < t.numQubits) :
    Proper t (serve m t g p) ∧ Later t g (serve m t g p) := by
  have hserved := served_serve m t g p
  generalize serve m t g p = g' at hserved ⊢
  cases hserved with
  | heldBack =>
    exact ⟨proper_mark (proper_mark h _) _, (later_mark t g _).trans (later_mark t _ _)⟩
  | together => exact ⟨h, .refl t g⟩
  | full => exact ⟨proper_mark h _, later_mark t g _⟩
  | @joined q r hqr _ hq hr _ =>
    have hlt := hp r (hqr.uses_iff.2 (.inr rfl))
    exact ⟨proper_lock h hlt (h.gate q hq) _, later_lock h hlt (h.gate q hq) _ (by simp [hr])⟩
  | @paired z _ hfree hz =>
    have hgate := (commonZone?_spec hz).1
    have hlt₁ := hp p.1 p.uses_fst
    have hlt₂ := hp p.2 p.uses_snd
    have hfirst := proper_lock h hlt₁ hgate (g.tracker.zoneOf p.1)
    refine ⟨proper_lock hfirst hlt₂ hgate _, (later_lock h hlt₁ hgate _ ?_).trans
      (later_lock hfirst hlt₂ hgate _ ?_)⟩
    · simp [hfree p.1 p.uses_fst]
    · -- the second qubit is free, unless it is the first one
      dsimp only
      rw [Tracker.isLocked_lock h.toSized hlt₁, Tracker.zoneOf_lock h.toSized hlt₁]
      split_ifs
      · simp
      · simp [hfree p.2 p.uses_snd]

theorem together_joined (h : g.tracker.Sized t) (hp : IsPair p q r) (hr : r < t.numQubits)
    (hq : g.tracker.isLocked q = true) (old : Nat) :
    (g.tracker.lock r old (g.tracker.zoneOf q)).Together (g.tracker.zoneOf q) p := by
  intro u hu
  rw [Tracker.isLocked_lock h hr, Tracker.zoneOf_lock h hr]
  split_ifs with hur
  · exact ⟨rfl, rfl⟩
  · obtain rfl := (hp.uses_iff.1 hu).resolve_right hur
    exact ⟨hq, rfl⟩

/-- A pair that leaves one of its qubits unmarked had no marked qubit. It is together afterwards, or
the qubit is locked into a full zone. -/
theorem serve_of_not_waits (h : Proper t g) (hp : ∀ q, p.uses q = true → q < t.numQubits)
    (hq : p.uses q = true) (hfree : (serve m t g p).waits q = false) :
    (∀ u, p.uses u = true → g.waits u = false) ∧
      ((∃ z, (serve m t g p).tracker.Together z p) ∨
        g.tracker.isLocked q = true ∧ g.tracker.gateRoom t (g.tracker.zoneOf q) = 0) := by
  have hserved := served_serve m t g p
  generalize serve m t g p = g' at hserved hfree ⊢
  cases hserved with
  | heldBack =>
    simp only [Pair.uses, Bool.or_eq_true, beq_iff_eq] at hq
    simp only [waits_mark, Bool.or_eq_false_iff, beq_eq_false_iff_ne] at hfree
    omega
  | together hwaits hlocked => exact ⟨hwaits, .inl ⟨_, hlocked⟩⟩
  | @full u r hur hwaits hu hr hroom =>
    -- the partner is marked, so it is the other one that is meant
    rw [waits_mark, Bool.or_eq_false_iff, beq_eq_false_iff_ne] at hfree
    obtain rfl := (hur.uses_iff.1 hq).resolve_right hfree.2
    exact ⟨hwaits, .inr ⟨hu, hroom⟩⟩
  | @joined u r hur hwaits hu hr _ =>
    have hlt := hp r (hur.uses_iff.2 (.inr rfl))
    exact ⟨hwaits, .inl ⟨_, together_joined h.toSized hur hlt hu _⟩⟩
  | @paired z hwaits _ _ =>
    have htogether := Tracker.together_lockBoth h.toSized (hp _ p.uses_fst) (hp _ p.uses_snd) z
    exact ⟨hwaits, .inl ⟨z, htogether⟩⟩

/-- A pair that locks somebody had no marked qubit, and it is together afterwards in a gate zone
that had a spot. -/
theorem serve_of_locks (h : Proper t g) (hp : ∀ q, p.uses q = true → q < t.numQubits)
    (hbefore : g.tracker.isLocked q = false) (hafter : (serve m t g p).tracker.isLocked q = true) :
    (∀ u, p.uses u = true → g.waits u = false) ∧
      ∃ z, t.arch.isGateZone z = true ∧ 0 < g.tracker.gateRoom t z ∧
        (serve m t g p).tracker.Together z p := by
  have hserved := served_serve m t g p
  generalize serve m t g p = g' at hserved hafter ⊢
  cases hserved with
  | heldBack => simp [hbefore] at hafter
  | together => simp [hbefore] at hafter
  | full => simp [hbefore] at hafter
  | @joined u r hur hwaits hu hr hroom =>
    have hlt := hp r (hur.uses_iff.2 (.inr rfl))
    exact ⟨hwaits, _, h.gate u hu, hroom, together_joined h.toSized hur hlt hu _⟩
  | @paired z hwaits _ hz =>
    obtain ⟨hgate, hroom⟩ := commonZone?_spec hz
    have htogether := Tracker.together_lockBoth h.toSized (hp _ p.uses_fst) (hp _ p.uses_snd) z
    exact ⟨hwaits, z, hgate, by omega, htogether⟩

/-! ## The whole run -/

/-- The state after the first `n` pairs, or after fewer if no more can be served. -/
def upTo (m : CostModel) (t : Trap) (ps : List Pair) (n : Nat) : Greedy :=
  serveAll m t (ps.take n) ⟨.ofTrap t, []⟩

variable {ps : List Pair} {i j n : Nat}

theorem serveAll_concat (g : Greedy) (ps : List Pair) (p : Pair) :
    serveAll m t (ps ++ [p]) g
      = if (serveAll m t ps g).exhausted t then serveAll m t ps g
        else serve m t (serveAll m t ps g) p := by
  induction ps generalizing g with
  | nil => rfl
  | cons r ps ih =>
    rw [List.cons_append, serveAll, serveAll]
    split_ifs with hstop hrest
    · rfl
    · rw [ih, if_pos hrest]
    · rw [ih, if_neg hrest]

theorem upTo_succ (hp : ps[n]? = some p) :
    upTo m t ps (n + 1) = if (upTo m t ps n).exhausted t then upTo m t ps n
      else serve m t (upTo m t ps n) p := by
  rw [upTo, List.take_add_one, hp, Option.toList_some, serveAll_concat]
  rfl

theorem upTo_succ_of_none (hp : ps[n]? = none) : upTo m t ps (n + 1) = upTo m t ps n := by
  rw [upTo, List.take_add_one, hp, Option.toList_none, List.append_nil, upTo]

section Run

variable (hps : ∀ p ∈ ps, ∀ q, p.uses q = true → q < t.numQubits)
include hps

theorem proper_upTo (n : Nat) : Proper t (upTo m t ps n) := by
  induction n with
  | zero => exact proper_start t
  | succ n ih =>
    cases hp : ps[n]? with
    | none =>
      rw [upTo_succ_of_none hp]
      exact ih
    | some p =>
      rw [upTo_succ hp]
      split_ifs
      · exact ih
      · exact (proper_serve ih (hps p (List.mem_of_getElem? hp))).1

theorem later_upTo (hn : i ≤ n) : Later t (upTo m t ps i) (upTo m t ps n) := by
  induction n, hn using Nat.le_induction with
  | base => exact .refl t _
  | succ n _ ih =>
    refine ih.trans ?_
    cases hp : ps[n]? with
    | none =>
      rw [upTo_succ_of_none hp]
      exact .refl t _
    | some p =>
      rw [upTo_succ hp]
      split_ifs
      · exact .refl t _
      · exact (proper_serve (proper_upTo hps n) (hps p (List.mem_of_getElem? hp))).2

end Run

/-- Once nothing more can be served nothing changes. -/
theorem upTo_of_exhausted (hstop : (upTo m t ps i).exhausted t = true) (hn : i ≤ n) :
    upTo m t ps n = upTo m t ps i := by
  induction n, hn using Nat.le_induction with
  | base => rfl
  | succ n _ ih =>
    cases hp : ps[n]? with
    | none => rw [upTo_succ_of_none hp, ih]
    | some p => rw [upTo_succ hp, ih, if_pos hstop]

/-- The pair at position `i` was not held back, and by the time `n` it is together in zone `z`. -/
structure Tied (m : CostModel) (t : Trap) (ps : List Pair) (n z i : Nat) : Prop where
  unmarked : ∀ p, ps[i]? = some p → ∀ q, p.uses q = true → (upTo m t ps i).waits q = false
  together : ∀ p, ps[i]? = some p → (upTo m t ps n).tracker.Together z p

/-- If a pair is tied, so is an earlier one with a common qubit, as long as the zone has a spot. -/
theorem Tied.of_meetsAt (hps : ∀ p ∈ ps, ∀ q, p.uses q = true → q < t.numQubits) {k : Nat}
    (hk : Tied m t ps n z k) (hkj : k ≤ j) (hjn : j ≤ n)
    (hgoes : (upTo m t ps j).exhausted t = false)
    (hroom : 0 < (upTo m t ps j).tracker.gateRoom t z)
    (hmeets : MeetsAt (fun p r => p.meets r = true) ps i k) : Tied m t ps n z i := by
  obtain ⟨hik, p, r, hp, hr, hpr⟩ := hmeets
  obtain ⟨q, hpq, hrq⟩ := Pair.meets_iff.1 hpr
  have hpqs := hps p (List.mem_of_getElem? hp)
  -- the pair was served, since serving went on until later
  have hserve : upTo m t ps (i + 1) = serve m t (upTo m t ps i) p := by
    rw [upTo_succ hp, if_neg]
    intro hstop
    rw [upTo_of_exhausted hstop (by omega : i ≤ j), hstop] at hgoes
    simp at hgoes
  -- the common qubit is not marked by it, since it is still unmarked later
  have hfree : (serve m t (upTo m t ps i) p).waits q = false := by
    rw [← hserve, Bool.eq_false_iff]
    intro hwait
    have := (later_upTo (m := m) hps (by omega : i + 1 ≤ k)).waits q hwait
    rw [hk.unmarked r hr q hrq] at this
    simp at this
  obtain ⟨hlocked, hzone⟩ := hk.together r hr q hrq
  obtain ⟨hunmarked, ⟨w, htogether⟩ | ⟨hq, hfull⟩⟩ :=
    serve_of_not_waits (proper_upTo hps i) hpqs hpq hfree
  · rw [← hserve] at htogether
    have hend := (later_upTo hps (by omega : i + 1 ≤ n)).together htogether
    obtain rfl : w = z := (hend q hpq).2.symm.trans hzone
    refine ⟨fun p' hp' => ?_, fun p' hp' => ?_⟩
    · obtain rfl := Option.some.inj (hp.symm.trans hp')
      exact hunmarked
    · obtain rfl := Option.some.inj (hp.symm.trans hp')
      exact hend
  · -- it is locked into a zone that was full by then, and that is the zone with a spot
    exfalso
    obtain ⟨-, hsame⟩ := (later_upTo (m := m) hps (by omega : i ≤ n)).keeps q hq
    have hless := (later_upTo (m := m) hps (by omega : i ≤ j)).room z
    rw [← hsame, hzone] at hfull
    omega

/-- Serving the pairs of some rounds in order, let the pair at position `j` lock a qubit that was
not locked before. From then on its qubits are locked into one gate zone, and so are, into the same
zone, the qubits of every earlier pair that it hangs on by a chain of common qubits. -/
theorem lock_together_of_hangsOn (m : CostModel) (t : Trap) {pairs : List Pair} {rounds : Rounds}
    (hrounds : Rounds.ofPairsBelow t.numQubits pairs = .ok rounds) {j : Nat} {p : Pair}
    (hp : rounds.flatten[j]? = some p) {q : Nat}
    (hbefore : (upTo m t rounds.flatten j).tracker.isLocked q = false)
    (hafter : (upTo m t rounds.flatten (j + 1)).tracker.isLocked q = true) :
    ∃ z, t.arch.isGateZone z = true ∧ ∀ n > j,
      (upTo m t rounds.flatten n).tracker.Together z p ∧
      ∀ i r, rounds.flatten[i]? = some r →
        HangsOn (fun p r => p.meets r = true) rounds.flatten i j →
        (upTo m t rounds.flatten n).tracker.Together z r := by
  obtain ⟨rfl, hpairs⟩ := Rounds.ofPairsBelow_eq_ok_iff.1 hrounds
  have hps : ∀ r ∈ (Rounds.ofPairs pairs).flatten, ∀ u, r.uses u = true → u < t.numQubits := by
    intro r hr
    have hlt := hpairs r ((Rounds.perm_ofPairs pairs).mem_iff.1 hr)
    exact Pair.forall_uses hlt.1 hlt.2
  generalize (Rounds.ofPairs pairs).flatten = ps at *
  have hgoes : (upTo m t ps j).exhausted t = false := by
    rw [Bool.eq_false_iff]
    intro hstop
    rw [upTo_succ hp, if_pos hstop, hbefore] at hafter
    simp at hafter
  rw [upTo_succ hp, if_neg (by simp [hgoes])] at hafter
  obtain ⟨hunmarked, z, hgate, hroom, htogether⟩ :=
    serve_of_locks (proper_upTo hps j) (hps p (List.mem_of_getElem? hp)) hbefore hafter
  refine ⟨z, hgate, fun n hn => ?_⟩
  have hend : (upTo m t ps n).tracker.Together z p := by
    refine (later_upTo hps hn).together ?_
    rw [upTo_succ hp, if_neg (by simp [hgoes])]
    exact htogether
  have htied : Tied m t ps n z j := by
    refine ⟨fun p' hp' => ?_, fun p' hp' => ?_⟩
    · obtain rfl := Option.some.inj (hp.symm.trans hp')
      exact hunmarked
    · obtain rfl := Option.some.inj (hp.symm.trans hp')
      exact hend
  refine ⟨hend, fun i r hr hchain => ?_⟩
  -- along the chain, back from the pair
  have hall : i ≤ j ∧ Tied m t ps n z i := by
    clear hr
    induction hchain using Relation.TransGen.head_induction_on with
    | single h => exact ⟨h.1.le, htied.of_meetsAt hps le_rfl hn.le hgoes hroom h⟩
    | head h _ ih =>
      exact ⟨h.1.le.trans ih.1, ih.2.of_meetsAt hps ih.1 hn.le hgoes hroom h⟩
  exact hall.2.together r hr

/-- Three pairs in a row, each with a qubit of the one before: all end in the zone of the first. -/
theorem lock_together_of_hangsOn_row :
    let ps : List Pair := [(0, 1), (1, 2), (2, 3)]
    ∃ t, Trap.ofPlacement .fourZonesInALine 4 [[0], [1], [2], [3]] = .ok t ∧
      Rounds.ofPairsBelow t.numQubits ps = .ok [[(0, 1)], [(1, 2)], [(2, 3)]] ∧
      (upTo .shuttleSwap t ps 2).tracker.isLocked 3 = false ∧
      (upTo .shuttleSwap t ps 3).tracker.isLocked 3 = true ∧
      ∃ z, t.arch.isGateZone z = true ∧
        (upTo .shuttleSwap t ps 3).tracker.Together z (2, 3) ∧
        (upTo .shuttleSwap t ps 3).tracker.Together z (0, 1) := by
  intro ps
  obtain ⟨t, ht⟩ : ∃ t, Trap.ofPlacement .fourZonesInALine 4 [[0], [1], [2], [3]] = .ok t :=
    ⟨_, rfl⟩
  obtain ⟨hrounds, hbefore, hafter⟩ :
      Rounds.ofPairsBelow t.numQubits ps = .ok [[(0, 1)], [(1, 2)], [(2, 3)]] ∧
        (upTo .shuttleSwap t ps 2).tracker.isLocked 3 = false ∧
        (upTo .shuttleSwap t ps 3).tracker.isLocked 3 = true := by
    obtain rfl := Except.ok.inj ht
    decide +kernel
  have hchain : HangsOn (fun p r => p.meets r = true) ps 0 2 :=
    .tail (b := 1) (.single ⟨by decide, (0, 1), (1, 2), rfl, rfl, by decide⟩)
      ⟨by decide, (1, 2), (2, 3), rfl, rfl, by decide⟩
  obtain ⟨z, hz, hall⟩ := lock_together_of_hangsOn .shuttleSwap t hrounds (j := 2) (p := (2, 3)) rfl
    hbefore hafter
  obtain ⟨hlast, hbehind⟩ := hall 3 (by decide)
  exact ⟨t, ht, hrounds, hbefore, hafter, z, hz, hlast, hbehind 0 (0, 1) rfl hchain⟩

end Greedy

end IonTrap
