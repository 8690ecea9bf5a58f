import IonTrap.Proofs.Rounds
import IonTrap.Proofs.Selection.Rest

/-!
# Greedy targets

Serving a pair comes to one of five things (`Greedy.Served`). All of them keep the tracker sound,
and so does locking single qubits, so that what greedy selection returns is a valid placement
(`selectGreedy_spec`). On a connected trap with a spare spot in every zone and a gate zone for two
it always returns one, and the first pair of the program, or the first single qubit if there is no
pair, gets its gate zone.
-/

namespace IonTrap

namespace Architecture

variable {a : Architecture} {z : Nat}

theorem lt_of_isGateZone (h : a.isGateZone z = true) : z < a.numZones := by
  by_contra hz
  rw [isGateZone, List.getElem?_eq_none (by simpa [numZones] using hz)] at h
  simp at h

theorem mem_gateZones_iff : z ∈ a.gateZones ↔ a.isGateZone z = true := by
  simp only [gateZones, List.mem_filter, List.mem_range]
  exact ⟨fun h => h.2, fun h => ⟨lt_of_isGateZone h, h⟩⟩

end Architecture

namespace Tracker

variable {t : Trap} {m : CostModel} {k : Tracker}

/-! ## The cheapest gate zone -/

/-- Compares a zone with the best one so far. -/
def consider (k : Tracker) (m : CostModel) (t : Trap) (qs : List (Nat × Nat))
    (best : Option (Nat × Nat)) (z : Nat) : Option (Nat × Nat) :=
  if k.gateRoom t z < qs.length then best
  else
    match price? m t qs z with
    | some c => if best.all fun b => c < b.1 then some (c, z) else best
    | none => best

theorem bestGateZone?_eq (k : Tracker) (m : CostModel) (t : Trap) (qs : List (Nat × Nat)) :
    k.bestGateZone? m t qs = (t.arch.gateZones.foldl (k.consider m t qs) none).map (·.2) := rfl

theorem consider_cases (qs : List (Nat × Nat)) (best : Option (Nat × Nat)) (z : Nat) :
    k.consider m t qs best z = best ∨
      ∃ b, k.consider m t qs best z = some b ∧ b.2 = z ∧ qs.length ≤ k.gateRoom t z := by
  unfold consider
  split_ifs with hroom
  · exact .inl rfl
  · split
    · next c _ =>
      split_ifs
      · exact .inr ⟨(c, z), rfl, rfl, by omega⟩
      · exact .inl rfl
    · exact .inl rfl

theorem bestGateZone?_spec {qs : List (Nat × Nat)} {z : Nat}
    (h : k.bestGateZone? m t qs = some z) :
    t.arch.isGateZone z = true ∧ qs.length ≤ k.gateRoom t z := by
  rw [bestGateZone?_eq] at h
  obtain ⟨b, hb, rfl⟩ := Option.map_eq_some_iff.1 h
  have hchoice := foldl_choice (consider_cases (k := k) (m := m) (t := t) qs) t.arch.gateZones none
  rcases hchoice with hnone | ⟨z, hz, b', hb', hz', hroom⟩
  · simp [hnone] at hb
  · obtain rfl := Option.some.inj (hb.symm.trans hb')
    subst hz'
    exact ⟨Architecture.mem_gateZones_iff.1 hz, hroom⟩

/-- A gate zone with room that the qubits can get to makes the search succeed. -/
theorem exists_bestGateZone {qs : List (Nat × Nat)} {z : Nat} (hz : z ∈ t.arch.gateZones)
    (hroom : qs.length ≤ k.gateRoom t z) (hprice : ∃ c, price? m t qs z = some c) :
    ∃ w, k.bestGateZone? m t qs = some w := by
  have hfound : ∀ best, k.consider m t qs best z ≠ none := by
    intro best
    obtain ⟨c, hc⟩ := hprice
    unfold consider
    rw [if_neg (by omega), hc]
    dsimp only
    split_ifs with hbest
    · simp
    · rintro rfl
      simp at hbest
  obtain ⟨b, hb⟩ := exists_foldl_choice (consider_cases (k := k) (m := m) (t := t) qs) hz hfound
  exact ⟨b.2, by rw [bestGateZone?_eq, hb, Option.map_some]⟩

/-! ## Single qubits -/

/-- The gate zone for a free qubit: its own if that has a spot, or else the cheapest. -/
def gateZoneFor? (k : Tracker) (m : CostModel) (t : Trap) (q : Nat) : Option Nat :=
  if t.arch.isGateZone (k.zoneOf q) && 1 ≤ k.gateRoom t (k.zoneOf q) then some (k.zoneOf q)
  else k.bestGateZone? m t [(q, k.zoneOf q)]

theorem gateZoneFor?_spec {q z : Nat} (h : k.gateZoneFor? m t q = some z) :
    t.arch.isGateZone z = true ∧ 1 ≤ k.gateRoom t z := by
  unfold gateZoneFor? at h
  split_ifs at h with hroomy
  · obtain rfl := Option.some.inj h
    simpa using hroomy
  · exact bestGateZone?_spec h

theorem lockSingles_cons {i : Instruction} {q : Nat} {qs : List Nat} (hi : i.isBarrier = false)
    (hq : i.qubits = q :: qs) (is : List Instruction) (k : Tracker) :
    lockSingles m t (i :: is) k =
      if !k.hasQubit q then .error .noSuchIndex
      else if k.isLocked q then lockSingles m t is k
      else
        match k.gateZoneFor? m t q with
        | some z => lockSingles m t is (k.lock q (k.zoneOf q) z)
        | none => .ok k := by
  rw [lockSingles, hi, hq, gateZoneFor?]
  dsimp only
  split_ifs <;> rfl

theorem lockSingles_skip {i : Instruction} (hi : i.isBarrier = true ∨ i.qubits = [])
    (is : List Instruction) (k : Tracker) : lockSingles m t (i :: is) k = lockSingles m t is k := by
  rw [lockSingles]
  rcases hi with hi | hi
  · rw [hi]
  · rw [hi]
    cases i.isBarrier <;> rfl

/-- An instruction names a first qubit to be locked, or nothing is done with it. -/
theorem single_or_skip (i : Instruction) :
    (∃ q qs, i.isBarrier = false ∧ i.qubits = q :: qs) ∨ (i.isBarrier = true ∨ i.qubits = []) := by
  cases hb : i.isBarrier with
  | true => exact .inr (.inl rfl)
  | false =>
    cases hq : i.qubits with
    | nil => exact .inr (.inr rfl)
    | cons q qs => exact .inl ⟨q, qs, rfl, rfl⟩

theorem Sound.hasQubit_iff (h : k.Sound t) (q : Nat) : k.hasQubit q = true ↔ q < t.numQubits := by
  rw [hasQubit, h.length_zones, decide_eq_true_iff]

/-- Locking a free qubit into the gate zone that was found for it. -/
theorem Sound.grows_gateZoneFor (h : k.Sound t) {q z : Nat} (hq : q < t.numQubits)
    (hfree : k.isLocked q = false) (hz : k.gateZoneFor? m t q = some z) :
    Grows t k (k.lock q (k.zoneOf q) z) := by
  obtain ⟨hgate, hroom⟩ := gateZoneFor?_spec hz
  rw [h.zone_free q hfree hq]
  refine h.grows_lock hq hfree (Architecture.lt_of_isGateZone hgate) ?_
  rw [gateRoom] at hroom
  omega

/-- Locking single qubits keeps the tracker sound. -/
theorem lockSingles_spec {k' : Tracker} {is : List Instruction} (h : k.Sound t)
    (hk : lockSingles m t is k = .ok k') : Grows t k k' := by
  induction is generalizing k with
  | nil =>
    obtain rfl := Except.ok.inj hk
    exact h.grows_self
  | cons i is ih =>
    rcases single_or_skip i with ⟨q, qs, hi, hq⟩ | hskip
    · rw [lockSingles_cons hi hq] at hk
      split at hk
      · simp at hk
      · next hhas =>
        have hlt : q < t.numQubits := (h.hasQubit_iff q).1 (by simpa using hhas)
        split at hk
        · exact ih h hk
        · next hfree =>
          split at hk
          · next z hz =>
            have hgrow := h.grows_gateZoneFor hlt (by simpa using hfree) hz
            exact hgrow.trans (ih hgrow.sound hk)
          · obtain rfl := Except.ok.inj hk
            exact h.grows_self
    · rw [lockSingles_skip hskip] at hk
      exact ih h hk

theorem exists_lockSingles {is : List Instruction} (h : k.Sound t)
    (his : ∀ i ∈ is, ∀ q ∈ i.qubits, q < t.numQubits) :
    ∃ k', lockSingles m t is k = .ok k' := by
  induction is generalizing k with
  | nil => exact ⟨k, rfl⟩
  | cons i is ih =>
    have hrest : ∀ j ∈ is, ∀ q ∈ j.qubits, q < t.numQubits :=
      fun j hj => his j (List.mem_cons_of_mem _ hj)
    rcases single_or_skip i with ⟨q, qs, hi, hq⟩ | hskip
    · have hlt : q < t.numQubits := his i List.mem_cons_self q (by simp [hq])
      rw [lockSingles_cons hi hq, (h.hasQubit_iff q).2 hlt]
      simp only [Bool.not_true, Bool.false_eq_true, if_false]
      split
      · exact ih h hrest
      · next hfree =>
        split
        · next z hz => exact ih (h.grows_gateZoneFor hlt (by simpa using hfree) hz).sound hrest
        · exact ⟨k, rfl⟩
    · rw [lockSingles_skip hskip]
      exact ih h hrest

end Tracker

/-! ## Pairs -/

namespace Tracker

/-- All qubits of a pair are locked into one zone. -/
def Together (k : Tracker) (z : Nat) (p : Pair) : Prop :=
  ∀ q, p.uses q = true → k.isLocked q = true ∧ k.zoneOf q = z

/-- Locks the qubits of a pair into a zone. -/
def lockBoth (k : Tracker) (p : Pair) (z : Nat) : Tracker :=
  (k.lock p.1 (k.zoneOf p.1) z).lock p.2 (k.zoneOf p.2) z

variable {t : Trap} {k : Tracker} {p : Pair} {z : Nat}

theorem together_lockBoth (h : k.Sized t) (h₁ : p.1 < t.numQubits) (h₂ : p.2 < t.numQubits)
    (z : Nat) : (k.lockBoth p z).Together z p := by
  refine Pair.forall_uses ?_ ?_ <;>
    rw [lockBoth, isLocked_lock (h.lock _) h₂, zoneOf_lock (h.lock _) h₂]
  · rw [isLocked_lock h h₁, zoneOf_lock h h₁]
    simp
  · simp

/-- Two free qubits are locked into a zone with room for both. -/
theorem Sound.grows_lockBoth (h : k.Sound t) (hp : p.1 < t.numQubits ∧ p.2 < t.numQubits)
    (hne : p.1 ≠ p.2) (h₁ : k.isLocked p.1 = false) (h₂ : k.isLocked p.2 = false)
    (hz : z < t.arch.numZones) (hroom : 2 ≤ k.gateRoom t z) : Grows t k (k.lockBoth p z) := by
  rw [gateRoom] at hroom
  rw [lockBoth, h.zone_free p.1 h₁ hp.1, h.zone_free p.2 h₂ hp.2]
  -- the zone has room for two, so there is still a spot once the first qubit is locked
  have hfirst := h.grows_lock hp.1 h₁ hz (by omega)
  have hfree : (k.lock p.1 (t.zoneOf p.1) z).isLocked p.2 = false := by
    rw [isLocked_lock h.toSized hp.1, if_neg (Ne.symm hne), h₂]
  have hsecond := hfirst.sound.grows_lock hp.2 hfree hz (by
    rw [numNew_lock h.toSized hz, if_pos rfl]
    omega)
  exact hfirst.trans hsecond

theorem Sound.zoneOf_lt_of_isLocked (h : k.Sound t) {q : Nat} (hq : k.isLocked q = true) :
    k.zoneOf q < t.arch.numZones := by
  have hmem := (h.mem_newcomers q (k.zoneOf q)).2 ⟨hq, rfl⟩
  rw [← h.length_assembled]
  by_contra hz
  rw [newcomers, List.getD_eq_default _ _ (by omega)] at hmem
  simp at hmem

end Tracker

namespace Greedy

variable {t : Trap} {m : CostModel} {g : Greedy} {p : Pair}

@[simp] theorem tracker_mark (g : Greedy) (q : Nat) : (g.mark q).tracker = g.tracker := by
  unfold mark
  split_ifs <;> rfl

theorem commonZone?_spec {k : Tracker} {z : Nat} (h : commonZone? m t k p = some z) :
    t.arch.isGateZone z = true ∧ 2 ≤ k.gateRoom t z := by
  unfold commonZone? at h
  dsimp only at h
  split_ifs at h with h₀ h₁
  · obtain rfl := Option.some.inj h
    simpa using h₀
  · obtain rfl := Option.some.inj h
    simpa using h₁
  · exact Tracker.bestGateZone?_spec h

/-- The qubits of a pair, in one order or the other. -/
def IsPair (p : Pair) (q r : Nat) : Prop := p = (q, r) ∨ p = (r, q)

theorem IsPair.uses_iff {q r : Nat} (h : IsPair p q r) {u : Nat} :
    p.uses u = true ↔ u = q ∨ u = r := by
  simp only [Pair.uses, Bool.or_eq_true, beq_iff_eq]
  rcases h with rfl | rfl <;> dsimp only <;> omega

/-- What serving a pair may come to. -/
inductive Served (m : CostModel) (t : Trap) (g : Greedy) (p : Pair) : Greedy → Prop
  /-- The pair is held back. -/
  | heldBack : Served m t g p ((g.mark p.1).mark p.2)
  /-- The pair is together already. -/
  | together (hwaits : ∀ q, p.uses q = true → g.waits q = false)
      (hlocked : g.tracker.Together (g.tracker.zoneOf p.1) p) : Served m t g p g
  /-- One qubit is locked into a zone without another spot. -/
  | full {q r : Nat} (hp : IsPair p q r) (hwaits : ∀ q, p.uses q = true → g.waits q = false)
      (hq : g.tracker.isLocked q = true) (hr : g.tracker.isLocked r = false)
      (hroom : g.tracker.gateRoom t (g.tracker.zoneOf q) = 0) : Served m t g p (g.mark r)
  /-- One qubit is locked, and the other is locked beside it. -/
  | joined {q r : Nat} (hp : IsPair p q r) (hwaits : ∀ q, p.uses q = true → g.waits q = false)
      (hq : g.tracker.isLocked q = true) (hr : g.tracker.isLocked r = false)
      (hroom : 0 < g.tracker.gateRoom t (g.tracker.zoneOf q)) :
      Served m t g p
        { g with tracker := g.tracker.lock r (g.tracker.zoneOf r) (g.tracker.zoneOf q) }
  /-- Both qubits are locked into a common zone. -/
  | paired {z : Nat} (hwaits : ∀ q, p.uses q = true → g.waits q = false)
      (hfree : ∀ q, p.uses q = true → g.tracker.isLocked q = false)
      (hz : commonZone? m t g.tracker p = some z) :
      Served m t g p { g with tracker := g.tracker.lockBoth p z }

theorem served_lockNextTo {q r : Nat} (hp : IsPair p q r)
    (hwaits : ∀ q, p.uses q = true → g.waits q = false) (hq : g.tracker.isLocked q = true)
    (hr : g.tracker.isLocked r = false) : Served m t g p (lockNextTo t g q r) := by
  unfold lockNextTo
  dsimp only
  split_ifs with hroom
  · exact .full hp hwaits hq hr hroom
  · exact .joined hp hwaits hq hr (by omega)

theorem served_serve (m : CostModel) (t : Trap) (g : Greedy) (p : Pair) :
    Served m t g p (serve m t g p) := by
  unfold serve
  split
  · exact .heldBack
  · next hwait =>
    simp only [Bool.or_eq_true, not_or, Bool.not_eq_true] at hwait
    have hwaits := Pair.forall_uses (P := fun q => g.waits q = false) hwait.1 hwait.2
    split
    · next h₁ h₂ =>
      split_ifs with hzone
      · exact .together hwaits (Pair.forall_uses ⟨h₁, rfl⟩ ⟨h₂, hzone.symm⟩)
      · exact .heldBack
    · next h₁ h₂ => exact served_lockNextTo (.inl rfl) hwaits h₁ h₂
    · next h₁ h₂ => exact served_lockNextTo (.inr rfl) hwaits h₂ h₁
    · next h₁ h₂ =>
      unfold lockPair
      split
      · exact .heldBack
      · next z hz => exact .paired hwaits (Pair.forall_uses h₁ h₂) hz

/-- Serving a pair of different qubits keeps the tracker sound. -/
theorem serve_spec (h : g.tracker.Sound t) (hp : p.1 < t.numQubits ∧ p.2 < t.numQubits)
    (hne : p.1 ≠ p.2) : Tracker.Grows t g.tracker (serve m t g p).tracker := by
  have hserved := served_serve m t g p
  generalize serve m t g p = g' at hserved ⊢
  cases hserved with
  | heldBack => simpa using h.grows_self
  | together => exact h.grows_self
  | full => simpa using h.grows_self
  | @joined q r hqr _ hq hr hroom =>
    have hlt := Pair.forall_uses (P := (· < t.numQubits)) hp.1 hp.2 r (hqr.uses_iff.2 (.inr rfl))
    rw [Tracker.gateRoom] at hroom
    dsimp only
    rw [h.zone_free r hr hlt]
    exact h.grows_lock hlt hr (h.zoneOf_lt_of_isLocked hq) (by omega)
  | @paired z _ hfree hz =>
    obtain ⟨hgate, hroom⟩ := commonZone?_spec hz
    exact h.grows_lockBoth hp hne (hfree _ p.uses_fst) (hfree _ p.uses_snd)
      (Architecture.lt_of_isGateZone hgate) hroom

theorem serveAll_spec {ps : List Pair} (h : g.tracker.Sound t)
    (hps : ∀ p ∈ ps, p.1 < p.2 ∧ p.2 < t.numQubits) :
    Tracker.Grows t g.tracker (serveAll m t ps g).tracker := by
  induction ps generalizing g with
  | nil => exact h.grows_self
  | cons p ps ih =>
    obtain ⟨hlt, hn⟩ := hps p List.mem_cons_self
    rw [serveAll]
    split_ifs
    · exact h.grows_self
    · have hgrow := serve_spec (m := m) h ⟨hlt.trans hn, hn⟩ (Nat.ne_of_lt hlt)
      exact hgrow.trans (ih hgrow.sound fun r hr => hps r (List.mem_cons_of_mem _ hr))

end Greedy

/-! ## Valid targets -/

/-- Locks qubits for the remaining instructions: the pairs, or single qubits if there are none. -/
def lockBusy (m : CostModel) (t : Trap) (is : List Instruction) : Except CompileError Tracker := do
  let rounds ← liftTrap (Rounds.ofPairsBelow t.numQubits (gatePairs is))
  if rounds.isEmpty then liftTrap (Tracker.lockSingles m t is (.ofTrap t))
  else return (Greedy.serveAll m t rounds.flatten ⟨.ofTrap t, []⟩).tracker

theorem selectGreedy_eq (m : CostModel) (t : Trap) (is : List Instruction) :
    selectGreedy m t is = do
      let k ← lockBusy m t is
      let k ← k.placeRest m t
      return k.assembled := by
  unfold selectGreedy lockBusy
  cases liftTrap (Rounds.ofPairsBelow t.numQubits (gatePairs is)) with
  | error e => rfl
  | ok rounds =>
    simp only [ok_bind]
    split_ifs <;> rfl

section Busy

variable {m : CostModel} {t : Trap} {is : List Instruction} (ht : t.Consistent)
  (his : ∀ i ∈ is, i.qubits.Nodup ∧ ∀ q ∈ i.qubits, q < t.numQubits)
include ht his

theorem sound_of_lockBusy {k : Tracker} (h : lockBusy m t is = .ok k) : k.Sound t := by
  obtain ⟨rounds, hrounds, h⟩ := bind_eq_ok_iff.1 h
  split at h
  · exact (Tracker.lockSingles_spec (Tracker.sound_ofTrap ht) (liftTrap_eq_ok_iff.1 h)).sound
  · obtain rfl := Except.ok.inj h
    obtain ⟨rfl, -⟩ := Rounds.ofPairsBelow_eq_ok_iff.1 (liftTrap_eq_ok_iff.1 hrounds)
    have hpairs : ∀ p ∈ (Rounds.ofPairs (gatePairs is)).flatten, p.1 < p.2 ∧ p.2 < t.numQubits :=
      fun p hp => gatePairs_spec his p ((Rounds.perm_ofPairs _).mem_iff.1 hp)
    exact (Greedy.serveAll_spec (g := ⟨.ofTrap t, []⟩) (Tracker.sound_ofTrap ht) hpairs).sound

theorem exists_lockBusy (m : CostModel) : ∃ k, lockBusy m t is = .ok k := by
  have hpairs : ∀ p ∈ gatePairs is, p.1 < t.numQubits ∧ p.2 < t.numQubits := by
    intro p hp
    have := gatePairs_spec his p hp
    omega
  rw [lockBusy, Rounds.ofPairsBelow_eq_ok hpairs, liftTrap_ok, ok_bind]
  split_ifs
  · obtain ⟨k, hk⟩ := Tracker.exists_lockSingles (m := m) (Tracker.sound_ofTrap ht)
      fun i hi => (his i hi).2
    exact ⟨k, by rw [hk, liftTrap_ok]⟩
  · exact ⟨_, rfl⟩

end Busy

section Valid

variable {t : Trap} {m : CostModel} {is : List Instruction} {target : Placement}
  (ht : t.Consistent) (hlegal : t.arch.Legal)
include ht hlegal

/-- What is assembled once the rest is placed is a valid placement. -/
theorem Tracker.fits_of_placeRest {k k' : Tracker} (h : k.Sound t) (hk : k.placeRest m t = .ok k') :
    k'.assembled.Fits t.arch t.numQubits := by
  obtain ⟨hgrows, hall⟩ := placeRest_spec ht hlegal h hk
  exact hgrows.sound.fits_of_locked hall

theorem selectSingles_spec (h : selectSingles m t is = .ok target) :
    target.Fits t.arch t.numQubits := by
  obtain ⟨k, hk, h⟩ := bind_eq_ok_iff.1 h
  obtain ⟨k', hk', h⟩ := bind_eq_ok_iff.1 h
  obtain rfl := Except.ok.inj h
  have hgrow := Tracker.lockSingles_spec (Tracker.sound_ofTrap ht) (liftTrap_eq_ok_iff.1 hk)
  exact Tracker.fits_of_placeRest ht hlegal hgrow.sound hk'

/-- Greedy selection returns valid placements only. -/
theorem selectGreedy_spec (his : ∀ i ∈ is, i.qubits.Nodup ∧ ∀ q ∈ i.qubits, q < t.numQubits)
    (h : selectGreedy m t is = .ok target) : target.Fits t.arch t.numQubits := by
  rw [selectGreedy_eq] at h
  obtain ⟨k, hk, h⟩ := bind_eq_ok_iff.1 h
  obtain ⟨k', hk', h⟩ := bind_eq_ok_iff.1 h
  obtain rfl := Except.ok.inj h
  exact Tracker.fits_of_placeRest ht hlegal (sound_of_lockBusy ht his hk) hk'

end Valid

/-! ## Targets are found, and the first instruction is served -/

/-- A trap on which circuits can be routed: it is connected, every zone has a spot beyond its gate
capacity, no zone is above that now, and some gate zone takes two qubits. -/
structure Trap.Navigable (t : Trap) : Prop where
  consistent : t.Consistent
  legal : t.arch.Legal
  connected : t.arch.Connected
  spare : t.arch.Spare
  settled : t.Settled
  pairZone : ∃ z ∈ t.arch.gateZones, 2 ≤ t.arch.gateCapacity z

theorem Tracker.gateRoom_ofTrap (t : Trap) (z : Nat) :
    (ofTrap t).gateRoom t z = t.arch.gateCapacity z := by
  simp [gateRoom, numNew, ofTrap]

/-- Some gate zone of a target holds all qubits of an instruction. -/
def Placement.Serves (a : Architecture) (target : Placement) (i : Instruction) : Prop :=
  ∃ z, a.isGateZone z = true ∧ ∀ q ∈ i.qubits, q ∈ target.getD z []

section Navigable

variable {t : Trap} {m : CostModel} (h : t.Navigable)
include h

theorem Trap.Navigable.passing (source : Nat) : t.Passing source 1 := by
  intro w hw _
  have hle := h.settled w
  have hroom := (h.spare w hw).1
  rw [Trap.freeSpace]
  omega

/-- Qubits can be priced into any zone. -/
theorem Tracker.exists_price {z : Nat} (hz : z < t.arch.numZones) (qs : List (Nat × Nat))
    (hqs : ∀ q ∈ qs, q.2 < t.arch.numZones) : ∃ c, price? m t qs z = some c := by
  have hall : ∃ cs, qs.mapM (fun q => m.single t q.1 q.2 z) = some cs := by
    induction qs with
    | nil => exact ⟨[], rfl⟩
    | cons q qs ih =>
      obtain ⟨c, hc⟩ := CostModel.exists_single h.consistent h.legal h.connected m q.1
        (hqs q List.mem_cons_self) hz (h.passing q.2)
      obtain ⟨cs, hcs⟩ := ih fun r hr => hqs r (List.mem_cons_of_mem _ hr)
      exact ⟨c :: cs, by rw [List.mapM_cons, hc, hcs]; rfl⟩
  obtain ⟨cs, hcs⟩ := hall
  exact ⟨wrap (total cs), by rw [price?, hcs, Option.map_some]⟩

theorem Tracker.zoneOf_ofTrap_lt {q : Nat} (hq : q < t.numQubits) :
    (ofTrap t).zoneOf q < t.arch.numZones := by
  have hsound := sound_ofTrap h.consistent
  rw [hsound.zone_free q (isLocked_ofTrap t q) hq]
  exact h.consistent.zoneOf_lt hq

/-- At first every pair has a common zone. -/
theorem Greedy.exists_commonZone {p : Pair} (hp : p.1 < t.numQubits ∧ p.2 < t.numQubits) :
    ∃ z, commonZone? m t (.ofTrap t) p = some z := by
  unfold commonZone?
  dsimp only
  split_ifs
  · exact ⟨_, rfl⟩
  · exact ⟨_, rfl⟩
  · obtain ⟨z, hz, hcap⟩ := h.pairZone
    have hlt := Architecture.lt_of_isGateZone (Architecture.mem_gateZones_iff.1 hz)
    refine Tracker.exists_bestGateZone hz ?_ (Tracker.exists_price h hlt _ ?_)
    · rw [Tracker.gateRoom_ofTrap t]
      exact hcap
    · simp [Tracker.zoneOf_ofTrap_lt h hp.1, Tracker.zoneOf_ofTrap_lt h hp.2]

/-- The first pair to be served is locked into one gate zone. -/
theorem Greedy.serveAll_first {p : Pair} {ps : List Pair}
    (hps : ∀ r ∈ p :: ps, r.1 < r.2 ∧ r.2 < t.numQubits) :
    ∃ z, t.arch.isGateZone z = true ∧
      (serveAll m t (p :: ps) ⟨.ofTrap t, []⟩).tracker.Together z p := by
  obtain ⟨hlt, hn⟩ := hps p List.mem_cons_self
  have hsound := Tracker.sound_ofTrap h.consistent
  have hfree := Tracker.isLocked_ofTrap t
  -- nobody waits yet and the gate zone for two has all its spots, so serving starts
  have hopen : exhausted t ⟨.ofTrap t, []⟩ = false := by
    obtain ⟨z, hz, hcap⟩ := h.pairZone
    have hsome : (t.arch.gateZones.all fun z => (Tracker.ofTrap t).gateRoom t z == 0) = false := by
      rw [List.all_eq_false]
      refine ⟨z, hz, ?_⟩
      rw [Tracker.gateRoom_ofTrap t]
      simpa using by omega
    have hcount : (0 == t.numQubits) = false := by simpa using by omega
    simp [exhausted, hsome, hcount]
  obtain ⟨z, hz⟩ := exists_commonZone (m := m) h ⟨hlt.trans hn, hn⟩
  have hserve : serve m t ⟨.ofTrap t, []⟩ p = ⟨(Tracker.ofTrap t).lockBoth p z, []⟩ := by
    simp [serve, waits, hfree, lockPair, hz, Tracker.lockBoth]
  have hgrow := serve_spec (m := m) (g := ⟨.ofTrap t, []⟩) hsound ⟨hlt.trans hn, hn⟩
    (Nat.ne_of_lt hlt)
  rw [hserve] at hgrow
  have hrest := serveAll_spec (m := m) (g := ⟨(Tracker.ofTrap t).lockBoth p z, []⟩) hgrow.sound
    fun r hr => hps r (List.mem_cons_of_mem _ hr)
  refine ⟨z, (commonZone?_spec hz).1, fun q hq => ?_⟩
  rw [serveAll, hopen, hserve]
  obtain ⟨hin, hzone⟩ := Tracker.together_lockBoth hsound.toSized (hlt.trans hn) hn z q hq
  obtain ⟨hin', hzone'⟩ := hrest.keeps q hin
  exact ⟨hin', hzone'.trans hzone⟩

/-- With a pair to serve, a target is found that has the first pair in one gate zone. -/
theorem exists_selectPairs {is : List Instruction}
    (his : ∀ i ∈ is, i.qubits.Nodup ∧ ∀ q ∈ i.qubits, q < t.numQubits) {p : Pair} {ps : List Pair}
    (hpairs : gatePairs is = p :: ps) :
    ∃ target, selectGreedy m t is = .ok target ∧ ∃ z, t.arch.isGateZone z = true ∧
      p.1 ∈ target.getD z [] ∧ p.2 ∈ target.getD z [] := by
  have hlist := gatePairs_spec his
  rw [hpairs] at hlist
  obtain ⟨r, rs, hrounds⟩ := Rounds.ofPairs_cons p ps
  have hflat : (Rounds.ofPairs (p :: ps)).flatten = p :: (r ++ rs.flatten) := by
    rw [hrounds, List.flatten_cons, List.cons_append]
  have hall : ∀ s ∈ p :: (r ++ rs.flatten), s.1 < s.2 ∧ s.2 < t.numQubits := by
    rw [← hflat]
    exact fun s hs => hlist s ((Rounds.perm_ofPairs _).mem_iff.1 hs)
  have hbelow : Rounds.ofPairsBelow t.numQubits (p :: ps) = .ok (Rounds.ofPairs (p :: ps)) :=
    Rounds.ofPairsBelow_eq_ok fun s hs => ⟨(hlist s hs).1.trans (hlist s hs).2, (hlist s hs).2⟩
  have hgrow := Greedy.serveAll_spec (m := m) (g := ⟨.ofTrap t, []⟩)
    (Tracker.sound_ofTrap h.consistent) hall
  obtain ⟨k, hk⟩ := Tracker.exists_placeRest (m := m) h.legal h.connected
    (h.consistent.le_totalGateCapacity h.settled) hgrow.sound
  obtain ⟨z, hz, hfirst⟩ := Greedy.serveAll_first (m := m) h hall
  obtain ⟨hrest, -⟩ := Tracker.placeRest_spec h.consistent h.legal hgrow.sound hk
  -- placing the rest moves nobody who is locked
  have hmem : ∀ q, p.uses q = true → q ∈ k.assembled.getD z [] := by
    intro q hq
    obtain ⟨hin, hzone⟩ := hfirst q hq
    obtain ⟨hin', hzone'⟩ := hrest.keeps q hin
    exact (hrest.sound.mem_newcomers q z).2 ⟨hin', hzone'.trans hzone⟩
  refine ⟨k.assembled, ?_, z, hz, hmem _ p.uses_fst, hmem _ p.uses_snd⟩
  have hne : (Rounds.ofPairs (p :: ps)).isEmpty = false := by rw [hrounds]; rfl
  simp only [selectGreedy, hpairs, hbelow, liftTrap_ok, ok_bind, hne, Bool.false_eq_true, if_false,
    hflat, hk]
  rfl

/-- Without pairs a target is found that serves the first instruction, if it has one qubit. -/
theorem exists_selectSingles {is : List Instruction}
    (his : ∀ i ∈ is, ∀ q ∈ i.qubits, q < t.numQubits) :
    ∃ target, selectSingles m t is = .ok target ∧
      ∀ i rest q, is = i :: rest → i.isBarrier = false → i.qubits = [q] →
        target.Serves t.arch i := by
  have hsound := Tracker.sound_ofTrap h.consistent
  obtain ⟨k, hk⟩ := Tracker.exists_lockSingles (m := m) hsound his
  have hgrow := Tracker.lockSingles_spec hsound hk
  obtain ⟨k', hk'⟩ := Tracker.exists_placeRest (m := m) h.legal h.connected
    (h.consistent.le_totalGateCapacity h.settled) hgrow.sound
  obtain ⟨hrest, -⟩ := Tracker.placeRest_spec h.consistent h.legal hgrow.sound hk'
  refine ⟨k'.assembled, by rw [selectSingles, hk, liftTrap_ok, ok_bind, hk', ok_bind]; rfl, ?_⟩
  rintro i rest q rfl hi hq
  have hlt : q < t.numQubits := his i List.mem_cons_self q (by simp [hq])
  have hfree := Tracker.isLocked_ofTrap t q
  -- at first every gate zone has all its spots, so the qubit finds one
  obtain ⟨z, hz⟩ : ∃ z, (Tracker.ofTrap t).gateZoneFor? m t q = some z := by
    unfold Tracker.gateZoneFor?
    split_ifs
    · exact ⟨_, rfl⟩
    · obtain ⟨z, hz, hcap⟩ := h.pairZone
      have hzlt := Architecture.lt_of_isGateZone (Architecture.mem_gateZones_iff.1 hz)
      refine Tracker.exists_bestGateZone hz ?_ (Tracker.exists_price h hzlt _ ?_)
      · rw [Tracker.gateRoom_ofTrap t, List.length_singleton]
        omega
      · simpa using Tracker.zoneOf_ofTrap_lt h hlt
  rw [Tracker.lockSingles_cons hi hq, (hsound.hasQubit_iff q).2 hlt, hfree, hz] at hk
  simp only [Bool.not_true, Bool.false_eq_true, if_false] at hk
  have hfirst := hsound.grows_gateZoneFor hlt hfree hz
  have hlater := (Tracker.lockSingles_spec hfirst.sound hk).trans hrest
  obtain ⟨hin, hzone⟩ := hlater.keeps q
    (by rw [Tracker.isLocked_lock hsound.toSized hlt, if_pos rfl])
  rw [Tracker.zoneOf_lock hsound.toSized hlt, if_pos rfl] at hzone
  refine ⟨z, (Tracker.gateZoneFor?_spec hz).1, fun r hr => ?_⟩
  obtain rfl : r = q := by simpa [hq] using hr
  exact (hrest.sound.mem_newcomers r z).2 ⟨hin, hzone⟩

/-- A target is found. It serves the first instruction if that is a two-qubit gate, or if there is
no two-qubit gate and it has one qubit. -/
theorem exists_selectGreedy {is : List Instruction}
    (his : ∀ i ∈ is, i.qubits.Nodup ∧ ∀ q ∈ i.qubits, q < t.numQubits) :
    ∃ target, selectGreedy m t is = .ok target ∧ ∀ i rest, is = i :: rest →
      (i.isTwoQubitGate = true ∨
        gatePairs is = [] ∧ i.isBarrier = false ∧ ∃ q, i.qubits = [q]) →
      target.Serves t.arch i := by
  cases hpairs : gatePairs is with
  | nil =>
    obtain ⟨target, htarget, hfirst⟩ := exists_selectSingles (m := m) h fun i hi => (his i hi).2
    refine ⟨target, ?_, ?_⟩
    · rw [← htarget, selectGreedy, hpairs]
      rfl
    · rintro i rest rfl (htwo | ⟨-, hi, q, hq⟩)
      · obtain ⟨p, hp⟩ := Instruction.exists_pair htwo
        simp [gatePairs, hp] at hpairs
      · exact hfirst i rest q rfl hi hq
  | cons p ps =>
    obtain ⟨target, htarget, z, hz, h₁, h₂⟩ := exists_selectPairs (m := m) h his hpairs
    refine ⟨target, htarget, ?_⟩
    rintro i rest rfl (htwo | ⟨hnil, -⟩)
    · -- the pair of the first instruction is the first pair
      obtain ⟨r, hr⟩ := Instruction.exists_pair htwo
      obtain ⟨-, a, b, hab, heq⟩ := Instruction.pair?_eq_some_iff.1 hr
      obtain rfl : r = p := by
        rw [gatePairs, List.filterMap_cons, hr] at hpairs
        exact (List.cons.inj hpairs).1
      refine ⟨z, hz, fun q hq => ?_⟩
      have hqr : q = r.1 ∨ q = r.2 := by
        rw [hab] at hq
        rw [heq]
        simp only [List.mem_cons, List.not_mem_nil, or_false] at hq
        omega
      rcases hqr with rfl | rfl
      · exact h₁
      · exact h₂
    · simp at hnil

end Navigable

end IonTrap
