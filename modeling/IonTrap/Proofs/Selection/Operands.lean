import IonTrap.Proofs.Circuit.Checks
import IonTrap.Proofs.Routing.Split
import IonTrap.Proofs.Selection.Legal

/-!
# Which operands are brought together

Any instruction on two qubits other than a barrier waits until they share a gate zone. Greedy
selection brings the first one together if it is a gate. It passes over a measurement or reset as
long as there are two-qubit gates, and then looks at its first qubit only
(`selectGreedy_first_operands`). If all those first qubits are in gate zones already, everybody
stays at home and the instruction goes on waiting.
-/

namespace IonTrap

variable {m : CostModel} {t : Trap} {i : Instruction} {is rest : List Instruction}

/-! ## The second operand is not looked at -/

theorem gatePairs_cons_of_not_isGate (hgate : i.isGate = false) (rest : List Instruction) :
    gatePairs (i :: rest) = gatePairs rest := by
  simp [gatePairs, Instruction.pair?, Instruction.isTwoQubitGate, hgate]

/-- As long as there are two-qubit gates, an instruction that is no gate is passed over. -/
theorem selectGreedy_cons_of_not_isGate (hgate : i.isGate = false) (hpairs : gatePairs rest ≠ []) :
    selectGreedy m t (i :: rest) = selectGreedy m t rest := by
  simp only [selectGreedy, gatePairs_cons_of_not_isGate hgate]
  cases hrounds : Rounds.ofPairsBelow t.numQubits (gatePairs rest) with
  | error e => rfl
  | ok rounds =>
    obtain ⟨rfl, -⟩ := Rounds.ofPairsBelow_eq_ok_iff.1 hrounds
    have hne : (Rounds.ofPairs (gatePairs rest)).isEmpty = false := by
      simpa using Rounds.ofPairs_ne_nil hpairs
    simp only [liftTrap_ok, ok_bind, hne, Bool.false_eq_true, if_false]

/-- Of an instruction that is no gate only the first qubit counts. -/
theorem selectGreedy_congr_operands (hi : i.isBarrier = false) (hgate : i.isGate = false)
    (x : Nat) (ys zs : List Nat) :
    selectGreedy m t ({ i with qubits := x :: ys } :: rest)
      = selectGreedy m t ({ i with qubits := x :: zs } :: rest) := by
  have hpairs : ∀ qs, gatePairs ({ i with qubits := qs } :: rest) = gatePairs rest :=
    fun qs => gatePairs_cons_of_not_isGate (i := { i with qubits := qs }) hgate rest
  have hsingles : ∀ k, Tracker.lockSingles m t ({ i with qubits := x :: ys } :: rest) k
      = Tracker.lockSingles m t ({ i with qubits := x :: zs } :: rest) k := by
    intro k
    rw [Tracker.lockSingles_cons (i := { i with qubits := x :: ys }) hi rfl,
      Tracker.lockSingles_cons (i := { i with qubits := x :: zs }) hi rfl]
  simp only [selectGreedy, selectSingles, hpairs, hsingles]

/-! ## Staying at home -/

namespace Tracker

variable {k k' : Tracker}

theorem home_lock (h : k.Sized t) {q : Nat} (hq : q < t.numQubits) (old : Nat) :
    Home t k (k.lock q old (t.zoneOf q)) := by
  intro r hfree hlocked
  rw [isLocked_lock h hq, hfree] at hlocked
  rw [zoneOf_lock h hq]
  split_ifs at hlocked ⊢ with hr
  rw [hr]

section Settled

variable (ht : t.Consistent) (hsettled : t.Settled) (h : k.Sound t) (hhome : Home t (ofTrap t) k)
include ht hsettled h hhome

/-- As long as everybody is locked at home, whoever is free has a spot there. -/
theorem gateRoom_pos_of_home {q : Nat} (hq : q < t.numQubits) (hfree : k.isLocked q = false) :
    0 < k.gateRoom t (t.zoneOf q) := by
  have hnot : q ∉ k.newcomers (t.zoneOf q) := by
    rw [h.mem_newcomers, hfree]
    simp
  have hnodup : (q :: k.newcomers (t.zoneOf q)).Nodup :=
    List.nodup_cons.2 ⟨hnot, h.nodup_newcomers _⟩
  have hsub : ∀ r ∈ q :: k.newcomers (t.zoneOf q), r ∈ t.chain (t.zoneOf q) := by
    intro r hr
    rw [ht.mem_chain_iff]
    rcases List.mem_cons.1 hr with rfl | hr
    · exact ⟨hq, rfl⟩
    · obtain ⟨hlocked, hzone⟩ := (h.mem_newcomers r _).1 hr
      exact ⟨h.lt_of_isLocked hlocked, (hhome r (isLocked_ofTrap t r) hlocked).symm.trans hzone⟩
  have hle := (List.subperm_of_subset hnodup hsub).length_le
  have hcap := hsettled (t.zoneOf q)
  rw [ht.occupancy_eq] at hcap
  rw [List.length_cons, ← numNew_eq] at hle
  rw [gateRoom]
  omega

/-- Single qubits in gate zones are locked where they are. -/
theorem home_lockSingles
    (his : ∀ j ∈ is, j.isBarrier = false → ∀ q ∈ j.qubits.head?, t.inGateZone q = true)
    (hk : lockSingles m t is k = .ok k') : Home t (ofTrap t) k' := by
  induction is generalizing k with
  | nil =>
    obtain rfl := Except.ok.inj hk
    exact hhome
  | cons j is ih =>
    have hrest : ∀ l ∈ is, l.isBarrier = false → ∀ q ∈ l.qubits.head?, t.inGateZone q = true :=
      fun l hl => his l (List.mem_cons_of_mem _ hl)
    rcases single_or_skip j with ⟨q, qs, hj, hq⟩ | hskip
    · rw [lockSingles_cons hj hq] at hk
      split at hk
      · simp at hk
      · next hhas =>
        have hlt : q < t.numQubits := (h.hasQubit_iff q).1 (by simpa using hhas)
        split at hk
        · exact ih h hhome hrest hk
        · next hlocked =>
          have hfree : k.isLocked q = false := by simpa using hlocked
          have hzone := h.zone_free q hfree hlt
          have hroom := gateRoom_pos_of_home ht hsettled h hhome hlt hfree
          have hgate : t.arch.isGateZone (t.zoneOf q) = true :=
            his j List.mem_cons_self hj q (by simp [hq])
          have hz : k.gateZoneFor? m t q = some (t.zoneOf q) := by
            rw [gateZoneFor?, hzone, if_pos]
            simp only [hgate, Bool.true_and, decide_eq_true_eq]
            omega
          have hgrow := h.grows_gateZoneFor hlt hfree hz
          rw [hz] at hk
          exact ih hgrow.sound (hhome.trans hgrow (home_lock h.toSized hlt _)) hrest hk
    · rw [lockSingles_skip hskip] at hk
      exact ih h hhome hrest hk

/-- Then all the others stay too. -/
theorem zoneOf_placeRest_of_home (hlegal : t.arch.Legal) (hk : k.placeRest m t = .ok k') {q : Nat}
    (hq : q < t.numQubits) : k'.zoneOf q = t.zoneOf q := by
  have hzs : ∀ z ∈ List.range t.arch.numZones, z < t.arch.numZones := fun z => List.mem_range.1
  obtain ⟨hstay, hdone⟩ := foldl_stay_spec h hzs
  have hstays := hhome.trans hstay (home_foldl_stay h hzs)
  obtain ⟨hleave, -⟩ := foldlM_leave_spec hlegal hstay.sound hzs hk
  cases hlocked : ((List.range t.arch.numZones).foldl (stay t) k).isLocked q with
  | true => exact (hleave.keeps q hlocked).2.trans (hstays q (isLocked_ofTrap t q) hlocked)
  | false =>
    -- a qubit that did not stay would have left a full zone
    have hroom := gateRoom_pos_of_home ht hsettled hstay.sound hstays hq hlocked
    have hmem := (hstay.sound.mem_occupants q _).2 ⟨hq, hlocked, rfl⟩
    rcases hdone _ (List.mem_range.2 (ht.zoneOf_lt hq)) with hnil | hfull
    · rw [hnil] at hmem
      simp at hmem
    · omega

end Settled

end Tracker

/-- Without two-qubit gates, and with the first qubits of all instructions in gate zones, every
qubit keeps its zone. -/
theorem mem_of_selectGreedy_of_home (ht : t.Consistent) (hsettled : t.Settled)
    (hlegal : t.arch.Legal) (hpairs : gatePairs is = [])
    (his : ∀ j ∈ is, j.isBarrier = false → ∀ q ∈ j.qubits.head?, t.inGateZone q = true)
    {p : Placement} (hp : selectGreedy m t is = .ok p) {q : Nat} (hq : q < t.numQubits) :
    q ∈ p.getD (t.zoneOf q) [] := by
  have hsound := Tracker.sound_ofTrap ht
  have hstart : Tracker.Home t (.ofTrap t) (.ofTrap t) := fun r hfree hlocked => by
    simp [hfree] at hlocked
  have hbusy : lockBusy m t is = liftTrap (Tracker.lockSingles m t is (.ofTrap t)) := by
    rw [lockBusy, hpairs]
    rfl
  rw [selectGreedy_eq, hbusy] at hp
  obtain ⟨k, hk, hp⟩ := bind_eq_ok_iff.1 hp
  obtain ⟨k', hk', hp⟩ := bind_eq_ok_iff.1 hp
  obtain rfl := Except.ok.inj hp
  have hk := liftTrap_eq_ok_iff.1 hk
  have hgrow := Tracker.lockSingles_spec hsound hk
  have hhome := Tracker.home_lockSingles ht hsettled hsound hstart his hk
  obtain ⟨hrest, hall⟩ := Tracker.placeRest_spec ht hlegal hgrow.sound hk'
  have hzone := Tracker.zoneOf_placeRest_of_home ht hsettled hgrow.sound hhome hlegal hk' hq
  exact (hrest.sound.mem_newcomers q _).2 ⟨hall q hq, hzone⟩

/-! ## The first instruction -/

/-- An instruction on two qubits waits if they are apart or in a zone without gates. -/
theorem Trap.mustWait_pair (hi : i.isBarrier = false) {x y : Nat} (hxy : i.qubits = [x, y])
    (hx : x < t.numQubits) (hy : y < t.numQubits) :
    t.mustWait [] i = .ok (t.zoneOf x != t.zoneOf y || !t.arch.isGateZone (t.zoneOf x)) := by
  simp [mustWait, hi, hxy, findZone, hasQubit, hx, hy, pure_eq_ok, ok_bind]

/-- On a valid and connected architecture with a spare spot in every zone and a gate zone for two,
in a state that a trap can be brought into and that is within the gate capacities, let the first of
some checked instructions be no barrier, act on two qubits and have to wait. Then a target is
selected. If the instruction is a gate, its qubits share a gate zone of the target. If it is not,
the second qubit plays no part: as long as there are two-qubit gates the target is the same without
the instruction, and it is always the same whatever qubits follow the first one. With no two-qubit
gate left the first qubit gets into a gate zone; and if the first qubits of all instructions are in
gate zones already, nobody moves and the qubits are not brought together. -/
theorem selectGreedy_first_operands {a : Architecture} (ha : a.validate = .ok ())
    (hconn : a.Connected) (hspare : a.Spare) (hpair : ∃ z ∈ a.gateZones, 2 ≤ a.gateCapacity z)
    (ht : t.Reachable a) (hsettled : t.Settled) {c : Circuit} (hc : c.numQubits = t.numQubits)
    (hcheck : ∀ j ∈ i :: rest, c.check j = .ok ()) (hi : i.isBarrier = false) {x y : Nat}
    (hxy : i.qubits = [x, y]) (hwait : t.mustWait [] i = .ok true) (m : CostModel) :
    ∃ p, selectGreedy m t (i :: rest) = .ok p ∧ p.validate a t.numQubits = .ok () ∧
      (i.isGate = true → p.Serves a i) ∧
      (i.isGate = false →
        (gatePairs rest ≠ [] → selectGreedy m t rest = .ok p) ∧
        (∀ ys, selectGreedy m t ({ i with qubits := x :: ys } :: rest) = .ok p) ∧
        (gatePairs rest = [] →
          (∃ z, a.isGateZone z = true ∧ x ∈ p.getD z []) ∧
          ((∀ j ∈ i :: rest, j.isBarrier = false → ∀ q ∈ j.qubits.head?, t.inGateZone q = true) →
            (∀ q < t.numQubits, q ∈ p.getD (t.zoneOf q) []) ∧ ¬ p.Serves a i))) := by
  have hlegal := Architecture.legal_of_validate ha
  obtain ⟨h, rfl⟩ := ht.consistent hlegal
  have hnav : t.Navigable := ⟨h, hlegal, hconn, hspare, hsettled, hpair⟩
  have his : ∀ j ∈ i :: rest, j.qubits.Nodup ∧ ∀ q ∈ j.qubits, q < t.numQubits :=
    fun j hj => hc ▸ Circuit.operands_of_check (hcheck j hj)
  have hx : x < t.numQubits := (his i List.mem_cons_self).2 x (by simp [hxy])
  have hy : y < t.numQubits := (his i List.mem_cons_self).2 y (by simp [hxy])
  obtain ⟨p, hp, hserves⟩ := exists_selectGreedy (m := m) hnav his
  have hfits := selectGreedy_spec h hlegal his hp
  refine ⟨p, hp, Placement.validate_eq_ok_iff.2 hfits, fun hgate => ?_, fun hgate => ?_⟩
  · refine hserves i rest rfl (.inl ?_)
    simp [Instruction.isTwoQubitGate, hgate, hxy]
  · have hsame : ∀ ys, selectGreedy m t ({ i with qubits := x :: ys } :: rest) = .ok p := by
      intro ys
      rw [selectGreedy_congr_operands hi hgate x ys [y], ← hxy]
      exact hp
    have hpassed : gatePairs rest ≠ [] → selectGreedy m t rest = .ok p := fun hpairs =>
      (selectGreedy_cons_of_not_isGate hgate hpairs).symm.trans hp
    refine ⟨hpassed, hsame, fun hpairs => ⟨?_, fun hfirst => ?_⟩⟩
    · -- the instruction on its first qubit alone has the same target, and is served
      have hsingle : ∀ j ∈ { i with qubits := [x] } :: rest,
          j.qubits.Nodup ∧ ∀ q ∈ j.qubits, q < t.numQubits := by
        rw [List.forall_mem_cons]
        exact ⟨⟨List.nodup_singleton x, by simpa using hx⟩,
          fun j hj => his j (List.mem_cons_of_mem _ hj)⟩
      obtain ⟨p', hp', hserves'⟩ := exists_selectGreedy (m := m) hnav hsingle
      obtain rfl := Except.ok.inj ((hsame []).symm.trans hp')
      have hnone := (gatePairs_cons_of_not_isGate (i := { i with qubits := [x] }) hgate rest).trans
        hpairs
      obtain ⟨z, hz, hall⟩ := hserves' _ rest rfl (.inr ⟨hnone, hi, x, rfl⟩)
      exact ⟨z, hz, hall x List.mem_cons_self⟩
    · have hnone := (gatePairs_cons_of_not_isGate hgate rest).trans hpairs
      have hstay : ∀ q < t.numQubits, q ∈ p.getD (t.zoneOf q) [] := fun q =>
        mem_of_selectGreedy_of_home h hsettled hlegal hnone hfirst hp
      refine ⟨hstay, ?_⟩
      rintro ⟨z, hz, hall⟩
      have hzx := hfits.eq_of_mem (hstay x hx) (hall x (by simp [hxy]))
      have hzy := hfits.eq_of_mem (hstay y hy) (hall y (by simp [hxy]))
      rw [Trap.mustWait_pair hi hxy hx hy, hzx, hzy, hz] at hwait
      simp at hwait

/-- A measurement of two qubits at once. -/
def measureBoth : Circuit := ⟨"both", 2, 2, [⟨.measure, [0, 1], [0, 1]⟩]⟩

/-- Two qubits in neighbouring zones are brought together by a gate, and left where they are by a
measurement of both. -/
theorem selectGreedy_first_operands_apart :
    ∃ t, Architecture.steepLine.validate = .ok () ∧
      Trap.ofPlacement .steepLine 2 [[0], [1], []] = .ok t ∧
      (∃ p, selectGreedy .shuttleSwap t [.ofStandard .cx [0, 1]] = .ok p ∧
        p.Serves .steepLine (.ofStandard .cx [0, 1])) ∧
      ∃ p, selectGreedy .shuttleSwap t measureBoth.instructions = .ok p ∧
        ∀ q < t.numQubits, q ∈ p.getD (t.zoneOf q) [] := by
  have hvalid : Architecture.steepLine.validate = .ok () := by decide
  have hspare : Architecture.steepLine.Spare := by
    unfold Architecture.Spare
    decide
  have hpair : ∃ z ∈ Architecture.steepLine.gateZones, 2 ≤ Architecture.steepLine.gateCapacity z :=
    ⟨0, by decide, by decide⟩
  obtain ⟨t, hload⟩ : ∃ t, Trap.ofPlacement .steepLine 2 [[0], [1], []] = .ok t := ⟨_, rfl⟩
  have hsettled := Trap.settled_ofPlacement (Architecture.legal_of_validate hvalid) hload
  have hn : measureBoth.numQubits = t.numQubits := by
    rw [(Trap.ofPlacement_eq_ok hload).2.2]
    rfl
  obtain ⟨hgate, hmeasure, hfirst⟩ : t.mustWait [] (.ofStandard .cx [0, 1]) = .ok true ∧
      t.mustWait [] ⟨.measure, [0, 1], [0, 1]⟩ = .ok true ∧
      ∀ j ∈ measureBoth.instructions, j.isBarrier = false →
        ∀ q ∈ j.qubits.head?, t.inGateZone q = true := by
    obtain rfl := Except.ok.inj hload
    decide
  have hcheck : ∀ j ∈ [Instruction.ofStandard .cx [0, 1]], measureBoth.check j = .ok () := by
    decide
  have hcheck' : ∀ j ∈ measureBoth.instructions, measureBoth.check j = .ok () := by decide
  obtain ⟨p, hp, -, hserves, -⟩ := selectGreedy_first_operands hvalid
    Architecture.connected_steepLine hspare hpair (.loaded hload) hsettled hn hcheck rfl rfl hgate
    .shuttleSwap
  obtain ⟨p', hp', -, -, hstays⟩ := selectGreedy_first_operands hvalid
    Architecture.connected_steepLine hspare hpair (.loaded hload) hsettled hn hcheck' rfl rfl
    hmeasure .shuttleSwap
  exact ⟨t, hvalid, hload, ⟨p, hp, hserves rfl⟩, p', hp', (((hstays rfl).2.2 rfl).2 hfirst).1⟩

/-- All checks accept a measurement of two qubits in different gate zones. It has to wait, yet the
target keeps the qubits apart, and routing stalls. -/
theorem measureBoth_not_served :
    Architecture.steepLine.validate = .ok () ∧ Architecture.steepLine.Connected ∧
      Architecture.steepLine.Spare ∧ checkOperands measureBoth.instructions = .ok () ∧
      (∀ i ∈ measureBoth.instructions, measureBoth.check i = .ok ()) ∧
      ∃ t, Trap.ofPlacement .steepLine 2 [[0], [1], []] = .ok t ∧ t.Settled ∧
        t.split [] measureBoth.instructions = .ok ([], measureBoth.instructions) ∧
        selectGreedy .shuttleSwap t measureBoth.instructions = .ok [[0], [1], []] ∧
        (∀ i ∈ measureBoth.instructions, ¬ Placement.Serves .steepLine [[0], [1], []] i) ∧
        (Session.route ⟨t, {}, .greedy .shuttleSwap⟩ measureBoth).2 = .error (.stalled 1) := by
  have hvalid : Architecture.steepLine.validate = .ok () := by decide
  have hspare : Architecture.steepLine.Spare := by
    unfold Architecture.Spare
    decide
  obtain ⟨t, hload⟩ : ∃ t, Trap.ofPlacement .steepLine 2 [[0], [1], []] = .ok t := ⟨_, rfl⟩
  have hsettled := Trap.settled_ofPlacement (Architecture.legal_of_validate hvalid) hload
  have hapart : ∀ i ∈ measureBoth.instructions,
      ¬ Placement.Serves .steepLine [[0], [1], []] i := by
    intro i hi
    obtain rfl := List.mem_singleton.1 hi
    rintro ⟨z, -, hall⟩
    have hfirst := hall 0 (by decide)
    have hsecond := hall 1 (by decide)
    rcases z with _ | _ | _ | z <;> simp at hfirst hsecond
  refine ⟨hvalid, Architecture.connected_steepLine, hspare, by decide, by decide, t, hload,
    hsettled, ?_⟩
  obtain rfl := Except.ok.inj hload
  exact ⟨by decide, by decide +kernel, hapart, by decide +kernel⟩

end IonTrap
