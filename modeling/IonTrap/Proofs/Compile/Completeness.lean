import IonTrap.Proofs.Circuit.Checks
import IonTrap.Proofs.Compile.Replay
import IonTrap.Proofs.Selection.Partition

/-!
# Routing succeeds

On a connected trap with a spare spot in every zone and a gate zone for two, no circuit fails to be
routed (`exists_routeCircuit`), as long as spots can be counted and, for partitioning, addressed.
With more spots partitioning and the router may fail (`routeCircuit_beyond_words`). A target is
found in every stage and reached by the router. If a move lets nothing run, the first instruction
still waits, and it tells the stage: a two-qubit gate whose qubits are apart keeps the greedy stage
open, and greedy targets bring them together; only an instruction on one qubit leads to the last
stage, whose targets bring that qubit into a gate zone.
-/

namespace IonTrap

/-! ## Instructions that can be routed -/

/-- Distinct operands below `n`, at most two of them unless it is a barrier, and two only if it is a
gate. -/
structure Instruction.Runnable (n : Nat) (i : Instruction) : Prop where
  nodup : i.qubits.Nodup
  lt : ∀ q ∈ i.qubits, q < n
  routable : i.Routable
  gate : i.isBarrier = false → i.qubits.length = 2 → i.isGate = true

namespace Trap

variable {t : Trap} {i : Instruction} {is ready waiting : List Instruction}

theorem findZone_of_lt {q : Nat} (hq : q < t.numQubits) : t.findZone q = .ok (t.zoneOf q) := by
  simp [findZone, hasQubit, hq]

theorem exists_mustWait (s : List Nat) (hi : ∀ q ∈ i.qubits, q < t.numQubits) :
    ∃ w, t.mustWait s i = .ok w := by
  unfold mustWait
  split
  · exact ⟨_, rfl⟩
  · split
    · exact ⟨_, rfl⟩
    · next q hq =>
      split
      · exact ⟨_, rfl⟩
      · rw [findZone_of_lt (hi q (by simp [hq])), ok_bind]
        exact ⟨_, rfl⟩
    · next a b rest hq =>
      rw [findZone_of_lt (hi a (by simp [hq])), ok_bind]
      split
      · exact ⟨_, rfl⟩
      · rw [findZone_of_lt (hi b (by simp [hq])), ok_bind]
        exact ⟨_, rfl⟩

/-- Instructions on known qubits are always sorted into those that can run and those that wait. -/
theorem exists_split (s : List Nat) (his : ∀ i ∈ is, ∀ q ∈ i.qubits, q < t.numQubits) :
    ∃ ready waiting, t.split s is = .ok (ready, waiting) := by
  induction is generalizing s with
  | nil => exact ⟨[], [], rfl⟩
  | cons i is ih =>
    have his' : ∀ j ∈ is, ∀ q ∈ j.qubits, q < t.numQubits :=
      fun j hj => his j (List.mem_cons_of_mem _ hj)
    obtain ⟨w, hw⟩ := exists_mustWait s (his i List.mem_cons_self)
    rw [split, hw, ok_bind]
    cases w with
    | true =>
      simp only [if_true]
      split
      · exact ⟨_, _, rfl⟩
      · obtain ⟨ready, waiting, hsplit⟩ := ih (addStragglers s i.qubits) his'
        rw [hsplit]
        exact ⟨_, _, rfl⟩
    | false =>
      obtain ⟨ready, waiting, hsplit⟩ := ih s his'
      simp only [Bool.false_eq_true, if_false]
      rw [hsplit]
      exact ⟨_, _, rfl⟩

/-- If nothing can run, everything waits, from the first instruction on. -/
theorem split_eq_nil (h : t.split [] (i :: is) = .ok ([], waiting)) :
    t.mustWait [] i = .ok true ∧ waiting = i :: is := by
  have hall : ∀ (js : List Instruction) (s : List Nat) (w : List Instruction),
      t.split s js = .ok ([], w) → w = js := by
    intro js
    induction js with
    | nil =>
      intro s w hs
      exact (Prod.mk.inj (Except.ok.inj hs)).2.symm
    | cons j js ih =>
      intro s w hs
      rcases split_cons hs with ⟨-, ⟨-, hw⟩ | ⟨w', rfl, hs'⟩⟩ | ⟨-, r, hr, -⟩
      · exact hw
      · rw [ih _ _ hs']
      · simp at hr
  refine ⟨?_, hall _ _ _ h⟩
  rcases split_cons h with ⟨hwait, -⟩ | ⟨-, r, hr, -⟩
  · exact hwait
  · simp at hr

/-- All qubits of an instruction are in one gate zone. -/
def Hosts (t : Trap) (i : Instruction) : Prop :=
  ∃ z, t.arch.isGateZone z = true ∧ ∀ q ∈ i.qubits, t.zoneOf q = z

/-- The first instruction waits for its qubits to meet in a gate zone, and for nothing else. -/
theorem not_hosts_of_mustWait (h : t.mustWait [] i = .ok true) :
    i.isBarrier = false ∧ i.qubits ≠ [] ∧ ¬ t.Hosts i := by
  unfold mustWait at h
  split at h
  · simp at h
  next hb =>
  refine ⟨by simpa using hb, ?_⟩
  split at h
  · simp at h
  · next q hq =>
    rw [List.contains_nil, if_neg (by simp)] at h
    obtain ⟨z, hz, h⟩ := bind_eq_ok_iff.1 h
    obtain ⟨-, rfl⟩ := findZone_eq_ok hz
    refine ⟨by simp [hq], ?_⟩
    rintro ⟨z, hgate, hall⟩
    rw [← hall q (by simp [hq])] at hgate
    simp [pure_eq_ok, hgate] at h
  · next a b rest hq =>
    obtain ⟨z, hz, h⟩ := bind_eq_ok_iff.1 h
    rw [List.contains_nil, List.contains_nil, if_neg (by simp)] at h
    obtain ⟨y, hy, h⟩ := bind_eq_ok_iff.1 h
    obtain ⟨-, rfl⟩ := findZone_eq_ok hz
    obtain ⟨-, rfl⟩ := findZone_eq_ok hy
    refine ⟨by simp [hq], ?_⟩
    rintro ⟨z, hgate, hall⟩
    rw [hall a (by simp [hq]), hall b (by simp [hq])] at h
    simp [pure_eq_ok, hgate] at h

/-- A two-qubit gate whose qubits are apart keeps the pairs apart. -/
theorem pairsApart_of_not_hosts (hgate : i.isTwoQubitGate = true) (h : ¬ t.Hosts i) :
    t.pairsApart (i :: is) = true := by
  obtain ⟨p, hp⟩ := Instruction.exists_pair hgate
  obtain ⟨-, a, b, hab, rfl⟩ := Instruction.pair?_eq_some_iff.1 hp
  have hapart : t.together (min a b, max a b) = false := by
    rw [Bool.eq_false_iff]
    intro htogether
    simp only [together, inGateZone, Bool.and_eq_true, beq_iff_eq] at htogether
    refine h ⟨t.zoneOf (min a b), htogether.2, fun q hq => ?_⟩
    rw [hab] at hq
    have hq : q = min a b ∨ q = max a b := by
      simp only [List.mem_cons, List.not_mem_nil, or_false] at hq
      omega
    rcases hq with rfl | rfl
    · rfl
    · exact htogether.1.symm
  have hpairs : gatePairs (i :: is) = (min a b, max a b) :: gatePairs is := by
    rw [gatePairs, List.filterMap_cons, hp, gatePairs]
  have hne : Rounds.prune t.together (Rounds.ofPairs (gatePairs (i :: is))) ≠ [] := by
    rw [hpairs]
    exact Rounds.prune_ne_nil hapart
  simpa [pairsApart] using hne

/-- The router takes a navigable trap to any valid target, and leaves it navigable. -/
theorem Navigable.exists_routeTo (h : t.Navigable) (hcount : t.arch.Countable) (m : CostModel)
    {target : Placement} (htarget : target.Fits t.arch t.numQubits) :
    ∃ t' r, t.routeTo m target = (t', .ok r) ∧ t'.Navigable ∧ t'.arch = t.arch ∧
      t'.numQubits = t.numQubits ∧ ∀ i, target.Serves t.arch i → t'.Hosts i := by
  obtain ⟨t', r, hroute, hsettled⟩ := Trap.exists_routeTo m h.consistent h.legal h.connected h.spare
    hcount h.settled htarget
  obtain ⟨hfollows, hmem, -⟩ := routeTo_spec h.consistent h.legal hroute
  have harch := hfollows.arch
  refine ⟨t', r, hroute, ?_, harch, hfollows.numQubits, ?_⟩
  · exact ⟨hfollows.consistent, harch ▸ h.legal, harch ▸ h.connected, harch ▸ h.spare, hsettled,
      harch ▸ h.pairZone⟩
  · rintro i ⟨z, hgate, hall⟩
    refine ⟨z, harch ▸ hgate, fun q hq => ?_⟩
    exact hfollows.consistent.zoneOf_eq ((hmem q z).2 (hall q hq))

end Trap

/-! ## The loop never fails -/

/-- Targets come from the greedy way or, where spots are addressable, from local search. -/
def Selector.BuiltIn (a : Architecture) : Selector → Prop
  | .greedy _ => True
  | .partition _ partitioner => a.Addressable ∧ ∃ l : LocalSearch, partitioner = l.partitioner

/-- The trap can be navigated and its spots counted, targets come from a built-in way, what is left
can be run, and in the last stage the first instruction is on one qubit. -/
structure Run.Viable (s : Selector) (r : Run) : Prop where
  navigable : r.trap.Navigable
  countable : r.trap.arch.Countable
  builtIn : s.BuiltIn r.trap.arch
  runnable : ∀ i ∈ r.remaining, i.Runnable r.trap.numQubits
  single : r.stage = .single →
    ∃ i rest q, r.remaining = i :: rest ∧ i.isBarrier = false ∧ i.qubits = [q]

namespace Run

variable {r : Run} {s : Selector}

/-- Whether the target of a run must serve the first instruction: in the last stage always, and
where pairs are served greedily if it is a two-qubit gate. -/
def Favours (s : Selector) (r : Run) (i : Instruction) : Prop :=
  r.stage = .single ∨
    i.isTwoQubitGate = true ∧ (r.stage = .greedy ∨ s.isPartition = false)

theorem Viable.operands (h : r.Viable s) {is : List Instruction} (his : ∀ i ∈ is, i ∈ r.remaining) :
    ∀ i ∈ is, i.qubits.Nodup ∧ ∀ q ∈ i.qubits, q < r.trap.numQubits :=
  fun i hi => ⟨(h.runnable i (his i hi)).nodup, (h.runnable i (his i hi)).lt⟩

/-- The instructions that the last stage looks at. -/
def singles (is : List Instruction) : List Instruction :=
  is.filter fun i => !i.isBarrier && i.qubits.length == 1

theorem gatePairs_singles (is : List Instruction) : gatePairs (singles is) = [] := by
  rw [gatePairs, List.filterMap_eq_nil_iff]
  intro i hi
  have hone : i.qubits.length = 1 := by
    have := (List.mem_filter.1 hi).2
    simp only [Bool.and_eq_true, beq_iff_eq] at this
    exact this.2
  simp [Instruction.pair?, Instruction.isTwoQubitGate, hone]

/-- A greedy target serves the first instruction if it is a two-qubit gate. -/
theorem Viable.exists_selectGreedy (h : r.Viable s) (m : CostModel) :
    ∃ target, selectGreedy m r.trap r.remaining = .ok target ∧
      target.Fits r.trap.arch r.trap.numQubits ∧
      ∀ i rest, r.remaining = i :: rest → i.isTwoQubitGate = true →
        target.Serves r.trap.arch i := by
  have hnav := h.navigable
  have hall := h.operands fun i hi => hi
  obtain ⟨target, htarget, hserves⟩ := IonTrap.exists_selectGreedy (m := m) hnav hall
  exact ⟨target, htarget, selectGreedy_spec hnav.consistent hnav.legal hall htarget,
    fun i rest hi htwo => hserves i rest hi (.inl htwo)⟩

theorem Viable.exists_selectPartition (h : r.Viable s) (haddressable : r.trap.arch.Addressable)
    (settings : RoutingSettings) (l : LocalSearch) :
    ∃ target, selectPartition settings l.partitioner r.trap r.remaining = .ok target ∧
      target.Fits r.trap.arch r.trap.numQubits := by
  have hnav := h.navigable
  have hall := h.operands fun i hi => hi
  have hfound : ∃ target, selectPartition settings l.partitioner r.trap r.remaining
      = .ok target := by
    by_cases hpairs : gatePairs r.remaining = []
    · obtain ⟨target, htarget, -⟩ := exists_selectSingles (m := settings.costModel) hnav
        fun i hi => (hall i hi).2
      refine ⟨target, ?_⟩
      rw [← htarget, selectPartition, hpairs]
      rfl
    · exact IonTrap.exists_selectPartition hnav.consistent hnav.settled haddressable l hall hpairs
  obtain ⟨target, htarget⟩ := hfound
  exact ⟨target, htarget, selectPartition_spec hnav.consistent hnav.legal htarget⟩

/-- A target of the last stage serves the first instruction. -/
theorem Viable.exists_selectSingles (h : r.Viable s) (hstage : r.stage = .single) (m : CostModel) :
    ∃ target, selectGreedy m r.trap (singles r.remaining) = .ok target ∧
      target.Fits r.trap.arch r.trap.numQubits ∧
      ∀ i rest, r.remaining = i :: rest → target.Serves r.trap.arch i := by
  have hnav := h.navigable
  have hall : ∀ i ∈ singles r.remaining, i.qubits.Nodup ∧ ∀ q ∈ i.qubits, q < r.trap.numQubits :=
    h.operands fun i hi => List.mem_of_mem_filter hi
  obtain ⟨target, htarget, hserves⟩ := IonTrap.exists_selectGreedy (m := m) hnav hall
  refine ⟨target, htarget, selectGreedy_spec hnav.consistent hnav.legal hall htarget, ?_⟩
  intro j rest' hj
  obtain ⟨i, rest, q, hremaining, hbarrier, hq⟩ := h.single hstage
  obtain ⟨rfl, rfl⟩ := List.cons.inj (hj.symm.trans hremaining)
  refine hserves j (singles rest') ?_ (.inr ⟨gatePairs_singles _, hbarrier, q, hq⟩)
  rw [hj, singles, List.filter_cons, if_pos (by simp [hbarrier, hq]), singles]

/-- Every stage finds a valid target, and it serves whom it favours. -/
theorem Viable.exists_target (h : r.Viable s) :
    ∃ target, r.target s = .ok target ∧ target.Fits r.trap.arch r.trap.numQubits ∧
      ∀ i rest, r.remaining = i :: rest → r.Favours s i → target.Serves r.trap.arch i := by
  unfold Run.target Favours
  cases hstage : r.stage with
  | configured =>
    cases s with
    | greedy m =>
      obtain ⟨target, htarget, hfits, hserves⟩ := h.exists_selectGreedy m
      refine ⟨target, htarget, hfits, fun i rest hi hfav => hserves i rest hi ?_⟩
      exact (hfav.resolve_left (by simp)).1
    | partition settings partitioner =>
      obtain ⟨haddressable, l, rfl⟩ := h.builtIn
      obtain ⟨target, htarget, hfits⟩ := h.exists_selectPartition haddressable settings l
      exact ⟨target, htarget, hfits, by simp [Selector.isPartition]⟩
  | greedy =>
    obtain ⟨target, htarget, hfits, hserves⟩ := h.exists_selectGreedy s.costModel
    refine ⟨target, htarget, hfits, fun i rest hi hfav => hserves i rest hi ?_⟩
    exact (hfav.resolve_left (by simp)).1
  | single =>
    obtain ⟨target, htarget, hfits, hserves⟩ := h.exists_selectSingles hstage s.costModel
    exact ⟨target, htarget, hfits, fun i rest hi _ => hserves i rest hi⟩

/-- The first instruction, if it waits, tells a next stage in which it is favoured at last. -/
theorem exists_next {t : Trap} {i : Instruction} (rest : List Instruction) {n : Nat}
    (hi : i.Runnable n) (hbarrier : i.isBarrier = false) (hne : i.qubits ≠ [])
    (hnot : ¬ t.Hosts i) (hfav : ¬ r.Favours s i) :
    ∃ stage, r.stage.next? s.isPartition (t.pairsApart (i :: rest)) = some stage ∧
      (stage = .single → ∃ q, i.qubits = [q]) := by
  have hlen : i.qubits.length ≤ 2 := hi.routable.resolve_left (by simp [hbarrier])
  -- a two-qubit gate is not favoured in the configured stage of partitioning only
  have htwo : i.qubits.length = 2 →
      r.stage = .configured ∧ s.isPartition = true ∧ t.pairsApart (i :: rest) = true := by
    intro htwo
    have hgate : i.isTwoQubitGate = true := by
      simp [Instruction.isTwoQubitGate, hi.gate hbarrier htwo, htwo]
    refine ⟨?_, ?_, Trap.pairsApart_of_not_hosts hgate hnot⟩
    · cases hstage : r.stage with
      | configured => rfl
      | greedy => exact absurd (.inr ⟨hgate, .inl hstage⟩) hfav
      | single => exact absurd (.inl hstage) hfav
    · by_contra hpart
      exact hfav (.inr ⟨hgate, .inr (by simpa using hpart)⟩)
  have hone : i.qubits.length ≠ 2 → ∃ q, i.qubits = [q] := by
    intro hnot2
    have hpos := List.length_pos_of_ne_nil hne
    exact List.length_eq_one_iff.1 (by omega)
  by_cases hcount : i.qubits.length = 2
  · obtain ⟨hstage, hpart, hapart⟩ := htwo hcount
    exact ⟨.greedy, by simp [hstage, hpart, hapart, Stage.next?], by simp⟩
  · obtain ⟨q, hq⟩ := hone hcount
    cases hstage : r.stage with
    | configured =>
      unfold Stage.next?
      dsimp only
      split
      · exact ⟨.greedy, rfl, by simp⟩
      · exact ⟨.single, rfl, fun _ => ⟨q, hq⟩⟩
    | greedy => exact ⟨.single, rfl, fun _ => ⟨q, hq⟩⟩
    | single => exact absurd (.inl hstage) hfav

/-- A step succeeds and leaves a run that can go on. -/
theorem Viable.exists_step (h : r.Viable s) (hne : r.remaining ≠ []) :
    ∃ r', r.step s = .ok r' ∧ r'.Viable s := by
  obtain ⟨target, htarget, hfits, hserves⟩ := h.exists_target
  obtain ⟨t, result, hroute, hnav, harch, hcount, hhosts⟩ :=
    h.navigable.exists_routeTo h.countable s.costModel hfits
  have hlt : ∀ i ∈ r.remaining, ∀ q ∈ i.qubits, q < t.numQubits :=
    fun i hi => hcount ▸ (h.runnable i hi).lt
  obtain ⟨ready, waiting, hsplit⟩ := Trap.exists_split [] hlt
  have hrunnable : ∀ i ∈ waiting, i.Runnable t.numQubits := by
    intro i hi
    have hperm := (Trap.rearranged_split (fun j hj => (h.runnable j hj).routable) hsplit).perm
    rw [hcount]
    exact h.runnable i (hperm.mem_iff.2 (List.mem_append_right _ hi))
  have hstep : ∀ r', r.afterMove s t result.ops ready waiting = .ok r' → r.step s = .ok r' := by
    intro r' hr'
    simp only [step, htarget, hroute, hsplit, hr', mapError_ok]
  cases ready with
  | cons i ready =>
    -- something was emitted, so the loop goes on as configured
    exact ⟨_, hstep _ rfl, hnav, harch ▸ h.countable, harch ▸ h.builtIn, hrunnable, by simp⟩
  | nil =>
    -- the first instruction waits; had the target favoured it, it would have run
    obtain ⟨i, rest, hremaining⟩ := List.exists_cons_of_ne_nil hne
    rw [hremaining] at hsplit
    obtain ⟨hwait, rfl⟩ := Trap.split_eq_nil hsplit
    obtain ⟨hbarrier, hqubits, hnot⟩ := Trap.not_hosts_of_mustWait hwait
    have hfav : ¬ r.Favours s i := fun hfav => hnot (hhosts i (hserves i rest hremaining hfav))
    obtain ⟨stage, hstage, hsingle⟩ := exists_next rest
      (h.runnable i (hremaining ▸ List.mem_cons_self)) hbarrier hqubits hnot hfav
    refine ⟨⟨t, r.ops ++ result.ops.map .routing ++ ([] : List Instruction).map .gate, i :: rest,
      stage⟩, hstep _ ?_, hnav, harch ▸ h.countable, harch ▸ h.builtIn, hrunnable, fun hlast => ?_⟩
    · simp [afterMove, hstage]
    · obtain ⟨q, hq⟩ := hsingle hlast
      exact ⟨i, rest, q, rfl, hbarrier, hq⟩

/-- A run that can go on comes to its end. -/
theorem Viable.exists_finish (h : r.Viable s) :
    ∃ t ops, r.finish s = (t, .ok ops) := by
  fun_induction Run.finish s r with
  | case1 r hempty => exact ⟨_, _, rfl⟩
  | case2 r hempty t e herror =>
    obtain ⟨r', hr', -⟩ := h.exists_step (by simpa using hempty)
    rw [hr'] at herror
    simp at herror
  | case3 r hempty r' hr' _ ih =>
    obtain ⟨r'', hr'', hviable⟩ := h.exists_step (by simpa using hempty)
    obtain rfl := Except.ok.inj (hr''.symm.trans hr')
    exact ih hviable

end Run

/-! ## Whole circuits -/

theorem Trap.navigable_ofPlacement {a : Architecture} (ha : a.validate = .ok ())
    (hconn : a.Connected) (hspare : a.Spare) (hpair : ∃ z ∈ a.gateZones, 2 ≤ a.gateCapacity z)
    {n : Nat} {initial : Placement} {t : Trap} (ht : Trap.ofPlacement a n initial = .ok t) :
    t.Navigable ∧ t.arch = a ∧ t.numQubits = n := by
  have hlegal := Architecture.legal_of_validate ha
  have hconsistent := consistent_ofPlacement hlegal ht
  have hsettled := settled_ofPlacement hlegal ht
  obtain ⟨-, -, rfl⟩ := ofPlacement_eq_ok ht
  exact ⟨⟨hconsistent, hlegal, hconn, hspare, hsettled, hpair⟩, rfl, rfl⟩

theorem Selector.builtIn_ofSettings {a : Architecture} {settings : RoutingSettings}
    (haddressable : settings.algorithm = .partition → a.Addressable) (l : Option LocalSearch) :
    (Selector.ofSettings settings (l.map LocalSearch.partitioner)).BuiltIn a := by
  unfold Selector.ofSettings
  split
  · trivial
  · next hpartition =>
    refine ⟨haddressable hpartition, ?_⟩
    cases l with
    | none => exact ⟨_, rfl⟩
    | some l => exact ⟨l, rfl⟩

/-- A session on a navigable trap routes every circuit of runnable instructions. -/
theorem Session.exists_route {s : Session} (h : s.trap.Navigable)
    (hcount : s.trap.arch.Countable) (hs : s.selector.BuiltIn s.trap.arch) {c : Circuit}
    (hc : ∀ i ∈ c.instructions, i.Runnable s.trap.numQubits) :
    ∃ z, (s.route c).2 = .ok z := by
  have hcheck := checkOperands_eq_ok fun i hi => (hc i hi).routable
  obtain ⟨ready, waiting, hsplit⟩ := Trap.exists_split [] fun i hi => (hc i hi).lt
  have hfirst : s.firstRun c = .ok ⟨s.trap, ready.map .gate, waiting, .configured⟩ := by
    rw [firstRun, hcheck, ok_bind, hsplit, liftTrap_ok, ok_bind]
    rfl
  have hviable : Run.Viable s.selector ⟨s.trap, ready.map .gate, waiting, .configured⟩ := by
    have hperm := (Trap.rearranged_split (fun i hi => (hc i hi).routable) hsplit).perm
    refine ⟨h, hcount, hs, fun i hi => ?_, by simp⟩
    exact hc i (hperm.mem_iff.2 (List.mem_append_right _ hi))
  obtain ⟨t, ops, hfinish⟩ := hviable.exists_finish
  rw [route, hfirst]
  simp only [hfinish]
  exact ⟨_, rfl⟩

theorem connected_storageLine : storageLine.Connected :=
  Architecture.connected_of_chain (by decide)

/-- Two memory zones in a line between two gate zones, whose spots together number `wordSize`. -/
def Architecture.vastEnds : Architecture :=
  ⟨4, [.gate 9223372036854775808, .memory 2, .memory 2, .gate 9223372036854775808],
    [.chain 0 1, .chain 1 2, .chain 2 3]⟩

end IonTrap
