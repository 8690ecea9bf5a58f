import IonTrap.Proofs.Routing.Carry
import IonTrap.Proofs.Trap.Reachable

/-!
# Legal runs of bare chains

What a routed circuit asks of a trap can be said with the chains alone, without the tables that a
live trap keeps beside them: `Placement.Step` is one entry of a stream and `Placement.Runs` a whole
stream. The replay works on the tables. On a consistent trap it accepts an entry exactly if the
entry is a legal step of the chains, and ends in the chains after it
(`Trap.Consistent.step_of_replayEntry`, `Trap.Consistent.exists_replayEntry`), and so it is with
streams (`Trap.Consistent.runs_of_replay`, `Trap.Consistent.exists_replay`).
-/

namespace IonTrap

namespace Placement

/-- A legal entry of a stream and what it does to the chains of a trap with `n` qubits. -/
inductive Step (a : Architecture) (n : Nat) : RoutedOp → Placement → Placement → Prop
  /-- The cohort stands at the port of exit of its zone, a connection joins the two ports, and the
  other zone has room. There the cohort joins the chain at the port of arrival. -/
  | shuttle {p : Placement} {source target : Nat} {exit arrival : Port} {qs rest chain : List Nat}
      (hlink : a.Linked ⟨source, exit⟩ ⟨target, arrival⟩)
      (hsource : p[source]? = some (Trap.enter exit qs rest))
      (htarget : p[target]? = some chain)
      (hroom : chain.length + qs.length ≤ a.transportCapacity target) :
      Step a n (.routing (.shuttle qs source target exit arrival)) p
        ((p.set source rest).set target (Trap.enter arrival qs chain))
  /-- The first qubit stands right before the second one. -/
  | swap {p : Placement} {z left right : Nat} {before after : List Nat}
      (hz : p[z]? = some (before ++ left :: right :: after)) :
      Step a n (.routing (.swap z left right)) p (p.set z (before ++ right :: left :: after))
  | routingBarrier {p : Placement} : Step a n (.routing .barrier) p p
  | barrier {p : Placement} {i : Instruction} (hb : i.isBarrier = true) : Step a n (.gate i) p p
  /-- The qubits exist and share a zone that runs gates. -/
  | gate {p : Placement} {i : Instruction} (hb : i.isBarrier = false)
      (hlt : ∀ q ∈ i.qubits, q < n)
      (hzone : i.qubits ≠ [] → ∃ z chain, a.isGateZone z = true ∧ p[z]? = some chain ∧
        ∀ q ∈ i.qubits, q ∈ chain) : Step a n (.gate i) p p

/-- A legal stream and what it does to the chains of a trap with `n` qubits. -/
inductive Runs (a : Architecture) (n : Nat) : List RoutedOp → Placement → Placement → Prop
  | nil {p : Placement} : Runs a n [] p p
  | cons {op : RoutedOp} {ops : List RoutedOp} {p p₁ p₂ : Placement} (h : Step a n op p p₁)
      (hs : Runs a n ops p₁ p₂) : Runs a n (op :: ops) p p₂

end Placement

namespace Trap

variable {t t' : Trap} {k : Nat}

/-! ## Instructions -/

theorem operandZones_eq_ok_iff {qs zones : List Nat} :
    t.operandZones qs = .ok zones ↔ (∀ q ∈ qs, q < t.numQubits) ∧ zones = qs.map t.zoneOf := by
  induction qs generalizing zones with
  | nil =>
    rw [operandZones]
    simp [eq_comm]
  | cons q qs ih =>
    rw [operandZones]
    split_ifs with hq
    · simp only [List.mem_cons, forall_eq_or_imp, false_iff]
      omega
    · rw [bind_eq_ok_iff]
      simp only [ih, pure_eq_ok, Except.ok.injEq, List.mem_cons, forall_eq_or_imp, List.map_cons]
      constructor
      · rintro ⟨zones', ⟨hall, rfl⟩, rfl⟩
        exact ⟨⟨by omega, hall⟩, rfl⟩
      · rintro ⟨⟨-, hall⟩, rfl⟩
        exact ⟨_, ⟨hall, rfl⟩, rfl⟩

/-- An instruction other than a barrier needs its qubits, all of them in one gate zone. -/
theorem checkGate_eq_ok_iff {i : Instruction} (hb : i.isBarrier = false) :
    t.checkGate k i = .ok () ↔ (∀ q ∈ i.qubits, q < t.numQubits) ∧
      (i.qubits ≠ [] → ∃ z, t.arch.isGateZone z = true ∧ ∀ q ∈ i.qubits, t.zoneOf q = z) := by
  rw [checkGate, if_neg (by simp [hb]), bind_eq_ok_iff]
  simp only [liftTrap_eq_ok_iff, operandZones_eq_ok_iff]
  -- the first qubit gives the zone that the others are compared with
  cases hqs : i.qubits with
  | nil => simp
  | cons q qs =>
    have hzones : (q :: qs).map t.zoneOf = t.zoneOf q :: qs.map t.zoneOf := rfl
    constructor
    · rintro ⟨zones, ⟨hlt, rfl⟩, h⟩
      rw [hzones] at h
      dsimp only at h
      split_ifs at h with hother hgate
      refine ⟨hlt, fun _ => ⟨t.zoneOf q, by simpa using hgate, fun r hr => ?_⟩⟩
      rcases List.mem_cons.1 hr with rfl | hr
      · rfl
      · simp only [List.any_map, List.any_eq_true, Function.comp_apply, bne_iff_ne] at hother
        by_contra hne
        exact hother ⟨r, hr, hne⟩
    · rintro ⟨hlt, hzone⟩
      obtain ⟨z, hgate, hsame⟩ := hzone (by simp)
      obtain rfl := hsame q List.mem_cons_self
      refine ⟨_, ⟨hlt, rfl⟩, ?_⟩
      rw [hzones]
      dsimp only
      rw [if_neg, if_neg (by simp [hgate])]
      simp only [List.any_map, List.any_eq_true, Function.comp_apply, bne_iff_ne]
      rintro ⟨r, hr, hne⟩
      exact hne (hsame r (List.mem_cons_of_mem _ hr))

/-- On a consistent trap an instruction can run exactly if the chains allow it. -/
theorem Consistent.checkGate_eq_ok_iff_step (h : t.Consistent) {i : Instruction} {p : Placement} :
    Placement.Step t.arch t.numQubits (.gate i) t.placement p ↔
      t.checkGate k i = .ok () ∧ p = t.placement := by
  cases hb : i.isBarrier with
  | true =>
    have hcheck : t.checkGate k i = .ok () := by rw [checkGate, if_pos hb]
    constructor
    · intro hs
      cases hs with
      | barrier => exact ⟨hcheck, rfl⟩
      | gate => exact ⟨hcheck, rfl⟩
    · rintro ⟨-, rfl⟩
      exact .barrier hb
  | false =>
    rw [checkGate_eq_ok_iff hb]
    constructor
    · intro hs
      cases hs with
      | barrier hb' => simp [hb] at hb'
      | gate _ hlt hzone =>
        refine ⟨⟨hlt, fun hne => ?_⟩, rfl⟩
        obtain ⟨z, chain, hgate, hz, hmem⟩ := hzone hne
        refine ⟨z, hgate, fun q hq => h.zoneOf_eq ?_⟩
        rw [chain_of_getElem? hz]
        exact hmem q hq
    · rintro ⟨⟨hlt, hzone⟩, rfl⟩
      refine .gate hb hlt fun hne => ?_
      obtain ⟨z, hgate, hsame⟩ := hzone hne
      have hin : ∀ q ∈ i.qubits, q ∈ t.chain z := fun q hq =>
        h.mem_chain_iff.2 ⟨hlt q hq, hsame q hq⟩
      obtain ⟨q, hq⟩ := List.exists_mem_of_ne_nil _ hne
      have hz : z < t.placement.length := by
        rw [h.length_placement]
        exact h.lt_numZones_of_mem (hin q hq)
      exact ⟨z, t.chain z, hgate, getElem?_placement hz, hin⟩

/-! ## Swaps -/

theorem isIn_iff {q z : Nat} : t.isIn q z = true ↔ q < t.numQubits ∧ t.zoneOf q = z := by
  simp [isIn]

/-- On a consistent trap two qubits can be exchanged exactly if they are neighbours in that order.
-/
theorem Consistent.replaySwap_eq_ok_iff (h : t.Consistent) {z left right : Nat} :
    t.replaySwap z left right = .ok t' ↔ ∃ before after,
      t.chain z = before ++ left :: right :: after ∧
        t' = t.exchanged z before after left right := by
  constructor
  · intro hr
    unfold replaySwap at hr
    split_ifs at hr with hleft hright hnext
    rw [Bool.not_eq_true', Bool.not_eq_false, isIn_iff] at hleft hright
    obtain ⟨hlt, rfl⟩ := hleft
    obtain ⟨hlt', hzone⟩ := hright
    obtain ⟨before, after, x, y, hz, hlen, rfl⟩ := swap_eq_ok (mapError_eq_ok_iff.1 hr)
    -- what the chain holds at the two places is what the table says of them
    have hx := h.getElem?_chain hlt
    have hy := h.getElem?_chain hlt'
    rw [hzone, not_not.1 hnext, hz, ← hlen] at hy
    rw [hz, ← hlen] at hx
    obtain rfl : x = left := by simpa using hx
    obtain rfl : y = right := by simpa using hy
    exact ⟨before, after, hz, rfl⟩
  · rintro ⟨before, after, hz, rfl⟩
    have hx : (t.chain z)[before.length]? = some left := by simp [hz]
    have hy : (t.chain z)[before.length + 1]? = some right := by simp [hz]
    obtain ⟨hlt, hzone, hpos⟩ := h.of_getElem?_chain hx
    obtain ⟨hlt', hzone', hpos'⟩ := h.of_getElem?_chain hy
    have hleft : t.isIn left z = true := isIn_iff.2 ⟨hlt, hzone⟩
    have hright : t.isIn right z = true := isIn_iff.2 ⟨hlt', hzone'⟩
    rw [replaySwap, if_neg (by simp [hleft]), if_neg (by simp [hright]), if_neg (by omega), hpos,
      h.swap_eq_exchanged hz, mapError_ok]

/-! ## Shuttles -/

/-- A cohort that is read off the end of a chain stands there. -/
theorem exists_enter_of_endSegment {chain qs : List Nat} {port : Port}
    (h : endSegment chain qs.length port = qs) : ∃ rest, chain = enter port qs rest := by
  obtain ⟨rest, hrest⟩ := exists_enter_endSegment chain qs.length port
  rw [h] at hrest
  exact ⟨rest, hrest⟩

section Shuttle

variable {source target : Nat} {exit arrival : Port} {qs rest : List Nat}

theorem carries_of_chain_eq (hsource : t.chain source = enter exit qs rest) :
    t.Carries qs source exit (Function.update t.chain source rest) := by
  refine ⟨?_, fun w hw => ?_⟩
  · rw [Function.update_self, hsource]
  · rw [Function.update_of_ne hw]

variable (h : t.Consistent)
include h

/-- On a consistent trap a cohort can be shuttled exactly if it stands at the end of a connection
and there is room at the other end. -/
theorem Consistent.replayShuttle_eq_ok_iff (hlegal : t.arch.Legal) :
    t.replayShuttle qs source target exit arrival = .ok t' ↔
      t.arch.Linked ⟨source, exit⟩ ⟨target, arrival⟩ ∧
        (∃ rest, t.chain source = enter exit qs rest) ∧
        (t.chain target).length + qs.length ≤ t.arch.transportCapacity target ∧
        t' = t.transfer qs source target arrival := by
  constructor
  · intro hr
    obtain ⟨⟨exit', arrival'⟩, hports, hrest⟩ := bind_eq_ok_iff.1 hr
    dsimp only at hrest
    split_ifs at hrest with hother hfew hline
    obtain ⟨rfl, rfl⟩ : exit' = exit ∧ arrival' = arrival := by
      rwa [not_or, not_not, not_not] at hother
    obtain ⟨-, -, -, -, -, hroom, rfl⟩ := move_eq_ok (mapError_eq_ok_iff.1 hrest)
    rw [h.occupancy_eq] at hroom
    exact ⟨hlegal.connectionPorts_eq_ok_iff.1 (mapError_eq_ok_iff.1 hports),
      exists_enter_of_endSegment (not_not.1 hline), hroom, rfl⟩
  · rintro ⟨hlink, ⟨rest, hsource⟩, hroom, rfl⟩
    obtain ⟨hs, ht, hne⟩ : source < t.arch.numZones ∧ target < t.arch.numZones ∧ source ≠ target :=
      hlegal.linked_zones hlink
    have hcarries := carries_of_chain_eq hsource
    rw [← h.occupancy_eq] at hroom
    obtain ⟨t', hmove, -⟩ := h.move_spec hne hs ht (hcarries.nodup h)
      (fun q hq => hcarries.mem_chain hq) arrival hroom
    obtain ⟨-, -, -, -, -, -, rfl⟩ := move_eq_ok hmove
    have hlen : ¬ (t.chain source).length < qs.length := by
      rw [hsource, length_enter]
      omega
    have hend : endSegment (t.chain source) qs.length exit = qs := by
      rw [hsource, endSegment_enter]
    simp only [replayShuttle, hlegal.connectionPorts_eq_ok_iff.2 hlink, mapError_ok, ok_bind, ne_eq,
      hend, hlen, hmove, not_true_eq_false, or_self, if_false]

/-- The chains after a shuttle. -/
theorem Consistent.placement_transfer (hne : source ≠ target) (hs : source < t.arch.numZones)
    (ht : target < t.arch.numZones) (hsource : t.chain source = enter exit qs rest) :
    (t.transfer qs source target arrival).placement
      = (t.placement.set source rest).set target (enter arrival qs (t.chain target)) := by
  rw [← h.length_placement] at hs ht
  have hfilter : (t.chain source).filter (!qs.contains ·) = rest := by
    rw [(carries_of_chain_eq hsource).filter_eq h, Function.update_self]
  have hleft : t.placement.modify source (·.filter (!qs.contains ·))
      = t.placement.set source rest := by
    rw [List.modify_eq_set_getElem?, getElem?_placement hs, ← hfilter]
    rfl
  have htarget : (t.placement.set source rest)[target]? = some (t.chain target) := by
    rw [List.getElem?_set_ne hne, getElem?_placement ht]
  show (t.placement.modify source (·.filter (!qs.contains ·))).modify target (enter arrival qs) = _
  rw [hleft, List.modify_eq_set_getElem?, htarget]
  rfl

end Shuttle

/-! ## Streams -/

variable {op : RoutedOp} {ops : List RoutedOp}

/-- Replaying an entry keeps a trap consistent. -/
theorem Consistent.follows_of_replayEntry (h : t.Consistent) (hr : t.replayEntry k op = .ok t') :
    t.Follows t' := by
  cases op with
  | gate i =>
    obtain ⟨_, -, hr⟩ := bind_eq_ok_iff.1 hr
    obtain rfl : t = t' := Except.ok.inj hr
    exact h.follows_self
  | routing op =>
    have hr : t.replayOp op = .ok t' := mapError_eq_ok_iff.1 hr
    cases op with
    | shuttle qs source target exit arrival =>
      obtain ⟨⟨exit', arrival'⟩, -, hrest⟩ := bind_eq_ok_iff.1 hr
      dsimp only at hrest
      split_ifs at hrest
      exact h.follows_of_move (mapError_eq_ok_iff.1 hrest)
    | swap z left right =>
      obtain ⟨before, after, hz, rfl⟩ := h.replaySwap_eq_ok_iff.1 hr
      exact ⟨consistent_exchanged h hz, rfl, rfl⟩
    | barrier =>
      obtain rfl : t = t' := Except.ok.inj hr
      exact h.follows_self

/-- What the replay accepts is a legal step of the chains. -/
theorem Consistent.step_of_replayEntry (h : t.Consistent) (hlegal : t.arch.Legal)
    (hr : t.replayEntry k op = .ok t') :
    Placement.Step t.arch t.numQubits op t.placement t'.placement := by
  cases op with
  | gate i =>
    obtain ⟨_, hcheck, hr⟩ := bind_eq_ok_iff.1 hr
    obtain rfl : t = t' := Except.ok.inj hr
    exact h.checkGate_eq_ok_iff_step.2 ⟨hcheck, rfl⟩
  | routing op =>
    have hr : t.replayOp op = .ok t' := mapError_eq_ok_iff.1 hr
    cases op with
    | shuttle qs source target exit arrival =>
      obtain ⟨hlink, ⟨rest, hsource⟩, hroom, rfl⟩ := (h.replayShuttle_eq_ok_iff hlegal).1 hr
      obtain ⟨hs, ht, hne⟩ : source < t.arch.numZones ∧ target < t.arch.numZones ∧
        source ≠ target := hlegal.linked_zones hlink
      rw [h.placement_transfer hne hs ht hsource]
      rw [← h.length_placement] at hs ht
      refine .shuttle hlink ?_ (getElem?_placement ht) hroom
      rw [getElem?_placement hs, hsource]
    | swap z left right =>
      obtain ⟨before, after, hz, rfl⟩ := h.replaySwap_eq_ok_iff.1 hr
      refine .swap ?_
      rw [getElem?_placement (lt_length_of_chain h hz), hz]
    | barrier =>
      obtain rfl : t = t' := Except.ok.inj hr
      exact .routingBarrier

/-- The replay accepts every legal step of the chains and ends in the chains after it. -/
theorem Consistent.exists_replayEntry (h : t.Consistent) (hlegal : t.arch.Legal) {p : Placement}
    (hs : Placement.Step t.arch t.numQubits op t.placement p) (k : Nat) :
    ∃ t', t.replayEntry k op = .ok t' ∧ t'.placement = p := by
  cases op with
  | gate i =>
    obtain ⟨hcheck, rfl⟩ := h.checkGate_eq_ok_iff_step.1 hs
    exact ⟨t, by rw [replayEntry, hcheck, ok_bind]; rfl, rfl⟩
  | routing op =>
    suffices hop : ∃ t', t.replayOp op = .ok t' ∧ t'.placement = p by
      obtain ⟨t', hop, hp⟩ := hop
      exact ⟨t', by rw [replayEntry, hop, mapError_ok], hp⟩
    cases hs with
    | shuttle hlink hsource htarget hroom =>
      obtain ⟨hs, ht, hne⟩ := hlegal.linked_zones hlink
      have hsource := chain_of_getElem? hsource
      rw [← chain_of_getElem? htarget] at hroom ⊢
      exact ⟨_, (h.replayShuttle_eq_ok_iff hlegal).2 ⟨hlink, ⟨_, hsource⟩, hroom, rfl⟩,
        h.placement_transfer hne hs ht hsource⟩
    | swap hz =>
      exact ⟨_, h.replaySwap_eq_ok_iff.2 ⟨_, _, chain_of_getElem? hz, rfl⟩, rfl⟩
    | routingBarrier => exact ⟨t, rfl, rfl⟩

theorem replay_append (t : Trap) (k : Nat) (xs ys : List RoutedOp) :
    t.replay k (xs ++ ys) = t.replay k xs >>= (·.replay (k + xs.length) ys) := by
  induction xs generalizing t k with
  | nil => rfl
  | cons x xs ih =>
    rw [List.cons_append, replay, replay]
    cases t.replayEntry k x with
    | error e => rfl
    | ok t' =>
      rw [ok_bind, ok_bind, ih, List.length_cons,
        show k + 1 + xs.length = k + (xs.length + 1) by omega]

/-- Replaying a stream keeps a trap consistent. -/
theorem Consistent.follows_of_replay (h : t.Consistent) (hr : t.replay k ops = .ok t') :
    t.Follows t' := by
  induction ops generalizing t k with
  | nil =>
    obtain rfl : t = t' := Except.ok.inj hr
    exact h.follows_self
  | cons op ops ih =>
    obtain ⟨t₁, hentry, hrest⟩ := bind_eq_ok_iff.1 hr
    have hfollows := h.follows_of_replayEntry hentry
    exact hfollows.trans (ih hfollows.consistent hrest)

/-- What the replay accepts is a legal run of the chains. -/
theorem Consistent.runs_of_replay (h : t.Consistent) (hlegal : t.arch.Legal)
    (hr : t.replay k ops = .ok t') :
    Placement.Runs t.arch t.numQubits ops t.placement t'.placement := by
  induction ops generalizing t k with
  | nil =>
    obtain rfl : t = t' := Except.ok.inj hr
    exact .nil
  | cons op ops ih =>
    obtain ⟨t₁, hentry, hrest⟩ := bind_eq_ok_iff.1 hr
    -- the rest runs on the trap after the entry, which has the same architecture and qubits
    obtain ⟨hconsistent, harch, hqubits⟩ := h.follows_of_replayEntry hentry
    have hruns := ih hconsistent (by rwa [harch]) hrest
    rw [harch, hqubits] at hruns
    exact .cons (h.step_of_replayEntry hlegal hentry) hruns

/-- The replay accepts every legal run of the chains and ends in the chains after it. -/
theorem Consistent.exists_replay (h : t.Consistent) (hlegal : t.arch.Legal) {p : Placement}
    (hruns : Placement.Runs t.arch t.numQubits ops t.placement p) (k : Nat) :
    ∃ t', t.replay k ops = .ok t' ∧ t'.placement = p := by
  induction ops generalizing t k with
  | nil =>
    cases hruns
    exact ⟨t, rfl, rfl⟩
  | cons op ops ih =>
    cases hruns with
    | cons hstep hruns =>
      obtain ⟨t₁, hentry, rfl⟩ := h.exists_replayEntry hlegal hstep k
      obtain ⟨hconsistent, harch, hqubits⟩ := h.follows_of_replayEntry hentry
      rw [← harch, ← hqubits] at hruns
      obtain ⟨t', hreplay, hp⟩ := ih hconsistent (by rwa [harch]) hruns (k + 1)
      exact ⟨t', by rw [replay, hentry, ok_bind, hreplay], hp⟩

end Trap

end IonTrap
