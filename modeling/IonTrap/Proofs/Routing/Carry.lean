import IonTrap.Proofs.Routing.Align

/-!
# Carrying a cohort along a path

A cohort that stands at one end of its chain is taken hop by hop to the last zone of a path. On the
way the chains of all other qubits stay what they were, up to the gap the cohort leaves and the end
it joins (`Trap.Carries`). A priced move whose path has room for the cohort is therefore always
carried out, what was logged replays, and its bill is known beforehand (`Progress.execute_spec`).
-/

namespace IonTrap

namespace Trap

/-- A cohort stands at an end of the chain of `z`; `base` are the chains without the cohort. -/
structure Carries (t : Trap) (qs : List Nat) (z : Nat) (side : Port) (base : Nat → List Nat) :
    Prop where
  here : t.chain z = enter side qs (base z)
  others : ∀ w ≠ z, t.chain w = base w

theorem perm_enter (side : Port) (qs rest : List Nat) : (enter side qs rest).Perm (qs ++ rest) := by
  cases side with
  | p0 => exact .refl _
  | p1 => exact List.perm_append_comm

theorem endSegment_enter (side : Port) (qs rest : List Nat) :
    endSegment (enter side qs rest) qs.length side = qs := by
  cases side <;> simp [endSegment, enter]

/-- A chain is its end before a port and the rest. -/
theorem exists_enter_endSegment (chain : List Nat) (n : Nat) (side : Port) :
    ∃ rest, chain = enter side (endSegment chain n side) rest := by
  cases side with
  | p0 => exact ⟨chain.drop n, (List.take_append_drop n chain).symm⟩
  | p1 => exact ⟨chain.take (chain.length - n), (List.take_append_drop _ chain).symm⟩

theorem filter_enter {side : Port} {qs rest : List Nat} (f : Nat → Bool) :
    (enter side qs rest).filter f = enter side (qs.filter f) (rest.filter f) := by
  cases side <;> simp [enter]

section Carries

variable {t : Trap} {qs : List Nat} {z : Nat} {side : Port} {base : Nat → List Nat}

theorem Carries.mem_chain (hc : t.Carries qs z side base) {q : Nat} (hq : q ∈ qs) :
    q ∈ t.chain z := by
  rw [hc.here, mem_enter]
  exact .inl hq

variable (h : t.Consistent) (hc : t.Carries qs z side base)
include h hc

theorem Carries.nodup_append : (qs ++ base z).Nodup := by
  have := h.nodup_chain z
  rw [hc.here] at this
  exact (perm_enter side qs (base z)).nodup_iff.1 this

theorem Carries.nodup : qs.Nodup := (List.nodup_append.1 (hc.nodup_append h)).1

theorem Carries.notMem {q : Nat} (hq : q ∈ base z) : q ∉ qs := fun hq' =>
  (List.nodup_append.1 (hc.nodup_append h)).2.2 q hq' q hq rfl

/-- The members of the cohort in its zone are the cohort itself. -/
theorem Carries.cohort_eq : t.cohort z qs = qs := by
  have hself : qs.filter qs.contains = qs := List.filter_eq_self.2 fun q hq => by simpa using hq
  have hrest : (base z).filter qs.contains = [] :=
    List.filter_eq_nil_iff.2 fun q hq => by simpa using hc.notMem h hq
  rw [cohort, hc.here, filter_enter, hself, hrest]
  cases side <;> simp [enter]

/-- Without the cohort its zone holds the others. -/
theorem Carries.filter_eq : (t.chain z).filter (!qs.contains ·) = base z := by
  have hself : qs.filter (!qs.contains ·) = [] :=
    List.filter_eq_nil_iff.2 fun q hq => by simpa using hq
  have hrest : (base z).filter (!qs.contains ·) = base z :=
    List.filter_eq_self.2 fun q hq => by simpa using hc.notMem h hq
  rw [hc.here, filter_enter, hself, hrest]
  cases side <;> simp [enter]

end Carries

end Trap

namespace Progress

variable {qs : List Nat} {base : Nat → List Nat}

/-- The cohort gets to the exit, whether it has to be lined up again or not. To change ends, every
one of its qubits passes every other qubit of the zone. -/
theorem exists_lined {p : Progress} {z : Nat} {side exit : Port} {entry : Option Port}
    (h : p.trap.Consistent) (hc : p.trap.Carries qs z side base)
    (hentry : entry = some side ∨ entry = none ∧ side = exit) :
    ∃ p', (if entry.any (· != exit) then p.align z qs exit else .ok p) = .ok p' ∧ p.Reaches p' ∧
      p'.trap.Carries qs z exit base ∧
      ∀ τ : Tariff, τ.bill p'.ops
        = τ.bill p.ops + (if side = exit then 0 else qs.length * (base z).length) * τ.swap z := by
  by_cases hexit : side = exit
  · have hany : entry.any (· != exit) = false := by
      rcases hentry with rfl | ⟨rfl, -⟩ <;> simp [hexit]
    refine ⟨p, by rw [hany]; rfl, reaches_self h, hexit ▸ hc, fun τ => ?_⟩
    rw [if_pos hexit, Nat.zero_mul, Nat.add_zero]
  · obtain rfl : entry = some side := hentry.resolve_right fun hn => hexit hn.2
    obtain ⟨p', hp', ha⟩ := align_spec h z qs exit
    have hturn : overtakesTo exit qs.contains (p.trap.chain z)
        = if side = exit then 0 else qs.length * (base z).length := by
      rw [hc.here]
      exact overtakesTo_enter (fun q hq => by simpa using hq)
        (fun q hq => by simpa using hc.notMem h hq) side exit
    rw [hc.cohort_eq h, hc.filter_eq h, hturn] at ha
    refine ⟨p', ?_, ha.toReaches,
      ⟨ha.chain_eq, fun w hw => (ha.others w hw).trans (hc.others w hw)⟩, ha.bill⟩
    rw [if_pos (by simpa using hexit), hp']

/-- One hop takes the cohort over a connection if the next zone has room. -/
theorem hop_spec {p : Progress} {z next : Nat} {side exit arrival : Port} {entry : Option Port}
    (h : p.trap.Consistent) (hlegal : p.trap.arch.Legal) (hc : p.trap.Carries qs z side base)
    (hlink : p.trap.arch.Linked ⟨z, exit⟩ ⟨next, arrival⟩)
    (hentry : entry = some side ∨ entry = none ∧ side = exit)
    (hroom : (base next).length + qs.length ≤ p.trap.arch.transportCapacity next) :
    ∃ p', p.hop qs entry z next = .ok (p', arrival) ∧ p.Reaches p' ∧
      p'.trap.Carries qs next arrival base ∧
      ∀ τ : Tariff, τ.bill p'.ops = τ.bill p.ops
        + (if side = exit then 0 else qs.length * (base z).length) * τ.swap z + τ.shuttle := by
  obtain ⟨hz, hnext, hne⟩ : z < p.trap.arch.numZones ∧ next < p.trap.arch.numZones ∧ z ≠ next :=
    hlegal.linked_zones hlink
  -- first the cohort is lined up at the port of exit
  obtain ⟨p₁, hp₁, hr₁, hc₁, hbill₁⟩ := exists_lined h hc hentry
  have h₁ := hr₁.follows.consistent
  have hroom₁ : p₁.trap.occupancy next + qs.length ≤ p₁.trap.arch.transportCapacity next := by
    rw [h₁.occupancy_eq, hc₁.others next (Ne.symm hne), hr₁.follows.arch]
    exact hroom
  obtain ⟨t, hmove, hfollows, hsource, htarget, hother⟩ := h₁.move_spec hne
    (hr₁.follows.arch ▸ hz) (hr₁.follows.arch ▸ hnext) (hc₁.nodup h₁)
    (fun q hq => hc₁.mem_chain hq) arrival hroom₁
  have hports : p.trap.arch.connectionPorts z next = .ok (exit, arrival) :=
    hlegal.connectionPorts_eq_ok_iff.2 hlink
  have hports₁ : p₁.trap.arch.connectionPorts z next = .ok (exit, arrival) := by
    rw [hr₁.follows.arch, hports]
  -- the replayer reads the cohort off the end of the chain and finds the same qubits
  have hreplay : p₁.trap.replayOp (.shuttle qs z next exit arrival) = .ok t := by
    have hlen : ¬ (p₁.trap.chain z).length < qs.length := by
      rw [hc₁.here, Trap.length_enter]
      omega
    have hend : endSegment (p₁.trap.chain z) qs.length exit = qs := by
      rw [hc₁.here, Trap.endSegment_enter]
    simp only [Trap.replayOp, Trap.replayShuttle, hports₁, mapError_ok, ok_bind, ne_eq, hend,
      hlen, hmove, not_true_eq_false, or_self, if_false]
  refine ⟨⟨t, p₁.ops ++ [.shuttle qs z next exit arrival]⟩, ?_,
    hr₁.trans (reaches_of_replayOp hfollows hreplay), ⟨?_, ?_⟩, fun τ => ?_⟩
  · rw [hop, hports]
    split_ifs at hp₁ with hany
    · simp only [hany, if_true, hp₁, ok_bind, hc₁.cohort_eq h₁, hmove]
    · obtain rfl := Except.ok.inj hp₁
      simp only [hany, Bool.false_eq_true, if_false, ok_bind, hc₁.cohort_eq h₁, hmove]
  · rw [htarget, hc₁.others next (Ne.symm hne)]
  · intro w hw
    by_cases hwz : w = z
    · subst hwz
      rw [hsource, hc₁.filter_eq h₁]
    · rw [hother w hwz hw, hc₁.others w hwz]
  · rw [Tariff.bill_append, hbill₁]
    rfl

/-- Along a path with room the cohort gets to the last zone. It changes ends in the zones where the
path turns. -/
theorem hops_spec {ws : List Nat} {p : Progress} {z target : Nat} {side : Port}
    {entry : Option Port} (h : p.trap.Consistent) (hlegal : p.trap.arch.Legal)
    (hc : p.trap.Carries qs z side base) (hchain : (z :: ws).IsChain p.trap.arch.Joined)
    (hlast : (z :: ws).getLast? = some target)
    (hentry : entry = some side ∨
      entry = none ∧ ∀ w ∈ ws.head?, ∃ e, p.trap.arch.Linked ⟨z, side⟩ ⟨w, e⟩)
    (hroom : ∀ w ∈ ws, (base w).length + qs.length ≤ p.trap.arch.transportCapacity w) :
    ∃ p' side', hops qs entry (z :: ws) p = .ok p' ∧ p.Reaches p' ∧
      p'.trap.Carries qs target side' base ∧
      ∀ τ : Tariff, τ.bill p'.ops = τ.bill p.ops + ws.length * τ.shuttle
        + τ.turning qs.length base (p.trap.arch.turns side (z :: ws)) := by
  induction ws generalizing p z side entry with
  | nil =>
    obtain rfl : z = target := by simpa using hlast
    refine ⟨p, side, rfl, reaches_self h, hc, fun τ => ?_⟩
    have hturns : p.trap.arch.turns side [z] = [] := rfl
    rw [hturns, Tariff.turning_nil, List.length_nil, Nat.zero_mul]
    rfl
  | cons next ws ih =>
    rw [List.isChain_cons_cons] at hchain
    obtain ⟨exit, arrival, hlink⟩ := hchain.1
    have hentry : entry = some side ∨ entry = none ∧ side = exit := by
      rcases hentry with hentry | ⟨hentry, hhead⟩
      · exact .inl hentry
      · obtain ⟨e, he⟩ := hhead next (by simp)
        exact .inr ⟨hentry, (hlegal.ports_unique he hlink).1⟩
    -- after one hop the port of entry is known, whatever it was before
    obtain ⟨p₁, hp₁, hr₁, hc₁, hbill₁⟩ :=
      hop_spec h hlegal hc hlink hentry (hroom next List.mem_cons_self)
    have harch := hr₁.follows.arch
    obtain ⟨p₂, side₂, hp₂, hr₂, hc₂, hbill₂⟩ := ih hr₁.follows.consistent (harch ▸ hlegal) hc₁
      (harch ▸ hchain.2) (by simpa using hlast) (.inl rfl)
      (fun w hw => harch ▸ hroom w (List.mem_cons_of_mem _ hw))
    refine ⟨p₂, side₂, by rw [hops, hp₁, ok_bind]; exact hp₂, hr₁.trans hr₂, hc₂, fun τ => ?_⟩
    rw [hbill₂, hbill₁, harch, hlegal.turns_of_linked hlink, Tariff.turning_append,
      List.length_cons, Nat.succ_mul]
    split_ifs
    · rw [Tariff.turning_nil]
      omega
    · rw [Tariff.turning_singleton]
      omega

end Progress

/-! ## Priced moves -/

/-- The path of a priced move leads out of its port to the target, and has room for `n` qubits. -/
structure MoveCost.Passable (c : MoveCost) (t : Trap) (source target n : Nat) : Prop where
  cons : ∃ w rest e, c.path = source :: w :: rest ∧
    t.arch.Linked ⟨source, c.sourcePort⟩ ⟨w, e⟩
  chain : c.path.IsChain t.arch.Joined
  last : c.path.getLast? = some target
  room : ∀ w ∈ c.path.tail, n ≤ t.freeSpace w

/-- The chains of a trap without the qubits of a cohort. -/
def Trap.without (t : Trap) (qs : List Nat) (z : Nat) : List Nat :=
  (t.chain z).filter (!qs.contains ·)

theorem Trap.mem_chain_of_cohort {t : Trap} {source q : Nat} {qs : List Nat}
    (hqs : t.cohort source qs = qs) (hq : q ∈ qs) : q ∈ t.chain source := by
  rw [← hqs] at hq
  exact List.mem_of_mem_filter hq

/-- Zones other than that of the cohort have nobody to lose. -/
theorem Trap.Consistent.without_eq {t : Trap} (h : t.Consistent) {source z : Nat} {qs : List Nat}
    (hqs : t.cohort source qs = qs) (hz : z ≠ source) : t.without qs z = t.chain z := by
  refine List.filter_eq_self.2 fun q hq => ?_
  have hnot : q ∉ qs := fun hin => hz (h.eq_of_mem hq (mem_chain_of_cohort hqs hin))
  simpa using hnot

/-- What a tariff charges for a priced move: lining up at the port of departure, a shuttle for every
hop, and changing ends where the path turns. -/
def MoveCost.bill (c : MoveCost) (τ : Tariff) (t : Trap) (source : Nat) (qs : List Nat) : Nat :=
  overtakesTo c.sourcePort qs.contains (t.chain source) * τ.swap source
    + (c.path.length - 1) * τ.shuttle
    + τ.turning qs.length (t.without qs) (t.arch.turns c.sourcePort c.path)

theorem MoveCost.bill_of_swap_eq_zero (c : MoveCost) {τ : Tariff} (h : ∀ z, τ.swap z = 0)
    (t : Trap) (source : Nat) (qs : List Nat) :
    c.bill τ t source qs = (c.path.length - 1) * τ.shuttle := by
  rw [bill, h, τ.turning_of_swap_eq_zero _ _ h]
  omega

/-- A cohort was carried to its target: it joins the chain there at one end, and all other chains
lose at most the cohort. The log opens with a barrier and is charged for as the move is. -/
structure Progress.Delivers (p p' : Progress) (source target : Nat) (qs : List Nat)
    (c : MoveCost) : Prop extends Reaches p p' where
  carries : ∃ side, p'.trap.Carries qs target side (p.trap.without qs)
  bill : ∀ τ : Tariff, τ.bill p'.ops = τ.bill p.ops + τ.barrier + c.bill τ p.trap source qs

/-- A move with a passable path is carried out. -/
theorem Progress.execute_spec {p : Progress} {source target : Nat} {qs : List Nat} {c : MoveCost}
    (h : p.trap.Consistent) (hlegal : p.trap.arch.Legal)
    (hqs : p.trap.cohort source qs = qs) (hc : c.Passable p.trap source target qs.length) :
    ∃ p', p.execute source qs c = .ok p' ∧ p.Delivers p' source target qs c := by
  obtain ⟨w, rest, e, hpath, hlink⟩ := hc.cons
  let p₀ : Progress := { p with ops := p.ops ++ [.barrier] }
  have hr₀ : p.Reaches p₀ := reaches_of_replayOp h.follows_self rfl
  obtain ⟨p₁, hp₁, ha₁⟩ := align_spec (p := p₀) h source qs c.sourcePort
  -- lined up at its port, the cohort is carried by its own zone
  have hcarry : p₁.trap.Carries qs source c.sourcePort (p.trap.without qs) := by
    refine ⟨?_, fun w hw => ?_⟩
    · rw [ha₁.chain_eq]
      exact congrArg (Trap.enter c.sourcePort · _) hqs
    · rw [ha₁.others w hw]
      exact (h.without_eq hqs hw).symm
  have harch : p₁.trap.arch = p.trap.arch := ha₁.follows.arch
  obtain ⟨p₂, side, hp₂, hr₂, hc₂, hbill₂⟩ := hops_spec ha₁.follows.consistent
    (harch ▸ hlegal) hcarry (by rw [harch, ← hpath]; exact hc.chain)
    (by rw [← hpath]; exact hc.last)
    (.inr ⟨rfl, by simpa [harch] using ⟨e, hlink⟩⟩) (by
      intro y hy
      have hroom := hc.room y (by simpa [hpath] using hy)
      have hle := List.length_filter_le (!qs.contains ·) (p.trap.chain y)
      have hcap := h.capacity y
      rw [Trap.freeSpace, h.occupancy_eq] at hroom
      rw [harch, Trap.without]
      omega)
  refine ⟨p₂, ?_, hr₀.trans (ha₁.toReaches.trans hr₂), ⟨side, hc₂⟩, fun τ => ?_⟩
  · have hlen : ¬ c.path.length < 2 := by simp [hpath]
    rw [execute, if_neg hlen]
    show (p₀.align source qs c.sourcePort >>= fun p => hops qs none c.path p) = .ok p₂
    rw [hp₁, ok_bind, hpath, hp₂]
  · have hline : τ.bill p₁.ops = τ.bill (p.ops ++ [.barrier])
        + overtakesTo c.sourcePort qs.contains (p.trap.chain source) * τ.swap source := ha₁.bill τ
    have hbarrier : τ.bill [.barrier] = τ.barrier := rfl
    have hhops : (source :: w :: rest).length - 1 = (w :: rest).length := rfl
    rw [hbill₂, hline, Tariff.bill_append, hbarrier, harch, MoveCost.bill, hpath, hhops]
    omega

section Passable

variable {t : Trap} (hlegal : t.arch.Legal) {qs : List Nat} {source target : Nat} {port : Port}
  {c : MoveCost} (hne : source ≠ target)
include hlegal hne

/-- With swaps priced, the way is found through the ports: it lets the cohort pass all zones but the
last, which is the target. -/
theorem CostModel.passable_of_shuttleSwap (h : t.Consistent)
    (hroom : qs.length ≤ t.freeSpace target)
    (hc : CostModel.shuttleSwap.fromPort t qs source target port = some c) :
    c.Passable t source target qs.length := by
  obtain ⟨way, hway, rfl⟩ := Option.map_eq_some_iff.1 hc
  have hspec := hlegal.path_spec h.connections_ports hne hway
  refine ⟨hspec.cons, hspec.chain, hspec.last, fun w hw => ?_⟩
  change w ∈ way.zones.tail at hw
  obtain ⟨y, rest, e, hzones, -⟩ := hspec.cons
  have hlast : (y :: rest).getLast? = some target := by
    have := hspec.last
    rwa [hzones, List.getLast?_cons_cons] at this
  have hfree := hspec.free
  rw [hzones, List.tail_cons] at hw hfree
  rw [← List.dropLast_append_getLast? _ hlast, List.mem_append, List.mem_singleton] at hw
  rcases hw with hw | rfl
  · obtain ⟨e, he, hle⟩ := hfree w hw
    have hlt : w < t.arch.numZones := by
      rw [← h.numZones_ports]
      exact (List.getElem?_eq_some_iff.1 he).1
    obtain ⟨e', he', hfree'⟩ := h.exists_edge hlt
    rw [he] at he'
    rw [← hfree', ← Option.some.inj he']
    exact hle
  · exact hroom

/-- With shuttles priced only, the way is a shortest path whose free space is looked at as a
whole. -/
theorem CostModel.passable_of_shuttleOnly (hs : source < t.arch.numZones)
    (hc : CostModel.shuttleOnly.fromPort t qs source target port = some c) :
    c.Passable t source target qs.length := by
  simp only [fromPort, Option.bind_eq_bind, Option.bind_eq_some_iff] at hc
  obtain ⟨way, hway, hc⟩ := hc
  obtain ⟨zones, hzones, rfl⟩ := Option.map_eq_some_iff.1 hway
  have hspec := hlegal.shortestPath_spec hs hzones
  obtain ⟨tail, rfl⟩ := hspec.eq_cons
  split_ifs at hc with hcap
  obtain ⟨w, rest, rfl⟩ : ∃ w rest, tail = w :: rest := by
    cases tail with
    | nil => exact absurd (by simpa using hspec.last) hne
    | cons w rest => exact ⟨w, rest, rfl⟩
  obtain ⟨exit, arrival, hlink⟩ := (List.isChain_cons_cons.1 hspec.chain).1
  have hroom : ∀ y ∈ w :: rest, qs.length ≤ t.freeSpace y := by
    intro y hy
    simp only [List.tail_cons] at hcap
    cases hmin : ((w :: rest).map t.freeSpace).min? with
    | none => simp at hmin
    | some n =>
      rw [hmin] at hcap
      have hn : qs.length ≤ n := by simpa using hcap
      have := (List.min?_eq_some_iff.1 hmin).2 _ (List.mem_map_of_mem hy)
      omega
  have hports := hlegal.connectionPorts_eq_ok_iff.2 hlink
  split at hc
  · next z₀ z₁ _ y₁ y₀ _ hpath _ =>
    simp only [List.cons.injEq] at hpath
    obtain ⟨rfl, rfl, -⟩ := hpath
    rw [hports] at hc
    simp only [Except.toOption, Option.bind_some, Option.bind_eq_some_iff] at hc
    obtain ⟨_, -, hc⟩ := hc
    obtain rfl := Option.some.inj hc
    exact ⟨⟨_, _, arrival, rfl, hlink⟩, hspec.chain, hspec.last, hroom⟩
  · next hno =>
    -- a path of two zones or more has two ends in either direction
    have hlong : ∃ y₁ y₀ back, (source :: w :: rest).reverse = y₁ :: y₀ :: back := by
      match hrev : (source :: w :: rest).reverse with
      | [] => simp at hrev
      | [_] =>
        have := congrArg List.length hrev
        simp at this
      | y₁ :: y₀ :: back => exact ⟨y₁, y₀, back, rfl⟩
    obtain ⟨y₁, y₀, back, hback⟩ := hlong
    exact absurd hback (hno _ _ _ _ _ _ rfl)

/-- What a model prices is passable, given room in the target. -/
theorem CostModel.passable_of_fromPort {m : CostModel} (h : t.Consistent)
    (hs : source < t.arch.numZones) (hroom : qs.length ≤ t.freeSpace target)
    (hc : m.fromPort t qs source target port = some c) :
    c.Passable t source target qs.length := by
  cases m with
  | shuttleSwap => exact passable_of_shuttleSwap hlegal hne h hroom hc
  | shuttleOnly => exact passable_of_shuttleOnly hlegal hne hs hc

end Passable

end IonTrap
