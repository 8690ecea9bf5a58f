import IonTrap.Proofs.Routing.Journey
import IonTrap.Proofs.Trap.Prices
import IonTrap.Proofs.Trap.Reachable

/-!
# Journeys never get stuck

On a connected trap with a spare spot in every zone a journey between placements within gate
capacity always ends, if the spots of all zones together can be counted in a word. What carries it
is `Journey.Balanced`: at most one zone is above its gate capacity, by one, and the journey knows
it. All other zones then let a qubit pass. If the overfull zone is left next, it is back within
capacity when another zone may have taken its place.

So there is always a batch to move (`Journey.Balanced.exists_batch`). A journey asks for spots
before it looks for one, though, and where their number is too large for a word it may find none and
give up (`Trap.routeTo_miscounts_spots`).
-/

namespace IonTrap

/-- Every zone has a spot beyond its gate capacity, and the capacities are words. -/
def Architecture.Spare (a : Architecture) : Prop :=
  ∀ z < a.numZones, a.gateCapacity z + 1 ≤ a.transportCapacity z ∧ a.transportCapacity z < wordSize

/-- The spots of all zones together, spare ones included, can be counted in a word. -/
def Architecture.Countable (a : Architecture) : Prop :=
  total (a.zones.map (·.gateCapacity + 1)) < wordSize

/-- No zone is above its gate capacity. -/
def Trap.Settled (t : Trap) : Prop := ∀ z, t.occupancy z ≤ t.arch.gateCapacity z

theorem Trap.settled_ofPlacement {a : Architecture} (ha : a.Legal) {n : Nat} {p : Placement}
    {t : Trap} (h : ofPlacement a n p = .ok t) : t.Settled := by
  intro z
  rw [(consistent_ofPlacement ha h).occupancy_eq]
  obtain ⟨hfits, -, rfl⟩ := ofPlacement_eq_ok h
  exact hfits.length_le z

/-! ## Finding a batch -/

theorem Batch.exists_cheapest {bs : List Batch} {b : Batch} (h : b ∈ bs) :
    ∃ b', cheapest bs = some b' := by
  refine exists_foldl_choice (P := fun b b' => b' = b) (fun best c => ?_) h fun best => ?_
  · rcases better_cases best c with hc | hc
    · exact .inl hc
    · exact .inr ⟨c, hc, rfl⟩
  · cases best with
    | none => simp [better]
    | some a =>
      rw [better]
      split <;> simp

theorem exists_largest? {α : Type} {f : Nat → Option α} {n k : Nat} {x : α} (hk : 0 < k)
    (hkn : k ≤ n) (h : f k = some x) : ∃ y, largest? f n = some y := by
  rw [← Option.ne_none_iff_exists']
  intro hnone
  simp [largest?_eq_none_iff.1 hnone k hk hkn] at h

section Batch

variable {t : Trap} (h : t.Consistent) (hlegal : t.arch.Legal) (hconn : t.arch.Connected)
include h hlegal hconn

/-- A group whose target has a spot has a batch if every other zone lets a qubit pass. -/
theorem Group.exists_batch (m : CostModel) {g : Group} {soft : Bool} {q : Nat}
    (hq : q ∈ g.qubits) (hin : q ∈ t.chain g.source) (htarget : g.target < t.arch.numZones)
    (hne : g.source ≠ g.target) (hspots : 0 < t.spotsFor g.target soft)
    (hpass : t.Passing g.source 1) : ∃ b, g.batch? m t soft = some b := by
  obtain ⟨port, hport⟩ := CostModel.exists_fromPort h hlegal hconn m (h.lt_numZones_of_mem hin)
    htarget hne hpass
  -- the qubit nearest to that port is a batch of its own
  obtain ⟨x, xs, hx⟩ := List.exists_cons_of_ne_nil (List.ne_nil_of_mem (g.mem_nearest.2 hq))
  obtain ⟨c, hc⟩ := hport [x] rfl
  have hb : g.batchOf? m t port 1 = some ⟨g.source, g.target, [x], c⟩ := by
    rw [Group.batchOf?, hx, List.take_succ_cons, List.take_zero]
    show (m.fromPort t [x] g.source g.target port).map _ = _
    rw [hc, Option.map_some]
  have hpos := List.length_pos_of_mem hq
  obtain ⟨b', hb'⟩ : ∃ b', g.portBatch? m t soft port = some b' :=
    exists_largest? Nat.one_pos (by omega) hb
  refine Batch.exists_cheapest (List.mem_filterMap.2 ⟨port, ?_, hb'⟩)
  cases port <;> simp [Port.both]

omit h hlegal hconn in
theorem exists_batchAmong {m : CostModel} {soft : Bool} {gs : List Group} {g : Group} (hg : g ∈ gs)
    (hb : ∃ b, g.batch? m t soft = some b) : ∃ b, batchAmong? m t soft gs = some b := by
  obtain ⟨b, hb⟩ := hb
  exact Batch.exists_cheapest (List.mem_filterMap.2 ⟨g, hg, hb⟩)

end Batch

/-! ## Spots of the target zones -/

section Spots

variable {t : Trap} {gs : List Group} {soft : Bool}

theorem Trap.mem_targetZones_iff {z : Nat} :
    z ∈ t.targetZones gs ↔ z < t.arch.numZones ∧ ∃ g ∈ gs, g.target = z := by
  simp [targetZones]

theorem Architecture.total_zones (a : Architecture) (f : Nat → Nat) :
    total (a.zones.map fun zone => f zone.gateCapacity)
      = total ((List.range a.numZones).map fun z => f (a.gateCapacity z)) := by
  refine congrArg total (List.ext_getElem (by simp [numZones]) fun z hz hz' => ?_)
  rw [List.length_map] at hz
  simp [gateCapacity, hz]

/-- A zone has no more spots than its gate capacity, one more in soft-lock, leaves over. -/
theorem Trap.spotsFor_le (t : Trap) (z : Nat) (soft : Bool) :
    t.spotsFor z soft ≤ t.arch.gateCapacity z + (if soft then 1 else 0) - t.occupancy z :=
  (Nat.min_le_left _ _).trans (Nat.sub_le_sub_right (wrap_le _) _)

/-- The spots that target zones have can be counted, if those of all zones can. -/
theorem Trap.total_spots_lt (hcount : t.arch.Countable) :
    total ((t.targetZones gs).map (t.spotsFor · soft)) < wordSize := by
  refine Nat.lt_of_le_of_lt ?_ hcount
  rw [t.arch.total_zones (· + 1)]
  have hle : ∀ z, t.spotsFor z soft ≤ t.arch.gateCapacity z + 1 := by
    intro z
    have hspots := t.spotsFor_le z soft
    have hsoft : (if soft then 1 else 0) ≤ 1 := by split <;> decide
    omega
  exact (total_map_le fun z _ => hle z).trans
    (total_map_le_of_subset _ (List.nodup_range.filter _) (List.filter_subset_self _))

theorem Trap.hasSpace_of_spots (hcount : t.arch.Countable) {g : Group} (hg : g ∈ gs)
    (hlt : g.target < t.arch.numZones) (hspots : 0 < t.spotsFor g.target soft) :
    t.hasSpace gs soft = true := by
  have hmem : g.target ∈ t.targetZones gs := mem_targetZones_iff.2 ⟨hlt, g, hg, rfl⟩
  have hone := le_total_of_mem (List.mem_map_of_mem (f := (t.spotsFor · soft)) hmem)
  rw [hasSpace, bne_iff_ne, wrap_of_lt (total_spots_lt hcount)]
  omega

/-- If there are spots, some group has one. -/
theorem Trap.exists_spots_of_hasSpace (h : t.hasSpace gs soft = true) :
    ∃ g ∈ gs, g.target < t.arch.numZones ∧ 0 < t.spotsFor g.target soft := by
  by_contra hnone
  push Not at hnone
  have hzero : total ((t.targetZones gs).map (t.spotsFor · soft)) ≤ 0 := by
    refine (total_map_le (g := fun _ => 0) fun z hz => ?_).trans (Nat.le_of_eq (total_map_zero _))
    obtain ⟨hlt, g, hg, rfl⟩ := mem_targetZones_iff.1 hz
    exact hnone g hg hlt
  rw [hasSpace, Nat.le_zero.1 hzero] at h
  simp at h

end Spots

/-! ## The balance of a journey -/

namespace Trap

/-- Occupancies after a cohort was carried from one zone to another. -/
theorem Carries.occupancy {t t' : Trap} (h : t.Consistent) (h' : t'.Consistent) {qs : List Nat}
    {source target : Nat} {side : Port} (hne : source ≠ target)
    (hqs : t.cohort source qs = qs)
    (hc : t'.Carries qs target side (t.without qs)) :
    t'.occupancy target = t.occupancy target + qs.length ∧
      t'.occupancy source + qs.length = t.occupancy source ∧
      ∀ w, w ≠ source → w ≠ target → t'.occupancy w = t.occupancy w := by
  refine ⟨?_, ?_, ?_⟩
  · rw [h'.occupancy_eq, hc.here, length_enter, h.without_eq hqs (Ne.symm hne), h.occupancy_eq]
  · rw [h'.occupancy_eq, hc.others source hne, h.occupancy_eq]
    exact length_filter_notMem (h.nodup_chain source) (hc.nodup h') fun q hq =>
      mem_chain_of_cohort hqs hq
  · intro w hws hwt
    rw [h'.occupancy_eq, hc.others w hwt, h.without_eq hqs hws, h.occupancy_eq]

/-- A zone that holds more qubits than the target gives it holds one that must leave. -/
theorem Consistent.exists_misplaced {t : Trap} (h : t.Consistent) {target : Placement} {z : Nat}
    (hlen : (target.getD z []).length < t.occupancy z) :
    ∃ q ∈ t.chain z, q ∉ target.getD z [] := by
  by_contra hall
  push Not at hall
  have hle := (List.subperm_of_subset (h.nodup_chain z) hall).length_le
  rw [h.occupancy_eq] at hlen
  omega

end Trap

namespace Journey

variable {t : Trap} {target : Placement} {m : CostModel} {j j' : Journey}

/-- Only the zone that must be left next is above its gate capacity, by one and in soft-lock. -/
structure Balanced (j : Journey) : Prop where
  others : ∀ z, j.forced ≠ some z → j.trap.occupancy z ≤ j.trap.arch.gateCapacity z
  forced : ∀ z, j.forced = some z →
    j.soft = true ∧ j.trap.occupancy z = j.trap.arch.gateCapacity z + 1

theorem Balanced.passing (hj : j.Balanced) (hspare : j.trap.arch.Spare) {source : Nat}
    (hforced : ∀ z, j.forced = some z → source = z) : j.trap.Passing source 1 := by
  intro w hw hne
  have hle := hj.others w fun hw => hne (hforced w hw).symm
  have hroom := (hspare w hw).1
  rw [Trap.freeSpace]
  omega

/-- The group to be served next: it leaves the overfull zone if there is one, and its target has a
spot. -/
theorem Balanced.exists_group (h : j.trap.Consistent) (hspare : j.trap.arch.Spare)
    (ht : target.Fits j.trap.arch j.trap.numQubits) (hp : j.trap.Pending target j.groups)
    (hj : j.Balanced) (hgroups : j.groups ≠ []) {soft : Bool}
    (hsoft : soft = (j.soft || !j.trap.hasSpace j.groups false)) :
    ∃ g ∈ j.groups, g.target < j.trap.arch.numZones ∧ 0 < j.trap.spotsFor g.target soft ∧
      ∀ z, j.forced = some z → g.source = z := by
  have htarget : ∀ g ∈ j.groups, g.target < j.trap.arch.numZones := by
    intro g hg
    obtain ⟨q, hq⟩ := List.exists_mem_of_ne_nil _ (hp.nonempty g hg)
    exact ht.lt_numZones_of_mem (hp.mem g hg q hq).2
  have hspots : ∀ z < j.trap.arch.numZones, j.forced ≠ some z → 0 < j.trap.spotsFor z true := by
    intro z hz hne
    have hle := hj.others z hne
    obtain ⟨hroom, hword⟩ := hspare z hz
    rw [Trap.spotsFor, Trap.freeSpace, if_pos rfl, wrap_of_lt (by omega)]
    omega
  cases hforced : j.forced with
  | none =>
    -- in soft-lock any group will do, else the one whose target was seen to have a spot
    cases soft with
    | true =>
      obtain ⟨g, hg⟩ := List.exists_mem_of_ne_nil _ hgroups
      exact ⟨g, hg, htarget g hg, hspots _ (htarget g hg) (by simp [hforced]), by simp⟩
    | false =>
      have hspace : j.trap.hasSpace j.groups false = true := by
        simp only [Bool.false_eq, Bool.or_eq_false_iff, Bool.not_eq_false'] at hsoft
        exact hsoft.2
      obtain ⟨g, hg, hlt, hpos⟩ := Trap.exists_spots_of_hasSpace hspace
      exact ⟨g, hg, hlt, hpos, by simp⟩
  | some z =>
    -- the overfull zone holds more than its target asks for, so somebody there must leave
    obtain ⟨hjsoft, hocc⟩ := hj.forced z hforced
    obtain rfl : soft = true := by rw [hsoft, hjsoft, Bool.true_or]
    have hlen : (target.getD z []).length < j.trap.occupancy z := by
      have := ht.length_le z
      omega
    obtain ⟨q, hq, hnot⟩ := h.exists_misplaced hlen
    obtain ⟨w, hw⟩ := ht.exists_mem (h.mem_chain_iff.1 hq).1
    have hwz : w ≠ z := fun hwz => hnot (hwz ▸ hw)
    obtain ⟨g, hg, hqg⟩ := hp.cover q w hw fun hin => hwz (h.eq_of_mem hin hq)
    obtain ⟨hin, hto⟩ := hp.mem g hg q hqg
    obtain rfl : g.target = w := ht.eq_of_mem hto hw
    refine ⟨g, hg, htarget g hg, hspots _ (htarget g hg) ?_, ?_⟩
    · rw [hforced]
      simpa using Ne.symm hwz
    · intro y hy
      obtain rfl := Option.some.inj hy
      exact h.eq_of_mem hin hq

/-- There is always a next batch, and it leaves the overfull zone if there is one. If spots can be
counted, there is seen to be one. -/
theorem Balanced.exists_nextBatch (h : j.trap.Consistent) (hlegal : j.trap.arch.Legal)
    (hconn : j.trap.arch.Connected) (hspare : j.trap.arch.Spare)
    (ht : target.Fits j.trap.arch j.trap.numQubits) (hp : j.trap.Pending target j.groups)
    (hj : j.Balanced) (hgroups : j.groups ≠ []) {soft : Bool}
    (hsoft : soft = (j.soft || !j.trap.hasSpace j.groups false)) :
    (j.trap.arch.Countable → j.trap.hasSpace j.groups soft = true) ∧
      ∃ b, nextBatch? m j.trap j.groups j.forced soft = some b ∧
        ∀ z, j.forced = some z → b.source = z := by
  obtain ⟨g, hg, hlt, hspots, hsource⟩ := hj.exists_group h hspare ht hp hgroups hsoft
  obtain ⟨q, hq⟩ := List.exists_mem_of_ne_nil _ (hp.nonempty g hg)
  have hbatch := Group.exists_batch h hlegal hconn m hq (hp.mem g hg q hq).1 hlt (hp.ne g hg) hspots
    (hj.passing hspare hsource)
  refine ⟨fun hcount => Trap.hasSpace_of_spots hcount hg hlt hspots, ?_⟩
  cases hforced : j.forced with
  | none =>
    obtain ⟨b, hb⟩ := exists_batchAmong hg hbatch
    exact ⟨b, hb, by simp⟩
  | some z =>
    have hgz : g ∈ j.groups.filter (·.source == z) :=
      List.mem_filter.2 ⟨hg, by simpa using hsource z hforced⟩
    obtain ⟨b, hb⟩ := exists_batchAmong hgz hbatch
    refine ⟨b, by simp only [nextBatch?, hb], ?_⟩
    intro y hy
    obtain ⟨g', hg', hpart⟩ := partOf_of_batchAmong hb
    rw [← Option.some.inj hy, ← hpart.1]
    simpa using (List.mem_filter.1 hg').2

/-- A batch leaves at most its target above capacity, by one and in soft-lock. -/
theorem Balanced.afterBatch {p : Progress} {soft : Bool} {b : Batch} (hj : j.Balanced)
    (hsoft : soft = false → j.forced = none) (hforced : ∀ z, j.forced = some z → b.source = z)
    (harch : p.trap.arch = j.trap.arch) (hpos : 0 < b.qubits.length)
    (hspots : b.qubits.length ≤ j.trap.spotsFor b.target soft)
    (htarget : p.trap.occupancy b.target = j.trap.occupancy b.target + b.qubits.length)
    (hsource : p.trap.occupancy b.source + b.qubits.length = j.trap.occupancy b.source)
    (hother : ∀ w, w ≠ b.source → w ≠ b.target → p.trap.occupancy w = j.trap.occupancy w) :
    (j.afterBatch soft b p).Balanced := by
  have hfits : j.trap.occupancy b.target + b.qubits.length
      ≤ j.trap.arch.gateCapacity b.target + (if soft then 1 else 0) := by
    have hle := j.trap.spotsFor_le b.target soft
    omega
  refine ⟨fun z hz => ?_, fun z hz => ?_⟩
  · change overfull p.trap b.target ≠ some z at hz
    change p.trap.occupancy z ≤ p.trap.arch.gateCapacity z
    rw [harch]
    by_cases hzt : z = b.target
    · subst hzt
      unfold overfull at hz
      rw [harch] at hz
      split at hz
      · contradiction
      · omega
    · by_cases hzs : z = b.source
      · -- the source was at most one above its capacity and has lost a qubit
        subst hzs
        cases hf : j.forced with
        | none =>
          have := hj.others b.source (by simp [hf])
          omega
        | some y =>
          obtain rfl := hforced y hf
          have := (hj.forced b.source hf).2
          omega
      · rw [hother z hzs hzt]
        exact hj.others z fun hf => hzs (hforced z hf).symm
  · -- the target is overfull only if it took the spare spot, which soft-lock allows
    change overfull p.trap b.target = some z at hz
    change soft = true ∧ p.trap.occupancy z = p.trap.arch.gateCapacity z + 1
    unfold overfull at hz
    split at hz
    · next hlt =>
      obtain rfl := Option.some.inj hz
      rw [harch] at hlt ⊢
      cases soft with
      | true =>
        rw [if_pos rfl] at hfits
        exact ⟨rfl, by omega⟩
      | false =>
        simp only [Bool.false_eq_true, if_false] at hfits
        omega
    · simp at hz

/-- A balanced journey with qubits left to move has a batch, which leaves the overfull zone if there
is one, and is balanced again when it was carried out. It takes that step or, having miscounted the
spots, gives up. -/
theorem Balanced.exists_batch (hlegal : t.arch.Legal) (hconn : t.arch.Connected)
    (hspare : t.arch.Spare) (ht : target.Fits t.arch t.numQubits) (hu : Underway t target j)
    (hj : j.Balanced) (hgroups : j.groups ≠ []) {soft : Bool}
    (hsoft : soft = (j.soft || !j.trap.hasSpace j.groups false)) :
    ∃ b p, nextBatch? m j.trap j.groups j.forced soft = some b ∧
      Progress.execute ⟨j.trap, j.ops⟩ b.source b.qubits b.move = .ok p ∧
      Moves m target j soft b p ∧ (∀ z, j.forced = some z → b.source = z) ∧
      (j.afterBatch soft b p).Balanced ∧
      (t.arch.Countable → j.step m = .ok (j.afterBatch soft b p)) ∧
      ∀ j', j.step m = .ok j' → j' = j.afterBatch soft b p := by
  have h : j.trap.Consistent := hu.reaches.follows.consistent
  have harch : j.trap.arch = t.arch := hu.reaches.follows.arch
  have hn : j.trap.numQubits = t.numQubits := hu.reaches.follows.numQubits
  have hfits : target.Fits j.trap.arch j.trap.numQubits := by rwa [harch, hn]
  obtain ⟨hspace, b, hb, hforced⟩ := hj.exists_nextBatch (m := m) h (harch ▸ hlegal)
    (harch ▸ hconn) (harch ▸ hspare) hfits hu.pending hgroups hsoft
  obtain ⟨p, hexec, hmoves⟩ := hu.exists_moves hlegal ht hb
  obtain ⟨g, hg, hpart⟩ := hmoves.part
  obtain ⟨side, hcarry⟩ := hmoves.delivers.carries
  have hne : b.source ≠ b.target := by
    rw [← hpart.1, ← hpart.2.1]
    exact hu.pending.ne g hg
  obtain ⟨htarget, hsource, hother⟩ := hcarry.occupancy h hmoves.delivers.follows.consistent hne
    hmoves.movable.cohort
  have hstep : j.step m = if !j.trap.hasSpace j.groups soft then
      .error (j.trap, .infeasible (remaining j.groups)) else .ok (j.afterBatch soft b p) := by
    rw [step, ← hsoft]
    simp only [hb, hexec]
  refine ⟨b, p, hb, hexec, hmoves, hforced, hj.afterBatch ?_ hforced hmoves.delivers.follows.arch
    (List.length_pos_iff.2 hpart.2.2.1) hmoves.movable.spots htarget hsource hother, ?_, ?_⟩
  · rintro rfl
    cases hf : j.forced with
    | none => rfl
    | some z => simp [(hj.forced z hf).1] at hsoft
  · intro hcount
    rw [hstep, hspace (harch ▸ hcount)]
    rfl
  · intro j' hj'
    rw [hstep] at hj'
    split_ifs at hj'
    exact (Except.ok.inj hj').symm

theorem balanced_start (hsettled : t.Settled) (target : Placement) : (start t target).Balanced :=
  ⟨fun z _ => hsettled z, fun z hz => by simp [start] at hz⟩

/-- A balanced journey ends. -/
theorem Balanced.exists_run (hlegal : t.arch.Legal) (hconn : t.arch.Connected)
    (hspare : t.arch.Spare) (hcount : t.arch.Countable) (ht : target.Fits t.arch t.numQubits)
    (hu : Underway t target j) (hj : j.Balanced) : ∃ t' r, j.run m = (t', .ok r) := by
  fun_induction Journey.run m j with
  | case1 j hempty => exact ⟨_, _, rfl⟩
  | case2 j hne t' e hs =>
    obtain ⟨b, p, -, -, -, -, -, hs', -⟩ := hj.exists_batch (m := m) hlegal hconn hspare ht hu
      (by simpa using hne) rfl
    simp [hs' hcount] at hs
  | case3 j hne j' hs _ ih =>
    obtain ⟨b, p, -, -, -, -, hj', -, hs'⟩ := hj.exists_batch (m := m) hlegal hconn hspare ht hu
      (by simpa using hne) rfl
    obtain rfl := hs' j' hs
    exact ih (hu.step hlegal ht hs) hj'

end Journey

/-- A route that ends leaves no zone above its gate capacity, whatever it started with. -/
theorem Trap.settled_of_routeTo {m : CostModel} {t t' : Trap} {target : Placement}
    {r : RoutingResult} (h : t.Consistent) (hlegal : t.arch.Legal)
    (hr : t.routeTo m target = (t', .ok r)) : t'.Settled := by
  have hfollows : t.Follows t' := (routeTo_spec h hlegal hr).1
  intro z
  obtain ⟨e, fault, -, herror⟩ | ⟨ht, -⟩ := routeTo_cases m t target
  · simp [herror] at hr
  · rw [hfollows.consistent.occupancy_eq, hfollows.arch, (perm_of_routeTo h hlegal hr z).length_eq]
    exact ht.length_le z

/-- From a settled trap every valid target is reached, and the trap is settled again. -/
theorem Trap.exists_routeTo {t : Trap} (m : CostModel) (h : t.Consistent) (hlegal : t.arch.Legal)
    (hconn : t.arch.Connected) (hspare : t.arch.Spare) (hcount : t.arch.Countable)
    (hsettled : t.Settled) {target : Placement} (ht : target.Fits t.arch t.numQubits) :
    ∃ t' r, t.routeTo m target = (t', .ok r) ∧ t'.Settled := by
  obtain ⟨t', r, hrun⟩ := (Journey.balanced_start hsettled target).exists_run (m := m) hlegal hconn
    hspare hcount ht (Journey.underway_start h ht)
  have hroute : t.routeTo m target = (t', .ok r) := by
    rw [routeTo, checkTarget_eq_ok_iff.2 ht]
    exact hrun
  exact ⟨t', r, hroute, settled_of_routeTo h hlegal hroute⟩

/-- Three gate zones in a line, the outer two with so many spots that all of them together have more
than a word can count. -/
def Architecture.vastLine : Architecture :=
  ⟨4, [.gate 9223372036854775808, .gate 3, .gate 9223372036854775809], [.chain 0 1, .chain 1 2]⟩

theorem Architecture.connected_vastLine : vastLine.Connected := connected_of_chain (by decide)

end IonTrap
