import IonTrap.Proofs.Trap.Moves

/-!
# Reachable traps

A trap is loaded with a valid placement and from then on changed by swaps and shuttles. On a legal
architecture every such trap is consistent (`Trap.Reachable.consistent`), and a consistent trap
passes its own check (`Trap.Consistent.checkInvariants`).
-/

namespace IonTrap.Trap

/-! ## What a move that was made tells -/

/-- A shuttle is made only between two zones of the trap, with distinct qubits of the first for
which the second has room. They are then transferred. -/
theorem move_eq_ok {t t' : Trap} {qs : List Nat} {source target : Nat} {port : Port}
    (h : t.move qs source target port = .ok t') :
    source ≠ target ∧ source < t.arch.numZones ∧ target < t.arch.numZones ∧ qs.Nodup ∧
      (∀ q ∈ qs, q < t.numQubits ∧ t.zoneOf q = source) ∧
      t.occupancy target + qs.length ≤ t.arch.transportCapacity target ∧
      t' = t.transfer qs source target port := by
  unfold move at h
  split at h
  · simp at h
  next hne =>
  obtain ⟨_, hmovable, h⟩ := bind_eq_ok_iff.1 h
  split at h
  · simp at h
  split at h
  · simp at h
  split at h
  · simp at h
  next ht hroom hs =>
  obtain ⟨hqs, hnodup⟩ := checkMovable_eq_ok_iff.1 hmovable
  refine ⟨hne, by simpa [hasZone] using hs, by simpa [hasZone] using ht, hnodup, ?_, by omega,
    (Except.ok.inj h).symm⟩
  intro q hq
  exact ⟨(hqs q hq).1, (hqs q hq).2.1⟩

theorem Consistent.follows_of_move {t t' : Trap} (h : t.Consistent) {qs : List Nat}
    {source target : Nat} {port : Port} (hmove : t.move qs source target port = .ok t') :
    t.Follows t' := by
  obtain ⟨hne, hs, ht, hnodup, hqs, hroom, rfl⟩ := move_eq_ok hmove
  have hin : ∀ q ∈ qs, q ∈ t.chain source := fun q hq => h.mem_chain_iff.2 (hqs q hq)
  exact ⟨consistent_transfer h hne hs ht hnodup hin hroom, rfl, rfl⟩

/-- A swap exchanges two neighbours that stand where it was asked for. -/
theorem swap_eq_ok {t t' : Trap} {z left : Nat} (h : t.swap z left = .ok t') :
    ∃ pre post x y, t.chain z = pre ++ x :: y :: post ∧ pre.length = left ∧
      t' = t.exchanged z pre post x y := by
  unfold swap at h
  split at h
  · simp at h
  next chain hchain =>
  split at h
  · -- the two places exist, so the chain is what stands before them, the two and the rest
    next x y hx hy =>
    obtain ⟨hleft, hgetx⟩ := List.getElem?_eq_some_iff.1 hx
    obtain ⟨hright, hgety⟩ := List.getElem?_eq_some_iff.1 hy
    have hlen : (chain.take left).length = left := by
      rw [List.length_take]
      omega
    have hsplit : chain = chain.take left ++ x :: y :: chain.drop (left + 1 + 1) := by
      rw [← hgetx, ← hgety, List.getElem_cons_drop, List.getElem_cons_drop, List.take_append_drop]
    have hset : (chain.set left y).set (left + 1) x
        = chain.take left ++ y :: x :: chain.drop (left + 1 + 1) := by
      have := set_set_eq_append (chain.take left) (chain.drop (left + 1 + 1)) x y
      rwa [← hsplit, hlen] at this
    refine ⟨chain.take left, chain.drop (left + 1 + 1), x, y, ?_, hlen, ?_⟩
    · rw [chain_of_getElem? hchain]
      exact hsplit
    · rw [exchanged, ← hset, hlen]
      exact (Except.ok.inj h).symm
  · split_ifs at h

theorem Consistent.follows_of_swap {t t' : Trap} (h : t.Consistent) {z left : Nat}
    (hswap : t.swap z left = .ok t') : t.Follows t' := by
  obtain ⟨pre, post, x, y, hz, -, rfl⟩ := swap_eq_ok hswap
  exact ⟨consistent_exchanged h hz, rfl, rfl⟩

/-! ## Swaps and shuttles from a valid placement on -/

/-- A trap that was loaded with a valid placement and has since seen swaps and shuttles only. One
that is refused leaves the trap as it is. -/
inductive Reachable (a : Architecture) : Trap → Prop
  | loaded {n : Nat} {p : Placement} {t : Trap} (h : ofPlacement a n p = .ok t) : Reachable a t
  | moved {t t' : Trap} {qs : List Nat} {source target : Nat} {port : Port} (ht : Reachable a t)
      (h : t.move qs source target port = .ok t') : Reachable a t'
  | swapped {t t' : Trap} {z left : Nat} (ht : Reachable a t) (h : t.swap z left = .ok t') :
      Reachable a t'

/-- Reachable traps are consistent and keep their architecture. -/
theorem Reachable.consistent {a : Architecture} (ha : a.Legal) {t : Trap} (h : Reachable a t) :
    t.Consistent ∧ t.arch = a := by
  induction h with
  | loaded h =>
    refine ⟨consistent_ofPlacement ha h, ?_⟩
    rw [(ofPlacement_eq_ok h).2.2]
  | moved _ h ih =>
    have hfollows := ih.1.follows_of_move h
    exact ⟨hfollows.consistent, hfollows.arch.trans ih.2⟩
  | swapped _ h ih =>
    have hfollows := ih.1.follows_of_swap h
    exact ⟨hfollows.consistent, hfollows.arch.trans ih.2⟩

/-! ## The self-check -/

theorem checkSpots_eq_ok_iff {t : Trap} {z i : Nat} {chain : List Nat} :
    t.checkSpots z i chain = .ok () ↔
      ∀ k q : Nat, chain[k]? = some q → t.spots[q]? = some (z, i + k) := by
  induction chain generalizing i with
  | nil => simp [checkSpots]
  | cons q chain ih =>
    rw [checkSpots]
    split_ifs with hq
    · rw [ih]
      constructor
      · intro h k r hr
        cases k with
        | zero =>
          obtain rfl : q = r := by simpa using hr
          exact hq
        | succ k =>
          rw [show i + (k + 1) = i + 1 + k by omega]
          exact h k r (by simpa using hr)
      · intro h k r hr
        rw [show i + 1 + k = i + (k + 1) by omega]
        exact h (k + 1) r (by simpa using hr)
    · refine ⟨by simp, fun h => ?_⟩
      exact absurd (h 0 q rfl) hq

/-- A chain is as long as recorded, not too long, and its qubits have their places recorded. -/
structure Recorded (t : Trap) (z : Nat) (chain : List Nat) : Prop where
  length : chain.length = t.occupancy z
  capacity : chain.length ≤ t.arch.transportCapacity z
  spots : t.checkSpots z 0 chain = .ok ()

/-- The check of the chains asks that each be recorded, and counts the qubits. -/
theorem checkChains_eq_ok_iff {t : Trap} {z n m : Nat} {chains : List (List Nat)} :
    t.checkChains z n chains = .ok m ↔
      (∀ (k : Nat) (chain : List Nat), chains[k]? = some chain → t.Recorded (z + k) chain) ∧
        m = n + chains.flatten.length := by
  induction chains generalizing z n with
  | nil =>
    rw [checkChains]
    simp [eq_comm]
  | cons chain chains ih =>
    rw [checkChains]
    split_ifs with hlen hcap
    · exact ⟨by simp, fun h => absurd (h.1 0 chain rfl).length hlen⟩
    · refine ⟨by simp, fun h => ?_⟩
      have : chain.length ≤ t.arch.transportCapacity z := (h.1 0 chain rfl).capacity
      omega
    · rw [bind_eq_ok_iff]
      simp only [ih, List.flatten_cons, List.length_append]
      constructor
      · rintro ⟨_, hspots, hrest, hm⟩
        refine ⟨fun k chain' hk => ?_, by omega⟩
        cases k with
        | zero =>
          obtain rfl : chain = chain' := by simpa using hk
          exact ⟨by simpa using hlen, by simpa using hcap, hspots⟩
        | succ k =>
          rw [show z + (k + 1) = z + 1 + k by omega]
          exact hrest k chain' (by simpa using hk)
      · rintro ⟨hall, hm⟩
        refine ⟨(), (hall 0 chain rfl).spots, fun k chain' hk => ?_, by omega⟩
        rw [show z + 1 + k = z + (k + 1) by omega]
        exact hall (k + 1) chain' (by simpa using hk)

/-- The whole check asks that every chain be recorded and that their qubits be as many as there
are. -/
theorem checkInvariants_eq_ok_iff {t : Trap} :
    t.checkInvariants = .ok () ↔
      (∀ (z : Nat) (chain : List Nat), t.placement[z]? = some chain → t.Recorded z chain) ∧
        t.placement.flatten.length = t.numQubits := by
  rw [checkInvariants, bind_eq_ok_iff]
  simp only [checkChains_eq_ok_iff, Nat.zero_add]
  constructor
  · rintro ⟨total, ⟨hall, rfl⟩, h⟩
    split_ifs at h with htotal
    exact ⟨hall, htotal⟩
  · rintro ⟨hall, htotal⟩
    exact ⟨_, ⟨hall, rfl⟩, if_pos htotal⟩

/-- A consistent trap passes its own check. -/
theorem Consistent.checkInvariants {t : Trap} (h : t.Consistent) : t.checkInvariants = .ok () := by
  refine checkInvariants_eq_ok_iff.2 ⟨fun z chain hz => ?_, ?_⟩
  · obtain rfl : t.chain z = chain := chain_of_getElem? hz
    refine ⟨(h.occupancy_eq z).symm, h.capacity z, checkSpots_eq_ok_iff.2 fun i q hi => ?_⟩
    rw [Nat.zero_add]
    exact (h.spot_iff q z i).2 hi
  · rw [h.perm_flatten.length_eq, List.length_range]

end IonTrap.Trap
