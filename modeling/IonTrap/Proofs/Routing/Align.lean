import IonTrap.Proofs.Routing.Tariff
import IonTrap.Proofs.Trap.Moves
import IonTrap.Proofs.Trap.SwapCount
import IonTrap.Routing.Align

/-!
# Lining a cohort up

The operations of the router come with their replay: `Progress.Reaches` says that what was logged on
the way takes the first trap to the last. Lining qubits up at a port always succeeds and is such a
way; it puts the cohort at that end of its chain, keeps the order of the cohort and of the others,
leaves the other zones alone and takes one swap for every qubit that a member of the cohort
overtakes (`Progress.align_spec`).
-/

namespace IonTrap

/-- Replays physical operations one after another. -/
def Trap.replayOps (t : Trap) (ops : List RoutingOp) : Except ReplayFault Trap :=
  ops.foldlM Trap.replayOp t

@[simp] theorem Trap.replayOps_nil (t : Trap) : t.replayOps [] = .ok t := rfl

theorem Trap.replayOps_append (t : Trap) (ops ops' : List RoutingOp) :
    t.replayOps (ops ++ ops') = t.replayOps ops >>= (·.replayOps ops') := List.foldlM_append

theorem Trap.replayOps_singleton (t : Trap) (op : RoutingOp) :
    t.replayOps [op] = t.replayOp op := by
  simp [replayOps]

/-- Swaps of neighbours in one chain. Each is logged with the two qubits that stand next to each
other at its moment, the one nearer to the head first. -/
inductive Trap.Swaps (z : Nat) : Trap → List RoutingOp → Trap → Prop
  | nil (t : Trap) : Swaps z t [] t
  | cons {t t₁ t' : Trap} {pre post : List Nat} {x y : Nat} {ops : List RoutingOp}
      (hchain : t.chain z = pre ++ x :: y :: post) (hswap : t.swap z pre.length = .ok t₁)
      (hrest : Swaps z t₁ ops t') : Swaps z t (.swap z x y :: ops) t'

theorem Trap.Swaps.append {z : Nat} {t t' t'' : Trap} {ops ops' : List RoutingOp}
    (h : t.Swaps z ops t') (h' : t'.Swaps z ops' t'') : t.Swaps z (ops ++ ops') t'' := by
  induction h with
  | nil => exact h'
  | cons hchain hswap _ ih => exact .cons hchain hswap (ih h')

theorem Trap.Swaps.bill {z : Nat} {t t' : Trap} {ops : List RoutingOp} (h : t.Swaps z ops t')
    (τ : Tariff) : τ.bill ops = ops.length * τ.swap z := by
  induction h with
  | nil => simp
  | @cons _ _ _ _ _ x y ops _ _ _ ih =>
    rw [← List.singleton_append, Tariff.bill_append, ih, List.length_append, Nat.add_mul]
    simp [Tariff.charge]

namespace Progress

/-- The second progress comes from the first by operations that were logged and can be replayed. -/
structure Reaches (p p' : Progress) : Prop where
  follows : p.trap.Follows p'.trap
  replay : ∃ ops, p'.ops = p.ops ++ ops ∧ p.trap.replayOps ops = .ok p'.trap

theorem reaches_self {p : Progress} (h : p.trap.Consistent) : p.Reaches p :=
  ⟨h.follows_self, [], by simp, rfl⟩

theorem Reaches.trans {p p' p'' : Progress} (h : p.Reaches p') (h' : p'.Reaches p'') :
    p.Reaches p'' := by
  obtain ⟨ops, hops, hrun⟩ := h.replay
  obtain ⟨ops', hops', hrun'⟩ := h'.replay
  refine ⟨h.follows.trans h'.follows, ops ++ ops', ?_, ?_⟩
  · rw [hops', hops, List.append_assoc]
  · rw [Trap.replayOps_append, hrun, ok_bind, hrun']

/-- One logged operation. -/
theorem reaches_of_replayOp {p : Progress} {t : Trap} {op : RoutingOp} (h : p.trap.Follows t)
    (hop : p.trap.replayOp op = .ok t) : p.Reaches ⟨t, p.ops ++ [op]⟩ :=
  ⟨h, [op], rfl, by rw [Trap.replayOps_singleton, hop]⟩

/-- On the way only the order inside one chain changed, by `swaps` swaps. -/
structure Arranges (p p' : Progress) (z : Nat) (chain : List Nat) (swaps : Nat) : Prop extends
    Reaches p p' where
  chain_eq : p'.trap.chain z = chain
  others : ∀ w ≠ z, p'.trap.chain w = p.trap.chain w
  swapped : ∃ ops, p'.ops = p.ops ++ ops ∧ ops.length = swaps ∧ p.trap.Swaps z ops p'.trap

theorem Arranges.bill {p p' : Progress} {z swaps : Nat} {chain : List Nat}
    (h : p.Arranges p' z chain swaps) (τ : Tariff) :
    τ.bill p'.ops = τ.bill p.ops + swaps * τ.swap z := by
  obtain ⟨ops, hops, rfl, hswaps⟩ := h.swapped
  rw [hops, Tariff.bill_append, hswaps.bill]

theorem arranges_self {p : Progress} (h : p.trap.Consistent) (z : Nat) :
    p.Arranges p z (p.trap.chain z) 0 :=
  ⟨reaches_self h, rfl, fun _ _ => rfl, [], by simp, rfl, .nil _⟩

theorem Arranges.trans {p p' p'' : Progress} {z n n' : Nat} {chain chain' : List Nat}
    (h : p.Arranges p' z chain n) (h' : p'.Arranges p'' z chain' n') :
    p.Arranges p'' z chain' (n + n') := by
  obtain ⟨ops, hops, hlen, hswaps⟩ := h.swapped
  obtain ⟨ops', hops', hlen', hswaps'⟩ := h'.swapped
  refine ⟨h.toReaches.trans h'.toReaches, h'.chain_eq,
    fun w hw => (h'.others w hw).trans (h.others w hw), ops ++ ops', ?_, ?_, hswaps.append hswaps'⟩
  · rw [hops', hops, List.append_assoc]
  · rw [List.length_append, hlen, hlen']

/-! ## Moving one qubit along its chain -/

theorem swapAt_spec {p : Progress} (h : p.trap.Consistent) {z x y : Nat} {pre post : List Nat}
    (hz : p.trap.chain z = pre ++ x :: y :: post) :
    ∃ p', p.swapAt z pre.length = .ok p' ∧ p.Arranges p' z (pre ++ y :: x :: post) 1 := by
  have hx : (p.trap.chain z)[pre.length]? = some x := by simp [hz]
  have hy : (p.trap.chain z)[pre.length + 1]? = some y := by simp [hz]
  obtain ⟨t, hswap, hfollows, hself, hother⟩ := h.swap_spec hz
  refine ⟨⟨t, p.ops ++ [.swap z x y]⟩, ?_, reaches_of_replayOp hfollows ?_, hself, hother,
    [.swap z x y], rfl, rfl, .cons hz hswap (.nil t)⟩
  · simp only [swapAt, hx, hy, hswap]
  · obtain ⟨hxlt, hxz, hxi⟩ := h.of_getElem?_chain hx
    obtain ⟨hylt, hyz, hyi⟩ := h.of_getElem?_chain hy
    have hxin : p.trap.isIn x z = true := by simp [Trap.isIn, hxlt, hxz]
    have hyin : p.trap.isIn y z = true := by simp [Trap.isIn, hylt, hyz]
    simp [Trap.replayOp, Trap.replaySwap, hxin, hyin, hxi, hyi, hswap, mapError_ok]

/-- A qubit goes down past the ones before it. -/
theorem bubbleDown_spec {z q : Nat} {pre mid post : List Nat} {p : Progress}
    (h : p.trap.Consistent) (hz : p.trap.chain z = pre ++ mid ++ q :: post) :
    ∃ p', bubbleDown z pre.length mid.length p = .ok p' ∧
      p.Arranges p' z (pre ++ q :: mid ++ post) mid.length := by
  -- the first swap passes the last qubit of `mid`, so the induction is from that end
  induction mid using List.reverseRecOn generalizing p post with
  | nil =>
    refine ⟨p, rfl, ?_⟩
    simpa [hz] using arranges_self h z
  | append_singleton mid m ih =>
    have hz' : p.trap.chain z = (pre ++ mid) ++ m :: q :: post := by simpa using hz
    obtain ⟨p₁, hp₁, ha₁⟩ := swapAt_spec h hz'
    obtain ⟨p₂, hp₂, ha₂⟩ := ih ha₁.follows.consistent ha₁.chain_eq
    refine ⟨p₂, ?_, by simpa [Nat.add_comm] using ha₁.trans ha₂⟩
    rw [List.length_append] at hp₁
    rw [List.length_append, List.length_singleton, bubbleDown, hp₁, ok_bind, hp₂]

/-- A qubit goes up past the ones after it. -/
theorem bubbleUp_spec {z q : Nat} {pre mid post : List Nat} {p : Progress}
    (h : p.trap.Consistent) (hz : p.trap.chain z = pre ++ q :: mid ++ post) :
    ∃ p', bubbleUp z pre.length mid.length p = .ok p' ∧
      p.Arranges p' z (pre ++ mid ++ q :: post) mid.length := by
  induction mid generalizing p pre with
  | nil =>
    refine ⟨p, rfl, ?_⟩
    simpa [hz] using arranges_self h z
  | cons m mid ih =>
    have hz' : p.trap.chain z = pre ++ q :: m :: (mid ++ post) := by simpa using hz
    obtain ⟨p₁, hp₁, ha₁⟩ := swapAt_spec h hz'
    have hz₁ : p₁.trap.chain z = (pre ++ [m]) ++ q :: mid ++ post := by simp [ha₁.chain_eq]
    obtain ⟨p₂, hp₂, ha₂⟩ := ih ha₁.follows.consistent hz₁
    refine ⟨p₂, ?_, by simpa [Nat.add_comm] using ha₁.trans ha₂⟩
    rw [List.length_append, List.length_singleton] at hp₂
    rw [List.length_cons, bubbleUp, hp₁, ok_bind, hp₂]

/-! ## Lining several qubits up -/

/-- What `alignHead` has placed stays in front, and the rest keeps its order. -/
theorem alignHead_spec {z : Nat} {f : Nat → Bool} {placed rest qs : List Nat} {p : Progress}
    (h : p.trap.Consistent) (hz : p.trap.chain z = placed ++ rest) (hqs : rest.filter f = qs) :
    ∃ p', alignHead z placed.length qs p = .ok p' ∧
      p.Arranges p' z (placed ++ qs ++ rest.filter (!f ·)) (overtakes f rest) := by
  induction qs generalizing p placed rest with
  | nil =>
    have hall : rest.filter (!f ·) = rest := by
      rw [List.filter_eq_self]
      intro q hq
      simpa using (List.filter_eq_nil_iff.1 hqs) q hq
    refine ⟨p, rfl, ?_⟩
    rw [overtakes_of_none (List.filter_eq_nil_iff.1 hqs)]
    simpa [hall, hz] using arranges_self h z
  | cons q qs ih =>
    -- `mid` stands between what is placed and the next qubit of the cohort
    obtain ⟨mid, post, rfl, hmid, hq, rfl⟩ := List.filter_eq_cons_iff.1 hqs
    have hz' : p.trap.chain z = placed ++ mid ++ q :: post := by simpa using hz
    have hpos : p.trap.position q - placed.length = mid.length := by
      have hget : (p.trap.chain z)[placed.length + mid.length]? = some q := by
        rw [hz', List.getElem?_append_right (by simp)]
        simp
      have := (h.of_getElem?_chain hget).2.2
      omega
    obtain ⟨p₁, hp₁, ha₁⟩ := bubbleDown_spec h hz'
    -- `q` now belongs to what is placed, and `mid` was passed in one piece
    have hz₁ : p₁.trap.chain z = (placed ++ [q]) ++ (mid ++ post) := by simp [ha₁.chain_eq]
    have hnone : mid.filter f = [] := List.filter_eq_nil_iff.2 hmid
    obtain ⟨p₂, hp₂, ha₂⟩ := ih ha₁.follows.consistent hz₁ (by simp [hnone])
    refine ⟨p₂, ?_, ?_⟩
    · rw [List.length_append, List.length_singleton] at hp₂
      rw [alignHead, hpos, hp₁, ok_bind, hp₂]
    · rw [overtakes_first hmid hq]
      simpa [hq] using ha₁.trans ha₂

/-- What `alignTail` has placed stays at the end, and the rest keeps its order. -/
theorem alignTail_spec {z : Nat} {f : Nat → Bool} {placed rest qs : List Nat} {p : Progress}
    (h : p.trap.Consistent) (hz : p.trap.chain z = rest ++ placed)
    (hqs : rest.reverse.filter f = qs) :
    ∃ p', alignTail z rest.length qs p = .ok p' ∧
      p.Arranges p' z (rest.filter (!f ·) ++ qs.reverse ++ placed) (overtakes f rest.reverse) := by
  induction qs generalizing p placed rest with
  | nil =>
    have hall : rest.filter (!f ·) = rest := by
      rw [List.filter_eq_self]
      intro q hq
      simpa using (List.filter_eq_nil_iff.1 hqs) q (List.mem_reverse.2 hq)
    refine ⟨p, rfl, ?_⟩
    rw [overtakes_of_none (List.filter_eq_nil_iff.1 hqs)]
    simpa [hall, hz] using arranges_self h z
  | cons q qs ih =>
    -- the cohort is read from the end here: `q` is its last qubit, with only `after` behind it
    obtain ⟨after, before, hrest, hafter, hq, rfl⟩ := List.filter_eq_cons_iff.1 hqs
    obtain rfl : rest = before.reverse ++ q :: after.reverse := by
      rw [← List.reverse_reverse rest, hrest]
      simp
    have hz' : p.trap.chain z = before.reverse ++ q :: after.reverse ++ placed := by simpa using hz
    have hpos : p.trap.position q = before.reverse.length := by
      have hget : (p.trap.chain z)[before.reverse.length]? = some q := by
        rw [hz', List.append_assoc, List.getElem?_append_right (Nat.le_refl _)]
        simp
      exact (h.of_getElem?_chain hget).2.2
    have hstep : (before.reverse ++ q :: after.reverse).length - 1 - before.reverse.length
        = after.reverse.length := by
      simp only [List.length_append, List.length_cons]
      omega
    have hstop : (before.reverse ++ q :: after.reverse).length - 1
        = (before.reverse ++ after.reverse).length := by
      simp only [List.length_append, List.length_cons]
      omega
    obtain ⟨p₁, hp₁, ha₁⟩ := bubbleUp_spec h hz'
    have hnone : after.filter f = [] := List.filter_eq_nil_iff.2 hafter
    obtain ⟨p₂, hp₂, ha₂⟩ := ih ha₁.follows.consistent ha₁.chain_eq (by simp [hnone])
    refine ⟨p₂, ?_, ?_⟩
    · rw [alignTail, hpos, hstep, hp₁, ok_bind, hstop, hp₂]
    · rw [hrest, overtakes_first hafter hq]
      simpa [hq] using ha₁.trans ha₂

/-- Lining up puts the cohort at the end of the port and keeps both orders. -/
theorem align_spec {p : Progress} (h : p.trap.Consistent) (z : Nat) (qs : List Nat) (port : Port) :
    ∃ p', p.align z qs port = .ok p' ∧
      p.Arranges p' z
        (Trap.enter port (p.trap.cohort z qs) ((p.trap.chain z).filter (!qs.contains ·)))
        (overtakesTo port qs.contains (p.trap.chain z)) := by
  cases port with
  | p0 =>
    have hz : p.trap.chain z = [] ++ p.trap.chain z := rfl
    obtain ⟨p', hp', ha⟩ := alignHead_spec h hz (rfl : (p.trap.chain z).filter qs.contains = _)
    exact ⟨p', hp', by simpa [Trap.enter, Trap.cohort, overtakesTo] using ha⟩
  | p1 =>
    have hz : p.trap.chain z = p.trap.chain z ++ [] := (List.append_nil _).symm
    obtain ⟨p', hp', ha⟩ := alignTail_spec h hz (List.filter_reverse (p := qs.contains))
    refine ⟨p', ?_, by simpa [Trap.enter, Trap.cohort, overtakesTo] using ha⟩
    rw [align, h.occupancy_eq]
    exact hp'

end Progress

end IonTrap
