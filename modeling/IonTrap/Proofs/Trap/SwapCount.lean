import IonTrap.Proofs.Number.Total
import IonTrap.Proofs.Trap.Consistent
import IonTrap.Trap.Cost

/-!
# How many swaps line qubits up

To get to the head of a chain in their order, its members overtake every other qubit before them. So
it takes one swap for every member and every non-member before it (`overtakes`). Prices use a closed
form, the sum of the distances to the port less what the members themselves take up there, and it
counts exactly these pairs (`Trap.Consistent.swapCount_cohort`).
-/

namespace IonTrap

/-- Number of pairs of a member of a chain and a non-member before it. -/
def overtakes (f : Nat → Bool) : List Nat → Nat
  | [] => 0
  | q :: chain => if f q then overtakes f chain else chain.countP f + overtakes f chain

/-- The same, seen from a port. -/
def overtakesTo (port : Port) (f : Nat → Bool) (chain : List Nat) : Nat :=
  match port with
  | .p0 => overtakes f chain
  | .p1 => overtakes f chain.reverse

section Overtakes

variable {f : Nat → Bool} {chain : List Nat}

theorem overtakes_cons_of_pos {q : Nat} (hq : f q = true) :
    overtakes f (q :: chain) = overtakes f chain := by
  rw [overtakes, if_pos hq]

/-- Members in front overtake nobody. -/
theorem overtakes_members_append {qs : List Nat} (hqs : ∀ q ∈ qs, f q = true) (chain : List Nat) :
    overtakes f (qs ++ chain) = overtakes f chain := by
  induction qs with
  | nil => rfl
  | cons q qs ih =>
    rw [List.cons_append, overtakes_cons_of_pos (hqs q List.mem_cons_self)]
    exact ih fun r hr => hqs r (List.mem_cons_of_mem _ hr)

/-- Non-members in front are overtaken by every member behind them. -/
theorem overtakes_append {mid : List Nat} (hmid : ∀ q ∈ mid, ¬ f q = true) (chain : List Nat) :
    overtakes f (mid ++ chain) = mid.length * chain.countP f + overtakes f chain := by
  induction mid with
  | nil => simp
  | cons q mid ih =>
    have hrest : ∀ r ∈ mid, ¬ f r = true := fun r hr => hmid r (List.mem_cons_of_mem _ hr)
    have hnone : mid.countP f = 0 := List.countP_eq_zero.2 hrest
    rw [List.cons_append, overtakes, if_neg (hmid q List.mem_cons_self), ih hrest,
      List.countP_append, hnone, List.length_cons, Nat.succ_mul]
    omega

theorem overtakes_of_none (hnone : ∀ q ∈ chain, ¬ f q = true) : overtakes f chain = 0 := by
  have := overtakes_append hnone []
  rwa [List.append_nil, List.countP_nil, Nat.mul_zero] at this

/-- Once the first member has overtaken all before it, it is out of the way. -/
theorem overtakes_first {mid post : List Nat} {q : Nat} (hmid : ∀ r ∈ mid, ¬ f r = true)
    (hq : f q = true) :
    overtakes f (mid ++ q :: post) = mid.length + overtakes f (mid ++ post) := by
  rw [overtakes_append hmid, overtakes_append hmid, overtakes_cons_of_pos hq,
    List.countP_cons_of_pos hq, Nat.mul_succ]
  omega

/-- A cohort at the head of a chain overtakes nobody to stay, and everybody to get there from the
other end. -/
theorem overtakes_cohort {qs rest : List Nat} (hqs : ∀ q ∈ qs, f q = true)
    (hrest : ∀ q ∈ rest, ¬ f q = true) :
    overtakes f (qs ++ rest) = 0 ∧ overtakes f (rest ++ qs) = qs.length * rest.length := by
  have hself : overtakes f qs = 0 := by
    have := overtakes_members_append hqs []
    rwa [List.append_nil] at this
  have hcount : qs.countP f = qs.length := List.countP_eq_length.2 hqs
  constructor
  · rw [overtakes_members_append hqs, overtakes_of_none hrest]
  · rw [overtakes_append hrest, hself, hcount, Nat.mul_comm, Nat.add_zero]

theorem overtakesTo_enter {qs rest : List Nat} (hqs : ∀ q ∈ qs, f q = true)
    (hrest : ∀ q ∈ rest, ¬ f q = true) (side exit : Port) :
    overtakesTo exit f (Trap.enter side qs rest)
      = if side = exit then 0 else qs.length * rest.length := by
  have hahead := overtakes_cohort hqs hrest
  have hback : overtakes f (qs.reverse ++ rest.reverse) = 0 ∧
      overtakes f (rest.reverse ++ qs.reverse) = qs.reverse.length * rest.reverse.length :=
    overtakes_cohort (fun q hq => hqs q (List.mem_reverse.1 hq))
      fun q hq => hrest q (List.mem_reverse.1 hq)
  rw [List.length_reverse, List.length_reverse] at hback
  cases side <;> cases exit <;> simp [overtakesTo, Trap.enter, hahead, hback]

/-- The places of the members, counted from `k` on, add up to what they overtake and what they take
up themselves. -/
theorem total_places {place : Nat → Nat} {k : Nat}
    (hplace : ∀ i q : Nat, chain[i]? = some q → place q = k + i) :
    total ((chain.filter f).map place) = overtakes f chain + k * chain.countP f
      + chain.countP f * (chain.countP f - 1) / 2 := by
  induction chain generalizing k with
  | nil => simp [overtakes]
  | cons q chain ih =>
    have hrest : ∀ i r : Nat, chain[i]? = some r → place r = k + 1 + i := by
      intro i r hr
      rw [hplace (i + 1) r (by simpa using hr)]
      omega
    by_cases hq : f q = true
    · -- the member stands at place `k` and moves the others behind it by one
      have hself : place q = k := hplace 0 q rfl
      rw [List.filter_cons_of_pos hq, List.map_cons, total_cons, ih hrest, hself,
        overtakes_cons_of_pos hq, List.countP_cons_of_pos hq, Nat.triangle_succ, Nat.succ_mul,
        Nat.mul_succ]
      omega
    · rw [List.filter_cons_of_neg hq, ih hrest, overtakes, if_neg hq, List.countP_cons_of_neg hq,
        Nat.succ_mul]
      omega

end Overtakes

/-- The closed form counts the swaps that line a cohort up. -/
theorem Trap.Consistent.swapCount_cohort {t : Trap} (h : t.Consistent) (z : Nat) (qs : List Nat)
    (port : Port) :
    t.swapCount (t.cohort z qs) z port = overtakesTo port qs.contains (t.chain z) := by
  have hlen : (t.cohort z qs).length = (t.chain z).countP qs.contains :=
    List.countP_eq_length_filter.symm
  unfold swapCount
  rw [hlen]
  cases port with
  | p0 =>
    have hplace : ∀ i q : Nat, (t.chain z)[i]? = some q → t.position q = 0 + i := by
      intro i q hi
      rw [Nat.zero_add]
      exact (h.of_getElem?_chain hi).2.2
    have hsum := total_places (f := qs.contains) hplace
    show total ((t.cohort z qs).map t.position) - _ = overtakes qs.contains (t.chain z)
    rw [cohort, hsum]
    omega
  | p1 =>
    -- the distance to the tail is the place in the reversed chain
    have hplace : ∀ i q : Nat, (t.chain z).reverse[i]? = some q →
        t.occupancy z - 1 - t.position q = 0 + i := by
      intro i q hi
      have hlt : i < (t.chain z).length := by
        simpa using (List.getElem?_eq_some_iff.1 hi).1
      rw [List.getElem?_reverse hlt] at hi
      have hpos := (h.of_getElem?_chain hi).2.2
      rw [h.occupancy_eq, hpos]
      omega
    have hsum := total_places (f := qs.contains) hplace
    rw [List.filter_reverse, List.map_reverse, total_perm (List.reverse_perm _),
      List.countP_reverse] at hsum
    show total ((t.cohort z qs).map fun q => t.occupancy z - 1 - t.position q) - _
      = overtakes qs.contains (t.chain z).reverse
    rw [cohort, hsum]
    omega

end IonTrap
