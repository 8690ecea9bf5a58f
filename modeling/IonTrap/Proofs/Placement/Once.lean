import IonTrap.Proofs.Trap.Load

/-!
# One place for every qubit

A placement is checked by one scan over its zones, which marks the qubits that it has met and stops
at the first fault. What it accepts are nevertheless the placements that fit as a whole: one list
per zone, no list above the gate capacity, and all lists together a permutation of the qubits. Only
then is the place of every qubit written into a table. No entry of it is overwritten and none is
left unwritten (`Placement.exec_noteAll`), so it gives every qubit the only place where it is listed
(`Placement.validate_places_exact`).
-/

namespace IonTrap.Placement

open Indexed

/-! ## Writing every entry once -/

namespace InPlace

/-- The places of those qubits that have been given one. -/
abbrev Slots := List (Option (Nat × Nat))

def slots : Table Slots (Option (Nat × Nat)) where
  read s := s
  write slots _ := slots

/-- Writes the place of a qubit. There is no outcome if it has one already. -/
def note (q z i : Nat) : Indexed Slots TrapError Unit := do
  let old ← slots.get q
  if old.isSome then outOfRange else slots.set q (some (z, i))

/-- Writes the places of a chain; `i` is the place of its first qubit. -/
def noteChain (z i : Nat) : List Nat → Indexed Slots TrapError Unit
  | [] => pure ()
  | q :: qs => do
    note q z i
    noteChain z (i + 1) qs

/-- Writes the places of all qubits; `z` numbers the first zone. -/
def noteAll (z : Nat) : List (List Nat) → Indexed Slots TrapError Unit
  | [] => pure ()
  | chain :: chains => do
    noteChain z 0 chain
    noteAll (z + 1) chains

end InPlace

variable {n z i q : Nat} {f : Nat → Option (Nat × Nat)}

theorem exec_note (hq : q < n) (hnew : f q = none) :
    (InPlace.note q z i).exec ((List.range n).map f)
      = some (.ok (), (List.range n).map (Function.update f q (some (z, i)))) := by
  have hlt : q < (InPlace.slots.read ((List.range n).map f)).length := by
    simpa [InPlace.slots] using hq
  have hold : (InPlace.slots.read ((List.range n).map f)).getD q none = none := by
    simp [InPlace.slots, hq, hnew]
  rw [InPlace.note, exec_bind (InPlace.slots.exec_get hlt none), hold, Option.isSome_none,
    if_neg Bool.false_ne_true, InPlace.slots.exec_set hlt, ← map_range_set]
  rfl

/-- The qubits of a chain get the places where they stand, and no other entry changes. -/
theorem exec_noteChain {chain : List Nat} (hnodup : chain.Nodup)
    (hnew : ∀ q ∈ chain, q < n ∧ f q = none) :
    ∃ f', (InPlace.noteChain z i chain).exec ((List.range n).map f)
        = some (.ok (), (List.range n).map f') ∧
      (∀ q ∉ chain, f' q = f q) ∧ ∀ k q : Nat, chain[k]? = some q → f' q = some (z, i + k) := by
  induction chain generalizing f i with
  | nil => exact ⟨f, rfl, fun _ _ => rfl, by simp⟩
  | cons r chain ih =>
    rw [List.nodup_cons] at hnodup
    obtain ⟨hr, hrest⟩ := List.forall_mem_cons.1 hnew
    have hupdate : ∀ q ∈ chain, q < n ∧ Function.update f r (some (z, i)) q = none := by
      intro q hq
      have hne : q ≠ r := fun heq => hnodup.1 (heq ▸ hq)
      rw [Function.update_of_ne hne]
      exact hrest q hq
    obtain ⟨f', hexec, hothers, hplaces⟩ := ih (i := i + 1) hnodup.2 hupdate
    refine ⟨f', ?_, fun q hq => ?_, fun k q hk => ?_⟩
    · rw [InPlace.noteChain, exec_bind (exec_note hr.1 hr.2), hexec]
    · rw [List.mem_cons, not_or] at hq
      rw [hothers q hq.2, Function.update_of_ne hq.1]
    · cases k with
      | zero =>
        obtain rfl : r = q := by simpa using hk
        rw [hothers r hnodup.1, Function.update_self, Nat.add_zero]
      | succ k =>
        rw [hplaces k q (by simpa using hk), show i + 1 + k = i + (k + 1) by omega]

/-- The same of all chains. -/
theorem exists_exec_noteAll {p : Placement} (hnodup : p.flatten.Nodup)
    (hnew : ∀ q ∈ p.flatten, q < n ∧ f q = none) :
    ∃ f', (InPlace.noteAll z p).exec ((List.range n).map f)
        = some (.ok (), (List.range n).map f') ∧
      (∀ q ∉ p.flatten, f' q = f q) ∧
      ∀ k i q : Nat, (p.getD k [])[i]? = some q → f' q = some (z + k, i) := by
  induction p generalizing f z with
  | nil => exact ⟨f, rfl, fun _ _ => rfl, by simp⟩
  | cons chain p ih =>
    rw [List.flatten_cons, List.nodup_append] at hnodup
    simp only [List.flatten_cons, List.mem_append] at hnew ⊢
    obtain ⟨f₁, hchain, hkept, hplaces⟩ :=
      exec_noteChain (z := z) (i := 0) hnodup.1 fun q hq => hnew q (.inl hq)
    -- the qubits of the later zones are none of this one, so they are still to be placed
    have hstill : ∀ q ∈ p.flatten, q < n ∧ f₁ q = none := by
      intro q hq
      rw [hkept q fun hmem => hnodup.2.2 q hmem q hq rfl]
      exact hnew q (.inr hq)
    obtain ⟨f₂, hrest, hkept', hplaces'⟩ := ih (z := z + 1) hnodup.2.1 hstill
    refine ⟨f₂, ?_, fun q hq => ?_, fun k i q hk => ?_⟩
    · rw [InPlace.noteAll, exec_bind hchain, hrest]
    · rw [not_or] at hq
      rw [hkept' q hq.2, hkept q hq.1]
    · cases k with
      | zero =>
        have hk : chain[i]? = some q := by simpa using hk
        have hmem := List.mem_of_getElem? hk
        rw [hkept' q fun hq => hnodup.2.2 q hmem q hq rfl, hplaces i q hk, Nat.zero_add,
          Nat.add_zero]
      | succ k =>
        rw [hplaces' k i q (by simpa using hk), show z + 1 + k = z + (k + 1) by omega]

/-- The table of places is filled by writing every entry once. -/
theorem exec_noteAll {p : Placement} (h : p.flatten.Perm (List.range n)) :
    (InPlace.noteAll 0 p).exec (List.replicate n none)
      = some (.ok (), (p.spots n).map some) := by
  have hblank :
      List.replicate n none = (List.range n).map fun _ => (none : Option (Nat × Nat)) := by
    simp
  obtain ⟨f, hexec, -, hplaces⟩ := exists_exec_noteAll (z := 0) (f := fun _ => none)
    (h.nodup_iff.2 List.nodup_range) fun q hq => ⟨List.mem_range.1 (h.mem_iff.1 hq), rfl⟩
  have hlen : (p.spots n).length = n := by
    rw [spots_eq_recordAll, length_recordAll, List.length_replicate]
  have htable : (List.range n).map f = (p.spots n).map some := by
    refine List.ext_getElem? fun q => ?_
    by_cases hq : q < n
    · obtain ⟨z, i, hi⟩ := exists_getElem?_of_mem_flatten (h.mem_iff.2 (List.mem_range.2 hq))
      simp [hq, hplaces z i q hi, (getElem?_spots_iff h).2 hi]
    · rw [List.getElem?_eq_none (by simpa using hq),
        List.getElem?_eq_none (by simpa [hlen] using hq)]
  rw [hblank, hexec, htable]

/-! ## The check and the table -/

/-- Whatever the placement, the check runs through with its marks, without an index out of range,
and it accepts exactly the placements with one list per zone, no list longer than the gate capacity
of its zone, and all lists together a permutation of the qubits. For such a placement the table of
places is filled without an entry being overwritten, and it gives every qubit the one zone and place
where the placement lists it. -/
theorem validate_places_exact (a : Architecture) (n : Nat) (p : Placement) :
    (InPlace.validate a n p).ComesTo (List.replicate n false) (fun _ => List.replicate n true)
      (p.validate a n) ∧
    (p.validate a n = .ok () ↔ p.length = a.numZones ∧
      (∀ (z : Nat) (chain : List Nat), p[z]? = some chain → chain.length ≤ a.gateCapacity z) ∧
      p.flatten.Perm (List.range n)) ∧
    (p.validate a n = .ok () →
      (InPlace.noteAll 0 p).exec (List.replicate n none) = some (.ok (), (p.spots n).map some) ∧
      ∀ q < n, ∃ spot, (p.spots n)[q]? = some spot ∧
        ∀ z i : Nat, (∃ chain, p[z]? = some chain ∧ chain[i]? = some q) ↔ (z, i) = spot) := by
  refine ⟨comesTo_validate p, ?_, fun hvalid => ?_⟩
  · rw [validate_eq_ok_iff]
    exact ⟨fun h => ⟨h.length, h.capacity, h.perm⟩, fun h => ⟨h.1, h.2.1, h.2.2⟩⟩
  · have hperm := (validate_eq_ok_iff.1 hvalid).perm
    refine ⟨exec_noteAll hperm, fun q hq => ?_⟩
    obtain ⟨z, i, hi⟩ := exists_getElem?_of_mem_flatten (hperm.mem_iff.2 (List.mem_range.2 hq))
    have hspot := (getElem?_spots_iff hperm).2 hi
    refine ⟨(z, i), hspot, fun w j => ?_⟩
    rw [← Nested.getElem?_getD_iff, ← getElem?_spots_iff hperm, hspot, Option.some.injEq, eq_comm]

/-- Four qubits out of order in two of three zones are accepted and found; with qubit 2 listed a
second time in place of qubit 3 they are refused. -/
theorem validate_places_exact_scattered :
    validate .steepLine 4 [[3, 0], [], [2, 1]] = .ok () ∧
      (InPlace.noteAll 0 [[3, 0], [], [2, 1]]).exec (List.replicate 4 none)
        = some (.ok (), [some (0, 1), some (2, 1), some (2, 0), some (0, 0)]) ∧
      validate .steepLine 4 [[2, 0], [], [2, 1]] ≠ .ok () := by
  have hvalid : validate .steepLine 4 [[3, 0], [], [2, 1]] = .ok () := by decide
  have hwritten := ((validate_places_exact .steepLine 4 [[3, 0], [], [2, 1]]).2.2 hvalid).1
  refine ⟨hvalid, hwritten, fun h => ?_⟩
  have hperm := ((validate_places_exact .steepLine 4 [[2, 0], [], [2, 1]]).2.1.1 h).2.2
  exact absurd hperm (by decide)

end IonTrap.Placement
