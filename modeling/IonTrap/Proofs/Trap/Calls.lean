import IonTrap.Proofs.Trap.InPlace

/-!
# Sequences of calls

A live trap is asked for shuttles and swaps in any order, with any qubits, ports and places, and
refuses some of them. `Trap.InStep` spells out what its four tables must then say about each other.
However long the sequence, and whatever was refused on the way, they do (`Trap.inStep_after_calls`):
each call is made in place, without an index out of range, and a refused one has changed nothing.
-/

namespace IonTrap.Trap

open Indexed

/-! ## Calls -/

/-- A request to a live trap. -/
inductive Call where
  | move (qs : List Nat) (source target : Nat) (port : Port)
  | swap (z left : Nat)
deriving DecidableEq, Repr

namespace Call

/-- The zones that the call names exist, and the second of two places to be swapped has a word. -/
def InRange (a : Architecture) : Call → Prop
  | .move _ source target _ => source < a.numZones ∧ target < a.numZones
  | .swap z left => z < a.numZones ∧ left + 1 < wordSize

/-- What a call makes of a trap. -/
def apply (t : Trap) : Call → Except TrapError Trap
  | .move qs source target port => t.move qs source target port
  | .swap z left => t.swap z left

/-- The call in place. -/
def perform : Call → Indexed Trap TrapError Unit
  | .move qs source target port => InPlace.move qs source target port
  | .swap z left => InPlace.swap z left

/-- The trap after a sequence of calls, some of which may be refused. -/
def applyAll (t : Trap) : List Call → Trap
  | [] => t
  | c :: cs =>
    match c.apply t with
    | .ok t' => applyAll t' cs
    | .error _ => applyAll t cs

/-- The trap after a sequence of calls in place, with what a refused one has written. -/
def performAll (t : Trap) : List Call → Option Trap
  | [] => some t
  | c :: cs =>
    match c.perform.exec t with
    | some (_, t') => performAll t' cs
    | none => none

end Call

section Calls

variable {t : Trap} {c : Call} {cs : List Call}

theorem Consistent.exec_perform (h : t.Consistent) (hc : c.InRange t.arch) :
    c.perform.exec t = some (allOrNothing t (c.apply t)) := by
  cases c with
  | move qs source target port => exact h.exec_move hc.1 hc.2 qs port
  | swap z left => exact h.exec_swap hc.1 (.inr hc.2)

theorem Consistent.follows_of_apply (h : t.Consistent) {t' : Trap} (hc : c.apply t = .ok t') :
    t.Follows t' := by
  cases c with
  | move qs source target port => exact h.follows_of_move hc
  | swap z left => exact h.follows_of_swap hc

/-- A sequence of calls can be made in place, and the trap stays consistent. -/
theorem Consistent.performAll_eq (h : t.Consistent) (hcs : ∀ c ∈ cs, c.InRange t.arch) :
    Call.performAll t cs = some (Call.applyAll t cs) ∧ t.Follows (Call.applyAll t cs) := by
  induction cs generalizing t with
  | nil => exact ⟨rfl, h.follows_self⟩
  | cons c cs ih =>
    have hexec := h.exec_perform (hcs c List.mem_cons_self)
    have hrest : ∀ c ∈ cs, c.InRange t.arch := fun c hc => hcs c (List.mem_cons_of_mem _ hc)
    rw [Call.performAll, Call.applyAll, hexec]
    cases hc : c.apply t with
    | error e =>
      -- a refused call has written nothing: the rest starts from the same trap
      exact ih h hrest
    | ok t' =>
      have hfollows := h.follows_of_apply hc
      rw [← hfollows.arch] at hrest
      obtain ⟨hperform, hfollows'⟩ := ih hfollows.consistent hrest
      exact ⟨hperform, hfollows.trans hfollows'⟩

end Calls

/-! ## Tables in step -/

/-- The tables of a trap with `n` qubits agree with the chains. -/
structure InStep (a : Architecture) (n : Nat) (t : Trap) : Prop where
  /-- There is a chain for every zone. -/
  length_placement : t.placement.length = a.numZones
  /-- Every qubit stands in one place. -/
  once : t.placement.flatten.Perm (List.range n)
  length_spots : t.spots.length = n
  /-- The table of places says where every qubit stands. -/
  spots : ∀ q z i : Nat, t.spots[q]? = some (z, i) →
    ∃ chain : List Nat, t.placement[z]? = some chain ∧ chain[i]? = some q
  occupancies : t.occupancies = t.placement.map List.length
  capacity : ∀ (z : Nat) (chain : List Nat), t.placement[z]? = some chain →
    chain.length ≤ a.transportCapacity z
  /-- A passage has the room that the chain leaves, and costs the swaps past the chain, as a word.
  -/
  passages : ∀ (z : Nat) (zone : Zone) (chain : List Nat), a.zones[z]? = some zone →
    t.placement[z]? = some chain → t.ports.edges[z]? = some
      { zone := z
        maxFree := zone.transportCapacity
        occupancy := chain.length
        free := zone.transportCapacity - chain.length
        cost := wrap (chain.length * zone.swapCost) }

theorem Consistent.inStep {t : Trap} (h : t.Consistent) : t.InStep t.arch t.numQubits where
  length_placement := h.length_placement
  once := h.perm_flatten
  length_spots := h.length_spots
  spots := by
    intro q z i hq
    have hi := (h.spot_iff q z i).1 hq
    have hz : z < t.placement.length := by
      rw [h.length_placement]
      exact h.lt_numZones_of_mem (List.mem_of_getElem? hi)
    exact ⟨t.chain z, getElem?_placement hz, hi⟩
  occupancies := h.occupancies
  capacity := by
    intro z chain hz
    rw [← chain_of_getElem? hz]
    exact h.capacity z
  passages := by
    intro z zone chain hzone hz
    -- the port graph is the one loaded with the occupancies, which are the lengths of the chains
    rw [← chain_of_getElem? hz, ← h.occupancy_eq, h.ports]
    show (t.arch.zones.mapIdx _)[z]? = _
    rw [List.getElem?_mapIdx, hzone]
    rfl

end IonTrap.Trap
