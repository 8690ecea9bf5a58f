import IonTrap.Proofs.Indexed
import IonTrap.Proofs.Trap.Reachable

/-!
# Moves in place

`Trap.move` and `Trap.swap` give a new trap. Here the same two moves change the tables of one trap
entry by entry: chains, places, occupancies and passages. Every entry that is read or written must
exist, and what is written before an error stays written.

On a consistent trap with the zones in range, all entries exist and no error comes after a write:
the programs do what the functions say (`Trap.Consistent.exec_move`, `Trap.Consistent.exec_swap`).
-/

namespace IonTrap.Trap

open Indexed

/-! ## The tables of a trap -/

/-- The qubits per zone. -/
def chains : Table Trap (List Nat) where
  read t := t.placement
  write chains t := { t with placement := chains }

/-- The place of every qubit. -/
def places : Table Trap (Nat × Nat) where
  read t := t.spots
  write spots t := { t with spots }

/-- The number of qubits per zone. -/
def counts : Table Trap Nat where
  read t := t.occupancies
  write occupancies t := { t with occupancies }

/-- The passage through every zone. -/
def passages : Table Trap CapacityEdge where
  read t := t.ports.edges
  write edges t := { t with ports := { t.ports with edges } }

/-- The tables have an entry for every zone and for every qubit that stands somewhere. -/
structure Sized (t : Trap) : Prop where
  placement : t.placement.length = t.arch.numZones
  occupancies : t.occupancies.length = t.arch.numZones
  edges : t.ports.edges.length = t.arch.numZones
  swapCosts : t.ports.swapCosts.length = t.arch.numZones
  spots : ∀ z, ∀ q ∈ t.chain z, q < t.spots.length

theorem Consistent.sized {t : Trap} (h : t.Consistent) : t.Sized where
  placement := h.length_placement
  occupancies := by rw [h.occupancies, List.length_map, h.length_placement]
  edges := h.numZones_ports
  swapCosts := by
    rw [h.ports]
    exact List.length_map _
  spots := by
    intro z q hq
    rw [h.length_spots]
    exact (h.mem_chain_iff.1 hq).1

namespace InPlace

/-! ## The moves -/

/-- Writes the places of a chain; `i` is the place of its first qubit. -/
def record {ε : Type} (z i : Nat) : List Nat → Indexed Trap ε Unit
  | [] => pure ()
  | q :: qs => do
    places.set q (z, i)
    record z (i + 1) qs

/-- Writes the passage of a zone that holds `n` qubits. -/
def charge {ε : Type} (z n : Nat) : Indexed Trap ε Unit := do
  let t ← get
  let swapCost ← entry t.ports.swapCosts z
  passages.modify z (·.withOccupancy swapCost n)

/-- Writes the places of a zone's qubits and its passage. -/
def refresh {ε : Type} (z : Nat) : Indexed Trap ε Unit := do
  let chain ← chains.get z
  record z 0 chain
  let n ← counts.get z
  charge z n

/-- Checks that qubits are in a zone and none is named twice; `seen` are the ones before. -/
def checkMovable (source : Nat) (seen : List Nat) : List Nat → Indexed Trap TrapError Unit
  | [] => pure ()
  | q :: qs => do
    let t ← get
    if t.numQubits ≤ q then throw (.qubitOutOfRange q t.numQubits)
    else if seen.contains q then throw (.repeatedQubit q)
    else do
      let spot ← places.get q
      if spot.1 ≠ source then throw (.notInZone q source)
      else checkMovable source (q :: seen) qs

/-- Lowers the number of qubits in a zone, which must not go below zero. -/
def lower {ε : Type} (z k : Nat) : Indexed Trap ε Unit := do
  let n ← counts.get z
  if n < k then outOfRange else counts.modify z (· - k)

/-- Takes a cohort out of one chain and puts it at the port end of another. -/
def transfer {ε : Type} (qs : List Nat) (source target : Nat) (port : Port) (n : Nat) :
    Indexed Trap ε Unit := do
  chains.modify source (·.filter (!qs.contains ·))
  chains.modify target (enter port qs)
  lower source qs.length
  counts.set target n
  refresh source
  refresh target

/-- Shuttles qubits into another zone through one of its ports. -/
def move (qs : List Nat) (source target : Nat) (port : Port) : Indexed Trap TrapError Unit :=
  if source = target then throw (.sameZone source)
  else do
    checkMovable source [] qs
    let t ← get
    let n ← counts.get target
    let zone ← entry t.arch.zones target
    if zone.transportCapacity < n + qs.length then
      throw (.transportCapacity target (n + qs.length) zone.transportCapacity)
    else transfer qs source target port (n + qs.length)

/-- Exchanges the qubits at places `left` and `left + 1` of a chain. -/
def swap (z left : Nat) : Indexed Trap TrapError Unit := do
  let chain ← chains.get z
  if chain.length ≤ wrap (left + 1) then throw (.positionOutOfRange z (wrap (left + 1)))
  else do
    let x ← entry chain left
    let y ← entry chain (left + 1)
    chains.set z ((chain.set left y).set (left + 1) x)
    places.set y (z, left)
    places.set x (z, left + 1)

end InPlace

/-! ## Running them -/

section Exec

variable {ε : Type} {t : Trap} {z : Nat}

theorem exec_record {qs : List Nat} (hqs : ∀ q ∈ qs, q < t.spots.length) (i : Nat) :
    (InPlace.record z i qs : Indexed Trap ε Unit).exec t
      = some (.ok (), { t with spots := Placement.record z i qs t.spots }) := by
  induction qs generalizing t i with
  | nil => rfl
  | cons q qs ih =>
    have hq : q < (places.read t).length := hqs q List.mem_cons_self
    rw [InPlace.record, exec_bind (places.exec_set hq _), Placement.record_cons]
    apply ih
    intro r hr
    show r < (t.spots.set q (z, i)).length
    rw [List.length_set]
    exact hqs r (List.mem_cons_of_mem _ hr)

theorem exec_lower {k : Nat} (hz : z < t.occupancies.length) (hk : k ≤ t.occupancy z) :
    (InPlace.lower z k : Indexed Trap ε Unit).exec t
      = some (.ok (), { t with occupancies := t.occupancies.modify z (· - k) }) := by
  have hcount : (counts.get z : Indexed Trap ε Nat).exec t = some (.ok (t.occupancy z), t) :=
    counts.exec_get hz 0
  rw [InPlace.lower, exec_bind hcount, if_neg (Nat.not_lt.2 hk)]
  exact counts.exec_modify hz _

namespace Sized

variable (h : t.Sized) (hz : z < t.arch.numZones)
include h hz

theorem exec_charge (n : Nat) :
    (InPlace.charge z n : Indexed Trap ε Unit).exec t
      = some (.ok (), { t with ports := t.ports.setOccupancy z n }) := by
  have hcost : z < t.ports.swapCosts.length := by rwa [h.swapCosts]
  have hedge : z < (passages.read t).length := by
    show z < t.ports.edges.length
    rwa [h.edges]
  rw [InPlace.charge, exec_bind (exec_get t), exec_bind (exec_entry_getD hcost 0 t),
    passages.exec_modify hedge]
  rfl

theorem exec_chain :
    (chains.get z : Indexed Trap ε (List Nat)).exec t = some (.ok (t.chain z), t) := by
  apply chains.exec_get
  show z < t.placement.length
  rwa [h.placement]

theorem exec_count :
    (counts.get z : Indexed Trap ε Nat).exec t = some (.ok (t.occupancy z), t) := by
  apply counts.exec_get
  show z < t.occupancies.length
  rwa [h.occupancies]

theorem exec_refresh :
    (InPlace.refresh z : Indexed Trap ε Unit).exec t = some (.ok (), t.refresh z) := by
  -- the places are written first; the other tables are still the old ones then
  have hrecord := exec_record (ε := ε) (z := z) (h.spots z) 0
  have hsized : Sized { t with spots := Placement.record z 0 (t.chain z) t.spots } := by
    refine ⟨h.placement, h.occupancies, h.edges, h.swapCosts, ?_⟩
    intro w q hq
    rw [Placement.length_record]
    exact h.spots w q hq
  rw [InPlace.refresh, exec_bind (h.exec_chain hz), exec_bind hrecord,
    exec_bind (hsized.exec_count hz), hsized.exec_charge hz]
  rfl

omit hz in
theorem refresh (z : Nat) : (t.refresh z).Sized := by
  refine ⟨h.placement, h.occupancies, ?_, h.swapCosts, ?_⟩
  · show (t.ports.edges.modify z _).length = _
    rw [List.length_modify]
    exact h.edges
  · intro w q hq
    show q < (Placement.record z 0 (t.chain z) t.spots).length
    rw [Placement.length_record]
    exact h.spots w q hq

end Sized

namespace Consistent

variable (h : t.Consistent) {source target : Nat} {qs : List Nat}
include h

theorem exec_place {q : Nat} (hq : q < t.numQubits) :
    (places.get q : Indexed Trap ε (Nat × Nat)).exec t
      = some (.ok (t.zoneOf q, t.position q), t) := by
  apply places.exec_get
  show q < t.spots.length
  rwa [h.length_spots]

theorem exec_checkMovable (source : Nat) (seen qs : List Nat) :
    (InPlace.checkMovable source seen qs).exec t = some (t.checkMovable source seen qs, t) := by
  induction qs generalizing seen with
  | nil => rfl
  | cons q qs ih =>
    rw [InPlace.checkMovable, exec_bind (exec_get t), checkMovable]
    split_ifs with hq hseen hzone
    · rfl
    · rfl
    · rw [exec_bind (h.exec_place (by omega)), if_pos hzone]
      rfl
    · rw [exec_bind (h.exec_place (by omega)), if_neg hzone, ih]

theorem exec_transfer (hne : source ≠ target) (hs : source < t.arch.numZones)
    (ht : target < t.arch.numZones) (hnodup : qs.Nodup) (hqs : ∀ q ∈ qs, q ∈ t.chain source)
    (hroom : t.occupancy target + qs.length ≤ t.arch.transportCapacity target) (port : Port) :
    (InPlace.transfer qs source target port (t.occupancy target + qs.length)
      : Indexed Trap ε Unit).exec t = some (.ok (), t.transfer qs source target port) := by
  have hp : t.placement.length = t.arch.numZones := h.sized.placement
  have ho : t.occupancies.length = t.arch.numZones := h.sized.occupancies
  have hlen : qs.length ≤ t.occupancy source := by
    rw [h.occupancy_eq]
    exact (List.subperm_of_subset hnodup hqs).length_le
  -- the trap with the cohort moved and counted, before the two zones are refreshed
  have hmoved : Sized { t with
      placement := (t.placement.modify source (·.filter (!qs.contains ·))).modify target
        (enter port qs)
      occupancies := (t.occupancies.modify source (· - qs.length)).set target
        (t.occupancy target + qs.length) } := by
    refine ⟨?_, ?_, h.sized.edges, h.sized.swapCosts, ?_⟩
    · simpa using hp
    · simpa using ho
    · intro z q hq
      have hafter : (t.transfer qs source target port).Consistent :=
        consistent_transfer h hne hs ht hnodup hqs hroom
      rw [h.length_spots]
      exact (hafter.mem_chain_iff.1 hq).1
  rw [InPlace.transfer, exec_bind (chains.exec_modify _ _), exec_bind (chains.exec_modify _ _),
    exec_bind (exec_lower _ _), exec_bind (counts.exec_set _ _)]
  · exact (exec_bind (hmoved.exec_refresh hs) _).trans ((hmoved.refresh source).exec_refresh ht)
  · show target < (t.occupancies.modify source _).length
    rwa [List.length_modify, ho]
  · show source < t.occupancies.length
    rwa [ho]
  · exact hlen
  · show target < (t.placement.modify source _).length
    rwa [List.length_modify, hp]
  · show source < t.placement.length
    rwa [hp]

/-- In place a shuttle between two zones finds every entry it needs. It gives the trap that the
function gives, and if it is refused, nothing has changed. -/
theorem exec_move (hs : source < t.arch.numZones) (ht : target < t.arch.numZones)
    (qs : List Nat) (port : Port) :
    (InPlace.move qs source target port).exec t
      = some (allOrNothing t (t.move qs source target port)) := by
  unfold InPlace.move move
  by_cases hne : source = target
  · rw [if_pos hne, if_pos hne]
    rfl
  rw [if_neg hne, if_neg hne]
  have hcheck := h.exec_checkMovable source [] qs
  cases hmovable : t.checkMovable source [] qs with
  | error e =>
    -- the check only reads
    rw [hmovable] at hcheck
    rw [exec_bind_error hcheck]
    rfl
  | ok _ =>
    -- from the room check on nothing can fail, and only then is something written
    rw [hmovable] at hcheck
    obtain ⟨hqs, hnodup⟩ := checkMovable_eq_ok_iff.1 hmovable
    obtain ⟨zone, hzone, -, hcapacity, -⟩ := Architecture.exists_zone ht
    have hs' : ¬ (!t.hasZone source) = true := by simpa [hasZone] using hs
    have ht' : ¬ (!t.hasZone target) = true := by simpa [hasZone] using ht
    rw [exec_bind hcheck, exec_bind (exec_get t), exec_bind (h.sized.exec_count ht),
      exec_bind (exec_entry hzone t), ok_bind, if_neg ht', if_neg hs', hcapacity]
    split_ifs with hroom
    · rfl
    · have hin : ∀ q ∈ qs, q ∈ t.chain source := by
        intro q hq
        exact h.mem_chain_iff.2 ⟨(hqs q hq).1, (hqs q hq).2.1⟩
      exact h.exec_transfer hne hs ht hnodup hin (by omega) port

/-- In place a swap finds every entry it needs, unless the second place is behind the chain and has
no word. It gives the trap that the function gives, and if it is refused, nothing has changed. -/
theorem exec_swap (hz : z < t.arch.numZones) {left : Nat}
    (hleft : left + 1 < (t.chain z).length ∨ left + 1 < wordSize) :
    (InPlace.swap z left).exec t = some (allOrNothing t (t.swap z left)) := by
  have hp : z < t.placement.length := by rwa [h.length_placement]
  rw [InPlace.swap, exec_bind (h.sized.exec_chain hz), swap, getElem?_placement hp]
  by_cases hshort : (t.chain z).length ≤ left + 1
  · -- the second of the two places is missing
    have hright : (t.chain z)[left + 1]? = none := List.getElem?_eq_none hshort
    have hword : wrap (left + 1) = left + 1 := wrap_of_lt (hleft.resolve_left (by omega))
    simp only [hright, hword, if_pos hshort, if_neg (Nat.not_lt.2 hshort)]
    cases (t.chain z)[left]? <;> rfl
  · have hx := List.getElem?_eq_getElem (show left < (t.chain z).length by omega)
    have hy := List.getElem?_eq_getElem (show left + 1 < (t.chain z).length by omega)
    have hlong : ¬ (t.chain z).length ≤ wrap (left + 1) := by
      have := wrap_le (left + 1)
      omega
    rw [if_neg hlong, exec_bind (exec_entry hx t), exec_bind (exec_entry hy t)]
    simp only [hx, hy]
    rw [exec_bind (chains.exec_set hp _), exec_bind (places.exec_set _ _), places.exec_set _ _]
    · rfl
    · show _ < (t.spots.set _ (z, left)).length
      rw [List.length_set]
      exact h.sized.spots z _ (List.getElem_mem _)
    · exact h.sized.spots z _ (List.getElem_mem _)

end Consistent

end Exec

end IonTrap.Trap
