import IonTrap.Proofs.Architecture.Shape
import IonTrap.Proofs.Indexed

/-!
# Accepted architectures

Validation compares every connection with the ones before it. It can be made in one pass that keeps
a table of the ports that are taken: the pass never looks up a port that the table does not have,
and it ends as validation does, with the same error if there is one (`exec_onePass`). What is
accepted can be said of the zones and of pairs of connections, without an order
(`validate_accepts_legal`), and its zones lie in lines and rings.
-/

namespace IonTrap.Architecture

open Indexed

/-! ## One pass with a table of ports -/

/-- For every zone, which of its ports are taken. -/
def takenPorts : Table (List (List Bool)) (List Bool) where
  read s := s
  write s _ := s

/-- Takes a port, which must be free. -/
def takePort (p : ZonePort) : Indexed (List (List Bool)) TrapError Unit := do
  let row ← takenPorts.get p.zone
  let taken ← entry row p.port.index
  if taken then throw (.portInUse p.zone p.port)
  else takenPorts.set p.zone (row.set p.port.index true)

/-- Checks connections in order and takes their ports. -/
def takeAll (n : Nat) (earlier : List Connection) :
    List Connection → Indexed (List (List Bool)) TrapError Unit
  | [] => pure ()
  | c :: cs =>
    if n ≤ c.a.zone then throw (.unknownZone c.a.zone n)
    else if n ≤ c.b.zone then throw (.unknownZone c.b.zone n)
    else if c.a.zone = c.b.zone then throw (.selfConnection c.a.zone)
    else if earlier.any (·.joins c.a.zone c.b.zone) then
      throw (.repeatedConnection c.a.zone c.b.zone)
    else do
      takePort c.a
      takePort c.b
      takeAll n (c :: earlier) cs

/-- Checks an architecture in one pass. -/
def onePass (a : Architecture) : Indexed (List (List Bool)) TrapError Unit :=
  if a.zones.isEmpty then throw .emptyArchitecture
  else if a.zones.all (·.memoryOnly) then throw .noGateZones
  else
    match checkCapacities 0 a.zones with
    | .error e => throw e
    | .ok () => takeAll a.numZones [] a.connections

/-- The table of `n` zones in which the ports with `f` are taken. -/
def portTable (n : Nat) (f : ZonePort → Bool) : List (List Bool) :=
  (List.range n).map fun z => Port.both.map fun p => f ⟨z, p⟩

section OnePass

variable {n : Nat} {f : ZonePort → Bool} {p : ZonePort}

theorem getElem?_both (f : Port → Bool) (p : Port) : (Port.both.map f)[p.index]? = some (f p) := by
  cases p <;> rfl

theorem set_both (f : Port → Bool) (p : Port) (b : Bool) :
    (Port.both.map f).set p.index b = Port.both.map (Function.update f p b) := by
  cases p <;> rfl

/-- Writing one port changes the table there only. -/
theorem set_portTable (n : Nat) (f : ZonePort → Bool) (p : ZonePort) (b : Bool) :
    (portTable n f).set p.zone ((Port.both.map fun r => f ⟨p.zone, r⟩).set p.port.index b)
      = portTable n (Function.update f p b) := by
  rw [set_both, portTable, map_range_set, portTable]
  refine List.map_congr_left fun z _ => ?_
  by_cases hz : z = p.zone
  · subst hz
    rw [Function.update_self]
    refine List.map_congr_left fun r _ => ?_
    by_cases hr : r = p.port
    · subst hr
      rw [Function.update_self, Function.update_self]
    · have hne : (⟨p.zone, r⟩ : ZonePort) ≠ p := fun h => hr (congrArg ZonePort.port h)
      rw [Function.update_of_ne hr, Function.update_of_ne hne]
  · rw [Function.update_of_ne hz]
    refine List.map_congr_left fun r _ => ?_
    have hne : (⟨z, r⟩ : ZonePort) ≠ p := fun h => hz (congrArg ZonePort.zone h)
    rw [Function.update_of_ne hne]

/-- A port of an existing zone is found in the table, and it is written unless it was taken. -/
theorem exec_takePort (hp : p.zone < n) :
    (takePort p).exec (portTable n f) = some (if f p = true then
        (.error (.portInUse p.zone p.port), portTable n f)
      else (.ok (), portTable n (Function.update f p true))) := by
  have hrow : p.zone < (takenPorts.read (portTable n f)).length := by
    simpa [takenPorts, portTable] using hp
  have hget : (takenPorts.read (portTable n f)).getD p.zone []
      = Port.both.map fun r => f ⟨p.zone, r⟩ := by
    simp [takenPorts, portTable, hp]
  have hread := takenPorts.exec_get (ε := TrapError) hrow []
  rw [hget] at hread
  rw [takePort, exec_bind hread, exec_bind (exec_entry (getElem?_both _ p.port) _)]
  split_ifs with htaken
  · rfl
  · rw [takenPorts.exec_set hrow]
    exact congrArg (fun table => some (Except.ok (), table)) (set_portTable n f p true)

theorem portUsed_cons (c : Connection) (earlier : List Connection) :
    portUsed (c :: earlier)
      = Function.update (Function.update (portUsed earlier) c.a true) c.b true := by
  funext p
  rw [Function.update_apply, Function.update_apply, portUsed, List.any_cons, portUsed]
  by_cases hb : p = c.b
  · simp [hb]
  · by_cases ha : p = c.a
    · simp [ha]
    · simp [ha, hb, Ne.symm ha, Ne.symm hb]

/-- The pass over the connections ends as their check. -/
theorem comesTo_takeAll (earlier cs : List Connection) :
    (takeAll n earlier cs).ComesTo (portTable n (portUsed earlier))
      (fun _ => portTable n (portUsed (cs.reverse ++ earlier)))
      (checkConnections n earlier cs) := by
  induction cs generalizing earlier with
  | nil => exact exec_pure () _
  | cons c cs ih =>
    rw [takeAll, checkConnections, checkConnection]
    split_ifs with ha hb hself hpair husedA husedB
    · exact comesTo_throw _ _ _
    · exact comesTo_throw _ _ _
    · exact comesTo_throw _ _ _
    · exact comesTo_throw _ _ _
    · have htakeA := exec_takePort (f := portUsed earlier) (show c.a.zone < n by omega)
      rw [if_pos husedA] at htakeA
      exact ⟨_, exec_bind_error htakeA _⟩
    all_goals
      -- the first port is free, and taking it says nothing about the second one
      have htakeA := exec_takePort (f := portUsed earlier) (show c.a.zone < n by omega)
      have htakeB := exec_takePort (f := Function.update (portUsed earlier) c.a true)
        (show c.b.zone < n by omega)
      have hne : c.b ≠ c.a := fun h => hself (congrArg ZonePort.zone h).symm
      rw [if_neg husedA] at htakeA
      rw [Function.update_of_ne hne] at htakeB
      refine (comesTo_bind htakeA _ _ _).2 ?_
    · rw [if_pos husedB] at htakeB
      exact ⟨_, exec_bind_error htakeB _⟩
    · rw [if_neg husedB, ← portUsed_cons] at htakeB
      refine (comesTo_bind htakeB _ _ _).2 ?_
      have hrest := ih (c :: earlier)
      rwa [List.reverse_cons, List.append_assoc, List.singleton_append]

/-- In one pass an architecture is accepted, or refused with the same error, as by its check. -/
theorem exec_onePass (a : Architecture) :
    ∃ table, a.onePass.exec (List.replicate a.numZones [false, false])
      = some (a.validate, table) := by
  have hfresh : List.replicate a.numZones [false, false] = portTable a.numZones (portUsed []) := by
    rw [portTable, ← List.length_range (n := a.numZones), ← List.map_const', List.length_range]
    rfl
  rw [hfresh, onePass, validate]
  split_ifs
  · exact ⟨_, exec_throw _ _⟩
  · exact ⟨_, exec_throw _ _⟩
  · cases checkCapacities 0 a.zones with
    | error e => exact ⟨_, exec_throw _ _⟩
    | ok _ =>
      have hpass := comesTo_takeAll (n := a.numZones) [] a.connections
      rw [ok_bind]
      cases hcheck : checkConnections a.numZones [] a.connections with
      | error e =>
        rw [hcheck] at hpass
        exact hpass
      | ok _ =>
        rw [hcheck] at hpass
        exact ⟨_, hpass⟩

end OnePass

/-! ## What is accepted -/

theorem joins_eq_false_iff {c d : Connection} :
    c.joins d.a.zone d.b.zone = false ↔ s(c.a.zone, c.b.zone) ≠ s(d.a.zone, d.b.zone) := by
  rw [ne_eq, Sym2.eq_iff, ← Bool.not_eq_true, Connection.joins]
  simp

/-- Connections are pairwise apart if no two of them join the same two zones and no two of them
share a port. -/
theorem pairwise_apart_iff {cs : List Connection} :
    cs.Pairwise Connection.Apart ↔ (cs.map fun c => s(c.a.zone, c.b.zone)).Nodup ∧
      cs.Pairwise fun c d => ∀ p, c.a = p ∨ c.b = p → ¬ (d.a = p ∨ d.b = p) := by
  rw [List.Nodup, List.pairwise_map, ← List.pairwise_and_iff]
  constructor
  · intro h
    exact h.imp fun hapart => ⟨joins_eq_false_iff.1 hapart.zones, hapart.ports⟩
  · intro h
    exact h.imp fun hcd => ⟨joins_eq_false_iff.2 hcd.1, hcd.2⟩

/-- An architecture is accepted exactly if it has a zone, some zone runs gates, no zone loses
capacity during transport, every connection joins two different zones of the trap, and no two
connections join the same two zones or share a port. In an accepted one no zone has more than two
neighbours, and the zones that can be reached from a zone form a line or a ring. -/
theorem validate_accepts_legal (maxQubits : Nat) (zones : List Zone)
    (connections : List Connection) :
    let a : Architecture := ⟨maxQubits, zones, connections⟩
    (a.validate = .ok () ↔
      zones ≠ [] ∧ (∃ zone ∈ zones, zone.memoryOnly = false) ∧
        (∀ zone ∈ zones, zone.gateCapacity ≤ zone.transportCapacity) ∧
        (∀ c ∈ connections, c.a.zone < zones.length ∧ c.b.zone < zones.length ∧
          c.a.zone ≠ c.b.zone) ∧
        (connections.map fun c => s(c.a.zone, c.b.zone)).Nodup ∧
        connections.Pairwise fun c d => ∀ p, c.a = p ∨ c.b = p → ¬ (d.a = p ∨ d.b = p)) ∧
    (∃ table, a.onePass.exec (List.replicate zones.length [false, false])
      = some (a.validate, table)) ∧
    (a.validate = .ok () →
      (∀ z, (a.neighbors z).length ≤ 2) ∧
        ∀ x < zones.length, ∃ zs, (∀ y, Relation.ReflTransGen a.Joined x y ↔ y ∈ zs) ∧
          (a.Line zs ∨ a.Ring zs)) := by
  intro a
  refine ⟨?_, exec_onePass a, fun hvalid => ?_⟩
  · rw [validate_eq_ok_iff, ← pairwise_apart_iff]
    exact and_congr_right fun _ => and_congr_right fun _ =>
      ⟨fun h => ⟨h.capacity, h.ends, h.apart⟩, fun h => ⟨h.1, h.2.1, h.2.2⟩⟩
  · have hlegal := legal_of_validate hvalid
    exact ⟨hlegal.length_neighbors_le, fun x hx => hlegal.exists_line_or_ring hx⟩

end IonTrap.Architecture
