import IonTrap.Trap.Basic

/-!
# Locked qubits

While a target placement is assembled, qubits are locked into zones one by one. The tracker holds
the placement so far beside the qubits that are still free.
-/

namespace IonTrap

/-- A target placement under way. -/
structure Tracker where
  /-- The live placement without the locked qubits. -/
  current : Placement
  /-- Locked qubits per zone. -/
  assembled : Placement
  /-- Zone of every qubit: the live one, or the one it is locked into. -/
  zones : List Nat
  /-- Whether a qubit is locked. -/
  locked : List Bool
deriving DecidableEq, Repr

namespace Tracker

/-- The start: nothing is locked. -/
def ofTrap (t : Trap) : Tracker where
  current := t.placement
  assembled := List.replicate t.arch.numZones []
  zones := (List.range t.numQubits).map t.zoneOf
  locked := List.replicate t.numQubits false

/-- Whether a qubit is locked. -/
def isLocked (k : Tracker) (q : Nat) : Bool := k.locked.getD q false

/-- Zone of a qubit: the live one, or the one it is locked into. -/
def zoneOf (k : Tracker) (q : Nat) : Nat := k.zones.getD q 0

/-- Free qubits of a zone. -/
def occupants (k : Tracker) (z : Nat) : List Nat := k.current.getD z []

/-- Number of qubits locked into a zone. -/
def numNew (k : Tracker) (z : Nat) : Nat := (k.assembled.getD z []).length

/-- Number of locked qubits. -/
def numLocked (k : Tracker) : Nat := k.assembled.numPlaced

/-- Locks a qubit of zone `old` into zone `z`. -/
def lock (k : Tracker) (q old z : Nat) : Tracker where
  current := k.current.modify old (·.filter (· != q))
  assembled := k.assembled.modify z (· ++ [q])
  zones := k.zones.set q z
  locked := k.locked.set q true

/-- Gate spots of a zone that no locked qubit claims. -/
def gateRoom (k : Tracker) (t : Trap) (z : Nat) : Nat := t.arch.gateCapacity z - k.numNew z

/-! ## Any zones and qubits -/

/-- Whether the tracker has a zone. -/
def hasZone (k : Tracker) (z : Nat) : Bool := z < k.assembled.length

/-- Whether the tracker has a qubit. -/
def hasQubit (k : Tracker) (q : Nat) : Bool := q < k.zones.length

/-- Locks any qubit. If the zone that it leaves does not exist nothing happens; if it or the zone
that it goes to does not, the rest of the update is done. -/
def tryLock (k : Tracker) (q old z : Nat) : Tracker × Except TrapError Unit :=
  if !k.hasZone old then (k, .error .noSuchIndex)
  else if k.hasZone z && k.hasQubit q then (k.lock q old z, .ok ())
  else (k.lock q old z, .error .noSuchIndex)

/-- Whether any qubit is locked, and its zone. -/
def findQubit (k : Tracker) (q : Nat) : Except TrapError (Bool × Nat) :=
  if k.hasQubit q then .ok (k.isLocked q, k.zoneOf q) else .error .noSuchIndex

/-- Number of qubits locked into any zone, and its free qubits. -/
def findZone (k : Tracker) (z : Nat) : Except TrapError (Nat × List Nat) :=
  if k.hasZone z then .ok (k.numNew z, k.occupants z) else .error .noSuchIndex

end Tracker

end IonTrap
