import IonTrap.Architecture.PortNumber
import IonTrap.Trap.Basic

/-!
# What moves cost

Two models price a move of several qubits from one zone to another. `shuttleSwap` takes the way out
of a departure port and adds the swaps that line the qubits up there. `shuttleOnly` counts hops on a
shortest zone path and asks only whether the zones along it have room.
-/

namespace IonTrap

/-- How moves are priced. -/
inductive CostModel where
  /-- The way through the ports, and swaps in the source zone. -/
  | shuttleSwap
  /-- Hops only. -/
  | shuttleOnly
deriving DecidableEq, Repr

/-- A priced move. -/
structure MoveCost where
  /-- Zones on the way, both ends included. -/
  path : List Nat
  /-- Cost of the way and of the swaps. -/
  cost : Nat
  /-- Port of the source zone. -/
  sourcePort : Port
  /-- Port of the target zone. -/
  targetPort : Port
deriving DecidableEq, Repr

/-- Name of a model in settings and reports. -/
def CostModel.name : CostModel → String
  | .shuttleSwap => "shuttle_p_swap"
  | .shuttleOnly => "shuttle_only"

/-- Number of swaps of neighbours that line qubits of a zone up at a port, in their order. -/
def Trap.swapCount (t : Trap) (qs : List Nat) (z : Nat) (port : Port) : Nat :=
  let inPlace := qs.length * (qs.length - 1) / 2
  let distance :=
    match port with
    | .p0 => total (qs.map t.position)
    | .p1 => total (qs.map fun q => t.occupancy z - 1 - t.position q)
  distance - inPlace

/-- The price of moving `qs` out of `source` through `port` on a given way. -/
def Trap.price (t : Trap) (qs : List Nat) (source : Nat) (port : Port) (p : PortPath) : MoveCost :=
  ⟨p.zones, wrap (p.cost + wrap (t.swapCount qs source port * t.arch.swapCost source)), port,
    p.targetPort⟩

namespace CostModel

/-- The price of moving `qs` out of `source` through `port`, if there is a way. Without swaps the
departure port follows from the path. -/
def fromPort (m : CostModel) (t : Trap) (qs : List Nat) (source target : Nat) (port : Port) :
    Option MoveCost :=
  match m with
  | .shuttleSwap => (t.ports.path source port target qs.length).map (t.price qs source port)
  | .shuttleOnly => do
    let way ← t.shuttlePath source target
    if way.capacity.any (· < qs.length) then none
    else
      match way.path, way.path.reverse with
      | z₀ :: z₁ :: _, y₁ :: y₀ :: _ => do
        let (sourcePort, _) ← (t.arch.connectionPorts z₀ z₁).toOption
        let (_, targetPort) ← (t.arch.connectionPorts y₀ y₁).toOption
        return ⟨way.path, way.length, sourcePort, targetPort⟩
      | _, _ => return ⟨way.path, way.length, port, port⟩

/-- The cheaper of two priced moves, the first if they are even. -/
def cheaper : Option MoveCost → Option MoveCost → Option MoveCost
  | some a, some b => if a.cost ≤ b.cost then some a else some b
  | some a, none => some a
  | none, b => b

/-- The price of a move through the better departure port. -/
def best (m : CostModel) (t : Trap) (qs : List Nat) (source target : Nat) : Option MoveCost :=
  cheaper (m.fromPort t qs source target .p0) (m.fromPort t qs source target .p1)

/-- The price of moving one qubit. -/
def single (m : CostModel) (t : Trap) (q source target : Nat) : Option Nat :=
  (m.best t [q] source target).map (·.cost)

/-- Orders prices; a move without a way comes last. -/
def priceLe : Option Nat → Option Nat → Bool
  | some a, some b => a ≤ b
  | some _, none => true
  | none, some _ => false
  | none, none => true

/-- All zones other than `source` that are connected to it: by hops, then by the price of moving `q`
there, then in the order of the layer. -/
def closest (m : CostModel) (t : Trap) (q source : Nat) : List Nat :=
  ((t.arch.layers source).drop 1).flatMap fun layer =>
    ((layer.map fun z => (z, m.single t q source z)).mergeSort fun x y => priceLe x.2 y.2).map (·.1)

end CostModel

/-! ## Looking up any zone or qubit

The functions above assume that the zones and qubits exist. The ones below take any numbers and say
when a look-up would leave the trap. -/

/-- Guards a look-up. -/
def Trap.lookUp {α : Type} (inside : Bool) (value : α) : Except TrapError α :=
  if inside then .ok value else .error .noSuchIndex

namespace Trap

/-- Zone and place of any qubit. -/
def findSpot (t : Trap) (q : Nat) : Except TrapError (Nat × Nat) :=
  lookUp (t.hasQubit q) (t.zoneOf q, t.position q)

/-- Layers around any zone. -/
def findLayers (t : Trap) (z : Nat) : Except TrapError (List (List Nat)) :=
  lookUp (t.hasZone z) (t.arch.layers z)

/-- Shortest path between any zones. -/
def findShuttlePath (t : Trap) (source target : Nat) : Except TrapError (Option ShuttlePath) :=
  lookUp (t.hasZone source && t.hasZone target) (t.shuttlePath source target)

/-- Swap count of any qubits. Only the far port asks for the zone. -/
def findSwapCount (t : Trap) (qs : List Nat) (z : Nat) (port : Port) : Except TrapError Nat :=
  lookUp (qs.all t.hasQubit && (port == .p0 || t.hasZone z)) (t.swapCount qs z port)

/-- Checks that qubits are in a zone. -/
def checkInZone (t : Trap) (z : Nat) : List Nat → Except TrapError Unit
  | [] => .ok ()
  | q :: qs => do
    let (zone, _) ← t.findSpot q
    if zone = z then t.checkInZone z qs else .error (.notInZone q z)

end Trap

namespace CostModel

/-- Price of moving any qubits through a port. Without a way nothing is looked up. -/
def findFromPort (m : CostModel) (t : Trap) (qs : List Nat) (source target : Nat) (port : Port) :
    Except TrapError (Option MoveCost) :=
  match m with
  | .shuttleSwap =>
    let way := t.ports.findPath source port target qs.length
    Trap.lookUp (way.isNone || (t.hasZone source && qs.all t.hasQubit))
      (way.map (t.price qs source port))
  | .shuttleOnly =>
    Trap.lookUp (t.hasZone source && t.hasZone target) (m.fromPort t qs source target port)

/-- Price of moving any qubits, which must all be in `source`. -/
def findBest (m : CostModel) (t : Trap) (qs : List Nat) (source target : Nat) :
    Except TrapError (Option MoveCost) := do
  t.checkInZone source qs
  let c₀ ← m.findFromPort t qs source target .p0
  let c₁ ← m.findFromPort t qs source target .p1
  return cheaper c₀ c₁

/-- Price of moving any single qubit. -/
def findSingle (m : CostModel) (t : Trap) (q source target : Nat) :
    Except TrapError (Option Nat) := do
  let c₀ ← m.findFromPort t [q] source target .p0
  let c₁ ← m.findFromPort t [q] source target .p1
  return (cheaper c₀ c₁).map (·.cost)

/-- Nearest zones of any qubit around any zone. -/
def findClosest (m : CostModel) (t : Trap) (q source : Nat) : Except TrapError (List Nat) := do
  let layers ← t.findLayers source
  (layers.drop 1).flatten.forM fun z => discard (m.findSingle t q source z)
  return m.closest t q source

end CostModel

end IonTrap
