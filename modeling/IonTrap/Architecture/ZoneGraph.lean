import IonTrap.Architecture.Error

/-!
# Hops between zones

Distances count connections. The zones around a starting zone form breadth-first layers; a shortest
path is read off the layers backwards, from each zone to the first zone of the layer before that is
joined to it.
-/

namespace IonTrap.Architecture

/-- Zones joined to a zone, in the order of the connections. -/
def neighbors (a : Architecture) (z : Nat) : List Nat :=
  a.connections.filterMap fun c =>
    if c.a.zone = z then some c.b.zone
    else if c.b.zone = z then some c.a.zone
    else none

/-- The first occurrences in a list of zones not seen before. -/
def fresh (seen : List Nat) : List Nat → List Nat
  | [] => []
  | z :: zs => if seen.contains z then fresh seen zs else z :: fresh (z :: seen) zs

/-- The layer `layer` and the layers behind it, for at most `fuel` steps. -/
def layersFrom (a : Architecture) : Nat → List Nat → List Nat → List (List Nat)
  | 0, _, layer => [layer]
  | fuel + 1, seen, layer =>
    let next := fresh seen (layer.flatMap a.neighbors)
    layer :: if next.isEmpty then [] else a.layersFrom fuel (seen ++ next) next

/-- Breadth-first layers around `start`; the first one is `[start]`. There are at most as many
layers as zones. -/
def layers (a : Architecture) (start : Nat) : List (List Nat) :=
  a.layersFrom a.numZones [start] [start]

/-- Number of hops between two zones. -/
def distance (a : Architecture) (source target : Nat) : Option Nat :=
  (a.layers source).findIdx? (·.contains target)

/-- The path that ends in `z`, through the layers before it, nearest first. -/
def traceBack (a : Architecture) : List (List Nat) → Nat → List Nat
  | [], z => [z]
  | layer :: before, z =>
    match layer.find? fun y => (a.neighbors y).contains z with
    | some y => a.traceBack before y ++ [z]
    | none => [z]

/-- A shortest path, both ends included. -/
def shortestPath (a : Architecture) (source target : Nat) : Option (List Nat) :=
  (a.distance source target).map fun d =>
    a.traceBack ((a.layers source).take d).reverse target

/-- The ports of the connection between two zones: the one of `source` and the one of `target`. -/
def connectionPorts (a : Architecture) (source target : Nat) : Except TrapError (Port × Port) :=
  let ports? (c : Connection) :=
    if c.a.zone = source ∧ c.b.zone = target then some (c.a.port, c.b.port)
    else if c.b.zone = source ∧ c.a.zone = target then some (c.b.port, c.a.port)
    else none
  match a.connections.findSome? ports? with
  | some ports => .ok ports
  | none => .error (.noConnection source target)

end IonTrap.Architecture
