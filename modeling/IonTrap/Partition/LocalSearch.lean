import IonTrap.Partition.Hypergraph
import IonTrap.Random.Shuffle

/-!
# Partitioning by local search

Fixed vertices are placed first. The others follow, the most strongly connected first and ties in
seeded order, each into the part with room where its nets weigh most. Then passes of single moves
and of exchanges lower the cut until a pass changes nothing or the passes are used up. Loads,
weights of nets together and changes of the cut are words.
-/

namespace IonTrap

/-- A partial assignment, with the weight of every part and, for every net, its pins per part. -/
structure Search where
  /-- The problem. -/
  graph : Hypergraph
  /-- Nets of every vertex; a net is listed as often as it lists the vertex. -/
  incident : Array (List Nat)
  /-- Part of every vertex that has one. -/
  part : Array (Option Nat)
  /-- Weight in every part. -/
  load : Array Nat
  /-- For every net, the number of its pins in each part. -/
  pins : Array (Array Nat)
deriving DecidableEq, Repr

namespace Search

/-- Nets of a vertex, as often as they list it. -/
def netsOf (g : Hypergraph) (v : Nat) : List Nat :=
  g.nets.toList.zipIdx.flatMap fun e => List.replicate (e.1.pins.count v) e.2

/-- The search before any vertex has a part. -/
def start (g : Hypergraph) : Search where
  graph := g
  incident := ((List.range g.numVertices).map (netsOf g)).toArray
  part := Array.replicate g.numVertices none
  load := Array.replicate g.numParts 0
  pins := Array.replicate g.nets.size (Array.replicate g.numParts 0)

/-- Nets of a vertex. -/
def netsAt (s : Search) (v : Nat) : List Nat := s.incident.getD v []

/-- Part of a vertex, if it has one. -/
def partOf (s : Search) (v : Nat) : Option Nat := s.part.getD v none

/-- Weight in a part. -/
def loadOf (s : Search) (p : Nat) : Nat := s.load.getD p 0

/-- Number of pins of a net in a part. -/
def pinCount (s : Search) (e p : Nat) : Nat := (s.pins.getD e #[]).getD p 0

/-- The parts found; vertices without one count as in part 0. -/
def assignment (s : Search) : Assignment := s.part.toList.map (·.getD 0)

/-- Whether a vertex fits into a part. -/
def hasRoom (s : Search) (v p : Nat) : Bool :=
  wrap (s.loadOf p + s.graph.weight v) ≤ s.graph.partSize p

/-- Changes the pin counts of a vertex's nets in a part. -/
def recount (s : Search) (v p : Nat) (f : Nat → Nat) : Array (Array Nat) :=
  (s.netsAt v).foldl (fun pins e => pins.modify e (·.modify p f)) s.pins

/-- Puts a vertex into a part. -/
def assign (s : Search) (v p : Nat) : Search :=
  { s with
    part := s.part.setIfInBounds v (some p)
    load := s.load.modify p fun load => wrap (load + s.graph.weight v)
    pins := s.recount v p (· + 1) }

/-- Takes a vertex out of a part. -/
def unassign (s : Search) (v p : Nat) : Search :=
  { s with
    part := s.part.setIfInBounds v none
    load := s.load.modify p fun load => wrapSub load (s.graph.weight v)
    pins := s.recount v p (· - 1) }

/-- Takes a vertex from one part to another. -/
def shift (s : Search) (v source target : Nat) : Search := (s.unassign v source).assign v target

/-! ## First placement -/

/-- Puts the fixed vertices among `vs` into their parts. -/
def placeFixed (s : Search) : List Nat → Except PartitionError Search
  | [] => .ok s
  | v :: vs =>
    match s.graph.fixed v with
    | none => s.placeFixed vs
    | some p => if s.hasRoom v p then (s.assign v p).placeFixed vs else .error (.fixedTooHeavy p)

/-- Weight of all nets of a vertex. -/
def strength (s : Search) (v : Nat) : Nat := wrap (total ((s.netsAt v).map s.graph.netWeight))

/-- The free vertices, strongest first, ties in seeded order. -/
def freeOrder (s : Search) (seed : Nat) : List Nat :=
  let free := (List.range s.graph.numVertices).filter fun v => (s.graph.fixed v).isNone
  let ranked := (shuffle seed free).map fun v => (s.strength v, v)
  (ranked.mergeSort fun x y => y.1 ≤ x.1).map (·.2)

/-- Weight of the nets of a vertex that have a pin in a part. -/
def gain (s : Search) (v p : Nat) : Nat :=
  wrap (total (((s.netsAt v).filter fun e => 0 < s.pinCount e p).map s.graph.netWeight))

/-- Gain and free weight of a part for a vertex. -/
def appeal (s : Search) (v p : Nat) : Nat × Nat :=
  (s.gain v p, wrapSub (s.graph.partSize p) (s.loadOf p))

/-- Whether one appeal beats another: by gain, then by free weight. -/
def beats (x y : Nat × Nat) : Bool := y.1 < x.1 || (x.1 == y.1 && y.2 < x.2)

/-- The part with room and most appeal, the first of equals. -/
def mostAppealing? (s : Search) (v : Nat) : Option Nat :=
  let visit (best : Option (Nat × (Nat × Nat))) (p : Nat) :=
    let x := s.appeal v p
    if best.all fun b => beats x b.2 then some (p, x) else best
  (((List.range s.graph.numParts).filter (s.hasRoom v)).foldl visit none).map (·.1)

/-- Puts vertices where they are drawn most. -/
def placeGreedy (s : Search) : List Nat → Except PartitionError Search
  | [] => .ok s
  | v :: vs =>
    match s.mostAppealing? v with
    | some p => (s.assign v p).placeGreedy vs
    | none => .error (.noRoom v)

/-! ## Refinement -/

/-- Change of a net's share in the cut when one of its vertices leaves a part for another: the
target is new if it had no pin, the source is gone if it had no other. -/
def netDelta (s : Search) (source target e : Nat) : Int :=
  let joined : Int := if s.pinCount e target = 0 then 1 else 0
  let left : Int := if s.pinCount e source = 1 then 1 else 0
  (s.graph.netWeight e : Int) * (joined - left)

/-- Change of the cut when a vertex leaves its part for another. -/
def moveDelta (s : Search) (v target : Nat) : Int :=
  match s.partOf v with
  | none => 0
  | some source => wrapInt ((s.netsAt v).foldr (fun e d => s.netDelta source target e + d) 0)

/-- The part with room, other than `source`, that lowers the cut most, the first of equals. -/
def bestMove? (s : Search) (v source : Nat) : Option (Int × Nat) :=
  let visit (best : Option (Int × Nat)) (p : Nat) :=
    let d := s.moveDelta v p
    if best.all fun b => d < b.1 then some (d, p) else best
  ((List.range s.graph.numParts).filter fun p => p != source && s.hasRoom v p).foldl visit none

/-- Moves a vertex if that lowers the cut. -/
def tryMove? (s : Search) (v : Nat) : Option Search :=
  match s.partOf v with
  | none => none
  | some source =>
    match s.bestMove? v source with
    | some (d, target) => if d < 0 then some (s.shift v source target) else none
    | none => none

/-- Exchanges two vertices of different parts if both parts keep their size and the cut drops. -/
def trySwap? (s : Search) (a b : Nat) : Option Search :=
  match s.partOf a, s.partOf b with
  | some pa, some pb =>
    let wa := s.graph.weight a
    let wb := s.graph.weight b
    if pa = pb ∨ s.graph.partSize pa < wrap (wrapSub (s.loadOf pa) wa + wb)
        ∨ s.graph.partSize pb < wrap (wrapSub (s.loadOf pb) wb + wa) then none
    else
      let moved := s.shift a pa pb
      if wrapInt (s.moveDelta a pb + moved.moveDelta b pa) < 0 then some (moved.shift b pb pa)
      else none
  | _, _ => none

/-- A search and whether it has improved. -/
abbrev Pass := Search × Bool

/-- Takes an improvement, if there is one. -/
def Pass.take (s : Pass) (next : Option Search) : Pass :=
  match next with
  | some s' => (s', true)
  | none => s

/-- Tries to move every vertex in order. -/
def moveAll (vs : List Nat) (s : Pass) : Pass :=
  vs.foldl (fun s v => Pass.take s (s.1.tryMove? v)) s

/-- Tries to exchange every connected vertex with each later one. -/
def swapAll : List Nat → Pass → Pass
  | [], s => s
  | a :: vs, s =>
    if (s.1.netsAt a).isEmpty then swapAll vs s
    else swapAll vs (vs.foldl (fun s b => Pass.take s (s.1.trySwap? a b)) s)

/-- One pass of moves and exchanges, and whether anything improved. -/
def refine (s : Search) (order : List Nat) : Pass := swapAll order (moveAll order (s, false))

/-- Passes until one changes nothing, at most `n`. -/
def refineUpTo (order : List Nat) : Nat → Search → Search
  | 0, s => s
  | n + 1, s =>
    match s.refine order with
    | (s, true) => refineUpTo order n s
    | (s, false) => s

end Search

/-- Parameters of a local search. -/
structure LocalSearch where
  /-- Seed for ties. -/
  seed : Nat := 0
  /-- Greatest number of refinement passes. -/
  maxPasses : Nat := 16
deriving DecidableEq, Repr

/-- Answers a problem by local search. -/
def LocalSearch.partition (l : LocalSearch) (g : Hypergraph) (numParts : Nat) :
    Except PartitionError Assignment :=
  if numParts ≠ g.numParts then .error (.partCount numParts g.numParts)
  else do
    g.validate
    let s ← (Search.start g).placeFixed (List.range g.numVertices)
    let order := s.freeOrder l.seed
    let s ← s.placeGreedy order
    return (s.refineUpTo order l.maxPasses).assignment

/-- Local search as a partitioner. -/
def LocalSearch.partitioner (l : LocalSearch) : Partitioner :=
  fun g numParts => (l.partition g numParts).mapError .partition

/-- A partitioner that always gives the same answer. -/
def Partitioner.constant (parts : Assignment) : Partitioner := fun _ _ => .ok parts

/-- A partitioner that always fails. -/
def Partitioner.failing (text : String) : Partitioner :=
  fun _ _ => .error (.partition (.reported text))

end IonTrap
