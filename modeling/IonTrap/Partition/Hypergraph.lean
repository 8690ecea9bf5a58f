import IonTrap.Error

/-!
# Hypergraphs to be partitioned

Weighted vertices, some of them fixed to a part, weighted nets, and a size per part. An assignment
gives every vertex a part. Its cut is the sum, over nets, of the weight times the number of parts
that the net spans beyond the first.
-/

namespace IonTrap

/-- A vertex. -/
structure Vertex where
  /-- Its weight. -/
  weight : Nat
  /-- The part it must be in, if any. -/
  fixed : Option Nat
deriving DecidableEq, Repr

/-- A net. -/
structure Net where
  /-- Vertices it connects. -/
  pins : List Nat
  /-- Its weight. -/
  weight : Nat
deriving DecidableEq, Repr

/-- A partitioning problem. -/
structure Hypergraph where
  /-- Its vertices. -/
  vertices : Array Vertex
  /-- Its nets. -/
  nets : Array Net
  /-- Greatest weight of each part. -/
  partSizes : Array Nat
deriving DecidableEq, Repr

/-- A part per vertex. -/
abbrev Assignment := List Nat

/-- Answers a problem with a given number of parts. -/
abbrev Partitioner := Hypergraph → Nat → Except CompileError Assignment

namespace Hypergraph

/-- Number of vertices. -/
def numVertices (g : Hypergraph) : Nat := g.vertices.size

/-- Number of parts. -/
def numParts (g : Hypergraph) : Nat := g.partSizes.size

/-- Weight of a vertex. -/
def weight (g : Hypergraph) (v : Nat) : Nat := (g.vertices[v]?.map (·.weight)).getD 0

/-- The part that a vertex is fixed to. -/
def fixed (g : Hypergraph) (v : Nat) : Option Nat := g.vertices[v]?.bind (·.fixed)

/-- Weight of a net. -/
def netWeight (g : Hypergraph) (e : Nat) : Nat := (g.nets[e]?.map (·.weight)).getD 0

/-- Size of a part. -/
def partSize (g : Hypergraph) (p : Nat) : Nat := g.partSizes.getD p 0

/-- Checks that pins are vertices and fixed parts are parts. -/
def validate (g : Hypergraph) : Except PartitionError Unit :=
  match (g.nets.toList.flatMap (·.pins)).find? (g.numVertices ≤ ·) with
  | some pin => .error (.pinOutOfRange pin g.numVertices)
  | none =>
    match (g.vertices.toList.filterMap (·.fixed)).find? (g.numParts ≤ ·) with
    | some part => .error (.fixedOutOfRange part g.numParts)
    | none => .ok ()

/-- Builds a problem from tables, which must fit together. -/
def ofTables (numVertices : Nat) (weights : List Nat) (nets : List (List Nat))
    (netWeights : List Nat) (fixed : List (Option Nat)) (partSizes : List Nat) :
    Except PartitionError Hypergraph :=
  if weights.length ≠ numVertices ∨ fixed.length ≠ numVertices then
    .error (.vertexTables numVertices weights.length fixed.length)
  else if nets.length ≠ netWeights.length then .error (.netWeights nets.length netWeights.length)
  else do
    let g : Hypergraph :=
      ⟨(weights.zipWith Vertex.mk fixed).toArray, (nets.zipWith Net.mk netWeights).toArray,
        partSizes.toArray⟩
    g.validate
    return g

/-! ## Assignments -/

/-- Number of distinct parts of some vertices. -/
def span (pins : List Nat) (assignment : Assignment) : Nat :=
  (pins.map fun v => assignment.getD v 0).eraseDups.length

/-- The cut of an assignment. -/
def cut (g : Hypergraph) (assignment : Assignment) : Nat :=
  total (g.nets.toList.map fun e => e.weight * (span e.pins assignment - 1))

/-- The cut of any list of parts, as a word. Every pin needs a part of the problem. -/
def findCut (g : Hypergraph) (assignment : Assignment) : Except TrapError Nat :=
  let known (v : Nat) : Bool := assignment[v]?.any (· < g.numParts)
  if g.nets.all fun e => e.pins.all known then .ok (wrap (g.cut assignment))
  else .error .noSuchIndex

/-- Weight of the vertices in a part, as a word. -/
def partWeight (g : Hypergraph) (assignment : Assignment) (p : Nat) : Nat :=
  wrap (total ((assignment.zipIdx.filter (·.1 == p)).map fun v => g.weight v.2))

/-- Checks the part of each vertex; `v` numbers the first. -/
def checkParts (g : Hypergraph) (v : Nat) : List Nat → Except PartitionError Unit
  | [] => .ok ()
  | p :: ps =>
    if g.numParts ≤ p then .error (.unknownPart v p)
    else if (g.fixed v).any (· != p) then .error (.fixedMoved v p)
    else g.checkParts (v + 1) ps

/-- Checks that an assignment covers the vertices, keeps fixed ones and fills no part beyond its
size. -/
def checkAssignment (g : Hypergraph) (assignment : Assignment) : Except PartitionError Unit :=
  if assignment.length ≠ g.numVertices then .error (.coverage assignment.length g.numVertices)
  else do
    g.checkParts 0 assignment
    match (List.range g.numParts).find? fun p => g.partSize p < g.partWeight assignment p with
    | some p => .error (.overweight p (g.partWeight assignment p) (g.partSize p))
    | none => .ok ()

end Hypergraph

end IonTrap
