import IonTrap.Error
import IonTrap.Rounds
import IonTrap.Selection.Tracker
import IonTrap.Trap.Cost

/-!
# Greedy selection

Pairs of qubits are served in the order of the rounds. A pair whose qubits can share a gate zone is
locked into it. A pair that cannot be served makes its qubits wait, and so does each later pair with
a waiting qubit. Qubits that stay free keep their zone while it has gate spots; the others go to the
nearest zones with spots left.
-/

namespace IonTrap

/-! ## Gate zones -/

/-- Summed price of moving qubits, given with their zones, into a zone, if all of them can get
there. -/
def Tracker.price? (m : CostModel) (t : Trap) (qs : List (Nat × Nat)) (z : Nat) : Option Nat :=
  (qs.mapM fun q => m.single t q.1 q.2 z).map fun costs => wrap (total costs)

/-- The gate zone with room for all of `qs` and the lowest price, the first of equals. -/
def Tracker.bestGateZone? (k : Tracker) (m : CostModel) (t : Trap) (qs : List (Nat × Nat)) :
    Option Nat :=
  let visit (best : Option (Nat × Nat)) (z : Nat) :=
    if k.gateRoom t z < qs.length then best
    else
      match price? m t qs z with
      | some c => if best.all fun b => c < b.1 then some (c, z) else best
      | none => best
  (t.arch.gateZones.foldl visit none).map (·.2)

/-! ## Serving pairs -/

/-- Greedy selection under way. -/
structure Greedy where
  /-- Qubits locked so far. -/
  tracker : Tracker
  /-- Qubits that must wait, in the order they were marked. -/
  waiting : List Nat
deriving DecidableEq, Repr

namespace Greedy

/-- Whether a qubit waits. -/
def waits (g : Greedy) (q : Nat) : Bool := g.waiting.contains q

/-- Makes a qubit wait. -/
def mark (g : Greedy) (q : Nat) : Greedy :=
  if g.waits q then g else { g with waiting := g.waiting ++ [q] }

/-- Locks `other` next to the locked qubit `q` if there is a spot, and makes it wait otherwise. -/
def lockNextTo (t : Trap) (g : Greedy) (q other : Nat) : Greedy :=
  let z := g.tracker.zoneOf q
  if g.tracker.gateRoom t z = 0 then g.mark other
  else { g with tracker := g.tracker.lock other (g.tracker.zoneOf other) z }

/-- The zone for two free qubits: that of either if it has two gate spots, or else the cheapest. -/
def commonZone? (m : CostModel) (t : Trap) (k : Tracker) (p : Pair) : Option Nat :=
  let z₀ := k.zoneOf p.1
  let z₁ := k.zoneOf p.2
  let roomy (z : Nat) : Bool := t.arch.isGateZone z && 2 ≤ k.gateRoom t z
  if roomy z₀ then some z₀
  else if roomy z₁ then some z₁
  else k.bestGateZone? m t [(p.1, z₀), (p.2, z₁)]

/-- Locks two free qubits into a common gate zone, or makes both wait. -/
def lockPair (m : CostModel) (t : Trap) (g : Greedy) (p : Pair) : Greedy :=
  match commonZone? m t g.tracker p with
  | none => (g.mark p.1).mark p.2
  | some z =>
    let k := g.tracker
    { g with tracker := (k.lock p.1 (k.zoneOf p.1) z).lock p.2 (k.zoneOf p.2) z }

/-- Serves one pair. -/
def serve (m : CostModel) (t : Trap) (g : Greedy) (p : Pair) : Greedy :=
  if g.waits p.1 || g.waits p.2 then (g.mark p.1).mark p.2
  else
    match g.tracker.isLocked p.1, g.tracker.isLocked p.2 with
    | true, true =>
      if g.tracker.zoneOf p.1 = g.tracker.zoneOf p.2 then g else (g.mark p.1).mark p.2
    | true, false => lockNextTo t g p.1 p.2
    | false, true => lockNextTo t g p.2 p.1
    | false, false => lockPair m t g p

/-- Whether nothing more can be served: all qubits wait, or no gate zone has a spot. -/
def exhausted (t : Trap) (g : Greedy) : Bool :=
  g.waiting.length == t.numQubits || t.arch.gateZones.all fun z => g.tracker.gateRoom t z == 0

/-- Serves pairs in order. -/
def serveAll (m : CostModel) (t : Trap) : List Pair → Greedy → Greedy
  | [], g => g
  | p :: ps, g => if g.exhausted t then g else serveAll m t ps (serve m t g p)

end Greedy

/-! ## Single qubits and the rest -/

namespace Tracker

/-- Locks the first qubit of each instruction other than barriers into a gate zone, its own if that
has a spot, until a qubit finds none. -/
def lockSingles (m : CostModel) (t : Trap) : List Instruction → Tracker → Except TrapError Tracker
  | [], k => .ok k
  | i :: is, k =>
    match i.isBarrier, i.qubits with
    | false, q :: _ =>
      if !k.hasQubit q then .error .noSuchIndex
      else if k.isLocked q then lockSingles m t is k
      else
        let z := k.zoneOf q
        if t.arch.isGateZone z && 1 ≤ k.gateRoom t z then lockSingles m t is (k.lock q z z)
        else
          match k.bestGateZone? m t [(q, z)] with
          | some target => lockSingles m t is (k.lock q z target)
          | none => .ok k
    | _, _ => lockSingles m t is k

/-- Locks qubits of zone `old` into zone `z`. -/
def lockAll (old z : Nat) (qs : List Nat) (k : Tracker) : Tracker :=
  qs.foldl (fun k q => k.lock q old z) k

/-- Locks the free qubits of a zone in place, as many as there are gate spots. -/
def stay (t : Trap) (k : Tracker) (z : Nat) : Tracker :=
  lockAll z z ((k.occupants z).take (k.gateRoom t z)) k

/-- Locks qubits of zone `old` into the zones `targets`, filling one after the other. Also gives the
qubits that found no spot. -/
def spread (t : Trap) (old : Nat) : List Nat → List Nat → Tracker → Tracker × List Nat
  | _, [], k => (k, [])
  | [], qs, k => (k, qs)
  | z :: targets, qs, k =>
    let room := k.gateRoom t z
    spread t old targets (qs.drop room) (lockAll old z (qs.take room) k)

/-- Sends the free qubits of a zone to the nearest zones with spots, the last of the chain first. -/
def leave (m : CostModel) (t : Trap) (k : Tracker) (z : Nat) : Except CompileError Tracker :=
  match k.occupants z with
  | [] => .ok k
  | first :: rest =>
    let (k, stranded) := spread t z (m.closest t first z) (first :: rest).reverse k
    match stranded.getLast? with
    | some q => .error (.unplaceable q)
    | none => .ok k

/-- Places every free qubit. -/
def placeRest (m : CostModel) (t : Trap) (k : Tracker) : Except CompileError Tracker :=
  let zones := List.range t.arch.numZones
  zones.foldlM (leave m t) (zones.foldl (stay t) k)

end Tracker

/-- A target for instructions without two-qubit gates. -/
def selectSingles (m : CostModel) (t : Trap) (is : List Instruction) :
    Except CompileError Placement := do
  let k ← liftTrap (Tracker.lockSingles m t is (.ofTrap t))
  let k ← k.placeRest m t
  return k.assembled

/-- The greedy target for the remaining instructions. -/
def selectGreedy (m : CostModel) (t : Trap) (is : List Instruction) :
    Except CompileError Placement := do
  let rounds ← liftTrap (Rounds.ofPairsBelow t.numQubits (gatePairs is))
  if rounds.isEmpty then selectSingles m t is
  else
    let g := Greedy.serveAll m t rounds.flatten ⟨.ofTrap t, []⟩
    let k ← g.tracker.placeRest m t
    return k.assembled

end IonTrap
