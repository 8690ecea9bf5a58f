import IonTrap.Routing.Op
import IonTrap.Trap.Cost

/-!
# Carrying out a move

A cohort is lined up at its departure port by swaps of neighbours, then shuttled hop by hop. In a
zone on the way it is lined up again if it leaves through the port it did not enter by. Every change
of the trap is logged as an operation.
-/

namespace IonTrap

/-- A trap and the operations logged so far. -/
structure Progress where
  /-- The trap. -/
  trap : Trap
  /-- The log. -/
  ops : List RoutingOp
deriving DecidableEq, Repr

/-- A trap as a failed operation left it, and the reason. -/
abbrev Halt := Trap × TrapError

namespace Progress

/-- Swaps places `left` and `left + 1` of a chain and logs it. -/
def swapAt (p : Progress) (z left : Nat) : Except Halt Progress :=
  match (p.trap.chain z)[left]?, (p.trap.chain z)[left + 1]? with
  | some x, some y =>
    match p.trap.swap z left with
    | .ok t => .ok ⟨t, p.ops ++ [.swap z x y]⟩
    | .error e => .error (p.trap, e)
  | _, _ => .error (p.trap, .noSuchIndex)

/-- Takes the qubit at place `slot + k` down to place `slot`. -/
def bubbleDown (z slot : Nat) : Nat → Progress → Except Halt Progress
  | 0, p => .ok p
  | k + 1, p => do
    let p ← p.swapAt z (slot + k)
    bubbleDown z slot k p

/-- Takes the qubit at place `slot` up by `k` places. -/
def bubbleUp (z : Nat) : Nat → Nat → Progress → Except Halt Progress
  | _, 0, p => .ok p
  | slot, k + 1, p => do
    let p ← p.swapAt z slot
    bubbleUp z (slot + 1) k p

/-- Brings qubits, listed in chain order, to the places from `slot` on. -/
def alignHead (z : Nat) : Nat → List Nat → Progress → Except Halt Progress
  | _, [], p => .ok p
  | slot, q :: qs, p => do
    let p ← bubbleDown z slot (p.trap.position q - slot) p
    alignHead z (slot + 1) qs p

/-- Brings qubits, listed against chain order, to the places before `stop`. -/
def alignTail (z : Nat) : Nat → List Nat → Progress → Except Halt Progress
  | _, [], p => .ok p
  | stop, q :: qs, p => do
    let p ← bubbleUp z (p.trap.position q) (stop - 1 - p.trap.position q) p
    alignTail z (stop - 1) qs p

/-- Lines qubits of a zone up at a port, in their order. -/
def align (p : Progress) (z : Nat) (qs : List Nat) (port : Port) : Except Halt Progress :=
  match port with
  | .p0 => alignHead z 0 (p.trap.cohort z qs) p
  | .p1 => alignTail z (p.trap.occupancy z) (p.trap.cohort z qs).reverse p

/-- Shuttles a cohort from `z` to the neighbouring zone `next`. `entry` is the port it entered `z`
by, if it did; leaving by the other one means lining up first. Also gives the port of arrival. -/
def hop (p : Progress) (qs : List Nat) (entry : Option Port) (z next : Nat) :
    Except Halt (Progress × Port) :=
  match p.trap.arch.connectionPorts z next with
  | .error e => .error (p.trap, e)
  | .ok (exit, arrival) => do
    let p ← if entry.any (· != exit) then p.align z qs exit else .ok p
    let cohort := p.trap.cohort z qs
    match p.trap.move cohort z next arrival with
    | .ok t => .ok (⟨t, p.ops ++ [.shuttle cohort z next exit arrival]⟩, arrival)
    | .error e => .error (p.trap, e)

/-- Shuttles a cohort along a path. -/
def hops (qs : List Nat) : Option Port → List Nat → Progress → Except Halt Progress
  | entry, z :: next :: rest, p => do
    let (p, arrival) ← p.hop qs entry z next
    hops qs (some arrival) (next :: rest) p
  | _, _, p => .ok p

/-- Carries out a priced move of a cohort. -/
def execute (p : Progress) (source : Nat) (qs : List Nat) (c : MoveCost) : Except Halt Progress :=
  let p : Progress := { p with ops := p.ops ++ [.barrier] }
  if c.path.length < 2 then .ok p
  else do
    let p ← p.align source qs c.sourcePort
    hops qs none c.path p

end Progress

end IonTrap
