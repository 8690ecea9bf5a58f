import IonTrap.Circuit.Basic
import IonTrap.Architecture.Error

/-!
# Rounds of two-qubit gates

The two-qubit gates of a circuit are scheduled into rounds: a gate goes into the round after the
last one that uses one of its qubits. A gate on the same pair as one in that last round joins it
instead. Beside the rounds stand the blocks of qubits that the gates so far connect.
-/

namespace IonTrap

/-- The qubits of a two-qubit gate. -/
abbrev Pair := Nat × Nat

namespace Pair

/-- Whether a pair uses a qubit. -/
def uses (p : Pair) (q : Nat) : Bool := p.1 == q || p.2 == q

/-- Whether two pairs share a qubit. -/
def meets (p r : Pair) : Bool := r.uses p.1 || r.uses p.2

/-- Whether both qubits are below `n`. -/
def below (n : Nat) (p : Pair) : Bool := p.1 < n && p.2 < n

end Pair

/-- The pair of a two-qubit gate, smaller qubit first. -/
def Instruction.pair? (i : Instruction) : Option Pair :=
  if i.isTwoQubitGate then
    match i.qubits with
    | a :: b :: _ => some (min a b, max a b)
    | _ => none
  else none

/-- The pairs of the two-qubit gates, in program order. -/
def gatePairs (is : List Instruction) : List Pair := is.filterMap Instruction.pair?

/-- Pairs per round. -/
abbrev Rounds := List (List Pair)

namespace Rounds

/-- Number of rounds up to the last one that uses a qubit. -/
def lastUse (q : Nat) : Rounds → Nat
  | [] => 0
  | r :: rs =>
    match lastUse q rs with
    | 0 => if r.any (·.uses q) then 1 else 0
    | k + 1 => k + 2

/-- Schedules one more pair. -/
def insert (rs : Rounds) (p : Pair) : Rounds :=
  let d := max (lastUse p.1 rs) (lastUse p.2 rs)
  if 0 < d ∧ p ∈ rs.getD (d - 1) [] then rs.modify (d - 1) (· ++ [p])
  else if d < rs.length then rs.modify d (· ++ [p])
  else rs ++ [[p]]

/-- Schedules pairs in order. -/
def ofPairs (ps : List Pair) : Rounds := ps.foldl insert []

/-- Keeps a pair unless it is satisfied and shares no qubit with a pair kept before. -/
def keep (satisfied : Pair → Bool) (kept : List Pair) (p : Pair) : List Pair :=
  if satisfied p && !kept.any p.meets then kept else kept ++ [p]

/-- The pairs that are left once satisfied ones are dropped. In the first round every satisfied pair
goes; later one stays if it waits for a pair that stays. -/
def pending (satisfied : Pair → Bool) : Rounds → List Pair
  | [] => []
  | r :: rs => rs.flatten.foldl (keep satisfied) (r.filter (!satisfied ·))

/-- The rounds of the pairs that are left. -/
def prune (satisfied : Pair → Bool) (rs : Rounds) : Rounds := ofPairs (pending satisfied rs)

end Rounds

/-! ## Blocks -/

/-- Disjoint sets of connected qubits. -/
abbrev Blocks := List (List Nat)

namespace Blocks

/-- Connects the qubits of a pair. The block of the second qubit moves into that of the first and
leaves an empty one. -/
def connect (bs : Blocks) (p : Pair) : Blocks :=
  match bs.findIdx? (·.contains p.1), bs.findIdx? (·.contains p.2) with
  | some x, some y => if x = y then bs else (bs.modify x (· ++ bs.getD y [])).set y []
  | some x, none => bs.modify x (· ++ [p.2])
  | none, some y => bs.modify y (· ++ [p.1])
  | none, none => bs ++ [[p.1, p.2]]

/-- Connects the pairs of a round and drops empty blocks. -/
def connectRound (bs : Blocks) (r : List Pair) : Blocks :=
  (r.foldl connect bs).filter (!·.isEmpty)

/-- The blocks after each round, starting from `bs`. -/
def after (bs : Blocks) : Rounds → List Blocks
  | [] => []
  | r :: rs => bs.connectRound r :: after (bs.connectRound r) rs

end Blocks

/-- The blocks after each round. -/
def Rounds.blocks (rs : Rounds) : List Blocks := Blocks.after [] rs

/-! ## Scheduling pairs of any numbers -/

namespace Rounds

/-- Rounds of pairs that must be below `n`. -/
def ofPairsBelow (n : Nat) (ps : List Pair) : Except TrapError Rounds :=
  if ps.all (·.below n) then .ok (ofPairs ps) else .error .noSuchIndex

/-- Pruned rounds of pairs that must be below `n`. Pairs that the first round drops may be any. -/
def pruneBelow (n : Nat) (satisfied : Pair → Bool) (rs : Rounds) : Except TrapError Rounds :=
  let first := (rs.headD []).filter (!satisfied ·)
  if (first ++ (rs.drop 1).flatten).all (·.below n) then .ok (prune satisfied rs)
  else .error .noSuchIndex

end Rounds

end IonTrap
