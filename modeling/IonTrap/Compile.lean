import IonTrap.InitialPlacement
import IonTrap.RoutedCircuit.Basic
import IonTrap.Routing.Router
import IonTrap.Routing.Split
import IonTrap.Selection.Selector

/-!
# Compiling circuits

A circuit is routed by a loop: emit what can run, select a target for what is left, move there. When
a move lets nothing run, the next target is selected in a simpler way; when there is no simpler way,
routing has stalled.
-/

namespace IonTrap

/-- How the next target is selected. -/
inductive Stage where
  /-- As configured. -/
  | configured
  /-- Greedily. -/
  | greedy
  /-- For instructions on single qubits only. -/
  | single
deriving DecidableEq, Repr

namespace Stage

/-- The stage after a move that let nothing run. Without a pair that is apart only single qubits can
help. -/
def next? (partition pairsApart : Bool) : Stage → Option Stage
  | .single => none
  | .configured => if pairsApart && partition then some .greedy else some .single
  | .greedy => some .single

/-- Number of stages after this one. -/
def rank : Stage → Nat
  | .configured => 2
  | .greedy => 1
  | .single => 0

theorem rank_le (s : Stage) : s.rank ≤ 2 := by cases s <;> decide

theorem rank_next?_lt {p b : Bool} {s s' : Stage} (h : s.next? p b = some s') :
    s'.rank < s.rank := by
  cases s <;> cases p <;> cases b <;> simp_all [next?] <;> subst h <;> decide

end Stage

/-- Checks that no instruction but barriers acts on more than two qubits. -/
def checkOperands (is : List Instruction) : Except CompileError Unit :=
  match is.find? fun i => !i.isBarrier && 2 < i.qubits.length with
  | some i => .error (.tooManyOperands i.name i.qubits.length)
  | none => .ok ()

/-- Whether a pair shares a gate zone. -/
def Trap.together (t : Trap) (p : Pair) : Bool :=
  t.zoneOf p.1 == t.zoneOf p.2 && t.inGateZone p.1

/-- Whether some two-qubit gate still waits for its qubits to meet. -/
def Trap.pairsApart (t : Trap) (is : List Instruction) : Bool :=
  !(Rounds.prune t.together (Rounds.ofPairs (gatePairs is))).isEmpty

/-- A routing session: circuits are routed one after another on a live trap. -/
structure Session where
  /-- The live trap. -/
  trap : Trap
  /-- The settings. -/
  settings : RoutingSettings
  /-- How targets are selected. -/
  selector : Selector

/-- A run of the routing loop under way. -/
structure Run where
  /-- The live trap. -/
  trap : Trap
  /-- The stream so far. -/
  ops : List RoutedOp
  /-- Instructions left. -/
  remaining : List Instruction
  /-- How the next target is selected. -/
  stage : Stage
deriving DecidableEq, Repr

namespace Run

/-- The next target. -/
def target (s : Selector) (r : Run) : Except CompileError Placement :=
  match r.stage with
  | .configured => s.next r.trap r.remaining
  | .greedy => selectGreedy s.costModel r.trap r.remaining
  | .single =>
    selectGreedy s.costModel r.trap
      (r.remaining.filter fun i => !i.isBarrier && i.qubits.length == 1)

/-- The run after a move. -/
def afterMove (s : Selector) (r : Run) (t : Trap) (moves : List RoutingOp)
    (ready waiting : List Instruction) : Except CompileError Run :=
  let ops := r.ops ++ moves.map .routing ++ ready.map .gate
  if !ready.isEmpty then .ok ⟨t, ops, waiting, .configured⟩
  else
    match r.stage.next? s.isPartition (t.pairsApart waiting) with
    | some stage => .ok ⟨t, ops, waiting, stage⟩
    | none => .error (.stalled waiting.length)

/-- Selects a target, moves there and emits what can run then. -/
def step (s : Selector) (r : Run) : Except (Trap × CompileError) Run :=
  match r.target s with
  | .error e => .error (r.trap, e)
  | .ok target =>
    match r.trap.routeTo s.costModel target with
    | (t, .error e) => .error (t, e)
    | (t, .ok result) =>
      match t.split [] r.remaining with
      | .error e => .error (t, .trap e)
      | .ok (ready, waiting) => (r.afterMove s t result.ops ready waiting).mapError fun e => (t, e)

/-- Bounds the number of steps to come. -/
def rank (r : Run) : Nat := 3 * r.remaining.length + r.stage.rank

end Run

/-! ## The loop ends -/

theorem Trap.length_split {t : Trap} {is : List Instruction} {s : List Nat}
    {ready waiting : List Instruction} (h : t.split s is = .ok (ready, waiting)) :
    ready.length + waiting.length = is.length := by
  induction is generalizing s ready waiting with
  | nil =>
    obtain ⟨rfl, rfl⟩ := Prod.mk.inj (Except.ok.inj h)
    rfl
  | cons i is ih =>
    rw [Trap.split] at h
    cases hw : t.mustWait s i with
    | error e => simp [hw, bind, Except.bind] at h
    | ok w =>
      cases w with
      | true =>
        simp only [hw, bind, Except.bind, if_true] at h
        split at h
        · obtain ⟨rfl, rfl⟩ := Prod.mk.inj (Except.ok.inj h)
          simp
        · split at h
          · simp at h
          · next v hv =>
            obtain ⟨rfl, rfl⟩ := Prod.mk.inj (Except.ok.inj h)
            have := ih hv
            simp only [List.length_cons]
            omega
      | false =>
        simp only [hw, bind, Except.bind, Bool.false_eq_true, if_false] at h
        split at h
        · simp at h
        · next v hv =>
          obtain ⟨rfl, rfl⟩ := Prod.mk.inj (Except.ok.inj h)
          have := ih hv
          simp only [List.length_cons]
          omega

theorem Run.rank_afterMove_lt {s : Selector} {r r' : Run} {t : Trap} {moves : List RoutingOp}
    {ready waiting : List Instruction}
    (hl : ready.length + waiting.length = r.remaining.length)
    (h : r.afterMove s t moves ready waiting = .ok r') : r'.rank < r.rank := by
  unfold afterMove at h
  cases ready with
  | nil =>
    simp only [List.isEmpty_nil, Bool.not_true, Bool.false_eq_true, if_false] at h
    split at h
    · next stage hs =>
      obtain rfl := Except.ok.inj h
      have := Stage.rank_next?_lt hs
      simp only [rank, List.length_nil] at hl ⊢
      omega
    · simp at h
  | cons i ready =>
    simp only [List.isEmpty_cons, Bool.not_false, if_true] at h
    obtain rfl := Except.ok.inj h
    simp only [rank, Stage.rank, List.length_cons] at hl ⊢
    omega

theorem Run.rank_step_lt {s : Selector} {r r' : Run} (h : r.step s = .ok r') :
    r'.rank < r.rank := by
  unfold step at h
  split at h
  · simp at h
  · split at h
    · simp at h
    · split at h
      · simp at h
      · next hsplit =>
        unfold Except.mapError at h
        split at h
        · simp at h
        · next ha =>
          obtain rfl := Except.ok.inj h
          exact rank_afterMove_lt (Trap.length_split hsplit) ha

/-- Runs to the end. Also gives the trap as the run leaves it. -/
def Run.finish (s : Selector) (r : Run) : Trap × Except CompileError (List RoutedOp) :=
  if r.remaining.isEmpty then (r.trap, .ok r.ops)
  else
    match h : r.step s with
    | .error (t, e) => (t, .error e)
    | .ok r' =>
      have := Run.rank_step_lt h
      Run.finish s r'
termination_by r.rank

/-! ## Sessions -/

namespace Session

/-- A session that starts with a placement of `n` qubits. -/
def start (a : Architecture) (n : Nat) (initial : Placement) (settings : RoutingSettings)
    (partitioner : Option Partitioner) : Except CompileError Session := do
  settings.validate
  let t ← liftTrap (Trap.ofPlacement a n initial)
  return ⟨t, settings, .ofSettings settings partitioner⟩

/-- The first run: what can run without a move is emitted. -/
def firstRun (s : Session) (c : Circuit) : Except CompileError Run := do
  checkOperands c.instructions
  let (ready, waiting) ← liftTrap (s.trap.split [] c.instructions)
  return ⟨s.trap, ready.map .gate, waiting, .configured⟩

/-- Routes a circuit on the live trap. Moves made before a failure stay. -/
def route (s : Session) (c : Circuit) : Session × Except CompileError RoutedCircuit :=
  match s.firstRun c with
  | .error e => (s, .error e)
  | .ok r =>
    match r.finish s.selector with
    | (t, .error e) => ({ s with trap := t }, .error e)
    | (t, .ok ops) =>
      let start := RoutedCircuit.start c.name c.numQubits c.numClbits s.trap.placement
      ({ s with trap := t }, .ok { start with ops := ops, finalPlacement := t.placement })

end Session

/-- Routes a circuit from a given placement. -/
def routeCircuit (a : Architecture) (c : Circuit) (initial : Placement) (settings : RoutingSettings)
    (partitioner : Option Partitioner) : Except CompileError RoutedCircuit := do
  let s ← Session.start a c.numQubits initial settings partitioner
  (s.route c).2

/-- Places and routes a circuit. -/
def compile (a : Architecture) (c : Circuit) (settings : CompilationSettings)
    (partitioner : Option Partitioner) : Except CompileError RoutedCircuit := do
  settings.validate
  let initial ← settings.initialPlacement.place a c
  routeCircuit a c initial settings.routing partitioner

end IonTrap
