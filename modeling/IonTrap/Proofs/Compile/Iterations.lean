import IonTrap.Proofs.Compile.Replay
import IonTrap.Proofs.Loop
import IonTrap.Proofs.Routing.Displaced

/-!
# How long routing takes

Neither of the two loops of routing counts its iterations. The outer one ends because an iteration
emits an instruction or goes down a ladder of three stages, which it climbs again only by emitting
(`Run.stage_lt_of_idle`). The inner one, the router, ends because a batch takes a qubit to its zone
and soft-lock is entered once. `Session.route_ends` puts the two together: how many targets are
selected for a circuit, how many of them in a row are of no use, and how many batches a target
takes.
-/

namespace IonTrap

/-! ## The router -/

namespace Journey

variable {m : CostModel} {j : Journey}

/-- The batch that comes next. -/
def batch? (m : CostModel) (j : Journey) : Option Batch :=
  let soft := j.soft || !j.trap.hasSpace j.groups false
  if j.trap.hasSpace j.groups soft then nextBatch? m j.trap j.groups j.forced soft else none

/-- A step carries out the batch that comes next. -/
theorem step_of_batch? {b : Batch} (hb : j.batch? m = some b) :
    (∃ soft p, Progress.execute ⟨j.trap, j.ops⟩ b.source b.qubits b.move = .ok p ∧
      j.step m = .ok (j.afterBatch soft b p)) ∨
    ∃ t e, Progress.execute ⟨j.trap, j.ops⟩ b.source b.qubits b.move = .error (t, e) ∧
      j.step m = .error (t, .trap e) := by
  unfold batch? at hb
  dsimp only at hb
  split_ifs at hb with hspace
  unfold step
  dsimp only
  rw [hspace, Bool.not_true, if_neg (by simp), hb]
  dsimp only
  cases hexec : Progress.execute ⟨j.trap, j.ops⟩ b.source b.qubits b.move with
  | ok p => exact .inl ⟨_, p, rfl, rfl⟩
  | error fault => exact .inr ⟨fault.1, fault.2, rfl, rfl⟩

/-- Without a batch a step moves nothing. -/
theorem step_of_batch?_eq_none (hb : j.batch? m = none) :
    j.step m = .ok { j with soft := true } ∨
      j.step m = .error (j.trap, .infeasible (remaining j.groups)) := by
  unfold batch? at hb
  dsimp only at hb
  unfold step
  dsimp only
  split_ifs at hb with hspace
  · rw [hspace, Bool.not_true, if_neg (by simp), hb]
    dsimp only
    split_ifs
    · exact .inr rfl
    · exact .inl rfl
  · rw [if_pos (by simpa using hspace)]
    exact .inr rfl

/-- A batch leaves fewer qubits to move. -/
theorem remaining_lt_of_batch? {b : Batch} (hb : j.batch? m = some b) :
    remaining (removeBatch j.groups b) < remaining j.groups := by
  unfold batch? at hb
  dsimp only at hb
  split_ifs at hb
  exact remaining_removeBatch_lt (partOf_of_nextBatch hb)

/-- What a run gives back, from how its loop ended. -/
def report : Except (Trap × CompileError) Journey → Trap × Except CompileError RoutingResult
  | .ok j => (j.trap, .ok j.result)
  | .error (t, e) => (t, .error e)

theorem exists_course (m : CostModel) (j : Journey) :
    ∃ visited out, Course (·.groups ≠ []) (step m) j visited out ∧ j.run m = report out := by
  fun_induction run m j with
  | case1 j hempty => exact ⟨[], .ok j, .done (by simpa using hempty), rfl⟩
  | case2 j hempty t e hs => exact ⟨[j], .error (t, e), .fails (by simpa using hempty) hs, rfl⟩
  | case3 j hempty j' hs _ ih =>
    obtain ⟨visited, out, hc, hrun⟩ := ih
    exact ⟨j :: visited, out, .goes (by simpa using hempty) hs hc, hrun⟩

/-- There are no more batches than qubits to move. -/
theorem countP_batch?_le {visited : List Journey} {out : Except (Trap × CompileError) Journey}
    (hc : Course (·.groups ≠ []) (step m) j visited out) :
    visited.countP (fun j => (j.batch? m).isSome) ≤ remaining j.groups := by
  apply hc.countP_le
  · intro j _ hsome
    obtain ⟨b, hb⟩ := Option.isSome_iff_exists.1 hsome
    have hfewer := remaining_lt_of_batch? hb
    omega
  · intro j j' _ hs
    cases hb : j.batch? m with
    | none =>
      -- only soft-lock was entered
      rcases step_of_batch?_eq_none hb with hs' | hs'
      · rw [hs, Except.ok.injEq] at hs'
        rw [hs']
        simp
      · simp [hs] at hs'
    | some b =>
      have hfewer := remaining_lt_of_batch? hb
      rcases step_of_batch? hb with ⟨soft, p, -, hs'⟩ | ⟨t, e, -, hs'⟩
      · rw [hs, Except.ok.injEq] at hs'
        rw [hs']
        show remaining (removeBatch j.groups b) + 1 ≤ remaining j.groups
        omega
      · simp [hs] at hs'

end Journey

/-- A target is refused at once, or the router takes it to the end of its loop, with at most one
batch for a displaced qubit. -/
theorem Trap.Consistent.routeTo_batches {t : Trap} (h : t.Consistent) (m : CostModel)
    (target : Placement) :
    (∃ e fault, target.validate t.arch t.numQubits = .error fault ∧
      t.routeTo m target = (t, .error e)) ∨
    ∃ passes last, Course (·.groups ≠ []) (Journey.step m) (Journey.start t target) passes last ∧
      t.routeTo m target = Journey.report last ∧
      passes.countP (fun j => (j.batch? m).isSome)
        ≤ (Placement.displaced t.numQubits t.placement target).length := by
  rcases routeTo_cases m t target with hrefused | ⟨hfits, hrun⟩
  · exact .inl hrefused
  · obtain ⟨passes, last, hc, hlast⟩ := (Journey.start t target).exists_course m
    refine .inr ⟨passes, last, hc, hrun.trans hlast, ?_⟩
    rw [← (h.pending_groups hfits).remaining_eq h hfits]
    exact Journey.countP_batch?_le hc

/-! ## The loop -/

namespace Run

variable {s : Selector} {r r' : Run}

/-- Nothing is emitted in the step that a run takes now. -/
def Idle (s : Selector) (r : Run) : Prop :=
  ∀ r', r.step s = .ok r' → emitted r'.ops = emitted r.ops

/-- A step that emits nothing goes down a stage. -/
theorem stage_lt_of_idle (hidle : r.Idle s) (h : r.step s = .ok r') :
    r'.stage.rank < r.stage.rank := by
  have hsame := hidle r' h
  obtain ⟨target, t, result, ready, waiting, -, -, -, h⟩ := exists_afterMove h
  obtain ⟨-, hops, -, ⟨hready, -⟩ | ⟨-, hstage⟩⟩ := afterMove_eq_ok h
  · -- what was ready would have been emitted
    rw [hops] at hsame
    simp [hready] at hsame
  · exact Stage.rank_next?_lt hstage

/-- What the loop gives back, from how it ended. -/
def report : Except (Trap × CompileError) Run → Trap × Except CompileError (List RoutedOp)
  | .ok r => (r.trap, .ok r.ops)
  | .error (t, e) => (t, .error e)

theorem exists_course (s : Selector) (r : Run) :
    ∃ visited out, Course (·.remaining ≠ []) (step s) r visited out ∧ r.finish s = report out := by
  fun_induction finish s r with
  | case1 r hempty => exact ⟨[], .ok r, .done (by simpa using hempty), rfl⟩
  | case2 r hempty t e hs => exact ⟨[r], .error (t, e), .fails (by simpa using hempty) hs, rfl⟩
  | case3 r hempty r' hs _ ih =>
    obtain ⟨visited, out, hc, hfinish⟩ := ih
    exact ⟨r :: visited, out, .goes (by simpa using hempty) hs hc, hfinish⟩

/-- Three steps for an instruction are enough, less those for the stages that a run is down already:
the last step is taken with an instruction left. -/
theorem length_course_le {visited : List Run} {out : Except (Trap × CompileError) Run}
    (hc : Course (·.remaining ≠ []) (step s) r visited out) : visited.length ≤ r.rank - 2 := by
  rw [← List.countP_true]
  have hthree : ∀ r : Run, r.remaining ≠ [] → 3 ≤ r.rank := by
    intro r hr
    have hpos := List.length_pos_iff.2 hr
    unfold rank
    omega
  apply hc.countP_le
  · intro r hr _
    have hrank := hthree r hr
    show 0 < r.rank - 2
    omega
  · intro r r' hr hs
    have hrank := hthree r hr
    have hlt := rank_step_lt hs
    show r'.rank - 2 + 1 ≤ r.rank - 2
    omega

end Run

/-! ## Sessions -/

namespace Session

/-- What a session gives back for a circuit, from how its loop ended. -/
def report (s : Session) (c : Circuit) :
    Except (Trap × CompileError) Run → Session × Except CompileError RoutedCircuit
  | .ok r =>
    let start := RoutedCircuit.start c.name c.numQubits c.numClbits s.trap.placement
    ({ s with trap := r.trap }, .ok { start with ops := r.ops, finalPlacement := r.trap.placement })
  | .error (t, e) => ({ s with trap := t }, .error e)

theorem route_eq_report {s : Session} {c : Circuit} {r : Run} (hr : s.firstRun c = .ok r)
    {out : Except (Trap × CompileError) Run} (hout : r.finish s.selector = Run.report out) :
    s.route c = s.report c out := by
  unfold route
  rw [hr]
  dsimp only
  cases out with
  | ok r' =>
    have hok : r.finish s.selector = (r'.trap, .ok r'.ops) := hout
    rw [hok]
    rfl
  | error fault =>
    have herror : r.finish s.selector = (fault.1, .error fault.2) := hout
    rw [herror]
    rfl

end Session

end IonTrap
