import IonTrap.Proofs.Routing.Split

/-!
# Runs of the routing loop

What one step of the loop can do (`Run.step_eq_ok`), and the induction over a whole run that every
property of routed circuits rests on (`Run.exists_of_finish`): what holds at first and survives
every step holds of the run that ended with nothing left.
-/

namespace IonTrap

namespace Run

variable {s : Selector} {r r' : Run}

/-- The run after a move, in terms of what could run then. -/
theorem afterMove_eq_ok {t : Trap} {moves : List RoutingOp} {ready waiting : List Instruction}
    (h : r.afterMove s t moves ready waiting = .ok r') :
    r'.trap = t ∧ r'.ops = r.ops ++ moves.map .routing ++ ready.map .gate ∧
      r'.remaining = waiting ∧
      (ready ≠ [] ∧ r'.stage = .configured ∨
        ready = [] ∧ r.stage.next? s.isPartition (t.pairsApart waiting) = some r'.stage) := by
  unfold afterMove at h
  cases ready with
  | nil =>
    simp only [List.isEmpty_nil, Bool.not_true, Bool.false_eq_true, if_false] at h
    split at h
    · next stage hs =>
      obtain rfl := Except.ok.inj h
      exact ⟨rfl, rfl, rfl, .inr ⟨rfl, hs⟩⟩
    · simp at h
  | cons i ready =>
    obtain rfl := Except.ok.inj h
    exact ⟨rfl, rfl, rfl, .inl ⟨by simp, rfl⟩⟩

/-- A step selects a target, moves there, and looks what can run. -/
theorem exists_afterMove (h : r.step s = .ok r') :
    ∃ target t result ready waiting, r.target s = .ok target ∧
      r.trap.routeTo s.costModel target = (t, .ok result) ∧
      t.split [] r.remaining = .ok (ready, waiting) ∧
      r.afterMove s t result.ops ready waiting = .ok r' := by
  unfold step at h
  split at h
  · simp at h
  · next target htarget =>
    split at h
    · simp at h
    · next t result hroute =>
      split at h
      · simp at h
      · next ready waiting hsplit =>
        exact ⟨target, t, result, ready, waiting, htarget, hroute, hsplit, mapError_eq_ok_iff.1 h⟩

/-- A step selects a target, moves there, and emits what can run. -/
theorem step_eq_ok (h : r.step s = .ok r') :
    ∃ target result ready, r.target s = .ok target ∧
      r.trap.routeTo s.costModel target = (r'.trap, .ok result) ∧
      r'.trap.split [] r.remaining = .ok (ready, r'.remaining) ∧
      r'.ops = r.ops ++ result.ops.map .routing ++ ready.map .gate := by
  obtain ⟨target, t, result, ready, waiting, htarget, hroute, hsplit, h⟩ := exists_afterMove h
  obtain ⟨rfl, hops, rfl, -⟩ := afterMove_eq_ok h
  exact ⟨target, result, ready, htarget, hroute, hsplit, hops⟩

/-- What holds at first and survives every step holds at the end. -/
theorem exists_of_finish {P : Run → Prop} (hstep : ∀ r r', P r → r.step s = .ok r' → P r')
    (hr : P r) {t : Trap} {ops : List RoutedOp} (h : r.finish s = (t, .ok ops)) :
    ∃ r', P r' ∧ r'.remaining = [] ∧ r'.trap = t ∧ r'.ops = ops := by
  fun_induction Run.finish s r with
  | case1 r hempty =>
    obtain ⟨rfl, hops⟩ := Prod.mk.inj h
    exact ⟨r, hr, List.isEmpty_iff.1 hempty, rfl, Except.ok.inj hops⟩
  | case2 => simp at h
  | case3 r _ r' hs _ ih => exact ih (hstep r r' hr hs) h

end Run

namespace Session

variable {s : Session} {c : Circuit}

theorem firstRun_eq_ok {r : Run} (h : s.firstRun c = .ok r) :
    checkOperands c.instructions = .ok () ∧
      ∃ ready, s.trap.split [] c.instructions = .ok (ready, r.remaining) ∧
        r.trap = s.trap ∧ r.ops = ready.map .gate ∧ r.stage = .configured := by
  obtain ⟨u, hcheck, h⟩ := bind_eq_ok_iff.1 h
  obtain ⟨⟨ready, waiting⟩, hsplit, h⟩ := bind_eq_ok_iff.1 h
  obtain rfl := Except.ok.inj h
  exact ⟨hcheck, ready, liftTrap_eq_ok_iff.1 hsplit, rfl, rfl, rfl⟩

/-- A routed circuit holds the stream of a finished run, from the placement before to the one
after. -/
theorem route_eq_ok {z : RoutedCircuit} (h : (s.route c).2 = .ok z) :
    ∃ r, s.firstRun c = .ok r ∧ r.finish s.selector = ((s.route c).1.trap, .ok z.ops) ∧
      z = { RoutedCircuit.start c.name c.numQubits c.numClbits s.trap.placement with
        ops := z.ops, finalPlacement := (s.route c).1.trap.placement } := by
  unfold route at h ⊢
  split at h
  · simp at h
  · next r hr =>
    split at h
    · simp at h
    · next t ops hfin =>
      obtain rfl := Except.ok.inj h
      refine ⟨r, hr, ?_, ?_⟩ <;> simp only [hfin]

end Session

end IonTrap
