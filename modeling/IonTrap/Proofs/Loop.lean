import IonTrap.Proofs.Outcome

/-!
# Courses of loops

A loop takes steps as long as there is work left, and a step may fail. Its course is the list of the
states in which it took a step, or tried to, and how it ended (`Course`). What is counted along a
course is bounded by a potential that pays for it (`Course.countP_le`), and a stretch of steps that
use something up is no longer than that lasts (`Course.length_le_of_stretch`).
-/

namespace IonTrap

/-- The course of a loop from a state: the states it took a step in, in their order, and the last
state or the failure of the last step. -/
inductive Course {σ ε : Type} (work : σ → Prop) (step : σ → Except ε σ) :
    σ → List σ → Except ε σ → Prop
  /-- There is no work left. -/
  | done {x : σ} (h : ¬ work x) : Course work step x [] (.ok x)
  | fails {x : σ} {e : ε} (h : work x) (hs : step x = .error e) : Course work step x [x] (.error e)
  | goes {x y : σ} {visited : List σ} {out : Except ε σ} (h : work x) (hs : step x = .ok y)
      (hrest : Course work step y visited out) : Course work step x (x :: visited) out

namespace Course

variable {σ ε : Type} {work : σ → Prop} {step : σ → Except ε σ} {x : σ} {visited : List σ}
  {out : Except ε σ}

/-- What holds at first and survives every step holds at every step. -/
theorem forall_visited {P : σ → Prop} (hstep : ∀ x y, P x → step x = .ok y → P y)
    (hc : Course work step x visited out) (hx : P x) : ∀ y ∈ visited, P y := by
  induction hc with
  | done => simp
  | fails => simpa using hx
  | goes _ hs _ ih =>
    rw [List.forall_mem_cons]
    exact ⟨hx, ih (hstep _ _ hx hs)⟩

/-- And it holds at the end, if the loop has one. -/
theorem holds_at_end {P : σ → Prop} (hstep : ∀ x y, P x → step x = .ok y → P y)
    (hc : Course work step x visited out) (hx : P x) : ∀ y, out = .ok y → P y := by
  induction hc with
  | done =>
    intro y hy
    rwa [← Except.ok.inj hy]
  | fails => simp
  | goes _ hs _ ih => exact ih (hstep _ _ hx hs)

/-- If the potential of a state pays for a counted step, in full where the step fails and by what it
falls where it succeeds, then it pays for all counted steps to come. -/
theorem countP_le {c : σ → Bool} {f : σ → Nat} (hpays : ∀ x, work x → c x = true → 0 < f x)
    (hfalls : ∀ x y, work x → step x = .ok y → f y + (if c x = true then 1 else 0) ≤ f x)
    (hc : Course work step x visited out) : visited.countP c ≤ f x := by
  induction hc with
  | done => simp
  | fails h hs =>
    -- no later state is left to pay, so the last step is paid in full
    have hx := hpays _ h
    rw [List.countP_singleton]
    split_ifs with hcounted
    · exact hx hcounted
    · omega
  | goes h hs _ ih =>
    have hx := hfalls _ _ h hs
    rw [List.countP_cons]
    omega

theorem head_eq {y : σ} {rest : List σ} (hc : Course work step x (y :: rest) out) : x = y := by
  cases hc <;> rfl

/-- A step that is not the last one succeeds. -/
theorem exists_next {y : σ} {rest : List σ} (hc : Course work step x (y :: rest) out)
    (hne : rest ≠ []) : ∃ z, step y = .ok z ∧ Course work step z rest out := by
  cases hc with
  | fails => exact absurd rfl hne
  | goes h hs hrest => exact ⟨_, hs, hrest⟩

theorem exists_rest {before rest : List σ} (hc : Course work step x (before ++ rest) out)
    (hne : rest ≠ []) : ∃ y, Course work step y rest out := by
  induction before generalizing x with
  | nil => exact ⟨x, hc⟩
  | cons y before ih =>
    obtain ⟨z, -, hrest⟩ := hc.exists_next (by simp [hne])
    exact ih hrest

section Stretch

variable {idle : σ → Prop} {μ : σ → Nat} {stretch after : List σ} {y : σ}

/-- Steps that use something up, with another step behind them, are no more than there is of it. -/
theorem length_le_of_idle (hidle : ∀ x y, idle x → step x = .ok y → μ y < μ x)
    (hc : Course work step x (stretch ++ y :: after) out) (hstretch : ∀ z ∈ stretch, idle z) :
    stretch.length ≤ μ x := by
  induction stretch generalizing x with
  | nil => exact Nat.zero_le _
  | cons z stretch ih =>
    rw [List.forall_mem_cons] at hstretch
    -- the step in `z` is not the last one, so it succeeded and used something up
    obtain ⟨z', hs, hrest⟩ := hc.exists_next (by simp)
    have hlen := ih hrest hstretch.2
    have hused := hidle z z' hstretch.1 hs
    rw [hc.head_eq, List.length_cons]
    omega

/-- The same of a stretch anywhere in a course, if there is never more of it than `b`. -/
theorem length_le_of_stretch (hidle : ∀ x y, idle x → step x = .ok y → μ y < μ x) {b : Nat}
    (hb : ∀ x, μ x ≤ b) {before : List σ}
    (hc : Course work step x (before ++ (stretch ++ y :: after)) out)
    (hstretch : ∀ z ∈ stretch, idle z) : stretch.length ≤ b := by
  obtain ⟨x', hrest⟩ := hc.exists_rest (by simp)
  exact (hrest.length_le_of_idle hidle hstretch).trans (hb x')

end Stretch

end Course

end IonTrap
