import IonTrap.Proofs.Json.RoundTrip
import IonTrap.Proofs.Number.Exact

/-!
# Reading written data back

Numbers and lists are read back as they were written. A natural number of 64 bits is far below the
largest double, so a value that holds only such numbers and doubles that read back is `Json.Tidy`:
it can be printed and read, and taken in as a whole.

The shortest decimal of a double is meant to lead back to that double. Whether it does is a question
about one double at a time, `Double.ReadsBack`: reading rounds twice.
-/

namespace IonTrap

/-! ## Rounding at most doubles a number -/

namespace Double

theorem divNearest_le (num den : Nat) : divNearest num den ≤ num / den + 1 := by
  unfold divNearest
  dsimp only
  split_ifs <;> omega

theorem twoPow_excess_le (n : Nat) : twoPow (excess n) ≤ n + 1 := by
  by_cases hn : n = 0
  · subst hn
    decide
  · have hlog : twoPow n.log2 ≤ n := Nat.log2_self_le hn
    have hle : twoPow (excess n) ≤ twoPow n.log2 :=
      Nat.pow_le_pow_right (by decide) (by simp only [excess, precision]; omega)
    omega

theorem roundSteps_le (num den : Nat) : roundSteps num den ≤ 2 * (num / den) + 1 := by
  have hunit := twoPow_excess_le (num / den)
  unfold roundSteps
  dsimp only
  generalize twoPow (excess (num / den)) = unit at hunit ⊢
  calc divNearest num (den * unit) * unit
      ≤ (num / (den * unit) + 1) * unit := Nat.mul_le_mul_right _ (divNearest_le _ _)
    _ = num / den / unit * unit + unit := by rw [Nat.div_div_eq_div_mul]; ring
    _ ≤ num / den + (num / den + 1) := by
        have := Nat.div_mul_le_self (num / den) unit
        omega
    _ = 2 * (num / den) + 1 := by ring

theorem natSteps_le (n : Nat) : natSteps n ≤ 2 * (n * twoPow stepBits) + 1 := by
  have hle := roundSteps_le (n * twoPow stepBits) 1
  rwa [Nat.div_one] at hle

/-- Scaling by `10 ^ 0` at most doubles a number, too. -/
theorem mulSteps_pow10Steps_zero_le (f : Nat) : mulSteps f (pow10Steps 0) ≤ 2 * f + 1 := by
  have hone : pow10Steps 0 = twoPow stepBits := by
    rw [pow10Steps, show tenPow 0 = 1 from rfl, natSteps_eq (by decide), one_mul]
  have hle := roundSteps_le (f * twoPow stepBits) (twoPow stepBits)
  rw [Nat.mul_div_cancel _ (twoPow_pos stepBits)] at hle
  rwa [mulSteps, hone]

theorem exists_ofDecimal {n : Nat} (hn : n < 2 ^ 64) :
    ∃ d, ofDecimal false n 0 = some d := by
  have hfinite : mulSteps (natSteps n) (pow10Steps 0) < limit := by
    have hscaled := mulSteps_pow10Steps_zero_le (natSteps n)
    have hsteps := natSteps_le n
    have hword : n * twoPow stepBits ≤ 2 ^ 64 * twoPow stepBits :=
      Nat.mul_le_mul_right _ hn.le
    have hlimit : 4 * (2 ^ 64 * twoPow stepBits) + 3 < limit := by decide +kernel
    omega
  have hscale : scaleUp (natSteps n) 0 = some (mulSteps (natSteps n) (pow10Steps 0)) := by
    rw [scaleUp, if_pos (by decide), if_pos hfinite]
  exact ⟨_, by rw [show (0 : Int) = .ofNat 0 from rfl, ofDecimal, hscale]; rfl⟩

end Double

theorem Numeral.exists_toDouble?_ofNat {n : Nat} (hn : n < 2 ^ 64) :
    ∃ d, (Numeral.ofNat n).toDouble? = some d := by
  have hleading : leadingDigits n = (n, 0) := by
    rw [leadingDigits, if_pos (by simpa [wordLimit] using hn)]
  obtain ⟨d, hd⟩ := Double.exists_ofDecimal hn
  refine ⟨d, ?_⟩
  rw [toDouble?, show (ofNat n).whole = n from rfl, hleading]
  exact hd

/-! ## Doubles -/

/-- The text written for a double reads back as that double. -/
def Double.ReadsBack (d : Double) : Prop :=
  (Json.parse (Json.ofDouble d).pretty).bind Json.double? = some d

/-- The text is that of a literal, so it is enough to read the literal. -/
theorem Double.readsBack_iff {d : Double} :
    d.ReadsBack ↔ (Numeral.ofDouble d).toDouble? = some d := by
  have hwell : (Json.ofDouble d).WellFormed := Numeral.wellFormed_ofDouble d
  rw [ReadsBack, Json.parse_pretty hwell, Option.bind_some]
  rfl

/-- The double written as `-0.1`. -/
def Double.minusTenth : Double := ⟨true, 7205759403792794 * twoPow 1018⟩

theorem Double.readsBack_minusTenth : minusTenth.ReadsBack := readsBack_iff.2 (by decide +kernel)

namespace Json

/-! ## Numbers and lists -/

theorem double?_ofDouble {d : Double} (h : d.ReadsBack) : (ofDouble d).double? = some d :=
  Double.readsBack_iff.1 h

theorem natBelow?_ofNat {n bound : Nat} (h : n < bound) : (ofNat n).natBelow? bound = some n := by
  simp [natBelow?, ofNat, Numeral.natBelow?, Numeral.toNat?, Numeral.ofNat, h]

theorem word32?_ofNat {n : Nat} (h : n < 2 ^ 32) : (ofNat n).word32? = some n :=
  natBelow?_ofNat (by simpa using h)

theorem word64?_ofNat {n : Nat} (h : n < 2 ^ 64) : (ofNat n).word64? = some n :=
  natBelow?_ofNat (by simpa using h)

theorem list?_map {α : Type} {write : α → Json} {read : Json → Option α} {xs : List α}
    (h : ∀ x ∈ xs, read (write x) = some x) : list? read (.arr (xs.map write)) = some xs :=
  mapM_map_eq_some h

/-! ## Records -/

theorem hasRepeatedKey_eq_false {fs : Fields} (h : (fs.map (·.1)).Nodup) :
    hasRepeatedKey fs = false := by
  induction fs with
  | nil => rfl
  | cons f fs ih =>
    rw [List.map_cons, List.nodup_cons] at h
    have hnone : fs.any (·.1 == f.1) = false := by
      rw [List.any_eq_false]
      exact fun g hg heq => h.1 (List.mem_map.2 ⟨g, hg, beq_iff_eq.1 heq⟩)
    rw [hasRepeatedKey, hnone, ih h.2]
    rfl

/-- The fields of a record that has no others and no key twice. -/
theorem record?_obj {names : List String} {fs : Fields} (hnames : ∀ f ∈ fs, f.1 ∈ names)
    (hnodup : (fs.map (·.1)).Nodup) : (Json.obj fs).record? names = some fs := by
  have hknown : fs.filter (fun f => names.contains f.1) = fs :=
    List.filter_eq_self.2 fun f hf => List.contains_iff_mem.2 (hnames f hf)
  simp only [record?, hknown, hasRepeatedKey_eq_false hnodup, Bool.false_eq_true, if_false]

section

variable {α : Type} {name k : String} (j : Json) (fs : Fields) (read : Json → Option α)
  (default : α)

@[simp] theorem need_cons_self : Fields.need ((name, j) :: fs) name read = read j := by
  simp [Fields.need]

@[simp] theorem need_cons_of_ne (h : name ≠ k) :
    Fields.need ((k, j) :: fs) name read = Fields.need fs name read := by
  rw [Fields.need, Fields.need, List.lookup_cons, beq_false_of_ne h]

@[simp] theorem get_nil : Fields.get [] name read default = some default := rfl

@[simp] theorem get_cons_self : Fields.get ((name, j) :: fs) name read default = read j := by
  simp [Fields.get]

@[simp] theorem get_cons_of_ne (h : name ≠ k) :
    Fields.get ((k, j) :: fs) name read default = Fields.get fs name read default := by
  rw [Fields.get, Fields.get, List.lookup_cons, beq_false_of_ne h]

end

/-! ## Tidy values -/

/-- A value of well-formed literals and finite numbers, nested at most `k` deep. -/
structure Tidy (k : Nat) (j : Json) : Prop where
  wellFormed : j.WellFormed
  solid : j.solid = true
  nesting_le : j.nesting ≤ k

theorem Tidy.holdable {k depth : Nat} {j : Json} (h : j.Tidy k) (hk : depth + k ≤ maxNesting) :
    j.holdable depth = true := by
  have hle := h.nesting_le
  rw [Json.holdable, h.solid, Bool.true_and, decide_eq_true_eq]
  omega

section

variable {k : Nat}

theorem tidy_str (s : String) : (Json.str s).Tidy k := ⟨trivial, rfl, Nat.zero_le k⟩

theorem tidy_ofNat {n : Nat} (hn : n < 2 ^ 64) : (ofNat n).Tidy k := by
  obtain ⟨d, hd⟩ := Numeral.exists_toDouble?_ofNat hn
  refine ⟨Numeral.wellFormed_ofNat n, ?_, Nat.zero_le k⟩
  show (Numeral.ofNat n).toDouble?.isSome = true
  rw [hd]
  rfl

theorem tidy_ofDouble {d : Double} (h : d.ReadsBack) : (ofDouble d).Tidy k := by
  refine ⟨Numeral.wellFormed_ofDouble d, ?_, Nat.zero_le k⟩
  show (Numeral.ofDouble d).toDouble?.isSome = true
  rw [Double.readsBack_iff.1 h]
  rfl

theorem tidy_arr {es : List Json} (h : ∀ e ∈ es, e.Tidy k) : (Json.arr es).Tidy (k + 1) := by
  have helements : WellFormedElements es ∧ solidElements es = true ∧ nestingElements es ≤ k := by
    induction es with
    | nil => exact ⟨trivial, rfl, Nat.zero_le k⟩
    | cons e es ih =>
      have he := h e List.mem_cons_self
      obtain ⟨hwell, hsolid, hle⟩ := ih fun x hx => h x (List.mem_cons_of_mem _ hx)
      refine ⟨⟨he.wellFormed, hwell⟩, ?_, Nat.max_le.2 ⟨he.nesting_le, hle⟩⟩
      rw [solidElements, he.solid, hsolid]
      rfl
  obtain ⟨hwell, hsolid, hle⟩ := helements
  exact ⟨hwell, hsolid, Nat.add_le_add_right hle 1⟩

theorem tidy_obj {fs : List (String × Json)} (h : ∀ f ∈ fs, f.2.Tidy k) :
    (Json.obj fs).Tidy (k + 1) := by
  have hfields : WellFormedFields fs ∧ solidFields fs = true ∧ nestingFields fs ≤ k := by
    induction fs with
    | nil => exact ⟨trivial, rfl, Nat.zero_le k⟩
    | cons f fs ih =>
      have hf := h f List.mem_cons_self
      obtain ⟨hwell, hsolid, hle⟩ := ih fun x hx => h x (List.mem_cons_of_mem _ hx)
      refine ⟨⟨hf.wellFormed, hwell⟩, ?_, Nat.max_le.2 ⟨hf.nesting_le, hle⟩⟩
      rw [solidFields, hf.solid, hsolid]
      rfl
  obtain ⟨hwell, hsolid, hle⟩ := hfields
  exact ⟨hwell, hsolid, Nat.add_le_add_right hle 1⟩

theorem tidy_arr_map {α : Type} {write : α → Json} {xs : List α}
    (h : ∀ x ∈ xs, (write x).Tidy k) : (Json.arr (xs.map write)).Tidy (k + 1) := by
  refine tidy_arr fun e he => ?_
  obtain ⟨x, hx, rfl⟩ := List.mem_map.1 he
  exact h x hx

theorem tidy_ofNats {ns : List Nat} (hns : ∀ n ∈ ns, n < 2 ^ 64) : (ofNats ns).Tidy (k + 1) :=
  tidy_arr_map fun n hn => tidy_ofNat (hns n hn)

end

end Json

end IonTrap
