import IonTrap.Partition.LocalSearch
import IonTrap.Proofs.Number.Total
import IonTrap.Proofs.Outcome

/-!
# Weights of parts

The weight that a map from vertices to parts puts into a part is a sum over the vertices. It says
what the checks of a problem and of an assignment accept (`Hypergraph.validate_eq_ok_iff`,
`Hypergraph.checkAssignment_eq_ok_iff`) and how much one change of the map matters
(`Hypergraph.weightIn_update`). The check weighs parts in words, and sees their true weights if the
vertices are light (`Hypergraph.Light`).
-/

namespace IonTrap

namespace Hypergraph

variable {g : Hypergraph} {part part' : Nat → Option Nat}

/-- Weight of the vertices that a map puts into a part. -/
def weightIn (g : Hypergraph) (part : Nat → Option Nat) (p : Nat) : Nat :=
  ∑ v ∈ Finset.range g.numVertices, if part v = some p then g.weight v else 0

/-- The vertices together weigh less than a word can hold. -/
def Light (g : Hypergraph) : Prop := ∑ v ∈ Finset.range g.numVertices, g.weight v < wordSize

theorem Light.weightIn_lt (h : g.Light) (part : Nat → Option Nat) (p : Nat) :
    g.weightIn part p < wordSize := by
  refine Nat.lt_of_le_of_lt (Finset.sum_le_sum fun v _ => ?_) h
  split <;> omega

theorem Light.wrap_weightIn (h : g.Light) (part : Nat → Option Nat) (p : Nat) :
    wrap (g.weightIn part p) = g.weightIn part p := wrap_of_lt (h.weightIn_lt part p)

theorem light_of_unit (hone : ∀ v < g.numVertices, g.weight v = 1)
    (hn : g.numVertices < wordSize) : g.Light := by
  rw [Light, Finset.sum_congr rfl fun v hv => hone v (Finset.mem_range.1 hv), Finset.sum_const,
    Finset.card_range, smul_eq_mul, Nat.mul_one]
  exact hn

/-- Mapping one vertex anew takes its weight from one part to another. -/
theorem weightIn_update (part : Nat → Option Nat) {v : Nat} (hv : v < g.numVertices)
    (x : Option Nat) (p : Nat) :
    g.weightIn (Function.update part v x) p + (if part v = some p then g.weight v else 0) =
      g.weightIn part p + if x = some p then g.weight v else 0 := by
  have hmem : v ∈ Finset.range g.numVertices := Finset.mem_range.2 hv
  have hrest : (∑ u ∈ (Finset.range g.numVertices).erase v,
        if Function.update part v x u = some p then g.weight u else 0) =
      ∑ u ∈ (Finset.range g.numVertices).erase v, if part u = some p then g.weight u else 0 := by
    refine Finset.sum_congr rfl fun u hu => ?_
    rw [Function.update_of_ne (Finset.ne_of_mem_erase hu)]
  rw [weightIn, weightIn, ← Finset.add_sum_erase _ _ hmem, hrest, Function.update_self]
  rw [← Finset.add_sum_erase (Finset.range g.numVertices)
    (fun u => if part u = some p then g.weight u else 0) hmem]
  omega

theorem weightIn_congr {p : Nat} (h : ∀ v < g.numVertices, part v = part' v) :
    g.weightIn part p = g.weightIn part' p :=
  Finset.sum_congr rfl fun v hv => by rw [h v (Finset.mem_range.1 hv)]

theorem weight_le_weightIn {v p : Nat} (hv : v < g.numVertices) (hp : part v = some p) :
    g.weight v ≤ g.weightIn part p := by
  have hw := weightIn_update part hv none p
  rw [if_pos hp, if_neg (by simp)] at hw
  omega

/-- Vertices of different parts are different. -/
theorem ne_of_parts {a b pa pb : Nat} (hpa : part a = some pa) (hpb : part b = some pb)
    (hne : pa ≠ pb) : a ≠ b := by
  rintro rfl
  exact hne (Option.some.inj (hpa.symm.trans hpb))

/-- What an exchange of two vertices does to the weights of the parts. -/
theorem weightIn_exchange {a b pa pb : Nat} (ha : a < g.numVertices) (hb : b < g.numVertices)
    (hpa : part a = some pa) (hpb : part b = some pb) (hne : pa ≠ pb) :
    let exchanged := Function.update (Function.update part a (some pb)) b (some pa)
    g.weightIn exchanged pa = g.weightIn part pa - g.weight a + g.weight b ∧
      g.weightIn exchanged pb = g.weightIn part pb - g.weight b + g.weight a ∧
      ∀ r, r ≠ pa → r ≠ pb → g.weightIn exchanged r = g.weightIn part r := by
  dsimp only
  have hab : b ≠ a := ne_of_parts hpb hpa (Ne.symm hne)
  have hfirst := weightIn_update part ha (some pb)
  have hsecond := weightIn_update (Function.update part a (some pb)) hb (some pa)
  simp only [Function.update_of_ne hab, hpa, hpb, Option.some.injEq] at hfirst hsecond
  have hlea := weight_le_weightIn ha hpa
  have hleb := weight_le_weightIn hb hpb
  refine ⟨?_, ?_, fun r hra hrb => ?_⟩
  · have h₁ := hfirst pa
    have h₂ := hsecond pa
    simp only [if_true, Ne.symm hne, if_false] at h₁ h₂
    omega
  · have h₁ := hfirst pb
    have h₂ := hsecond pb
    simp only [if_true, hne, if_false] at h₁ h₂
    omega
  · have h₁ := hfirst r
    have h₂ := hsecond r
    simp only [Ne.symm hra, Ne.symm hrb, if_false] at h₁ h₂
    omega

theorem weightIn_le_of_imp {p : Nat} (h : ∀ v < g.numVertices, part v = some p → part' v = some p) :
    g.weightIn part p ≤ g.weightIn part' p := by
  refine Finset.sum_le_sum fun v hv => ?_
  by_cases hp : part v = some p
  · rw [if_pos hp, if_pos (h v (Finset.mem_range.1 hv) hp)]
  · rw [if_neg hp]
    exact Nat.zero_le _

/-- The parts together weigh what the mapped vertices weigh. -/
theorem sum_weightIn (h : ∀ v p, part v = some p → p < g.numParts) :
    ∑ p ∈ Finset.range g.numParts, g.weightIn part p =
      ∑ v ∈ Finset.range g.numVertices, if (part v).isSome then g.weight v else 0 := by
  simp only [weightIn]
  rw [Finset.sum_comm]
  refine Finset.sum_congr rfl fun v _ => ?_
  cases hp : part v with
  | none => simp
  | some r =>
    rw [Finset.sum_eq_single_of_mem r (Finset.mem_range.2 (h v r hp))]
    · simp
    · intro p _ hne
      rw [if_neg fun heq => hne (Option.some.inj heq).symm]

/-! ## Checks -/

theorem fixed_eq_some_iff {v p : Nat} :
    g.fixed v = some p ↔ ∃ x, g.vertices[v]? = some x ∧ x.fixed = some p := by
  rw [fixed, Option.bind_eq_some_iff]

/-- A problem is accepted if its pins are vertices and its fixed parts are parts. -/
theorem validate_eq_ok_iff :
    g.validate = .ok () ↔ (∀ e ∈ g.nets, ∀ v ∈ e.pins, v < g.numVertices) ∧
      ∀ v p, g.fixed v = some p → p < g.numParts := by
  have hpins : (g.nets.toList.flatMap (·.pins)).find? (g.numVertices ≤ ·) = none ↔
      ∀ e ∈ g.nets, ∀ v ∈ e.pins, v < g.numVertices := by
    simp only [List.find?_eq_none, List.mem_flatMap, Array.mem_toList_iff, decide_eq_true_eq,
      Nat.not_le, forall_exists_index, and_imp]
    exact ⟨fun h e he v hv => h v e he hv, fun h v e he hv => h e he v hv⟩
  have hparts : (g.vertices.toList.filterMap (·.fixed)).find? (g.numParts ≤ ·) = none ↔
      ∀ v p, g.fixed v = some p → p < g.numParts := by
    simp only [List.find?_eq_none, List.mem_filterMap, Array.mem_toList_iff, decide_eq_true_eq,
      Nat.not_le, forall_exists_index, and_imp, fixed_eq_some_iff]
    constructor
    · intro h v p x hx hp
      exact h p x (Array.mem_of_getElem? hx) hp
    · intro h p x hx hp
      obtain ⟨v, hv⟩ := Array.getElem?_of_mem hx
      exact h v p x hv hp
  rw [← hpins, ← hparts, validate]
  split
  · next h => simp [h]
  · next h =>
    split
    · next h' => simp [h']
    · next h' => simp [h, h']

theorem checkParts_eq_ok_iff {k : Nat} {parts : List Nat} :
    g.checkParts k parts = .ok () ↔ ∀ i p, parts[i]? = some p →
      p < g.numParts ∧ ∀ r, g.fixed (k + i) = some r → r = p := by
  induction parts generalizing k with
  | nil => simp [checkParts]
  | cons p parts ih =>
    have hfix : (g.fixed k).any (· != p) = true ↔ ¬ ∀ r, g.fixed k = some r → r = p := by
      simp [Option.any_eq_true]
    rw [checkParts]
    split
    · next hp =>
      refine ⟨by simp, fun h => ?_⟩
      have := (h 0 p rfl).1
      omega
    split
    · next hp hmoved =>
      refine ⟨by simp, fun h => ?_⟩
      exact absurd (h 0 p rfl).2 (hfix.1 hmoved)
    next hp hkept =>
    rw [hfix, not_not] at hkept
    rw [ih]
    constructor
    · intro h i r hi
      cases i with
      | zero =>
        obtain rfl : p = r := by simpa using hi
        exact ⟨Nat.lt_of_not_le hp, hkept⟩
      | succ i =>
        have := h i r (by simpa using hi)
        rwa [show k + (i + 1) = k + 1 + i by omega]
    · intro h i r hi
      have := h (i + 1) r (by simpa using hi)
      rwa [show k + 1 + i = k + (i + 1) by omega]

/-- The weight of a part, as it is checked, is the weight that the assignment puts there, as a
word. -/
theorem partWeight_eq {assignment : Assignment} (h : assignment.length = g.numVertices) (p : Nat) :
    g.partWeight assignment p = wrap (g.weightIn (fun v => assignment[v]?) p) := by
  have hsum : ∀ (parts : List Nat) (k : Nat),
      total (((parts.zipIdx k).filter (·.1 == p)).map fun v => g.weight v.2) =
        ∑ i ∈ Finset.range parts.length, if parts[i]? = some p then g.weight (k + i) else 0 := by
    intro parts
    induction parts with
    | nil => simp
    | cons r parts ih =>
      intro k
      rw [List.length_cons, Finset.sum_range_succ', List.zipIdx_cons, List.filter_cons]
      have hshift : ∀ i, k + 1 + i = k + (i + 1) := fun i => by omega
      have := ih (k + 1)
      simp only [hshift] at this
      by_cases hr : r = p
      · simp [hr, this, Nat.add_comm]
      · simp [hr, this]
  rw [partWeight, hsum, h, weightIn]
  simp only [Nat.zero_add]

/-- An assignment is accepted if it gives every vertex a part, fixed ones theirs, and fills no part
beyond its size, as far as words can tell. -/
theorem checkAssignment_eq_ok_iff {assignment : Assignment} :
    g.checkAssignment assignment = .ok () ↔ assignment.length = g.numVertices ∧
      (∀ v p, assignment[v]? = some p → p < g.numParts ∧ ∀ r, g.fixed v = some r → r = p) ∧
      ∀ p < g.numParts, wrap (g.weightIn (fun v => assignment[v]?) p) ≤ g.partSize p := by
  rw [checkAssignment]
  split
  · next hlen => exact ⟨by simp, fun h => absurd h.1 hlen⟩
  next hlen =>
  rw [not_not] at hlen
  have hparts := @checkParts_eq_ok_iff g 0 assignment
  simp only [Nat.zero_add] at hparts
  have hsizes : ((List.range g.numParts).find? fun p => g.partSize p < g.partWeight assignment p)
      = none ↔ ∀ p < g.numParts,
        wrap (g.weightIn (fun v => assignment[v]?) p) ≤ g.partSize p := by
    simp [List.find?_eq_none, partWeight_eq hlen]
  rw [← hparts, ← hsizes, bind_eq_ok_iff]
  constructor
  · rintro ⟨⟨⟩, hchecked, h⟩
    refine ⟨hlen, hchecked, ?_⟩
    split at h
    · simp at h
    · assumption
  · rintro ⟨-, hchecked, h⟩
    exact ⟨(), hchecked, by rw [h]⟩

end Hypergraph

end IonTrap
