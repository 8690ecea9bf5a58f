import IonTrap.Proofs.Partition.Assignment

/-!
# Local search finds admissible assignments

A search keeps the load of every part equal to the weight of the vertices in it, as a word
(`Search.Tracks`). Placing a vertex and moving one keep that, whether or not a part overflows for a
moment, so an exchange of two vertices needs no separate argument. A vertex that leaves a part makes
it lighter if vertices are light, so every answer then passes the check
(`LocalSearch.checkAssignment_of_partition`). Among vertices of weight one there is always a part
with room for the next, so an answer is found whenever the fixed vertices fit and the sizes suffice
(`LocalSearch.exists_partition`).
-/

namespace IonTrap

namespace Search

variable {g : Hypergraph} {s s' : Search} {v p : Nat}

/-- The search is about `g`, its loads are right, and fixed vertices are nowhere else. -/
structure Tracks (g : Hypergraph) (s : Search) : Prop where
  graph : s.graph = g
  size_part : s.part.size = g.numVertices
  size_load : s.load.size = g.numParts
  load : ∀ p, s.loadOf p = wrap (g.weightIn s.partOf p)
  part_lt : ∀ v p, s.partOf v = some p → p < g.numParts
  fixed : ∀ v p r, g.fixed v = some p → s.partOf v = some r → r = p

/-- The search is about `g` and its loads are right, wherever the vertices are. -/
structure Weighed (g : Hypergraph) (s : Search) : Prop where
  graph : s.graph = g
  size_part : s.part.size = g.numVertices
  size_load : s.load.size = g.numParts
  load : ∀ p, s.loadOf p = wrap (g.weightIn s.partOf p)
  part_lt : ∀ v p, s.partOf v = some p → p < g.numParts

theorem Tracks.weighed (h : s.Tracks g) : s.Weighed g :=
  ⟨h.graph, h.size_part, h.size_load, h.load, h.part_lt⟩

theorem Weighed.tracks (h : s.Weighed g)
    (hfixed : ∀ v p r, g.fixed v = some p → s.partOf v = some r → r = p) : s.Tracks g :=
  ⟨h.graph, h.size_part, h.size_load, h.load, h.part_lt, hfixed⟩

/-- The loads are right and no part is above its size. -/
structure Admissible (g : Hypergraph) (s : Search) : Prop extends Tracks g s where
  load_le : ∀ p, s.loadOf p ≤ g.partSize p

/-- Every vertex has a part, and no part is above its size. -/
structure Answers (g : Hypergraph) (s : Search) : Prop extends Admissible g s where
  placed : ∀ v < g.numVertices, (s.partOf v).isSome = true

theorem partOf_start (g : Hypergraph) (v : Nat) : (start g).partOf v = none := by
  rw [partOf, start, Array.getD_eq_getD_getElem?, Array.getElem?_replicate]
  split <;> rfl

theorem loadOf_start (g : Hypergraph) (p : Nat) : (start g).loadOf p = 0 := by
  rw [loadOf, start, Array.getD_eq_getD_getElem?, Array.getElem?_replicate]
  split <;> rfl

theorem admissible_start (g : Hypergraph) : (start g).Admissible g where
  graph := rfl
  size_part := Array.size_replicate
  size_load := Array.size_replicate
  load p := by simp [loadOf_start, Hypergraph.weightIn, partOf_start]
  part_lt v p h := by simp [partOf_start] at h
  fixed v p r _ h := by simp [partOf_start] at h
  load_le p := by simp [loadOf_start]

/-! ## One change -/

theorem getD_setIfInBounds (parts : Array (Option Nat)) (hv : v < parts.size) (x : Option Nat) :
    (fun u => (parts.setIfInBounds v x).getD u none) =
      Function.update (fun u => parts.getD u none) v x := by
  funext u
  rw [Array.getD_eq_getD_getElem?, Array.getElem?_setIfInBounds]
  by_cases hu : v = u
  · subst hu
    simp [hv]
  · rw [if_neg hu, Function.update_of_ne (Ne.symm hu), Array.getD_eq_getD_getElem?]

theorem getD_modify (loads : Array Nat) (hp : p < loads.size) (f : Nat → Nat) (r : Nat) :
    (loads.modify p f).getD r 0 = if p = r then f (loads.getD r 0) else loads.getD r 0 := by
  rw [Array.getD_eq_getD_getElem?, Array.getElem?_modify]
  split_ifs with hr
  · subst hr
    simp [hp]
  · rw [Array.getD_eq_getD_getElem?]

theorem partOf_assign (hv : v < s.part.size) :
    (s.assign v p).partOf = Function.update s.partOf v (some p) :=
  getD_setIfInBounds s.part hv (some p)

theorem partOf_unassign (hv : v < s.part.size) :
    (s.unassign v p).partOf = Function.update s.partOf v none :=
  getD_setIfInBounds s.part hv none

theorem loadOf_assign (hp : p < s.load.size) (r : Nat) :
    (s.assign v p).loadOf r = if p = r then wrap (s.loadOf r + s.graph.weight v) else s.loadOf r :=
  getD_modify s.load hp (fun load => wrap (load + s.graph.weight v)) r

theorem loadOf_unassign (hp : p < s.load.size) (r : Nat) :
    (s.unassign v p).loadOf r
      = if p = r then wrapSub (s.loadOf r) (s.graph.weight v) else s.loadOf r :=
  getD_modify s.load hp (fun load => wrapSub load (s.graph.weight v)) r

/-- Whether a vertex fits is told from the true weight, as a word. -/
theorem Weighed.hasRoom_iff (h : s.Weighed g) (v p : Nat) :
    s.hasRoom v p = true ↔ wrap (g.weightIn s.partOf p + g.weight v) ≤ g.partSize p := by
  rw [hasRoom, decide_eq_true_eq, h.graph, h.load, wrap_wrap_add]

section Weighed

variable (h : s.Weighed g) (hv : v < g.numVertices)
include h hv

/-- The load of a part that one vertex leaves and another may enter. -/
theorem Weighed.load_exchange (hp : s.partOf v = some p) (n : Nat) :
    wrap (wrapSub (s.loadOf p) (g.weight v) + n)
      = wrap (g.weightIn s.partOf p - g.weight v + n) := by
  rw [h.load, wrapSub_wrap (Hypergraph.weight_le_weightIn hv hp), wrap_wrap_add]

theorem Weighed.assign (hp : p < g.numParts) (hnone : s.partOf v = none) :
    (s.assign v p).Weighed g := by
  have hpart := partOf_assign (p := p) (h.size_part ▸ hv)
  refine ⟨h.graph, ?_, ?_, fun r => ?_, fun u r hu => ?_⟩
  · rw [Search.assign, Array.size_setIfInBounds, h.size_part]
  · rw [Search.assign, Array.size_modify, h.size_load]
  · have hw := Hypergraph.weightIn_update s.partOf hv (some p) r
    simp only [hnone, reduceCtorEq, if_false, Nat.add_zero, Option.some.injEq] at hw
    rw [loadOf_assign (h.size_load ▸ hp), hpart, hw, h.load, h.graph, wrap_wrap_add]
    split_ifs <;> rfl
  · rw [hpart] at hu
    by_cases huv : u = v
    · subst huv
      rw [Function.update_self] at hu
      exact Option.some.inj hu ▸ hp
    · rw [Function.update_of_ne huv] at hu
      exact h.part_lt u r hu

theorem Weighed.partOf_of_unassign {u r : Nat} (hu : (s.unassign v p).partOf u = some r) :
    s.partOf u = some r := by
  rw [partOf_unassign (h.size_part ▸ hv)] at hu
  by_cases huv : u = v
  · subst huv
    simp at hu
  · rwa [Function.update_of_ne huv] at hu

theorem Weighed.unassign (hp : s.partOf v = some p) : (s.unassign v p).Weighed g := by
  have hpart := partOf_unassign (p := p) (h.size_part ▸ hv)
  refine ⟨h.graph, ?_, ?_, fun r => ?_, fun u r hu => h.part_lt u r (h.partOf_of_unassign hv hu)⟩
  · rw [Search.unassign, Array.size_setIfInBounds, h.size_part]
  · rw [Search.unassign, Array.size_modify, h.size_load]
  · have hw := Hypergraph.weightIn_update s.partOf hv none r
    simp only [hp, reduceCtorEq, if_false, Nat.add_zero, Option.some.injEq] at hw
    rw [loadOf_unassign (h.size_load ▸ h.part_lt v p hp), hpart, h.load, h.graph]
    split_ifs at hw ⊢ with hr
    · subst hr
      rw [wrapSub_wrap (Hypergraph.weight_le_weightIn hv hp)]
      congr 1
      omega
    · rw [← hw, Nat.add_zero]

theorem Weighed.partOf_shift (hp : s.partOf v = some p) (target : Nat) :
    (s.shift v p target).partOf = Function.update s.partOf v (some target) := by
  have hout := h.unassign hv hp
  rw [Search.shift, partOf_assign (hout.size_part ▸ hv), partOf_unassign (h.size_part ▸ hv),
    Function.update_idem]

end Weighed

theorem Tracks.assign (h : s.Tracks g) (hv : v < g.numVertices) (hp : p < g.numParts)
    (hnone : s.partOf v = none) (hfix : ∀ r, g.fixed v = some r → p = r) :
    (s.assign v p).Tracks g := by
  refine (h.weighed.assign hv hp hnone).tracks fun u q r hq hu => ?_
  rw [partOf_assign (h.size_part ▸ hv)] at hu
  by_cases huv : u = v
  · subst huv
    rw [Function.update_self] at hu
    exact Option.some.inj hu ▸ hfix q hq
  · rw [Function.update_of_ne huv] at hu
    exact h.fixed u q r hq hu

theorem Tracks.unassign (h : s.Tracks g) (hv : v < g.numVertices) (hp : s.partOf v = some p) :
    (s.unassign v p).Tracks g :=
  (h.weighed.unassign hv hp).tracks fun u q r hq hu =>
    h.fixed u q r hq (h.weighed.partOf_of_unassign hv hu)

/-- A free vertex may go from its part to any other. -/
theorem Tracks.shift (h : s.Tracks g) (hv : v < g.numVertices) (hfree : g.fixed v = none)
    (hp : s.partOf v = some p) {target : Nat} (ht : target < g.numParts) :
    (s.shift v p target).Tracks g ∧
      (s.shift v p target).partOf = Function.update s.partOf v (some target) := by
  have hout := h.unassign hv hp
  have hpart := partOf_unassign (p := p) (h.size_part ▸ hv)
  exact ⟨hout.assign hv ht (by rw [hpart, Function.update_self]) (by simp [hfree]),
    h.weighed.partOf_shift hv hp target⟩

/-- A vertex that has room is admitted. -/
theorem Admissible.assign (h : s.Admissible g) (hv : v < g.numVertices) (hp : p < g.numParts)
    (hnone : s.partOf v = none) (hfix : ∀ r, g.fixed v = some r → p = r)
    (hroom : s.hasRoom v p = true) : (s.assign v p).Admissible g := by
  refine ⟨h.toTracks.assign hv hp hnone hfix, fun r => ?_⟩
  rw [loadOf_assign (h.size_load ▸ hp)]
  have hle := h.load_le r
  rw [hasRoom, decide_eq_true_eq, h.graph] at hroom
  split_ifs with hr
  · subst hr
    rwa [h.graph]
  · exact hle

/-! ## First placement -/

/-- Placing the first of some unplaced vertices leaves the others unplaced. -/
theorem Weighed.partOf_assign_eq_none {vs : List Nat} (h : s.Weighed g) (hv : v < g.numVertices)
    (hnew : v ∉ vs) (hnone : ∀ u ∈ v :: vs, s.partOf u = none) :
    ∀ u ∈ vs, (s.assign v p).partOf u = none := by
  intro u hu
  have huv : u ≠ v := fun huv => hnew (huv ▸ hu)
  rw [partOf_assign (h.size_part ▸ hv), Function.update_of_ne huv]
  exact hnone u (List.mem_cons_of_mem _ hu)

/-- A placement of the fixed vertices puts exactly those into their parts. -/
theorem placeFixed_spec (hg : ∀ v p, g.fixed v = some p → p < g.numParts) {vs : List Nat}
    (h : s.Admissible g) (hnodup : vs.Nodup) (hvs : ∀ v ∈ vs, v < g.numVertices)
    (hnone : ∀ v ∈ vs, s.partOf v = none) (hs' : s.placeFixed vs = .ok s') :
    s'.Admissible g ∧ ∀ v, s'.partOf v = if v ∈ vs then g.fixed v else s.partOf v := by
  induction vs generalizing s with
  | nil =>
    obtain rfl := Except.ok.inj hs'
    exact ⟨h, by simp⟩
  | cons v vs ih =>
    rw [List.nodup_cons] at hnodup
    have hv := hvs v List.mem_cons_self
    rw [placeFixed, h.graph] at hs'
    split at hs'
    · next hfree =>
      obtain ⟨hadm, hpart⟩ := ih h hnodup.2 (fun u hu => hvs u (List.mem_cons_of_mem _ hu))
        (fun u hu => hnone u (List.mem_cons_of_mem _ hu)) hs'
      refine ⟨hadm, fun u => ?_⟩
      rw [hpart]
      by_cases huv : u = v
      · subst huv
        simp [hnodup.1, hfree, hnone u List.mem_cons_self]
      · simp [huv]
    · next p hfix =>
      split at hs'
      · next hroom =>
        have hassign := h.assign hv (hg v p hfix) (hnone v List.mem_cons_self)
          (fun r hr => Option.some.inj (hfix ▸ hr)) hroom
        have hupdate := partOf_assign (p := p) (h.size_part ▸ hv)
        obtain ⟨hadm, hpart⟩ := ih hassign hnodup.2
          (fun u hu => hvs u (List.mem_cons_of_mem _ hu))
          (h.weighed.partOf_assign_eq_none hv hnodup.1 hnone) hs'
        refine ⟨hadm, fun u => ?_⟩
        rw [hpart, hupdate]
        by_cases huv : u = v
        · subst huv
          simp [hnodup.1, hfix]
        · simp [huv]
      · simp at hs'

/-- Fixed vertices that fit are placed. -/
theorem exists_placeFixed (hg : ∀ v p, g.fixed v = some p → p < g.numParts)
    (hfit : ∀ p, g.weightIn g.fixed p ≤ g.partSize p) {vs : List Nat} (h : s.Admissible g)
    (honly : ∀ v p, s.partOf v = some p → g.fixed v = some p)
    (hnodup : vs.Nodup) (hvs : ∀ v ∈ vs, v < g.numVertices) (hnone : ∀ v ∈ vs, s.partOf v = none) :
    ∃ s', s.placeFixed vs = .ok s' := by
  induction vs generalizing s with
  | nil => exact ⟨s, rfl⟩
  | cons v vs ih =>
    rw [List.nodup_cons] at hnodup
    have hv := hvs v List.mem_cons_self
    have hvs' : ∀ u ∈ vs, u < g.numVertices := fun u hu => hvs u (List.mem_cons_of_mem _ hu)
    rw [placeFixed, h.graph]
    split
    · exact ih h honly hnodup.2 hvs' fun u hu => hnone u (List.mem_cons_of_mem _ hu)
    · next p hfix =>
      have hupdate := partOf_assign (p := p) (h.size_part ▸ hv)
      have honly' : ∀ u r, (s.assign v p).partOf u = some r → g.fixed u = some r := by
        intro u r hu
        rw [hupdate] at hu
        by_cases huv : u = v
        · subst huv
          rwa [Function.update_self, ← hfix] at hu
        · rw [Function.update_of_ne huv] at hu
          exact honly u r hu
      -- the part holds fixed vertices only, which fit together with this one
      have hroom : s.hasRoom v p = true := by
        have hw := Hypergraph.weightIn_update s.partOf hv (some p) p
        have hle : g.weightIn (Function.update s.partOf v (some p)) p ≤ g.weightIn g.fixed p :=
          Hypergraph.weightIn_le_of_imp fun u _ hu => honly' u p (hupdate ▸ hu)
        simp only [hnone v List.mem_cons_self, reduceCtorEq, if_false, Nat.add_zero, if_true] at hw
        have hsize := hfit p
        rw [h.weighed.hasRoom_iff, ← hw]
        exact (wrap_le _).trans (hle.trans hsize)
      rw [if_pos hroom]
      have hassign := h.assign hv (hg v p hfix) (hnone v List.mem_cons_self)
        (fun r hr => Option.some.inj (hfix ▸ hr)) hroom
      exact ih hassign honly' hnodup.2 hvs' (h.weighed.partOf_assign_eq_none hv hnodup.1 hnone)

/-- The free vertices come in some order, each once. -/
theorem perm_freeOrder (s : Search) (seed : Nat) :
    (s.freeOrder seed).Perm
      ((List.range s.graph.numVertices).filter fun v => (s.graph.fixed v).isNone) := by
  exact (perm_untag_mergeSort (fun _ => rfl) _).trans (perm_shuffle seed _)

theorem mem_freeOrder_iff {seed : Nat} :
    v ∈ s.freeOrder seed ↔ v < s.graph.numVertices ∧ s.graph.fixed v = none := by
  rw [(perm_freeOrder s seed).mem_iff, List.mem_filter, List.mem_range, Option.isNone_iff_eq_none]

theorem nodup_freeOrder (s : Search) (seed : Nat) : (s.freeOrder seed).Nodup :=
  (perm_freeOrder s seed).nodup_iff.2 (List.nodup_range.filter _)

/-- The most appealing part is one with room, if there is one. -/
theorem mostAppealing?_cases (s : Search) (v : Nat) :
    (s.mostAppealing? v = none ∧ ∀ p < s.graph.numParts, s.hasRoom v p = false) ∨
      ∃ p < s.graph.numParts, s.hasRoom v p = true ∧ s.mostAppealing? v = some p := by
  have hmem : ∀ p, p ∈ (List.range s.graph.numParts).filter (s.hasRoom v) ↔
      p < s.graph.numParts ∧ s.hasRoom v p = true := by
    simp
  -- a part is taken if it beats the best one so far, the first one in any case
  have hchoice : ∀ (best : Option (Nat × (Nat × Nat))) (p : Nat),
      (if best.all fun b => beats (s.appeal v p) b.2 then some (p, s.appeal v p) else best) = best ∨
      ∃ x, (if best.all fun b => beats (s.appeal v p) b.2 then some (p, s.appeal v p) else best)
        = some x ∧ x.1 = p := by
    intro best p
    split
    · exact .inr ⟨_, rfl, rfl⟩
    · exact .inl rfl
  rw [mostAppealing?]
  rcases foldl_choice hchoice ((List.range s.graph.numParts).filter (s.hasRoom v)) none with
    hnone | ⟨p, hp, x, hx, rfl⟩
  · left
    refine ⟨by rw [hnone, Option.map_none], fun p hp => ?_⟩
    by_contra hroom
    rw [Bool.not_eq_false] at hroom
    obtain ⟨x, hx⟩ := exists_foldl_choice hchoice ((hmem p).2 ⟨hp, hroom⟩) fun best => by
      split_ifs with hbest
      · simp
      · rintro rfl
        simp at hbest
    rw [hnone] at hx
    simp at hx
  · exact .inr ⟨x.1, ((hmem x.1).1 hp).1, ((hmem x.1).1 hp).2, by rw [hx, Option.map_some]⟩

/-- One vertex finds its part, if there is room anywhere. -/
theorem Admissible.assign_mostAppealing (h : s.Admissible g) (hv : v < g.numVertices)
    (hnone : s.partOf v = none) (hfree : g.fixed v = none) (hp : s.mostAppealing? v = some p) :
    (s.assign v p).Admissible g ∧
      (s.assign v p).partOf = Function.update s.partOf v (some p) := by
  rcases mostAppealing?_cases s v with ⟨hno, -⟩ | ⟨r, hlt, hroom, hr⟩
  · simp [hno] at hp
  · obtain rfl := Option.some.inj (hr.symm.trans hp)
    refine ⟨h.assign hv (h.graph ▸ hlt) hnone (by simp [hfree]) hroom, ?_⟩
    exact partOf_assign (h.size_part ▸ hv)

/-- Greedy placement gives the listed vertices a part and leaves the others. -/
theorem placeGreedy_spec {vs : List Nat} (h : s.Admissible g) (hnodup : vs.Nodup)
    (hvs : ∀ v ∈ vs, v < g.numVertices ∧ g.fixed v = none) (hnone : ∀ v ∈ vs, s.partOf v = none)
    (hs' : s.placeGreedy vs = .ok s') :
    s'.Admissible g ∧ ∀ v, v ∈ vs ∨ (s.partOf v).isSome = true → (s'.partOf v).isSome = true := by
  induction vs generalizing s with
  | nil =>
    obtain rfl := Except.ok.inj hs'
    exact ⟨h, by simp⟩
  | cons v vs ih =>
    rw [List.nodup_cons] at hnodup
    rw [placeGreedy] at hs'
    split at hs'
    · next p hp =>
      obtain ⟨hv, hfree⟩ := hvs v List.mem_cons_self
      obtain ⟨hassign, hupdate⟩ := h.assign_mostAppealing hv (hnone v List.mem_cons_self) hfree hp
      obtain ⟨hadm, hplaced⟩ := ih hassign hnodup.2
        (fun u hu => hvs u (List.mem_cons_of_mem _ hu))
        (h.weighed.partOf_assign_eq_none hv hnodup.1 hnone) hs'
      refine ⟨hadm, fun u hu => hplaced u ?_⟩
      rw [hupdate]
      by_cases huv : u = v
      · subst huv
        simp
      · rw [Function.update_of_ne huv]
        rwa [List.mem_cons, or_iff_right huv] at hu
    · simp at hs'

/-- Among vertices of weight one, a vertex without a part has room somewhere. -/
theorem Admissible.exists_room (h : s.Admissible g) (hone : ∀ v < g.numVertices, g.weight v = 1)
    (hsum : g.numVertices ≤ ∑ p ∈ Finset.range g.numParts, g.partSize p)
    (hv : v < g.numVertices) (hnone : s.partOf v = none) :
    ∃ p < g.numParts, s.hasRoom v p = true := by
  by_contra hfull
  push Not at hfull
  -- all parts are full, so the placed vertices are as many as all
  have hsizes : ∑ p ∈ Finset.range g.numParts, g.partSize p ≤
      ∑ p ∈ Finset.range g.numParts, g.weightIn s.partOf p := by
    refine Finset.sum_le_sum fun p hp => ?_
    have hno := hfull p (Finset.mem_range.1 hp)
    rw [ne_eq, h.weighed.hasRoom_iff, hone v hv] at hno
    have hword := wrap_le (g.weightIn s.partOf p + 1)
    omega
  rw [Hypergraph.sum_weightIn h.part_lt] at hsizes
  have hfewer : (∑ u ∈ Finset.range g.numVertices,
      if (s.partOf u).isSome then g.weight u else 0) < ∑ u ∈ Finset.range g.numVertices, 1 := by
    refine Finset.sum_lt_sum (fun u hu => ?_) ⟨v, Finset.mem_range.2 hv, by simp [hnone]⟩
    rw [hone u (Finset.mem_range.1 hu)]
    split <;> omega
  rw [Finset.sum_const, Finset.card_range, smul_eq_mul, Nat.mul_one] at hfewer
  omega

/-- Vertices of weight one are placed if the sizes suffice. -/
theorem exists_placeGreedy (hone : ∀ v < g.numVertices, g.weight v = 1)
    (hsum : g.numVertices ≤ ∑ p ∈ Finset.range g.numParts, g.partSize p) {vs : List Nat}
    (h : s.Admissible g) (hnodup : vs.Nodup) (hvs : ∀ v ∈ vs, v < g.numVertices ∧ g.fixed v = none)
    (hnone : ∀ v ∈ vs, s.partOf v = none) : ∃ s', s.placeGreedy vs = .ok s' := by
  induction vs generalizing s with
  | nil => exact ⟨s, rfl⟩
  | cons v vs ih =>
    rw [List.nodup_cons] at hnodup
    obtain ⟨hv, hfree⟩ := hvs v List.mem_cons_self
    have hfirst := hnone v List.mem_cons_self
    rcases mostAppealing?_cases s v with ⟨-, hno⟩ | ⟨p, -, -, hp⟩
    · obtain ⟨p, hlt, hroom⟩ := h.exists_room hone hsum hv hfirst
      rw [hno p (h.graph ▸ hlt)] at hroom
      simp at hroom
    · obtain ⟨hassign, -⟩ := h.assign_mostAppealing hv hfirst hfree hp
      rw [placeGreedy, hp]
      exact ih hassign hnodup.2 (fun u hu => hvs u (List.mem_cons_of_mem _ hu))
        (h.weighed.partOf_assign_eq_none hv hnodup.1 hnone)

/-! ## Refinement -/

theorem bestMove?_spec {source target : Nat} {d : Int}
    (h : s.bestMove? v source = some (d, target)) :
    target < s.graph.numParts ∧ target ≠ source ∧ s.hasRoom v target = true ∧
      d = s.moveDelta v target := by
  have hchoice : ∀ (best : Option (Int × Nat)) (p : Nat),
      (if best.all fun b => s.moveDelta v p < b.1 then some (s.moveDelta v p, p) else best) = best ∨
      ∃ x, (if best.all fun b => s.moveDelta v p < b.1 then some (s.moveDelta v p, p) else best)
        = some x ∧ x = (s.moveDelta v p, p) := by
    intro best p
    split
    · exact .inr ⟨_, rfl, rfl⟩
    · exact .inl rfl
  rw [bestMove?] at h
  rcases foldl_choice hchoice ((List.range s.graph.numParts).filter fun p =>
      p != source && s.hasRoom v p) none with hnone | ⟨p, hp, x, hx, rfl⟩
  · simp [hnone] at h
  · obtain ⟨rfl, rfl⟩ := Prod.mk.inj (Option.some.inj (hx.symm.trans h))
    simpa using hp

/-- Moving a placed vertex leaves all vertices placed. -/
theorem isSome_update {part : Nat → Option Nat} {n : Nat}
    (h : ∀ u < n, (part u).isSome = true) (v p : Nat) :
    ∀ u < n, (Function.update part v (some p) u).isSome = true := by
  intro u hu
  by_cases huv : u = v
  · subst huv
    simp
  · rw [Function.update_of_ne huv]
    exact h u hu

/-- A move that is made goes to a part with room and was reckoned to pay. -/
theorem tryMove?_eq_some (h : s.tryMove? v = some s') : ∃ source target,
    s.partOf v = some source ∧ target < s.graph.numParts ∧ target ≠ source ∧
      s.hasRoom v target = true ∧ s.moveDelta v target < 0 ∧ s' = s.shift v source target := by
  unfold tryMove? at h
  split at h
  · simp at h
  next source hsource =>
  split at h
  · next d target hbest =>
    obtain ⟨hlt, hne, hroom, rfl⟩ := bestMove?_spec hbest
    split at h
    · next hneg =>
      exact ⟨source, target, hsource, hlt, hne, hroom, hneg, (Option.some.inj h).symm⟩
    · simp at h
  · simp at h

theorem Answers.tryMove (hlight : g.Light) (h : s.Answers g) (hv : v < g.numVertices)
    (hfree : g.fixed v = none) (hs' : s.tryMove? v = some s') : s'.Answers g := by
  obtain ⟨source, target, hsource, hlt, hne, hroom, -, rfl⟩ := tryMove?_eq_some hs'
  rw [h.graph] at hlt
  obtain ⟨htracks, hpart⟩ := h.toTracks.shift hv hfree hsource hlt
  refine ⟨⟨htracks, fun r => ?_⟩, hpart ▸ isSome_update h.placed v target⟩
  have hw := Hypergraph.weightIn_update s.partOf hv (some target) r
  have hle := h.load_le r
  rw [htracks.load, hpart, hlight.wrap_weightIn]
  rw [h.load, hlight.wrap_weightIn] at hle
  simp only [Option.some.injEq] at hw
  -- only the target has gained, and it was seen to have room
  split_ifs at hw with hsr htr htr
  · omega
  · omega
  · subst htr
    rw [h.weighed.hasRoom_iff, ← hw, Nat.add_zero, hlight.wrap_weightIn] at hroom
    exact hroom
  · omega

/-- An exchange that is made keeps both parts within their sizes and was reckoned to pay. -/
theorem trySwap?_eq_some {a b : Nat} (h : s.trySwap? a b = some s') : ∃ pa pb,
    s.partOf a = some pa ∧ s.partOf b = some pb ∧ pa ≠ pb ∧
      wrap (wrapSub (s.loadOf pa) (s.graph.weight a) + s.graph.weight b) ≤ s.graph.partSize pa ∧
      wrap (wrapSub (s.loadOf pb) (s.graph.weight b) + s.graph.weight a) ≤ s.graph.partSize pb ∧
      wrapInt (s.moveDelta a pb + (s.shift a pa pb).moveDelta b pa) < 0 ∧
      s' = (s.shift a pa pb).shift b pb pa := by
  unfold trySwap? at h
  split at h
  · next pa pb hpa hpb =>
    dsimp only at h
    split_ifs at h with hsizes hneg
    simp only [not_or, Nat.not_lt] at hsizes
    obtain ⟨hne, hlea, hleb⟩ := hsizes
    exact ⟨pa, pb, hpa, hpb, hne, hlea, hleb, hneg, (Option.some.inj h).symm⟩
  · simp at h

/-- An exchange may overfill a part for a moment; in the end both parts are within their sizes. -/
theorem Answers.trySwap (h : s.Answers g) {a b : Nat} (ha : a < g.numVertices)
    (hb : b < g.numVertices) (hfreea : g.fixed a = none) (hfreeb : g.fixed b = none)
    (hs' : s.trySwap? a b = some s') : s'.Answers g := by
  obtain ⟨pa, pb, hpa, hpb, hne, hlea, hleb, -, rfl⟩ := trySwap?_eq_some hs'
  have hab : b ≠ a := Hypergraph.ne_of_parts hpb hpa (Ne.symm hne)
  -- in between, the part of `b` holds both and may be above its size
  obtain ⟨hmid, hmidpart⟩ := h.toTracks.shift ha hfreea hpa (h.part_lt b pb hpb)
  have hpb' : (s.shift a pa pb).partOf b = some pb := by
    rw [hmidpart, Function.update_of_ne hab, hpb]
  obtain ⟨hend, hendpart⟩ := hmid.shift hb hfreeb hpb' (h.part_lt a pa hpa)
  rw [hmidpart] at hendpart
  refine ⟨⟨hend, fun r => ?_⟩, ?_⟩
  · obtain ⟨hwa, hwb, hrest⟩ := Hypergraph.weightIn_exchange ha hb hpa hpb hne
    rw [hend.load, hendpart]
    by_cases hra : r = pa
    · subst hra
      rw [h.graph, h.weighed.load_exchange ha hpa] at hlea
      rwa [hwa]
    by_cases hrb : r = pb
    · subst hrb
      rw [h.graph, h.weighed.load_exchange hb hpb] at hleb
      rwa [hwb]
    rw [hrest r hra hrb, ← h.load]
    exact h.load_le r
  · rw [hendpart]
    exact isSome_update (isSome_update h.placed a pb) b pa

theorem Answers.take {pass : Pass} {next : Option Search} (h : pass.1.Answers g)
    (hnext : ∀ s', next = some s' → s'.Answers g) : (Pass.take pass next).1.Answers g := by
  unfold Pass.take
  split
  · next s' => exact hnext s' rfl
  · exact h

section Refine

variable {order : List Nat} (horder : ∀ v ∈ order, v < g.numVertices ∧ g.fixed v = none)
include horder

theorem Answers.moveAll (hlight : g.Light) {pass : Pass} (h : pass.1.Answers g) :
    (moveAll order pass).1.Answers g := by
  unfold Search.moveAll
  induction order generalizing pass with
  | nil => exact h
  | cons v vs ih =>
    obtain ⟨hv, hfree⟩ := horder v List.mem_cons_self
    rw [List.foldl_cons]
    exact ih (fun u hu => horder u (List.mem_cons_of_mem _ hu))
      (h.take fun s' hs' => h.tryMove hlight hv hfree hs')

theorem Answers.swapAll {pass : Pass} (h : pass.1.Answers g) :
    (swapAll order pass).1.Answers g := by
  have hwith : ∀ (a : Nat), a < g.numVertices → g.fixed a = none → ∀ (vs : List Nat),
      (∀ v ∈ vs, v < g.numVertices ∧ g.fixed v = none) → ∀ pass : Pass, pass.1.Answers g →
        (vs.foldl (fun s b => Pass.take s (s.1.trySwap? a b)) pass).1.Answers g := by
    intro a ha hfree vs
    induction vs with
    | nil => exact fun _ _ h => h
    | cons b vs ih =>
      intro hvs pass hpass
      obtain ⟨hb, hfreeb⟩ := hvs b List.mem_cons_self
      rw [List.foldl_cons]
      exact ih (fun u hu => hvs u (List.mem_cons_of_mem _ hu)) _
        (hpass.take fun s' hs' => hpass.trySwap ha hb hfree hfreeb hs')
  induction order generalizing pass with
  | nil => exact h
  | cons a vs ih =>
    obtain ⟨ha, hfree⟩ := horder a List.mem_cons_self
    have hvs : ∀ v ∈ vs, v < g.numVertices ∧ g.fixed v = none :=
      fun u hu => horder u (List.mem_cons_of_mem _ hu)
    rw [Search.swapAll]
    split
    · exact ih hvs h
    · exact ih hvs (hwith a ha hfree vs hvs pass h)

theorem Answers.refineUpTo (hlight : g.Light) (n : Nat) (h : s.Answers g) :
    (refineUpTo order n s).Answers g := by
  induction n generalizing s with
  | zero => exact h
  | succ n ih =>
    have hfirst : ((s, false) : Pass).1.Answers g := h
    have hpass : (s.refine order).1.Answers g :=
      Answers.swapAll horder (Answers.moveAll horder hlight hfirst)
    rw [Search.refineUpTo]
    split
    · next s' hs' =>
      rw [hs'] at hpass
      exact ih hpass
    · next s' hs' =>
      rw [hs'] at hpass
      exact hpass

end Refine

/-! ## The answer -/

theorem Weighed.length_assignment (h : s.Weighed g) : s.assignment.length = g.numVertices := by
  simp [assignment, h.size_part]

theorem Weighed.getElem?_assignment (h : s.Weighed g) (hv : v < g.numVertices)
    (hsome : (s.partOf v).isSome = true) : s.assignment[v]? = s.partOf v := by
  rw [← h.size_part] at hv
  rw [partOf, Array.getD_eq_getD_getElem?, Array.getElem?_eq_getElem hv] at hsome ⊢
  obtain ⟨p, hp⟩ := Option.isSome_iff_exists.1 hsome
  rw [Option.getD_some] at hp ⊢
  simp [assignment, hv, hp]

theorem Answers.getElem?_assignment (h : s.Answers g) (hv : v < g.numVertices) :
    s.assignment[v]? = s.partOf v := h.weighed.getElem?_assignment hv (h.placed v hv)

/-- A finished search reads off as an assignment that passes the check. -/
theorem Answers.checkAssignment (h : s.Answers g) :
    g.checkAssignment s.assignment = .ok () := by
  have hlen := h.weighed.length_assignment
  refine Hypergraph.checkAssignment_eq_ok_iff.2 ⟨hlen, fun v p hp => ?_, fun p _ => ?_⟩
  · have hv : v < g.numVertices := hlen ▸ (List.getElem?_eq_some_iff.1 hp).1
    rw [h.getElem?_assignment hv] at hp
    exact ⟨h.part_lt v p hp, fun r hr => (h.fixed v r p hr hp).symm⟩
  · have hle := h.load_le p
    rw [h.load] at hle
    rwa [Hypergraph.weightIn_congr fun v hv => h.getElem?_assignment hv]

end Search

namespace LocalSearch

variable {l : LocalSearch} {g : Hypergraph}

open Search

/-- Once the fixed vertices are placed, exactly the others are left to be placed. -/
theorem order_of_placeFixed (hvalid : g.validate = .ok ()) {s : Search}
    (hs : (start g).placeFixed (List.range g.numVertices) = .ok s) (seed : Nat) :
    s.Admissible g ∧ (∀ v < g.numVertices, s.partOf v = g.fixed v) ∧
      (∀ v ∈ s.freeOrder seed, v < g.numVertices ∧ g.fixed v = none) ∧
      ∀ v ∈ s.freeOrder seed, s.partOf v = none := by
  have hvs : ∀ v ∈ List.range g.numVertices, v < g.numVertices := fun v => List.mem_range.1
  obtain ⟨hadm, hpart⟩ := placeFixed_spec (Hypergraph.validate_eq_ok_iff.1 hvalid).2
    (admissible_start g) List.nodup_range hvs (fun v _ => partOf_start g v) hs
  have hfixed : ∀ v < g.numVertices, s.partOf v = g.fixed v := fun v hv => by
    rw [hpart, if_pos (List.mem_range.2 hv)]
  have horder : ∀ v ∈ s.freeOrder seed, v < g.numVertices ∧ g.fixed v = none := by
    intro v hv
    rwa [mem_freeOrder_iff, hadm.graph] at hv
  refine ⟨hadm, hfixed, horder, fun v hv => ?_⟩
  rw [hfixed v (horder v hv).1, (horder v hv).2]

/-- Greedy placement leaves no vertex without a part. -/
theorem answers_of_placeGreedy (hvalid : g.validate = .ok ()) {s s' : Search} {seed : Nat}
    (hs : (start g).placeFixed (List.range g.numVertices) = .ok s)
    (hs' : s.placeGreedy (s.freeOrder seed) = .ok s') : s'.Answers g := by
  obtain ⟨hadm, hfixed, horder, hnone⟩ := order_of_placeFixed hvalid hs seed
  obtain ⟨hgreedy, hplaced⟩ := placeGreedy_spec hadm (nodup_freeOrder s seed) horder hnone hs'
  refine ⟨hgreedy, fun v hv => hplaced v ?_⟩
  rw [mem_freeOrder_iff, hadm.graph, hfixed v hv]
  cases hfix : g.fixed v with
  | none => exact .inl ⟨hv, rfl⟩
  | some p => exact .inr rfl

/-- The search that an answer is read off from. -/
theorem exists_search_of_partition {assignment : Assignment}
    (h : l.partition g g.numParts = .ok assignment) :
    g.validate = .ok () ∧ ∃ s s', (start g).placeFixed (List.range g.numVertices) = .ok s ∧
      s.placeGreedy (s.freeOrder l.seed) = .ok s' ∧
      assignment = (s'.refineUpTo (s.freeOrder l.seed) l.maxPasses).assignment := by
  rw [LocalSearch.partition, if_neg (by simp)] at h
  obtain ⟨⟨⟩, hvalid, h⟩ := bind_eq_ok_iff.1 h
  obtain ⟨s, hs, h⟩ := bind_eq_ok_iff.1 h
  obtain ⟨s', hs', h⟩ := bind_eq_ok_iff.1 h
  exact ⟨hvalid, s, s', hs, hs', (Except.ok.inj h).symm⟩

/-- The answer of a local search passes the check. -/
theorem checkAssignment_of_partition (hlight : g.Light) {assignment : Assignment}
    (h : l.partition g g.numParts = .ok assignment) : g.checkAssignment assignment = .ok () := by
  obtain ⟨hvalid, s, s', hs, hs', rfl⟩ := exists_search_of_partition h
  obtain ⟨-, -, horder, -⟩ := order_of_placeFixed hvalid hs l.seed
  have hplaced := answers_of_placeGreedy hvalid hs hs'
  exact (hplaced.refineUpTo horder hlight l.maxPasses).checkAssignment

/-- Vertices of weight one are partitioned if the fixed ones fit and the sizes suffice. -/
theorem exists_partition (hvalid : g.validate = .ok ())
    (hone : ∀ v < g.numVertices, g.weight v = 1)
    (hfit : ∀ p, g.weightIn g.fixed p ≤ g.partSize p)
    (hsum : g.numVertices ≤ ∑ p ∈ Finset.range g.numParts, g.partSize p) :
    ∃ assignment, l.partition g g.numParts = .ok assignment := by
  have hg := (Hypergraph.validate_eq_ok_iff.1 hvalid).2
  obtain ⟨s, hs⟩ := exists_placeFixed hg hfit (admissible_start g)
    (fun v p hv => by simp [partOf_start] at hv) List.nodup_range (fun v => List.mem_range.1)
    (fun v _ => partOf_start g v)
  obtain ⟨hadm, -, horder, hnone⟩ := order_of_placeFixed hvalid hs l.seed
  obtain ⟨s', hs'⟩ :=
    exists_placeGreedy hone hsum hadm (nodup_freeOrder s l.seed) horder hnone
  refine ⟨(s'.refineUpTo (s.freeOrder l.seed) l.maxPasses).assignment, ?_⟩
  rw [LocalSearch.partition, if_neg (by simp), hvalid, ok_bind, hs, ok_bind]
  dsimp only
  rw [hs', ok_bind]
  rfl

end LocalSearch

end IonTrap
