import IonTrap.Proofs.Partition.Admissible

/-!
# The tables of a search are exact

The number of pins that a net has in a part is kept up to date like the loads (`Search.Counted`),
and unlike them is no word. Both are determined by the parts of the vertices, so a search that has
come back to the same parts is the same search, tables included (`Search.Counted.eq_of_partOf`):
taking a tentative move back leaves no trace (`Search.Counted.shift_back`).
-/

namespace IonTrap

namespace Hypergraph

variable {g : Hypergraph} {part : Nat → Option Nat} {v e p : Nat}

/-- Pins of a net. -/
def pinsOf (g : Hypergraph) (e : Nat) : List Nat := (g.nets[e]?.map (·.pins)).getD []

/-- Number of a net's pins that a map puts into a part. -/
def pinsIn (g : Hypergraph) (part : Nat → Option Nat) (e p : Nat) : Nat :=
  (g.pinsOf e).countP (part · = some p)

/-- Mapping one vertex anew takes its pins from one part to another. -/
theorem pinsIn_update (g : Hypergraph) (part : Nat → Option Nat) (v : Nat) (x : Option Nat)
    (e p : Nat) :
    g.pinsIn (Function.update part v x) e p
        + (if part v = some p then (g.pinsOf e).count v else 0)
      = g.pinsIn part e p + if x = some p then (g.pinsOf e).count v else 0 := by
  unfold pinsIn
  induction g.pinsOf e with
  | nil => simp
  | cons u us ih =>
    rw [List.countP_cons, List.countP_cons, List.count_cons]
    by_cases hu : u = v
    · subst hu
      simp only [Function.update_self, BEq.rfl, if_true, decide_eq_true_eq]
      split_ifs at ih ⊢ <;> omega
    · simp only [Function.update_of_ne hu, beq_iff_eq, hu, if_false, Nat.add_zero]
      omega

theorem count_le_pinsIn (hv : part v = some p) : (g.pinsOf e).count v ≤ g.pinsIn part e p := by
  refine List.countP_mono_left fun u _ hu => ?_
  rw [beq_iff_eq] at hu
  simp [hu, hv]

end Hypergraph

namespace Search

variable {g : Hypergraph} {s s' : Search} {v e p r : Nat}

theorem count_flatMap_zipIdx (v e : Nat) (nets : List Net) (k : Nat) :
    ((nets.zipIdx k).flatMap fun n => List.replicate (n.1.pins.count v) n.2).count e
      = if e < k then 0 else ((nets[e - k]?.map (·.pins)).getD []).count v := by
  induction nets generalizing k with
  | nil => simp
  | cons n nets ih =>
    rw [List.zipIdx_cons, List.flatMap_cons, List.count_append, ih, List.count_replicate]
    rcases Nat.lt_trichotomy e k with hlt | rfl | hgt
    · simp [hlt, Nat.lt_succ_of_lt hlt, Nat.ne_of_gt hlt]
    · simp
    · have hsub : e - k = e - (k + 1) + 1 := by omega
      rw [if_neg (by simpa using by omega), if_neg (by omega), if_neg (by omega), hsub,
        List.getElem?_cons_succ, Nat.zero_add]

/-- A net is listed at a vertex as often as it lists the vertex. -/
theorem count_netsOf (g : Hypergraph) (v e : Nat) :
    (netsOf g v).count e = (g.pinsOf e).count v := by
  rw [netsOf, count_flatMap_zipIdx, if_neg (Nat.not_lt_zero e), Nat.sub_zero, Hypergraph.pinsOf,
    Array.getElem?_toList]

theorem lt_size_of_mem_netsOf (he : e ∈ netsOf g v) : e < g.nets.size := by
  by_contra hlt
  have hpins : g.pinsOf e = [] := by
    rw [Hypergraph.pinsOf, Array.getElem?_eq_none (by omega)]
    rfl
  have hcount := count_netsOf g v e
  rw [hpins, List.count_nil] at hcount
  exact List.count_eq_zero.1 hcount he

/-! ## Pin counts -/

/-- Number of pins in a table. -/
def pinAt (pins : Array (Array Nat)) (e p : Nat) : Nat := (pins.getD e #[]).getD p 0

/-- The pins of a net are counted for every part. -/
def Rows (pins : Array (Array Nat)) (n k : Nat) : Prop :=
  pins.size = n ∧ ∀ e < n, (pins.getD e #[]).size = k

theorem getD_modify_row (pins : Array (Array Nat)) (e e' : Nat) (f : Nat → Nat) (p : Nat) :
    (pins.modify e (·.modify p f)).getD e' #[]
      = if e = e' then (pins.getD e' #[]).modify p f else pins.getD e' #[] := by
  simp only [Array.getD_eq_getD_getElem?, Array.getElem?_modify]
  split_ifs
  · cases pins[e']? <;> simp
  · rfl

theorem Rows.modify {pins : Array (Array Nat)} {n k : Nat} (h : Rows pins n k) (e p : Nat)
    (f : Nat → Nat) : Rows (pins.modify e (·.modify p f)) n k := by
  refine ⟨by rw [Array.size_modify, h.1], fun e' he' => ?_⟩
  rw [getD_modify_row]
  split_ifs
  · rw [Array.size_modify, h.2 e' he']
  · exact h.2 e' he'

theorem pinAt_modify {pins : Array (Array Nat)} {n k : Nat} (h : Rows pins n k) (he : e < n)
    (hp : p < k) (f : Nat → Nat) (e' r : Nat) :
    pinAt (pins.modify e (·.modify p f)) e' r
      = if e = e' ∧ p = r then f (pinAt pins e' r) else pinAt pins e' r := by
  unfold pinAt
  rw [getD_modify_row]
  by_cases hee : e = e'
  · subst hee
    rw [if_pos rfl, getD_modify _ (by rwa [h.2 e he])]
    simp
  · simp [hee]

/-- Counting along a list of nets changes the count of each as often as it is listed. -/
theorem pinAt_foldl {pins : Array (Array Nat)} {n k : Nat} (h : Rows pins n k) {es : List Nat}
    (hes : ∀ e ∈ es, e < n) (hp : p < k) (f : Nat → Nat) :
    Rows (es.foldl (fun pins e => pins.modify e (·.modify p f)) pins) n k ∧
      ∀ e r, pinAt (es.foldl (fun pins e => pins.modify e (·.modify p f)) pins) e r
        = if p = r then f^[es.count e] (pinAt pins e r) else pinAt pins e r := by
  induction es generalizing pins with
  | nil => exact ⟨h, by simp⟩
  | cons e' es ih =>
    rw [List.forall_mem_cons] at hes
    obtain ⟨hrows, hcount⟩ := ih (h.modify e' p f) hes.2
    refine ⟨hrows, fun e r => ?_⟩
    rw [List.foldl_cons, hcount, pinAt_modify h hes.1 hp, List.count_cons]
    by_cases hr : p = r
    · by_cases he : e' = e
      · simp [hr, he]
      · simp [hr, he]
    · simp [hr]

/-! ## Exact tables -/

/-- Loads and pin counts are what the parts of the vertices make them. -/
structure Exact (g : Hypergraph) (s : Search) : Prop extends Tracks g s where
  incident : s.incident = (start g).incident
  rows : Rows s.pins g.nets.size g.numParts
  pins : ∀ e p, s.pinCount e p = g.pinsIn s.partOf e p

/-- Loads and pin counts are what the parts of the vertices make them, wherever fixed vertices are.
-/
structure Counted (g : Hypergraph) (s : Search) : Prop extends Weighed g s where
  incident : s.incident = (start g).incident
  rows : Rows s.pins g.nets.size g.numParts
  pins : ∀ e p, s.pinCount e p = g.pinsIn s.partOf e p

theorem Exact.counted (h : s.Exact g) : s.Counted g := ⟨h.weighed, h.incident, h.rows, h.pins⟩

theorem Counted.exact (h : s.Counted g) (h' : s.Tracks g) : s.Exact g :=
  ⟨h', h.incident, h.rows, h.pins⟩

theorem counted_start (g : Hypergraph) : (start g).Counted g where
  toWeighed := (admissible_start g).weighed
  incident := rfl
  rows := by
    refine ⟨Array.size_replicate, fun e he => ?_⟩
    simp [start, Array.getD_eq_getD_getElem?, he]
  pins e p := by
    have hpart : (start g).partOf = fun _ => none := funext (partOf_start g)
    have hpins : g.pinsIn (start g).partOf e p = 0 := by simp [Hypergraph.pinsIn, hpart]
    rw [hpins, pinCount, start]
    simp only [Array.getD_eq_getD_getElem?, Array.getElem?_replicate]
    split_ifs
    · simp only [Option.getD_some, Array.getElem?_replicate]
      split_ifs <;> rfl
    · rfl

theorem netsAt_eq (h : s.incident = (start g).incident) (hv : v < g.numVertices) :
    s.netsAt v = netsOf g v := by
  rw [netsAt, h]
  simp [start, Array.getD_eq_getD_getElem?, hv]

section Change

variable (h : s.Counted g) (hv : v < g.numVertices)
include h hv

theorem Counted.weight_le (hlight : g.Light) (hp : s.partOf v = some p) :
    g.weight v ≤ s.loadOf p := by
  rw [h.load, hlight.wrap_weightIn]
  exact Hypergraph.weight_le_weightIn hv hp

theorem Counted.recount (hp : p < g.numParts) (f : Nat → Nat) :
    Rows (s.recount v p f) g.nets.size g.numParts ∧
      ∀ e r, pinAt (s.recount v p f) e r
        = if p = r then f^[(g.pinsOf e).count v] (s.pinCount e r) else s.pinCount e r := by
  have hnets := netsAt_eq h.incident hv
  have hlt : ∀ e ∈ s.netsAt v, e < g.nets.size := by
    rw [hnets]
    exact fun e => lt_size_of_mem_netsOf
  obtain ⟨hrows, hcount⟩ := pinAt_foldl h.rows hlt hp f
  refine ⟨hrows, fun e r => ?_⟩
  rw [Search.recount, hcount, hnets, count_netsOf]
  rfl

theorem Counted.assign (hp : p < g.numParts) (hnone : s.partOf v = none) :
    (s.assign v p).Counted g := by
  obtain ⟨hrows, hcount⟩ := h.recount hv hp (· + 1)
  refine ⟨h.toWeighed.assign hv hp hnone, h.incident, hrows, fun e r => ?_⟩
  have hupdate := g.pinsIn_update s.partOf v (some p) e r
  simp only [hnone, reduceCtorEq, if_false, Nat.add_zero, Option.some.injEq] at hupdate
  have hpin : (s.assign v p).pinCount e r = _ := hcount e r
  rw [hpin, partOf_assign (h.size_part ▸ hv), hupdate, h.pins]
  split_ifs
  · exact Nat.succ_iterate _ _
  · rfl

theorem Counted.unassign (hp : s.partOf v = some p) : (s.unassign v p).Counted g := by
  obtain ⟨hrows, hcount⟩ := h.recount hv (h.part_lt v p hp) (· - 1)
  refine ⟨h.toWeighed.unassign hv hp, h.incident, hrows, fun e r => ?_⟩
  have hupdate := g.pinsIn_update s.partOf v none e r
  simp only [hp, reduceCtorEq, if_false, Nat.add_zero, Option.some.injEq] at hupdate
  have hpin : (s.unassign v p).pinCount e r = _ := hcount e r
  rw [hpin, partOf_unassign (h.size_part ▸ hv), h.pins]
  split_ifs at hupdate ⊢
  · have hpred : (· - 1)^[(g.pinsOf e).count v] (g.pinsIn s.partOf e r)
        = g.pinsIn s.partOf e r - (g.pinsOf e).count v := Nat.pred_iterate _ _
    omega
  · omega

/-- A vertex may go from its part to any other. -/
theorem Counted.shift (hp : s.partOf v = some p) {target : Nat} (ht : target < g.numParts) :
    (s.shift v p target).Counted g := by
  have hnone : (s.unassign v p).partOf v = none := by
    rw [partOf_unassign (h.size_part ▸ hv), Function.update_self]
  exact (h.unassign hv hp).assign hv ht hnone

end Change

/-- Greedy placement keeps the tables exact. -/
theorem Counted.placeGreedy (h : s.Counted g) {vs : List Nat} (hnodup : vs.Nodup)
    (hvs : ∀ v ∈ vs, v < g.numVertices) (hnone : ∀ v ∈ vs, s.partOf v = none)
    (hs' : s.placeGreedy vs = .ok s') : s'.Counted g := by
  induction vs generalizing s with
  | nil =>
    obtain rfl := Except.ok.inj hs'
    exact h
  | cons v vs ih =>
    rw [List.nodup_cons] at hnodup
    have hv := hvs v List.mem_cons_self
    rw [Search.placeGreedy] at hs'
    rcases mostAppealing?_cases s v with ⟨hno, -⟩ | ⟨p, hp, -, hsome⟩
    · simp [hno] at hs'
    · rw [hsome] at hs'
      exact ih (h.assign hv (h.graph ▸ hp) (hnone v List.mem_cons_self)) hnodup.2
        (fun u hu => hvs u (List.mem_cons_of_mem _ hu))
        (h.partOf_assign_eq_none hv hnodup.1 hnone) hs'

theorem ext_getD {α : Type} {xs ys : Array α} (hsize : xs.size = ys.size) (d : α)
    (h : ∀ i, xs.getD i d = ys.getD i d) : xs = ys := by
  refine Array.ext hsize fun i hx hy => ?_
  simpa [Array.getD_eq_getD_getElem?, hx, hy] using h i

/-- The parts of the vertices determine all tables. -/
theorem Counted.eq_of_partOf (h : s.Counted g) (h' : s'.Counted g) (hpart : s.partOf = s'.partOf) :
    s = s' := by
  have hparts : s.part = s'.part :=
    ext_getD (by rw [h.size_part, h'.size_part]) none (congrFun hpart)
  have hloads : s.load = s'.load := by
    refine ext_getD (by rw [h.size_load, h'.size_load]) 0 fun p => ?_
    have hload : s.loadOf p = s'.loadOf p := by rw [h.load, h'.load, hpart]
    exact hload
  have hpins : s.pins = s'.pins := by
    refine ext_getD (by rw [h.rows.1, h'.rows.1]) #[] fun e => ?_
    by_cases he : e < g.nets.size
    · refine ext_getD (by rw [h.rows.2 e he, h'.rows.2 e he]) 0 fun p => ?_
      have hpin : s.pinCount e p = s'.pinCount e p := by rw [h.pins, h'.pins, hpart]
      exact hpin
    · rw [Array.getD_eq_getD_getElem?, Array.getD_eq_getD_getElem?,
        Array.getElem?_eq_none (by rw [h.rows.1]; omega),
        Array.getElem?_eq_none (by rw [h'.rows.1]; omega)]
  have hgraph : s.graph = s'.graph := h.graph.trans h'.graph.symm
  have hincident : s.incident = s'.incident := h.incident.trans h'.incident.symm
  cases s
  cases s'
  rw [mk.injEq]
  exact ⟨hgraph, hincident, hparts, hloads, hpins⟩

/-- Taking a move back leaves no trace. -/
theorem Counted.shift_back (h : s.Counted g) (hv : v < g.numVertices) (hp : s.partOf v = some p)
    {target : Nat} (ht : target < g.numParts) : (s.shift v p target).shift v target p = s := by
  have hmoved := h.partOf_shift hv hp target
  have hcounted := h.shift hv hp ht
  have htarget : (s.shift v p target).partOf v = some target := by
    rw [hmoved, Function.update_self]
  refine (hcounted.shift hv htarget (h.part_lt v p hp)).eq_of_partOf h ?_
  rw [hcounted.partOf_shift hv htarget p, hmoved, Function.update_idem, ← hp,
    Function.update_eq_self]

end Search

end IonTrap
