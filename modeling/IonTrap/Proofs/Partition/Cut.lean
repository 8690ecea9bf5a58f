import IonTrap.Proofs.Partition.Exact

/-!
# What a move does to the cut

A net spans the parts that hold a pin of it (`Hypergraph.spanned`), so the cut is a sum over nets
that depends on the pin counts only (`Hypergraph.cut_eq_cutOf`). A vertex that goes to another part
adds that part to a net unless the net was there, and takes its own part from the net if no other
vertex of the net is left there. The change that a search reckons before a move says the same of
nets that list a vertex once. Of a net that lists a vertex more often it overlooks that a part is
left and counts an entered part several times, so the cut never falls by less than was reckoned
(`Hypergraph.cutOf_update_le`). A search keeps what it reckons in a signed word. That loses nothing
if the weights of the nets, once for each pin, fit into one (`Hypergraph.GainsFit`).
-/

namespace IonTrap

theorem nodup_eraseDups (xs : List Nat) : xs.eraseDups.Nodup := by
  induction hn : xs.length using Nat.strong_induction_on generalizing xs with
  | _ n ih =>
    cases xs with
    | nil => simp
    | cons x xs =>
      -- behind the first entry go those that differ from it, and they are fewer
      have hfewer : (xs.filter fun y => !y == x).length < n := by
        rw [← hn, List.length_cons]
        exact Nat.lt_succ_of_le (List.length_filter_le _ xs)
      have hrest := ih _ hfewer _ rfl
      have hx : x ∉ (xs.filter fun y => !y == x).eraseDups := by simp
      rw [List.eraseDups_cons]
      exact List.nodup_cons.2 ⟨hx, hrest⟩

theorem length_eraseDups (xs : List Nat) : xs.eraseDups.length = xs.toFinset.card := by
  rw [← List.toFinset_card_of_nodup (nodup_eraseDups xs)]
  congr 1
  ext x
  simp

theorem count_add_count_le {a b : Nat} (h : a ≠ b) (xs : List Nat) :
    xs.count a + xs.count b ≤ xs.length := by
  induction xs with
  | nil => simp
  | cons x xs ih =>
    rw [List.count_cons, List.count_cons, List.length_cons]
    simp only [beq_iff_eq]
    split_ifs <;> omega

namespace Hypergraph

variable {g : Hypergraph} {part : Nat → Option Nat} {v e source target : Nat}

/-- The parts that hold a pin of a net. -/
def spanned (g : Hypergraph) (part : Nat → Option Nat) (e : Nat) : Finset Nat :=
  {p ∈ Finset.range g.numParts | 0 < g.pinsIn part e p}

/-- What a net adds to the cut of a map. -/
def share (g : Hypergraph) (part : Nat → Option Nat) (e : Nat) : Nat :=
  g.netWeight e * ((g.spanned part e).card - 1)

/-- What is reckoned for a net when one of its pins goes from one part to another. -/
def reckoned (g : Hypergraph) (part : Nat → Option Nat) (source target e : Nat) : Int :=
  g.netWeight e * ((if g.pinsIn part e target = 0 then 1 else 0)
    - if g.pinsIn part e source = 1 then 1 else 0)

/-- The cut of a map from vertices to parts. -/
def cutOf (g : Hypergraph) (part : Nat → Option Nat) : Nat :=
  ∑ e ∈ Finset.range g.nets.size, g.share part e

theorem pinsIn_pos_iff {p : Nat} :
    0 < g.pinsIn part e p ↔ ∃ v ∈ g.pinsOf e, part v = some p := by
  simp [pinsIn, List.countP_pos_iff]

theorem mem_spanned_iff {p : Nat} :
    p ∈ g.spanned part e ↔ p < g.numParts ∧ 0 < g.pinsIn part e p := by
  simp [spanned]

/-- The parts of a net's pins are the parts that it spans. -/
theorem span_eq_card {x : Assignment} (hpins : ∀ v ∈ g.pinsOf e, part v = x[v]?)
    (hlt : ∀ v ∈ g.pinsOf e, ∃ p < g.numParts, x[v]? = some p) :
    span (g.pinsOf e) x = (g.spanned part e).card := by
  have hset : ((g.pinsOf e).map fun v => x.getD v 0).toFinset = g.spanned part e := by
    ext p
    rw [List.mem_toFinset, List.mem_map, mem_spanned_iff, pinsIn_pos_iff]
    constructor
    · rintro ⟨v, hv, rfl⟩
      obtain ⟨p, hp, hx⟩ := hlt v hv
      have hget : x.getD v 0 = p := by rw [List.getD_eq_getElem?_getD, hx, Option.getD_some]
      exact ⟨hget ▸ hp, v, hv, by rw [hpins v hv, hx, hget]⟩
    · rintro ⟨-, v, hv, hp⟩
      refine ⟨v, hv, ?_⟩
      rw [List.getD_eq_getElem?_getD, ← hpins v hv, hp, Option.getD_some]
  rw [span, length_eraseDups, hset]

/-- The cut of an assignment is the cut of the map that it stands for. -/
theorem cut_eq_cutOf {x : Assignment} (hvalid : ∀ e ∈ g.nets, ∀ v ∈ e.pins, v < g.numVertices)
    (hpart : ∀ v < g.numVertices, part v = x[v]?)
    (hlt : ∀ v < g.numVertices, ∃ p < g.numParts, x[v]? = some p) : g.cut x = g.cutOf part := by
  rw [cut, total_eq_sum, cutOf, List.length_map, Array.length_toList]
  refine Finset.sum_congr rfl fun e he => ?_
  have he : e < g.nets.size := Finset.mem_range.1 he
  have hnet := Array.getElem?_eq_getElem he
  have hpins : g.pinsOf e = g.nets[e].pins := by
    rw [pinsOf, hnet, Option.map_some, Option.getD_some]
  have hmem : ∀ v ∈ g.pinsOf e, v < g.numVertices := by
    rw [hpins]
    exact hvalid _ (Array.getElem_mem _)
  have hspan := span_eq_card (fun v hv => hpart v (hmem v hv)) fun v hv => hlt v (hmem v hv)
  rw [share, ← hspan, hpins, List.getD_eq_getElem?_getD, List.getElem?_map, Array.getElem?_toList,
    netWeight, hnet]
  rfl

/-! ## One vertex goes to another part -/

/-- A net that does not list the vertex spans the same parts. -/
theorem spanned_update_of_notMem (hv : v ∉ g.pinsOf e) (x : Option Nat) :
    g.spanned (Function.update part v x) e = g.spanned part e := by
  have hcount : (g.pinsOf e).count v = 0 := List.count_eq_zero.2 hv
  ext p
  have hupdate := g.pinsIn_update part v x e p
  simp only [hcount, ite_self, Nat.add_zero] at hupdate
  rw [mem_spanned_iff, mem_spanned_iff, hupdate]

section Move

variable (hs : part v = some source) (hne : source ≠ target) (ht : target < g.numParts)
  (hv : v ∈ g.pinsOf e)
include hs hne ht hv

/-- A net that lists the vertex spans the new part too, and the old one if another pin is there. -/
theorem spanned_update :
    g.spanned (Function.update part v (some target)) e = insert target
      (if g.pinsIn part e source = (g.pinsOf e).count v then (g.spanned part e).erase source
        else g.spanned part e) := by
  have hcount : 0 < (g.pinsOf e).count v := List.count_pos_iff.2 hv
  have hle := count_le_pinsIn (g := g) (e := e) hs
  ext p
  have hupdate := g.pinsIn_update part v (some target) e p
  simp only [hs, Option.some.injEq] at hupdate
  rw [mem_spanned_iff, Finset.mem_insert]
  by_cases hpt : target = p
  · subst hpt
    rw [if_neg hne, if_pos rfl] at hupdate
    have hpos : 0 < g.pinsIn (Function.update part v (some target)) e target := by omega
    simp [ht, hpos]
  rw [if_neg hpt] at hupdate
  rw [or_iff_right (Ne.symm hpt)]
  by_cases hps : source = p
  · subst hps
    rw [if_pos rfl] at hupdate
    split_ifs with halone
    · -- the pins left in the part would be those beyond the vertex's own
      simp only [Finset.mem_erase, ne_eq, not_true_eq_false, false_and, iff_false, not_and]
      omega
    · rw [mem_spanned_iff]
      exact and_congr_right fun _ => by omega
  · rw [if_neg hps, Nat.add_zero, Nat.add_zero] at hupdate
    rw [hupdate, ← mem_spanned_iff]
    split_ifs
    · simp [Ne.symm hps]
    · rfl

/-- What the move changes in the share of a net that lists the vertex. -/
theorem share_update (hlt : source < g.numParts) :
    (g.share (Function.update part v (some target)) e : Int)
      = g.share part e + g.netWeight e * ((if g.pinsIn part e target = 0 then 1 else 0)
        - if g.pinsIn part e source = (g.pinsOf e).count v then 1 else 0) := by
  have hmem : source ∈ g.spanned part e :=
    mem_spanned_iff.2 ⟨hlt, pinsIn_pos_iff.2 ⟨v, hv, hs⟩⟩
  have hpos : 0 < (g.spanned part e).card := Finset.card_pos.2 ⟨source, hmem⟩
  have htarget : target ∈ g.spanned part e ↔ g.pinsIn part e target ≠ 0 := by
    rw [mem_spanned_iff, and_iff_right ht, Nat.pos_iff_ne_zero]
  have hspanned := spanned_update hs hne ht hv
  have hpos' : 0 < (g.spanned (Function.update part v (some target)) e).card := by
    rw [hspanned]
    exact Finset.card_pos.2 ⟨target, Finset.mem_insert_self _ _⟩
  have hcard : ((g.spanned (Function.update part v (some target)) e).card : Int)
      = (g.spanned part e).card + ((if g.pinsIn part e target = 0 then 1 else 0)
        - if g.pinsIn part e source = (g.pinsOf e).count v then 1 else 0) := by
    rw [hspanned, Finset.card_insert_eq_ite]
    by_cases halone : g.pinsIn part e source = (g.pinsOf e).count v
    · rw [if_pos halone, if_pos halone, Finset.card_erase_of_mem hmem]
      simp only [Finset.mem_erase, ne_eq, Ne.symm hne, not_false_eq_true, true_and, htarget]
      split_ifs <;> omega
    · rw [if_neg halone, if_neg halone]
      simp only [htarget]
      split_ifs <;> omega
  rw [share, share, Nat.cast_mul, Nat.cast_mul, Nat.cast_sub hpos', Nat.cast_sub hpos, hcard]
  ring

end Move

/-- The share of a net falls by at least what is reckoned for it, once for every time that it lists
the vertex, and by no more if it lists the vertex once at most. -/
theorem share_update_le (hs : part v = some source) (hne : source ≠ target)
    (hlt : source < g.numParts) (ht : target < g.numParts) (e : Nat) :
    (g.share (Function.update part v (some target)) e : Int)
        ≤ g.share part e + (g.pinsOf e).count v * g.reckoned part source target e ∧
      ((g.pinsOf e).count v ≤ 1 → (g.share (Function.update part v (some target)) e : Int)
        = g.share part e + (g.pinsOf e).count v * g.reckoned part source target e) := by
  by_cases hv : v ∈ g.pinsOf e
  · have hpos : 0 < (g.pinsOf e).count v := List.count_pos_iff.2 hv
    have hle := count_le_pinsIn (g := g) (e := e) hs
    rw [share_update hs hne ht hv hlt, reckoned]
    rcases Nat.lt_or_ge 1 ((g.pinsOf e).count v) with hmany | hone
    · -- a part is never seen to be left, and it costs more to enter one
      refine ⟨?_, by omega⟩
      have hw : (0 : Int) ≤ g.netWeight e := Int.natCast_nonneg _
      have hc : (1 : Int) ≤ (g.pinsOf e).count v := by omega
      rw [if_neg (show g.pinsIn part e source ≠ 1 by omega)]
      split_ifs <;> nlinarith
    · have hcount : (g.pinsOf e).count v = 1 := by omega
      rw [hcount, Nat.cast_one, one_mul]
      exact ⟨le_rfl, fun _ => rfl⟩
  · have hcount : (g.pinsOf e).count v = 0 := List.count_eq_zero.2 hv
    rw [share, spanned_update_of_notMem hv, hcount, share]
    simp

/-! ## What is reckoned for a move -/

/-- What is reckoned for a vertex that goes from one part to another: a sum over nets, each as often
as it lists the vertex. -/
def reckonedMove (g : Hypergraph) (part : Nat → Option Nat) (v source target : Nat) : Int :=
  ∑ e ∈ Finset.range g.nets.size, ((g.pinsOf e).count v : Int) * g.reckoned part source target e

section Move

variable (hs : part v = some source) (hne : source ≠ target) (hlt : source < g.numParts)
  (ht : target < g.numParts)
include hs hne hlt ht

/-- A move lowers the cut by at least what is reckoned. -/
theorem cutOf_update_le : (g.cutOf (Function.update part v (some target)) : Int)
    ≤ g.cutOf part + g.reckonedMove part v source target := by
  rw [reckonedMove, cutOf, cutOf, Nat.cast_sum, Nat.cast_sum, ← Finset.sum_add_distrib]
  exact Finset.sum_le_sum fun e _ => (share_update_le hs hne hlt ht e).1

/-- Where no net lists a vertex twice, a move changes the cut by what is reckoned. -/
theorem cutOf_update_eq (hnodup : ∀ e, (g.pinsOf e).Nodup) :
    (g.cutOf (Function.update part v (some target)) : Int)
      = g.cutOf part + g.reckonedMove part v source target := by
  rw [reckonedMove, cutOf, cutOf, Nat.cast_sum, Nat.cast_sum, ← Finset.sum_add_distrib]
  exact Finset.sum_congr rfl fun e _ =>
    (share_update_le hs hne hlt ht e).2 (List.nodup_iff_count_le_one.1 (hnodup e) v)

end Move

/-! ## What fits into a word -/

/-- Weight of the nets of a vertex, each as often as it lists the vertex. -/
def pull (g : Hypergraph) (v : Nat) : Nat :=
  ∑ e ∈ Finset.range g.nets.size, (g.pinsOf e).count v * g.netWeight e

/-- The weights of the nets, once for each pin, sum to less than 2⁶³. -/
def GainsFit (g : Hypergraph) : Prop :=
  ∑ e ∈ Finset.range g.nets.size, (g.pinsOf e).length * g.netWeight e < 2 ^ 63

theorem abs_reckoned_le (g : Hypergraph) (part : Nat → Option Nat) (source target e : Nat) :
    |g.reckoned part source target e| ≤ g.netWeight e := by
  have hw : (0 : Int) ≤ g.netWeight e := Int.natCast_nonneg _
  rw [reckoned, abs_le]
  constructor <;> split_ifs <;> simp [hw]

theorem abs_reckonedMove_le (g : Hypergraph) (part : Nat → Option Nat) (v source target : Nat) :
    |g.reckonedMove part v source target| ≤ g.pull v := by
  rw [reckonedMove, pull, Nat.cast_sum]
  refine (Finset.abs_sum_le_sum_abs _ _).trans (Finset.sum_le_sum fun e _ => ?_)
  rw [abs_mul, Nat.cast_mul, Nat.abs_cast]
  exact mul_le_mul_of_nonneg_left (g.abs_reckoned_le part source target e) (Int.natCast_nonneg _)

theorem GainsFit.pull_add_lt (h : g.GainsFit) {a b : Nat} (hab : a ≠ b) :
    g.pull a + g.pull b < 2 ^ 63 := by
  rw [pull, pull, ← Finset.sum_add_distrib]
  refine Nat.lt_of_le_of_lt (Finset.sum_le_sum fun e _ => ?_) h
  rw [← Nat.add_mul]
  exact Nat.mul_le_mul_right _ (count_add_count_le hab _)

theorem GainsFit.pull_lt (h : g.GainsFit) (v : Nat) : g.pull v < 2 ^ 63 :=
  Nat.lt_of_le_of_lt (Nat.le_add_right _ _) (h.pull_add_lt (Nat.ne_of_lt (Nat.lt_succ_self v)))

theorem card_spanned_le (g : Hypergraph) (part : Nat → Option Nat) (e : Nat) :
    (g.spanned part e).card ≤ (g.pinsOf e).length := by
  have hsubset : (g.spanned part e).image some ⊆ ((g.pinsOf e).map part).toFinset := by
    intro p hp
    obtain ⟨r, hr, rfl⟩ := Finset.mem_image.1 hp
    obtain ⟨v, hv, hpart⟩ := pinsIn_pos_iff.1 (mem_spanned_iff.1 hr).2
    exact List.mem_toFinset.2 (List.mem_map.2 ⟨v, hv, hpart⟩)
  calc (g.spanned part e).card = ((g.spanned part e).image some).card :=
        (Finset.card_image_of_injective _ (Option.some_injective _)).symm
    _ ≤ ((g.pinsOf e).map part).toFinset.card := Finset.card_le_card hsubset
    _ ≤ ((g.pinsOf e).map part).length := List.toFinset_card_le _
    _ = (g.pinsOf e).length := List.length_map _

/-- Then also the cut is a word. -/
theorem GainsFit.cutOf_lt (h : g.GainsFit) (part : Nat → Option Nat) : g.cutOf part < wordSize := by
  have hle : g.cutOf part
      ≤ ∑ e ∈ Finset.range g.nets.size, (g.pinsOf e).length * g.netWeight e := by
    refine Finset.sum_le_sum fun e _ => ?_
    rw [share, Nat.mul_comm]
    exact Nat.mul_le_mul_right _ ((Nat.sub_le _ _).trans (g.card_spanned_le part e))
  exact Nat.lt_of_le_of_lt hle (h.trans (by decide))

end Hypergraph

namespace Search

variable {g : Hypergraph} {s : Search} {v source target : Nat}

/-! ## What a search reckons -/

theorem wrapInt_of_abs_lt {x : Int} (h : |x| < 2 ^ 63) : wrapInt x = x := by
  refine wrapInt_of_natAbs_lt ?_
  rw [Int.abs_eq_natAbs] at h
  omega

section Reckon

variable (h : s.Counted g) (hv : v < g.numVertices) (hs : s.partOf v = some source)
include h hv hs

/-- What a search reckons for a move is what is reckoned, as a word. -/
theorem Counted.moveDelta_eq (target : Nat) :
    s.moveDelta v target = wrapInt (g.reckonedMove s.partOf v source target) := by
  have hsum : s.moveDelta v target
      = wrapInt ((netsOf g v).map (s.netDelta source target)).sum := by
    simp only [moveDelta, hs, netsAt_eq h.incident hv, List.sum, List.foldr_map]
  have hnets : (netsOf g v).toFinset ⊆ Finset.range g.nets.size := fun e he =>
    Finset.mem_range.2 (lt_size_of_mem_netsOf (List.mem_toFinset.1 he))
  rw [hsum, Finset.sum_list_map_count, Finset.sum_subset hnets fun e _ he => by
    rw [List.count_eq_zero.2 (mt List.mem_toFinset.2 he), zero_smul], Hypergraph.reckonedMove]
  congr 1
  refine Finset.sum_congr rfl fun e _ => ?_
  rw [count_netsOf, netDelta, h.graph, h.pins, h.pins, nsmul_eq_mul, Hypergraph.reckoned]

theorem Counted.moveDelta_eq_of_pull_lt (hpull : g.pull v < 2 ^ 63) (target : Nat) :
    s.moveDelta v target = g.reckonedMove s.partOf v source target := by
  rw [h.moveDelta_eq hv hs]
  refine wrapInt_of_abs_lt ((g.abs_reckonedMove_le s.partOf v source target).trans_lt ?_)
  exact_mod_cast hpull

end Reckon

/-- Where two vertices of different parts are after the first of them has gone to the other. -/
theorem Counted.shift_first (h : s.Counted g) {a b pa pb : Nat} (ha : a < g.numVertices)
    (hpa : s.partOf a = some pa) (hpb : s.partOf b = some pb) (hne : pa ≠ pb) :
    (s.shift a pa pb).Counted g ∧ (s.shift a pa pb).partOf b = some pb ∧
      ((s.shift a pa pb).partOf = Function.update s.partOf a (some pb)) := by
  have hpart := h.partOf_shift ha hpa pb
  refine ⟨h.shift ha hpa (h.part_lt b pb hpb), ?_, hpart⟩
  rw [hpart, Function.update_of_ne (Hypergraph.ne_of_parts hpb hpa (Ne.symm hne)), hpb]

/-- What a search reckons for an exchange: the second move where the first has been made. -/
theorem Counted.exchangeDelta_eq (hgains : g.GainsFit) (h : s.Counted g) {a b pa pb : Nat}
    (ha : a < g.numVertices) (hb : b < g.numVertices) (hpa : s.partOf a = some pa)
    (hpb : s.partOf b = some pb) (hne : pa ≠ pb) :
    wrapInt (s.moveDelta a pb + (s.shift a pa pb).moveDelta b pa)
      = g.reckonedMove s.partOf a pa pb
        + g.reckonedMove (Function.update s.partOf a (some pb)) b pb pa := by
  have hab : a ≠ b := Hypergraph.ne_of_parts hpa hpb hne
  obtain ⟨hmid, hpb', hpart⟩ := h.shift_first ha hpa hpb hne
  rw [h.moveDelta_eq_of_pull_lt ha hpa (hgains.pull_lt a),
    hmid.moveDelta_eq_of_pull_lt hb hpb' (hgains.pull_lt b), hpart]
  refine wrapInt_of_abs_lt ((abs_add_le _ _).trans_lt ?_)
  have hpulls : (g.pull a + g.pull b : Int) < 2 ^ 63 := by exact_mod_cast hgains.pull_add_lt hab
  exact (add_le_add (g.abs_reckonedMove_le _ _ _ _) (g.abs_reckonedMove_le _ _ _ _)).trans_lt hpulls

end Search

end IonTrap
