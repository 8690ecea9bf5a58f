import IonTrap.Proofs.Partition.Descent

/-!
# Local optima

An assignment is locally best if no other one that passes the check and differs from it by one move
or one exchange of free vertices has a lower cut (`Hypergraph.LocallyBest`). A pass that takes
nothing has found such an assignment, if gains fit into words and no net lists a vertex twice
(`Search.Reached.locallyBest`). Whether an assignment is within the sizes is told from words, by the
check and by the search alike.
-/

namespace IonTrap

namespace Hypergraph

variable {g : Hypergraph} {part : Nat → Option Nat} {x : Assignment} {v a b : Nat}

/-- No other assignment within the sizes that one move of a free vertex leads to, or one exchange of
two free vertices of different parts, has a lower cut. -/
structure LocallyBest (g : Hypergraph) (x : Assignment) : Prop where
  move : ∀ v p, v < g.numVertices → g.fixed v = none →
    g.checkAssignment (x.set v p) = .ok () → g.cut x ≤ g.cut (x.set v p)
  exchange : ∀ a b, a < g.numVertices → b < g.numVertices → g.fixed a = none →
    g.fixed b = none → x.getD a 0 ≠ x.getD b 0 →
    g.checkAssignment ((x.set a (x.getD b 0)).set b (x.getD a 0)) = .ok () →
    g.cut x ≤ g.cut ((x.set a (x.getD b 0)).set b (x.getD a 0))

/-- No net lists a vertex twice. -/
def Simple (g : Hypergraph) : Prop := ∀ e ∈ g.nets, e.pins.Nodup

/-! ## Assignments as maps -/

/-- An assignment lists the parts that a map gives to the vertices. -/
structure Lists (g : Hypergraph) (x : Assignment) (part : Nat → Option Nat) : Prop where
  length : x.length = g.numVertices
  get : ∀ v < g.numVertices, part v = x[v]?

theorem Lists.set (h : g.Lists x part) (hv : v < g.numVertices) (p : Nat) :
    g.Lists (x.set v p) (Function.update part v (some p)) := by
  refine ⟨by rw [List.length_set, h.length], fun u hu => ?_⟩
  by_cases huv : u = v
  · subst huv
    rw [Function.update_self, List.getElem?_set_self (h.length ▸ hv)]
  · rw [Function.update_of_ne huv, List.getElem?_set_ne (Ne.symm huv), h.get u hu]

/-- What the check says of the map. -/
theorem Lists.spec_of_check (h : g.Lists x part) (hcheck : g.checkAssignment x = .ok ()) :
    (∀ v < g.numVertices, ∀ p, part v = some p → p < g.numParts) ∧
      ∀ p < g.numParts, wrap (g.weightIn part p) ≤ g.partSize p := by
  obtain ⟨-, hparts, hsizes⟩ := checkAssignment_eq_ok_iff.1 hcheck
  refine ⟨fun v hv p hp => (hparts v p (h.get v hv ▸ hp)).1, fun p hp => ?_⟩
  rw [weightIn_congr h.get]
  exact hsizes p hp

theorem Lists.cut_eq (hvalid : g.validate = .ok ()) (h : g.Lists x part)
    (hlt : ∀ v < g.numVertices, ∀ p, part v = some p → p < g.numParts) :
    g.cut x = g.cutOf part := by
  refine cut_eq_cutOf (validate_eq_ok_iff.1 hvalid).1 h.get fun v hv => ?_
  have hx := List.getElem?_eq_getElem (show v < x.length from h.length ▸ hv)
  exact ⟨_, hlt v hv _ (by rw [h.get v hv, hx]), hx⟩

theorem Simple.nodup_pinsOf (h : g.Simple) (e : Nat) : (g.pinsOf e).Nodup := by
  rw [pinsOf]
  cases he : g.nets[e]? with
  | none => exact List.nodup_nil
  | some net => exact h net (Array.mem_of_getElem? he)

/-! ## Vertices without weight -/

/-- The nets of a vertex weigh nothing. -/
def Idle (g : Hypergraph) (v : Nat) : Prop := ∀ e, v ∈ g.pinsOf e → g.netWeight e = 0

theorem Idle.cutOf_update (h : g.Idle v) (part : Nat → Option Nat) (y : Option Nat) :
    g.cutOf (Function.update part v y) = g.cutOf part := by
  refine Finset.sum_congr rfl fun e _ => ?_
  rw [share, share]
  by_cases hv : v ∈ g.pinsOf e
  · rw [h e hv, Nat.zero_mul, Nat.zero_mul]
  · rw [spanned_update_of_notMem hv]

/-- Exchanging two vertices within the sizes of their parts does not lower the cut. -/
def Settled (g : Hypergraph) (part : Nat → Option Nat) (a b : Nat) : Prop :=
  ∀ pa pb, part a = some pa → part b = some pb → pa ≠ pb →
    wrap (g.weightIn part pa - g.weight a + g.weight b) ≤ g.partSize pa →
    wrap (g.weightIn part pb - g.weight b + g.weight a) ≤ g.partSize pb →
    g.cutOf part ≤ g.cutOf (Function.update (Function.update part a (some pb)) b (some pa))

theorem Settled.symm (h : g.Settled part a b) : g.Settled part b a := by
  intro pb pa hpb hpa hne hfitb hfita
  have hab : a ≠ b := ne_of_parts hpa hpb (Ne.symm hne)
  rw [Function.update_comm hab.symm]
  exact h pa pb hpa hpb hne.symm hfita hfitb

instance (g : Hypergraph) (part : Nat → Option Nat) : Std.Symm (g.Settled part) :=
  ⟨fun _ _ h => h.symm⟩

theorem Idle.settled (ha : g.Idle a) (hb : g.Idle b) (part : Nat → Option Nat) :
    g.Settled part a b := by
  intro pa pb _ _ _ _ _
  rw [hb.cutOf_update, ha.cutOf_update]

end Hypergraph

namespace Search

variable {g : Hypergraph} {s s' : Search} {order : List Nat} {v a b p : Nat}

/-! ## The order of the free vertices -/

theorem pairwise_freeOrder (s : Search) (seed : Nat) :
    (s.freeOrder seed).Pairwise fun a b => s.strength b ≤ s.strength a := by
  have hsorted : (s.freeOrder seed).Pairwise fun a b =>
      decide (s.strength b ≤ s.strength a) = true := by
    refine pairwise_untag_mergeSort (fun v => (s.strength v, v)) (·.2)
      (fun x y => decide (y.1 ≤ x.1)) (fun _ => rfl) (fun x y z hxy hyz => ?_) (fun x y => ?_) _
    · rw [decide_eq_true_eq] at hxy hyz ⊢
      exact hyz.trans hxy
    · rw [Bool.or_eq_true, decide_eq_true_eq, decide_eq_true_eq]
      exact Nat.le_total _ _
  exact hsorted.imp of_decide_eq_true

theorem Exact.strength_eq (h : s.Exact g) (h' : s'.Exact g) (v : Nat) :
    s.strength v = s'.strength v := by
  rw [strength, strength, netsAt, netsAt, h.graph, h'.graph, h.incident, h'.incident]

theorem total_map_netsOf (g : Hypergraph) (v : Nat) :
    total ((netsOf g v).map g.netWeight) = g.pull v := by
  rw [total_map_eq_sum_count g.netWeight fun e => lt_size_of_mem_netsOf, Hypergraph.pull]
  refine Finset.sum_congr rfl fun e _ => ?_
  rw [count_netsOf]

theorem eq_zero_of_total_eq_zero {ns : List Nat} (h : total ns = 0) : ∀ n ∈ ns, n = 0 := by
  induction ns with
  | nil => simp
  | cons n ns ih =>
    rw [total_cons] at h
    rw [List.forall_mem_cons]
    exact ⟨by omega, ih (by omega)⟩

theorem Exact.idle_of_strength (hgains : g.GainsFit) (h : s.Exact g) (hv : v < g.numVertices)
    (hzero : s.strength v = 0) :
    g.Idle v := by
  intro e he
  have hmem : e ∈ netsOf g v := by
    rw [← List.count_pos_iff, count_netsOf]
    exact List.count_pos_iff.2 he
  have hword : g.pull v < wordSize := (hgains.pull_lt v).trans (by decide)
  rw [strength, netsAt_eq h.incident hv, h.graph, wrap_of_lt (by rwa [total_map_netsOf])] at hzero
  exact eq_zero_of_total_eq_zero hzero _ (List.mem_map_of_mem hmem)

/-! ## A pass that takes nothing -/

theorem Weighed.lists (h : s.Weighed g)
    (hplaced : ∀ v < g.numVertices, (s.partOf v).isSome = true) : g.Lists s.assignment s.partOf :=
  ⟨h.length_assignment, fun v hv => (h.getElem?_assignment hv (hplaced v hv)).symm⟩

section Settled

variable (h : s.Complete g)
include h

theorem Complete.lists : g.Lists s.assignment s.partOf := h.weighed.lists h.placed

theorem Complete.cut_eq (hvalid : g.validate = .ok ()) : g.cut s.assignment = g.cutOf s.partOf :=
  h.lists.cut_eq hvalid fun v _ => h.part_lt v

/-- The cut as a word is the cut, if gains fit. -/
theorem Complete.findCut_eq (hvalid : g.validate = .ok ()) (hgains : g.GainsFit) :
    g.findCut s.assignment = .ok (g.cut s.assignment) := by
  have hknown : (g.nets.all fun e => e.pins.all fun v =>
      s.assignment[v]?.any (· < g.numParts)) = true := by
    rw [Array.all_eq_true_iff_forall_mem]
    intro e he
    rw [List.all_eq_true]
    intro v hv
    have hlt := (Hypergraph.validate_eq_ok_iff.1 hvalid).1 e he v hv
    obtain ⟨p, hp⟩ := Option.isSome_iff_exists.1 (h.placed v hlt)
    rw [h.weighed.getElem?_assignment hlt (h.placed v hlt), hp]
    simpa using h.part_lt v p hp
  have hword : g.cut s.assignment < wordSize := by
    rw [h.cut_eq hvalid]
    exact hgains.cutOf_lt s.partOf
  rw [Hypergraph.findCut]
  simp only [hknown, if_true, wrap_of_lt hword]

theorem Complete.exists_part (hv : v < g.numVertices) :
    ∃ p, s.partOf v = some p ∧ s.assignment.getD v 0 = p := by
  obtain ⟨p, hp⟩ := Option.isSome_iff_exists.1 (h.placed v hv)
  refine ⟨p, hp, ?_⟩
  rw [List.getD_eq_getElem?_getD, h.weighed.getElem?_assignment hv (h.placed v hv), hp,
    Option.getD_some]

variable (hgains : g.GainsFit) (hnodup : ∀ e, (g.pinsOf e).Nodup)
include hgains hnodup

/-- If no move is made, none within the sizes lowers the cut. -/
theorem Complete.cutOf_le_of_move (hv : v < g.numVertices) (hnone : s.tryMove? v = none)
    (hp : p < g.numParts)
    (hsize : wrap (g.weightIn (Function.update s.partOf v (some p)) p) ≤ g.partSize p) :
    g.cutOf s.partOf ≤ g.cutOf (Function.update s.partOf v (some p)) := by
  obtain ⟨source, hs, -⟩ := h.exists_part hv
  by_cases hne : p = source
  · rw [hne, ← hs, Function.update_eq_self]
  · have hroom : s.hasRoom v p = true := by
      have hw := Hypergraph.weightIn_update s.partOf hv (some p) p
      rw [hs, if_neg fun heq => hne (Option.some.inj heq).symm, if_pos rfl, Nat.add_zero] at hw
      rwa [h.weighed.hasRoom_iff, ← hw]
    have hdelta := moveDelta_nonneg_of_tryMove? hnone hs (h.graph ▸ hp) hne hroom
    rw [h.counted.moveDelta_eq_of_pull_lt hv hs (hgains.pull_lt v)] at hdelta
    have hcut := Hypergraph.cutOf_update_eq hs (Ne.symm hne) (h.part_lt v source hs) hp hnodup
    omega

/-- If no exchange is made, it does not lower the cut or does not fit. -/
theorem Complete.settled_of_trySwap (ha : a < g.numVertices) (hb : b < g.numVertices)
    (hnone : s.trySwap? a b = none) : g.Settled s.partOf a b := by
  intro pa pb hpa hpb hne hfita hfitb
  have hlta := h.part_lt a pa hpa
  have hltb := h.part_lt b pb hpb
  obtain ⟨-, hpb', hpart⟩ := h.counted.shift_first ha hpa hpb hne
  rw [← h.weighed.load_exchange ha hpa, ← h.graph] at hfita
  rw [← h.weighed.load_exchange hb hpb, ← h.graph] at hfitb
  have hdelta := moveDelta_nonneg_of_trySwap? hnone hpa hpb hne hfita hfitb
  rw [h.counted.exchangeDelta_eq hgains ha hb hpa hpb hne] at hdelta
  have hfirst := Hypergraph.cutOf_update_eq hpa hne hlta hltb hnodup
  have hsecond := Hypergraph.cutOf_update_eq hpb' (Ne.symm hne) hltb hlta hnodup
  rw [hpart] at hsecond
  omega

/-- Of a vertex and a later one the exchange was tried, or neither has a net with a weight. -/
theorem Complete.settled_of_order (ha : a < g.numVertices) (hb : b < g.numVertices)
    (hstrength : s.strength b ≤ s.strength a)
    (hnone : s.netsAt a ≠ [] → s.trySwap? a b = none) : g.Settled s.partOf a b := by
  by_cases hnets : s.netsAt a = []
  · have hzero : s.strength a = 0 := by
      rw [strength, hnets, List.map_nil, total_nil, wrap_zero]
    exact (h.toExact.idle_of_strength hgains ha hzero).settled
      (h.toExact.idle_of_strength hgains hb (by omega)) _
  · exact h.settled_of_trySwap hgains hnodup ha hb (hnone hnets)

end Settled

/-! ## The searches of a partition -/

/-- The searches with all vertices placed that partitioning comes to, with the order of the free
vertices: the greedy start, and what a pass makes of such a search. -/
inductive Reached (g : Hypergraph) (seed : Nat) : List Nat → Search → Prop
  | greedy {s s' : Search} (hfixed : (start g).placeFixed (List.range g.numVertices) = .ok s)
      (hgreedy : s.placeGreedy (s.freeOrder seed) = .ok s') : Reached g seed (s.freeOrder seed) s'
  | pass {order : List Nat} {s : Search} (h : Reached g seed order s) :
      Reached g seed order (s.refine order).1

section Reached

variable {seed : Nat} (hvalid : g.validate = .ok ())
include hvalid

theorem complete_of_greedy (hs : (start g).placeFixed (List.range g.numVertices) = .ok s)
    (hs' : s.placeGreedy (s.freeOrder seed) = .ok s') : s.Exact g ∧ s'.Complete g := by
  have hfixed := InPlace.exec_placeFixed (Hypergraph.validate_eq_ok_iff.1 hvalid).2
    (counted_start g) List.nodup_range (fun v => List.mem_range.1) (fun v _ _ => partOf_start g v)
  rw [hs] at hfixed
  have hcounted : s.Counted g := hfixed.2 _ hfixed.1
  obtain ⟨hadm, -, horder, hnone⟩ := LocalSearch.order_of_placeFixed hvalid hs seed
  have hcounted' := hcounted.placeGreedy (nodup_freeOrder s seed) (fun v hv => (horder v hv).1)
    hnone hs'
  have hanswers := LocalSearch.answers_of_placeGreedy hvalid hs hs'
  exact ⟨hcounted.exact hadm.toTracks, ⟨hcounted'.exact hanswers.toTracks, hanswers.placed⟩⟩

section Gains

variable (hgains : g.GainsFit)
include hgains

/-- All these searches are complete, and the order has the free vertices, strongest first. -/
theorem Reached.spec (h : Reached g seed order s) : s.Complete g ∧
    (∀ v, v ∈ order ↔ v < g.numVertices ∧ g.fixed v = none) ∧
      order.Pairwise fun a b => s.strength b ≤ s.strength a := by
  induction h with
  | greedy hs hs' =>
    obtain ⟨hexact, hcomplete⟩ := complete_of_greedy hvalid hs hs'
    refine ⟨hcomplete, fun v => by rw [mem_freeOrder_iff, hexact.graph], ?_⟩
    refine (pairwise_freeOrder _ seed).imp fun {a b} hle => ?_
    rwa [hcomplete.toExact.strength_eq hexact, hcomplete.toExact.strength_eq hexact]
  | pass _ ih =>
    obtain ⟨hcomplete, hmem, hsorted⟩ := ih
    have hnext := (hcomplete.refine_cases hgains fun v hv => (hmem v).1 hv).1
    refine ⟨hnext, hmem, hsorted.imp fun {a b} hle => ?_⟩
    rwa [hnext.toExact.strength_eq hcomplete.toExact, hnext.toExact.strength_eq hcomplete.toExact]

/-- Passes lead from one such search to another and never raise the cut. -/
theorem Reached.refineUpTo (n : Nat) (h : Reached g seed order s) :
    Reached g seed order (refineUpTo order n s) ∧
      g.cutOf (refineUpTo order n s).partOf ≤ g.cutOf s.partOf := by
  induction n generalizing s with
  | zero => exact ⟨h, le_rfl⟩
  | succ n ih =>
    obtain ⟨hcomplete, hmem, -⟩ := h.spec hvalid hgains
    have hle : g.cutOf (s.refine order).1.partOf ≤ g.cutOf s.partOf := by
      rcases (hcomplete.refine_cases hgains fun v hv => (hmem v).1 hv).2 with ⟨hsame, -⟩ | himproved
      · rw [hsame]
      · exact himproved.2.le
    obtain ⟨hlast, hle'⟩ := ih h.pass
    rw [Search.refineUpTo]
    split
    · next s' hs' =>
      rw [hs'] at hlast hle' hle
      exact ⟨hlast, hle'.trans hle⟩
    · next s' hs' =>
      have hnext := h.pass
      rw [hs'] at hnext hle
      exact ⟨hnext, hle⟩

/-- A pass that takes nothing has found a local optimum, if no net lists a vertex twice. -/
theorem Reached.locallyBest (hsimple : g.Simple) (h : Reached g seed order s)
    (hmoves : ∀ v ∈ order, s.tryMove? v = none)
    (hswaps : order.Pairwise fun a b => s.netsAt a ≠ [] → s.trySwap? a b = none) :
    g.LocallyBest s.assignment := by
  obtain ⟨hcomplete, hmem, hsorted⟩ := h.spec hvalid hgains
  have hpins := hsimple.nodup_pinsOf
  constructor
  · intro v p hv hfree hcheck
    have hlists := hcomplete.lists.set hv p
    obtain ⟨hlt, hsizes⟩ := hlists.spec_of_check hcheck
    have hp : p < g.numParts := hlt v hv p (Function.update_self ..)
    rw [hcomplete.cut_eq hvalid, hlists.cut_eq hvalid hlt]
    exact hcomplete.cutOf_le_of_move hgains hpins hv (hmoves v ((hmem v).2 ⟨hv, hfree⟩)) hp
      (hsizes p hp)
  · intro a b ha hb hfreea hfreeb hne hcheck
    -- an exchange is tried in one order of the two, and pays in both or in none
    have hsettled : order.Pairwise (g.Settled s.partOf) := by
      refine (hswaps.and hsorted).imp_of_mem fun {a b} ha hb hab => ?_
      exact hcomplete.settled_of_order hgains hpins ((hmem a).1 ha).1 ((hmem b).1 hb).1 hab.2 hab.1
    obtain ⟨pa, hpa, hxa⟩ := hcomplete.exists_part ha
    obtain ⟨pb, hpb, hxb⟩ := hcomplete.exists_part hb
    rw [hxa, hxb] at hne hcheck ⊢
    have hab : a ≠ b := Hypergraph.ne_of_parts hpa hpb hne
    have hlists := (hcomplete.lists.set ha pb).set hb pa
    obtain ⟨hlt, hsizes⟩ := hlists.spec_of_check hcheck
    obtain ⟨hwa, hwb, -⟩ := Hypergraph.weightIn_exchange ha hb hpa hpb hne
    have hsizea := hsizes pa (hcomplete.part_lt a pa hpa)
    have hsizeb := hsizes pb (hcomplete.part_lt b pb hpb)
    rw [hwa] at hsizea
    rw [hwb] at hsizeb
    rw [hcomplete.cut_eq hvalid, hlists.cut_eq hvalid hlt]
    exact hsettled.forall ((hmem a).2 ⟨ha, hfreea⟩) ((hmem b).2 ⟨hb, hfreeb⟩) hab pa pb hpa hpb hne
      hsizea hsizeb

end Gains

end Reached

end Search

end IonTrap
