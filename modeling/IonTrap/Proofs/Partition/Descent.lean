import IonTrap.Proofs.Partition.Answers
import IonTrap.Proofs.Partition.Cut

/-!
# Refinement descends to a local optimum

A pass takes moves and exchanges one after the other, each only if the change that is reckoned for
it is negative. Where gains fit into words, what was reckoned is never less than the change of the
cut, so a pass lowers the cut or takes nothing at all (`Search.Complete.refine_cases`). If it takes
nothing and no net lists a vertex twice, the reckoning is exact and no single move or exchange is
left that pays. The exchanges that a pass does not try are those of a vertex without nets with a
later one. The order is by the weight of the nets, so the nets of the later one weigh nothing.
-/

namespace IonTrap

namespace Search

variable {g : Hypergraph} {s s' : Search} {v p source target : Nat}

/-! ## One move -/

/-- The choice of the least of some numbers ends with one that is no more than any of them. -/
theorem exists_foldl_least {f : Nat → Int} {d : Int} (ps : List Nat) (best : Option (Int × Nat))
    (h : (∃ b, best = some b ∧ b.1 ≤ d) ∨ ∃ p ∈ ps, f p ≤ d) :
    ∃ b, ps.foldl (fun best p => if best.all fun b => f p < b.1 then some (f p, p) else best) best
      = some b ∧ b.1 ≤ d := by
  induction ps generalizing best with
  | nil => simpa using h
  | cons q ps ih =>
    rw [List.foldl_cons]
    apply ih
    rcases h with ⟨b, rfl, hb⟩ | ⟨p, hp, hle⟩
    · left
      rw [Option.all_some]
      split_ifs with hq
      · exact ⟨_, rfl, by simp at hq; omega⟩
      · exact ⟨b, rfl, hb⟩
    rcases List.mem_cons.1 hp with rfl | hp
    · -- the number itself is chosen, or one before it is no more
      left
      split_ifs with hq
      · exact ⟨_, rfl, hle⟩
      · obtain ⟨b, rfl, hb⟩ : ∃ b, best = some b ∧ b.1 ≤ f p := by
          cases best with
          | none => simp at hq
          | some b => exact ⟨b, rfl, by simpa using hq⟩
        exact ⟨b, rfl, hb.trans hle⟩
    · exact .inr ⟨p, hp, hle⟩

/-- If no move is made, none to a part with room was reckoned to pay. -/
theorem moveDelta_nonneg_of_tryMove? (h : s.tryMove? v = none) (hs : s.partOf v = some source)
    (hp : p < s.graph.numParts) (hne : p ≠ source) (hroom : s.hasRoom v p = true) :
    0 ≤ s.moveDelta v p := by
  have hmem : p ∈ (List.range s.graph.numParts).filter fun p => p != source && s.hasRoom v p := by
    simp [hp, hne, hroom]
  obtain ⟨⟨d, target⟩, hbest, hle⟩ := exists_foldl_least _ none (.inr ⟨p, hmem, le_rfl⟩)
  have hbest : s.bestMove? v source = some (d, target) := hbest
  rw [tryMove?, hs] at h
  dsimp only at h
  rw [hbest] at h
  dsimp only at h
  split_ifs at h with hneg
  exact (Int.not_lt.1 hneg).trans hle

/-! ## One exchange -/

variable {a b pa pb : Nat}

/-- If no exchange is made, it was not reckoned to pay or does not fit. -/
theorem moveDelta_nonneg_of_trySwap? (h : s.trySwap? a b = none) (hpa : s.partOf a = some pa)
    (hpb : s.partOf b = some pb) (hne : pa ≠ pb)
    (hfita : wrap (wrapSub (s.loadOf pa) (s.graph.weight a) + s.graph.weight b)
      ≤ s.graph.partSize pa)
    (hfitb : wrap (wrapSub (s.loadOf pb) (s.graph.weight b) + s.graph.weight a)
      ≤ s.graph.partSize pb) :
    0 ≤ wrapInt (s.moveDelta a pb + (s.shift a pa pb).moveDelta b pa) := by
  rw [trySwap?, hpa, hpb] at h
  dsimp only at h
  split_ifs at h with hsizes hneg
  · omega
  · exact Int.not_lt.1 hneg

/-! ## What is taken lowers the cut -/

/-- Every vertex has a part, and the tables are exact. -/
structure Complete (g : Hypergraph) (s : Search) : Prop extends Exact g s where
  placed : ∀ v < g.numVertices, (s.partOf v).isSome = true

/-- A free vertex of a complete search may go to any part. -/
theorem Complete.shift (h : s.Complete g) (hv : v < g.numVertices) (hfree : g.fixed v = none)
    (hs : s.partOf v = some source) (ht : target < g.numParts) :
    (s.shift v source target).Complete g := by
  obtain ⟨htracks, hpart⟩ := h.toTracks.shift hv hfree hs ht
  exact ⟨(h.counted.shift hv hs ht).exact htracks, hpart ▸ isSome_update h.placed v target⟩

section Take

variable (hgains : g.GainsFit) (h : s.Complete g)
include hgains h

theorem Complete.tryMove (hv : v < g.numVertices) (hfree : g.fixed v = none)
    (hs' : s.tryMove? v = some s') : s'.Complete g ∧ g.cutOf s'.partOf < g.cutOf s.partOf := by
  obtain ⟨source, target, hs, ht, hne, -, hneg, rfl⟩ := tryMove?_eq_some hs'
  rw [h.graph] at ht
  have hle := Hypergraph.cutOf_update_le hs (Ne.symm hne) (h.part_lt v source hs) ht
  rw [← h.weighed.partOf_shift hv hs] at hle
  rw [h.counted.moveDelta_eq_of_pull_lt hv hs (hgains.pull_lt v)] at hneg
  exact ⟨h.shift hv hfree hs ht, by omega⟩

theorem Complete.trySwap (ha : a < g.numVertices) (hb : b < g.numVertices)
    (hfreea : g.fixed a = none) (hfreeb : g.fixed b = none) (hs' : s.trySwap? a b = some s') :
    s'.Complete g ∧ g.cutOf s'.partOf < g.cutOf s.partOf := by
  obtain ⟨pa, pb, hpa, hpb, hne, -, -, hneg, rfl⟩ := trySwap?_eq_some hs'
  have hlta := h.part_lt a pa hpa
  have hltb := h.part_lt b pb hpb
  obtain ⟨hmid, hpb', hpart⟩ := h.counted.shift_first ha hpa hpb hne
  -- the second move is reckoned where the first has been made
  have hfirst := Hypergraph.cutOf_update_le hpa hne hlta hltb
  have hsecond := Hypergraph.cutOf_update_le hpb' (Ne.symm hne) hltb hlta
  rw [h.counted.exchangeDelta_eq hgains ha hb hpa hpb hne, ← hpart] at hneg
  rw [← hpart] at hfirst
  rw [← hmid.partOf_shift hb hpb'] at hsecond
  exact ⟨(h.shift ha hfreea hpa hltb).shift hb hfreeb hpb' hlta, by omega⟩

end Take

/-! ## One pass -/

/-- Something was taken: that is told, and the cut has fallen. -/
def Pass.Improves (g : Hypergraph) (x y : Pass) : Prop :=
  y.2 = true ∧ g.cutOf y.1.partOf < g.cutOf x.1.partOf

theorem Pass.Improves.andThen {x y z : Pass} (h : x.Improves g y) (hz : z = y ∨ y.Improves g z) :
    x.Improves g z := by
  rcases hz with rfl | ⟨htold, hlower⟩
  · exact h
  · exact ⟨htold, hlower.trans h.2⟩

/-- Tries that lower the cut when they are taken, one after the other: they lower it together, or
none of them is taken. -/
theorem tries_cases {f : Search → Nat → Option Search} {vs : List Nat}
    (hf : ∀ s, s.Complete g → ∀ v ∈ vs, ∀ s', f s v = some s' →
      s'.Complete g ∧ g.cutOf s'.partOf < g.cutOf s.partOf) {x : Pass} (hx : x.1.Complete g) :
    (vs.foldl (fun s v => Pass.take s (f s.1 v)) x).1.Complete g ∧
      ((vs.foldl (fun s v => Pass.take s (f s.1 v)) x = x ∧ ∀ v ∈ vs, f x.1 v = none) ∨
        x.Improves g (vs.foldl (fun s v => Pass.take s (f s.1 v)) x)) := by
  induction vs generalizing x with
  | nil => exact ⟨hx, .inl ⟨rfl, by simp⟩⟩
  | cons v vs ih =>
    have hrest : ∀ s, s.Complete g → ∀ u ∈ vs, ∀ s', f s u = some s' →
        s'.Complete g ∧ g.cutOf s'.partOf < g.cutOf s.partOf :=
      fun s hs u hu => hf s hs u (List.mem_cons_of_mem _ hu)
    rw [List.foldl_cons]
    cases hfirst : f x.1 v with
    | none =>
      obtain ⟨hcomplete, hcases⟩ := ih hrest hx
      refine ⟨hcomplete, hcases.imp (fun hsame => ⟨hsame.1, ?_⟩) id⟩
      rw [List.forall_mem_cons]
      exact ⟨hfirst, hsame.2⟩
    | some s' =>
      obtain ⟨hs', hlower⟩ := hf x.1 hx v List.mem_cons_self s' hfirst
      have htaken : x.Improves g (Pass.take x (some s')) := ⟨rfl, hlower⟩
      obtain ⟨hcomplete, hcases⟩ := ih hrest (show (Pass.take x (some s')).1.Complete g from hs')
      exact ⟨hcomplete, .inr (htaken.andThen (hcases.imp And.left id))⟩

section Pass

variable (hgains : g.GainsFit) {order : List Nat}
  (horder : ∀ v ∈ order, v < g.numVertices ∧ g.fixed v = none)
include hgains horder

theorem Complete.swapAll_cases {x : Pass} (hx : x.1.Complete g) :
    (swapAll order x).1.Complete g ∧ ((swapAll order x = x ∧ order.Pairwise fun a b =>
        x.1.netsAt a ≠ [] → x.1.trySwap? a b = none) ∨ x.Improves g (swapAll order x)) := by
  induction order generalizing x with
  | nil => exact ⟨hx, .inl ⟨rfl, .nil⟩⟩
  | cons a vs ih =>
    rw [List.forall_mem_cons] at horder
    obtain ⟨⟨ha, hfree⟩, hvs⟩ := horder
    rw [Search.swapAll]
    by_cases hnets : x.1.netsAt a = []
    · rw [if_pos (by simp [hnets])]
      obtain ⟨hcomplete, hcases⟩ := ih hvs hx
      refine ⟨hcomplete, hcases.imp (fun hsame => ⟨hsame.1, ?_⟩) id⟩
      exact List.pairwise_cons.2 ⟨fun b _ hne => absurd hnets hne, hsame.2⟩
    · rw [if_neg (by simp [hnets])]
      obtain ⟨hcomplete, htries⟩ := tries_cases (fun s hs b hb s' =>
        hs.trySwap hgains ha (hvs b hb).1 hfree (hvs b hb).2) hx
      obtain ⟨hcomplete', hcases⟩ := ih hvs hcomplete
      refine ⟨hcomplete', ?_⟩
      rcases htries with ⟨hsame, hnone⟩ | himproved
      · rw [hsame] at hcases ⊢
        refine hcases.imp (fun hsame' => ⟨hsame'.1, ?_⟩) id
        exact List.pairwise_cons.2 ⟨fun b hb _ => hnone b hb, hsame'.2⟩
      · exact .inr (himproved.andThen (hcases.imp And.left id))

/-- A pass lowers the cut and tells so, or it takes nothing. -/
theorem Complete.refine_cases (h : s.Complete g) :
    (s.refine order).1.Complete g ∧ ((s.refine order = (s, false) ∧
        (∀ v ∈ order, s.tryMove? v = none) ∧
        order.Pairwise fun a b => s.netsAt a ≠ [] → s.trySwap? a b = none) ∨
      Pass.Improves g (s, false) (s.refine order)) := by
  obtain ⟨hmoved, hmoves⟩ := tries_cases (fun s hs v hv s' =>
    hs.tryMove hgains (horder v hv).1 (horder v hv).2) (x := (s, false)) h
  obtain ⟨hcomplete, hswaps⟩ := Complete.swapAll_cases hgains horder hmoved
  refine ⟨hcomplete, ?_⟩
  rw [refine, moveAll]
  rcases hmoves with ⟨hsame, hnone⟩ | himproved
  · rw [hsame] at hswaps ⊢
    exact hswaps.imp (fun hswaps => ⟨hswaps.1, hnone, hswaps.2⟩) id
  · exact .inr (himproved.andThen (hswaps.imp And.left id))

end Pass

end Search

end IonTrap
