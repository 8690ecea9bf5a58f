import IonTrap.Proofs.Architecture.Sweep
import IonTrap.Proofs.Trap.Reachable
import IonTrap.Trap.Cost

/-!
# The nearest zones

The layers around a zone hold the zones that it is connected to, each of them once, and no layer is
empty. So the list of the nearest zones, which takes one layer after the other and sorts each by the
price of moving a qubit there, names every connected zone once, in the lexicographic order of hops
and prices (`CostModel.closest_sorted`). A zone that has no price right now is infinitely dear.
-/

namespace IonTrap

namespace Architecture

variable {a : Architecture} {x z d : Nat} {layer : List Nat}

/-- What holds of the first layer and of new zones holds of every layer. -/
theorem forall_mem_layersFrom {P : List Nat → Prop}
    (hfresh : ∀ seen zs, fresh seen zs ≠ [] → P (fresh seen zs)) {fuel : Nat} {seen : List Nat}
    (hlayer : P layer) : ∀ l ∈ a.layersFrom fuel seen layer, P l := by
  induction fuel generalizing seen layer with
  | zero => simpa [layersFrom] using hlayer
  | succ fuel ih =>
    rw [layersFrom, List.forall_mem_cons]
    refine ⟨hlayer, ?_⟩
    split
    · simp
    · next hne => exact ih (hfresh _ _ (by simpa using hne))

theorem nodup_of_mem_layers (h : layer ∈ a.layers x) : layer.Nodup :=
  forall_mem_layersFrom (fun _ _ _ => nodup_fresh _ _) (List.nodup_singleton x) layer h

theorem ne_nil_of_mem_layers (h : layer ∈ a.layers x) : layer ≠ [] :=
  forall_mem_layersFrom (P := (· ≠ [])) (fun _ _ hne => hne) (List.cons_ne_nil x []) layer h

namespace Legal

variable (ha : a.Legal)
include ha

/-- More fuel than there are zones makes no difference. -/
theorem layersFrom_eq (hx : x < a.numZones) {seen : List Nat} (hf : a.Front x d seen layer)
    (fuel fuel' : Nat) (hfuel : a.numZones ≤ fuel + d) (hfuel' : a.numZones ≤ fuel' + d) :
    a.layersFrom fuel seen layer = a.layersFrom fuel' seen layer := by
  have hd := ha.front_lt hx hf
  induction fuel generalizing fuel' d seen layer with
  | zero => omega
  | succ fuel ih =>
    cases fuel' with
    | zero => omega
    | succ fuel' =>
      rw [layersFrom, layersFrom]
      by_cases hne : fresh seen (layer.flatMap a.neighbors) = []
      · simp [hne]
      · have hnext := ha.front_next hf hne
        rw [ih hnext fuel' (by omega) (by omega) (ha.front_lt hx hnext)]

theorem mem_layer_iff (hx : x < a.numZones) (hlayer : (a.layers x)[d]? = some layer) :
    z ∈ layer ↔ a.AtDistance x d z := by
  rw [← ha.mem_layers_iff hx d, hlayer]
  simp

theorem exists_mem_layers_iff (hx : x < a.numZones) :
    (∃ layer ∈ a.layers x, z ∈ layer) ↔ ∃ n, a.Walk x n z := by
  constructor
  · rintro ⟨layer, hlayer, hz⟩
    obtain ⟨d, hd⟩ := List.getElem?_of_mem hlayer
    exact ⟨d, ((ha.mem_layer_iff hx hd).1 hz).walk⟩
  · intro hwalk
    obtain ⟨d, hd⟩ := exists_atDistance hwalk
    obtain ⟨layer, hlayer, hz⟩ := (ha.mem_layers_iff hx d).2 hd
    exact ⟨layer, List.mem_of_getElem? hlayer, hz⟩

/-- Later layers lie further away. -/
theorem pairwise_layers (hx : x < a.numZones) :
    (a.layers x).Pairwise fun near far => ∀ y ∈ near, ∀ z ∈ far, ∃ j k,
      a.AtDistance x j y ∧ a.AtDistance x k z ∧ j < k := by
  rw [List.pairwise_iff_getElem]
  intro j k hj hk hlt y hy z hz
  exact ⟨j, k, (ha.mem_layer_iff hx (List.getElem?_eq_getElem hj)).1 hy,
    (ha.mem_layer_iff hx (List.getElem?_eq_getElem hk)).1 hz, hlt⟩

end Legal

end Architecture

namespace CostModel

/-- A price as a number, infinite if there is none. -/
def orTop : Option Nat → WithTop Nat
  | some c => c
  | none => ⊤

theorem priceLe_iff {x y : Option Nat} : priceLe x y = true ↔ orTop x ≤ orTop y := by
  cases x <;> cases y <;> simp [priceLe, orTop]

variable {t : Trap} {m : CostModel} {q source z : Nat}

/-- A layer by the price of moving a qubit there. -/
def byPrice (m : CostModel) (t : Trap) (q source : Nat) (layer : List Nat) : List Nat :=
  ((layer.map fun z => (z, m.single t q source z)).mergeSort fun x y => priceLe x.2 y.2).map (·.1)

theorem closest_eq : m.closest t q source
    = ((t.arch.layers source).drop 1).flatMap (m.byPrice t q source) := rfl

theorem perm_byPrice (layer : List Nat) : (m.byPrice t q source layer).Perm layer :=
  perm_untag_mergeSort (fun _ => rfl) layer

theorem pairwise_byPrice (layer : List Nat) : (m.byPrice t q source layer).Pairwise fun y z =>
    orTop (m.single t q source y) ≤ orTop (m.single t q source z) := by
  have hsorted := pairwise_untag_mergeSort (fun z => (z, m.single t q source z)) (·.1)
    (fun x y => priceLe x.2 y.2) (fun _ => rfl)
    (fun x y z hxy hyz => priceLe_iff.2 ((priceLe_iff.1 hxy).trans (priceLe_iff.1 hyz)))
    (fun x y => by simpa [priceLe_iff] using le_total _ _) layer
  exact hsorted.imp priceLe_iff.1

theorem perm_closest :
    (m.closest t q source).Perm ((t.arch.layers source).drop 1).flatten := by
  rw [closest_eq, ← List.flatMap_id]
  exact List.Perm.flatMap_left _ fun layer _ => perm_byPrice layer

section Legal

variable (hlegal : t.arch.Legal) (hs : source < t.arch.numZones)
include hlegal hs

theorem mem_closest_iff : z ∈ m.closest t q source ↔ ∃ d, t.arch.AtDistance source (d + 1) z := by
  rw [perm_closest.mem_iff, List.mem_flatten]
  constructor
  · rintro ⟨layer, hlayer, hz⟩
    obtain ⟨d, hd⟩ := List.getElem?_of_mem hlayer
    rw [List.getElem?_drop, Nat.add_comm] at hd
    exact ⟨d, (hlegal.mem_layer_iff hs hd).1 hz⟩
  · rintro ⟨d, hd⟩
    obtain ⟨layer, hlayer, hz⟩ := (hlegal.mem_layers_iff hs (d + 1)).2 hd
    refine ⟨layer, List.mem_of_getElem? (i := d) ?_, hz⟩
    rw [List.getElem?_drop, Nat.add_comm, hlayer]

theorem lt_of_mem_closest (hz : z ∈ m.closest t q source) : z < t.arch.numZones := by
  obtain ⟨d, hd⟩ := (mem_closest_iff hlegal hs).1 hz
  exact hlegal.walk_lt hs hd.walk

/-- All connected zones but the first are among the nearest. -/
theorem mem_closest_iff_walk :
    z ∈ m.closest t q source ↔ z ≠ source ∧ ∃ n, t.arch.Walk source n z := by
  rw [mem_closest_iff hlegal hs]
  constructor
  · rintro ⟨d, hd⟩
    refine ⟨?_, d + 1, hd.walk⟩
    rintro rfl
    have := hd.unique (Architecture.atDistance_zero_iff.2 rfl)
    omega
  · rintro ⟨hne, hwalk⟩
    obtain ⟨d, hd⟩ := Architecture.exists_atDistance hwalk
    cases d with
    | zero => exact absurd (Architecture.atDistance_zero_iff.1 hd) hne
    | succ d => exact ⟨d, hd⟩

theorem nodup_closest : (m.closest t q source).Nodup := by
  rw [perm_closest.nodup_iff, List.nodup_flatten]
  constructor
  · intro layer hlayer
    exact Architecture.nodup_of_mem_layers (List.mem_of_mem_drop hlayer)
  · refine ((hlegal.pairwise_layers hs).sublist (List.drop_sublist 1 _)).imp ?_
    intro near far hfurther z hnear hfar
    obtain ⟨j, k, hj, hk, hlt⟩ := hfurther z hnear z hfar
    exact absurd (hj.unique hk) (by omega)

/-- The nearest zones come by hops, and for the same number of hops by price. -/
theorem pairwise_closest : (m.closest t q source).Pairwise fun y z => ∀ j k,
    t.arch.AtDistance source j y → t.arch.AtDistance source k z →
      toLex (j, orTop (m.single t q source y)) ≤ toLex (k, orTop (m.single t q source z)) := by
  rw [closest_eq, List.pairwise_flatMap]
  constructor
  · intro layer hlayer
    obtain ⟨d, hd⟩ := List.getElem?_of_mem (List.mem_of_mem_drop hlayer)
    refine (pairwise_byPrice layer).imp_of_mem fun hy hz hprice j k hj hk => ?_
    rw [(perm_byPrice layer).mem_iff, hlegal.mem_layer_iff hs hd] at hy hz
    rw [hj.unique hy, hk.unique hz, Prod.Lex.toLex_le_toLex]
    exact .inr ⟨rfl, hprice⟩
  · refine ((hlegal.pairwise_layers hs).sublist (List.drop_sublist 1 _)).imp ?_
    intro near far hfurther y hy z hz j k hj hk
    rw [(perm_byPrice _).mem_iff] at hy hz
    obtain ⟨j', k', hj', hk', hlt⟩ := hfurther y hy z hz
    rw [hj.unique hj', hk.unique hk', Prod.Lex.toLex_le_toLex]
    exact .inl hlt

end Legal

/-- No look-up of a price leaves the trap. -/
theorem exists_findSingle (hq : q < t.numQubits) (hs : source < t.arch.numZones)
    (hz : z < t.arch.numZones) : ∃ c, m.findSingle t q source z = .ok c := by
  have hport : ∀ port, ∃ c, m.findFromPort t [q] source z port = .ok c := by
    intro port
    cases m <;> simp [findFromPort, Trap.lookUp, Trap.hasZone, Trap.hasQubit, hq, hs, hz]
  obtain ⟨c₀, h₀⟩ := hport .p0
  obtain ⟨c₁, h₁⟩ := hport .p1
  exact ⟨_, by rw [findSingle, h₀, ok_bind, h₁, ok_bind]; rfl⟩

/-- Nor does a look-up of the nearest zones. -/
theorem findClosest_eq (hlegal : t.arch.Legal) (hq : q < t.numQubits)
    (hs : source < t.arch.numZones) :
    m.findClosest t q source = .ok (m.closest t q source) := by
  have hlayers : t.findLayers source = .ok (t.arch.layers source) := by
    simp [Trap.findLayers, Trap.lookUp, Trap.hasZone, hs]
  have hprices : ∀ zs : List Nat, (∀ z ∈ zs, z < t.arch.numZones) →
      (zs.forM fun z => discard (m.findSingle t q source z)) = Except.ok () := by
    intro zs hzs
    induction zs with
    | nil => rfl
    | cons z zs ih =>
      rw [List.forall_mem_cons] at hzs
      obtain ⟨c, hc⟩ := exists_findSingle (m := m) hq hs hzs.1
      rw [List.forM, hc]
      exact ih hzs.2
  rw [findClosest, hlayers, ok_bind, hprices, ok_bind]
  · rfl
  · intro z hz
    have hz : z ∈ m.closest t q source := perm_closest.mem_iff.2 hz
    exact lt_of_mem_closest hlegal hs hz

/-- Five zones of capacity two in a line. -/
def lineOfFive : Architecture :=
  ⟨6, List.replicate 5 ⟨2, 2, false, 1⟩, [.chain 0 1, .chain 1 2, .chain 2 3, .chain 3 4]⟩

end CostModel

end IonTrap
