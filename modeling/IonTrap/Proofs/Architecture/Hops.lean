import IonTrap.Proofs.Architecture.Links

/-!
# Breadth-first layers

The layers around a zone are the zones by their distance from it (`Legal.mem_layers_iff`), where
distance is said through walks over connections and not through the search. A shortest path read off
the layers is a walk whose zones lie one layer further each time (`Legal.shortestPath_spec`), so no
zone is met twice.
-/

namespace IonTrap.Architecture

/-- A walk of `n` hops from `x`. -/
inductive Walk (a : Architecture) (x : Nat) : Nat → Nat → Prop
  | refl : Walk a x 0 x
  | hop {n y z : Nat} (h : Walk a x n y) (hj : a.Joined y z) : Walk a x (n + 1) z

/-- The least number of hops of a walk from `x` to `y` is `n`. -/
structure AtDistance (a : Architecture) (x n y : Nat) : Prop where
  walk : a.Walk x n y
  least : ∀ k < n, ¬ a.Walk x k y

/-- Every zone can be reached from every other. -/
def Connected (a : Architecture) : Prop :=
  ∀ x y, x < a.numZones → y < a.numZones → Relation.ReflTransGen a.Joined x y

variable {a : Architecture} {x y z n m : Nat}

/-- Zones of which each is chained to the next are connected. -/
theorem connected_of_chain (h : ∀ x < a.numZones - 1, Connection.chain x (x + 1) ∈ a.connections) :
    a.Connected := by
  have hends : ∀ x < a.numZones,
      Relation.ReflTransGen a.Joined 0 x ∧ Relation.ReflTransGen a.Joined x 0 := by
    intro x hx
    induction x with
    | zero => exact ⟨.refl, .refl⟩
    | succ x ih =>
      have hjoined : a.Joined x (x + 1) := ⟨.p1, .p0, _, h x (by omega), .inl ⟨rfl, rfl⟩⟩
      obtain ⟨hto, hfrom⟩ := ih (by omega)
      exact ⟨hto.tail hjoined, hfrom.head hjoined.symm⟩
  exact fun x y hx hy => (hends x hx).2.trans (hends y hy).1

/-- Three gate zones of capacity two in a line, where swaps get dearer from zone to zone. -/
def steepLine : Architecture :=
  ⟨6, [⟨2, 3, false, 3⟩, ⟨2, 3, false, 5⟩, ⟨2, 3, false, 7⟩], [.chain 0 1, .chain 1 2]⟩

theorem connected_steepLine : steepLine.Connected := connected_of_chain (by decide)

theorem walk_zero_iff : a.Walk x 0 y ↔ y = x := by
  constructor
  · intro h
    cases h
    rfl
  · rintro rfl
    exact .refl

theorem exists_walk_of_reflTransGen (h : Relation.ReflTransGen a.Joined x y) :
    ∃ n, a.Walk x n y := by
  induction h with
  | refl => exact ⟨0, .refl⟩
  | tail _ hj ih =>
    obtain ⟨n, hn⟩ := ih
    exact ⟨n + 1, hn.hop hj⟩

theorem exists_atDistance (h : ∃ n, a.Walk x n y) : ∃ n, a.AtDistance x n y := by
  classical
  exact ⟨Nat.find h, Nat.find_spec h, fun k hk => Nat.find_min h hk⟩

theorem atDistance_iff : a.AtDistance x n y ↔ a.Walk x n y ∧ ∀ k, a.Walk x k y → n ≤ k := by
  constructor
  · rintro ⟨hwalk, hleast⟩
    exact ⟨hwalk, fun k hk => Nat.le_of_not_lt fun hlt => hleast k hlt hk⟩
  · rintro ⟨hwalk, hleast⟩
    exact ⟨hwalk, fun k hlt hk => absurd (hleast k hk) (by omega)⟩

theorem AtDistance.unique (hn : a.AtDistance x n y) (hm : a.AtDistance x m y) : n = m := by
  rcases Nat.lt_trichotomy n m with h | h | h
  · exact absurd hn.walk (hm.least n h)
  · exact h
  · exact absurd hm.walk (hn.least m h)

theorem atDistance_zero_iff : a.AtDistance x 0 y ↔ y = x := by
  constructor
  · intro h
    exact walk_zero_iff.1 h.walk
  · rintro rfl
    exact ⟨.refl, by simp⟩

/-- What lies one hop further was reached from a zone of the layer before. -/
theorem AtDistance.exists_before (h : a.AtDistance x (n + 1) z) :
    ∃ y, a.AtDistance x n y ∧ a.Joined y z := by
  cases h.walk with
  | hop hw hj =>
    refine ⟨_, ⟨hw, fun k hk hk' => ?_⟩, hj⟩
    exact h.least (k + 1) (by omega) (hk'.hop hj)

theorem AtDistance.exists_of_le (h : a.AtDistance x n z) (hm : m ≤ n) :
    ∃ y, a.AtDistance x m y := by
  induction n generalizing z with
  | zero =>
    obtain rfl : m = 0 := by omega
    exact ⟨z, h⟩
  | succ n ih =>
    rcases Nat.lt_or_ge n m with hlt | hle
    · obtain rfl : m = n + 1 := by omega
      exact ⟨z, h⟩
    · obtain ⟨y, hy, -⟩ := h.exists_before
      exact ih hy hle

theorem Walk.cons (hj : a.Joined x y) (h : a.Walk y n z) : a.Walk x (n + 1) z := by
  induction h with
  | refl => exact Walk.refl.hop hj
  | hop _ hj' ih => exact ih.hop hj'

theorem Walk.symm (h : a.Walk x n y) : a.Walk y n x := by
  induction h with
  | refl => exact .refl
  | hop _ hj ih => exact ih.cons hj.symm

theorem AtDistance.symm (h : a.AtDistance x n y) : a.AtDistance y n x :=
  ⟨h.walk.symm, fun k hk hw => h.least k hk hw.symm⟩

/-! ## One layer after the other -/

theorem mem_fresh {seen zs : List Nat} : z ∈ fresh seen zs ↔ z ∈ zs ∧ z ∉ seen := by
  induction zs generalizing seen with
  | nil => simp [fresh]
  | cons y zs ih =>
    rw [fresh]
    split
    · next h =>
      rw [ih]
      grind
    · next h =>
      rw [List.mem_cons, ih]
      grind

theorem nodup_fresh (seen zs : List Nat) : (fresh seen zs).Nodup := by
  induction zs generalizing seen with
  | nil => simp [fresh]
  | cons y zs ih =>
    rw [fresh]
    split
    · exact ih _
    · refine List.nodup_cons.2 ⟨fun hy => ?_, ih _⟩
      exact (mem_fresh.1 hy).2 List.mem_cons_self

/-- The search has seen what lies within `d` hops, and stands at what lies exactly `d` hops away. -/
structure Front (a : Architecture) (x d : Nat) (seen layer : List Nat) : Prop where
  seen_iff : ∀ y, y ∈ seen ↔ ∃ k ≤ d, a.Walk x k y
  layer_iff : ∀ y, y ∈ layer ↔ a.AtDistance x d y
  nodup_seen : seen.Nodup
  nodup_layer : layer.Nodup
  lt_length : d < seen.length

theorem front_start : a.Front x 0 [x] [x] := by
  refine ⟨?_, ?_, by simp, by simp, by simp⟩
  · intro y
    simp [walk_zero_iff]
  · intro y
    simp [atDistance_zero_iff]

namespace Legal

variable (ha : a.Legal)
include ha

theorem joined_lt (h : a.Joined y z) : y < a.numZones ∧ z < a.numZones := by
  obtain ⟨p, r, h⟩ := h
  have := ha.linked_zones h
  exact ⟨this.1, this.2.1⟩

theorem walk_lt (hx : x < a.numZones) (h : a.Walk x n y) : y < a.numZones := by
  cases h with
  | refl => exact hx
  | hop _ hj => exact (ha.joined_lt hj).2

/-- The next layer is what is one hop further. -/
theorem mem_next_iff {d : Nat} {seen layer : List Nat} (hf : a.Front x d seen layer) :
    z ∈ fresh seen (layer.flatMap a.neighbors) ↔ a.AtDistance x (d + 1) z := by
  rw [mem_fresh, List.mem_flatMap, hf.seen_iff]
  constructor
  · rintro ⟨⟨y, hy, hz⟩, hnew⟩
    refine ⟨((hf.layer_iff y).1 hy).walk.hop (ha.mem_neighbors_iff.1 hz), ?_⟩
    intro k hk hw
    exact hnew ⟨k, by omega, hw⟩
  · intro h
    obtain ⟨y, hy, hj⟩ := h.exists_before
    refine ⟨⟨y, (hf.layer_iff y).2 hy, ha.mem_neighbors_iff.2 hj⟩, ?_⟩
    rintro ⟨k, hk, hw⟩
    exact h.least k (by omega) hw

theorem front_next {d : Nat} {seen layer : List Nat} (hf : a.Front x d seen layer)
    (hne : fresh seen (layer.flatMap a.neighbors) ≠ []) :
    a.Front x (d + 1) (seen ++ fresh seen (layer.flatMap a.neighbors))
      (fresh seen (layer.flatMap a.neighbors)) := by
  refine ⟨?_, fun y => ha.mem_next_iff hf, ?_, nodup_fresh _ _, ?_⟩
  · intro y
    rw [List.mem_append, hf.seen_iff, ha.mem_next_iff hf]
    constructor
    · rintro (⟨k, hk, hw⟩ | h)
      · exact ⟨k, by omega, hw⟩
      · exact ⟨d + 1, le_rfl, h.walk⟩
    · rintro ⟨k, hk, hw⟩
      by_cases hold : ∃ k ≤ d, a.Walk x k y
      · exact .inl hold
      · have hkd : k = d + 1 := by
          by_contra hkd
          exact hold ⟨k, by omega, hw⟩
        refine .inr ⟨hkd ▸ hw, fun j hj hw' => hold ⟨j, by omega, hw'⟩⟩
  · refine List.nodup_append.2 ⟨hf.nodup_seen, nodup_fresh _ _, ?_⟩
    intro y hy z hz hyz
    exact (mem_fresh.1 hz).2 (hyz ▸ hy)
  · have hlen := List.length_pos_of_ne_nil hne
    have := hf.lt_length
    rw [List.length_append]
    omega

theorem length_seen_le (hx : x < a.numZones) {d : Nat} {seen layer : List Nat}
    (hf : a.Front x d seen layer) : seen.length ≤ a.numZones := by
  have hsub : seen ⊆ List.range a.numZones := by
    intro y hy
    obtain ⟨k, -, hw⟩ := (hf.seen_iff y).1 hy
    exact List.mem_range.2 (ha.walk_lt hx hw)
  have hlen := (List.subperm_of_subset hf.nodup_seen hsub).length_le
  rwa [List.length_range] at hlen

/-- The search never runs out of fuel: each layer holds a new zone. -/
theorem front_lt (hx : x < a.numZones) {d : Nat} {seen layer : List Nat}
    (hf : a.Front x d seen layer) : d < a.numZones :=
  lt_of_lt_of_le hf.lt_length (ha.length_seen_le hx hf)

theorem mem_layersFrom_iff (hx : x < a.numZones) {fuel d : Nat} {seen layer : List Nat}
    (hf : a.Front x d seen layer) (hfuel : a.numZones ≤ fuel + d) (k : Nat) :
    (∃ l, (a.layersFrom fuel seen layer)[k]? = some l ∧ y ∈ l) ↔ a.AtDistance x (d + k) y := by
  induction fuel generalizing d seen layer k with
  | zero =>
    have := ha.front_lt hx hf
    omega
  | succ fuel ih =>
    rw [layersFrom]
    cases k with
    | zero => simpa using hf.layer_iff y
    | succ k =>
      simp only [List.getElem?_cons_succ]
      by_cases hne : fresh seen (layer.flatMap a.neighbors) = []
      · -- nothing lies one hop further, so nothing lies beyond
        simp only [hne, List.isEmpty_nil, if_true]
        refine ⟨by simp, fun h => ?_⟩
        obtain ⟨z, hz⟩ := h.exists_of_le (show d + 1 ≤ d + (k + 1) by omega)
        have := (ha.mem_next_iff hf).2 hz
        simp [hne] at this
      · have hempty : (fresh seen (layer.flatMap a.neighbors)).isEmpty = false := by
          simpa using hne
        simp only [hempty, Bool.false_eq_true, if_false]
        rw [ih (ha.front_next hf hne) (by omega), show d + 1 + k = d + (k + 1) by omega]

/-- The layers around a zone are the zones by their distance from it. -/
theorem mem_layers_iff (hx : x < a.numZones) (k : Nat) :
    (∃ l, (a.layers x)[k]? = some l ∧ y ∈ l) ↔ a.AtDistance x k y := by
  have hfuel : a.numZones ≤ a.numZones + 0 := Nat.le_refl _
  have := ha.mem_layersFrom_iff (y := y) hx front_start hfuel k
  rwa [Nat.zero_add] at this

theorem distance_eq_some_iff (hx : x < a.numZones) {d : Nat} :
    a.distance x y = some d ↔ a.AtDistance x d y := by
  have hsound : ∀ {d}, a.distance x y = some d → a.AtDistance x d y := by
    intro d h
    obtain ⟨hd, hy, -⟩ := List.findIdx?_eq_some_iff_getElem.1 h
    refine (ha.mem_layers_iff hx d).1 ⟨_, List.getElem?_eq_getElem hd, ?_⟩
    simpa using hy
  refine ⟨hsound, fun h => ?_⟩
  obtain ⟨l, hl, hy⟩ := (ha.mem_layers_iff hx d).2 h
  cases hd : a.distance x y with
  | none =>
    have := List.findIdx?_eq_none_iff.1 hd l (List.mem_of_getElem? hl)
    simp [hy] at this
  | some d' => rw [(hsound hd).unique h]

theorem distance_eq_none_iff (hx : x < a.numZones) :
    a.distance x y = none ↔ ¬ ∃ n, a.Walk x n y := by
  constructor
  · rintro hnone hwalk
    obtain ⟨d, hd⟩ := exists_atDistance hwalk
    rw [(ha.distance_eq_some_iff hx).2 hd] at hnone
    simp at hnone
  · intro hwalk
    by_contra hsome
    obtain ⟨d, hd⟩ := Option.ne_none_iff_exists'.1 hsome
    exact hwalk ⟨d, ((ha.distance_eq_some_iff hx).1 hd).walk⟩

theorem distance_self (hx : x < a.numZones) : a.distance x x = some 0 :=
  (ha.distance_eq_some_iff hx).2 (atDistance_zero_iff.2 rfl)

theorem distance_comm (hx : x < a.numZones) (hy : y < a.numZones) :
    a.distance x y = a.distance y x := by
  ext d
  rw [ha.distance_eq_some_iff hx, ha.distance_eq_some_iff hy]
  exact ⟨AtDistance.symm, AtDistance.symm⟩

end Legal

/-! ## Paths -/

/-- A path whose zones lie one hop further from its start each time. -/
structure ShortestWay (a : Architecture) (x y : Nat) (p : List Nat) : Prop where
  last : p.getLast? = some y
  chain : p.IsChain a.Joined
  levels : ∀ k z, p[k]? = some z → a.AtDistance x k z

namespace ShortestWay

variable {p : List Nat} (h : a.ShortestWay x y p)
include h

theorem nodup : p.Nodup := by
  rw [List.nodup_iff_injective_getElem]
  intro i j hij
  have hi := h.levels i _ (List.getElem?_eq_getElem i.isLt)
  have hj := h.levels j _ (List.getElem?_eq_getElem j.isLt)
  have hij : p[i.val] = p[j.val] := hij
  rw [hij] at hi
  exact Fin.ext (hi.unique hj)

theorem ne_nil : p ≠ [] := by
  rintro rfl
  simpa using h.last

theorem head : p.head? = some x := by
  cases p with
  | nil => exact absurd rfl h.ne_nil
  | cons z p =>
    have := h.levels 0 z rfl
    rw [atDistance_zero_iff.1 this]
    rfl

theorem eq_cons : ∃ q, p = x :: q := by
  cases p with
  | nil => exact absurd rfl h.ne_nil
  | cons z p => exact ⟨p, by rw [Option.some.inj h.head]⟩

/-- The number of hops is the distance. -/
theorem length_eq {d : Nat} (hd : a.AtDistance x d y) : p.length = d + 1 := by
  have hlast := h.last
  rw [List.getLast?_eq_getElem?] at hlast
  have hhops := (h.levels _ _ hlast).unique hd
  have hpos := List.length_pos_of_ne_nil h.ne_nil
  omega

/-- One hop more, to a zone at the next distance. -/
theorem snoc {d : Nat} (hd : a.AtDistance x d y) (hj : a.Joined y z)
    (hz : a.AtDistance x (d + 1) z) : a.ShortestWay x z (p ++ [z]) := by
  have hlen := h.length_eq hd
  refine ⟨by simp, ?_, ?_⟩
  · refine List.isChain_append.2 ⟨h.chain, List.isChain_singleton z, ?_⟩
    intro u hu v hv
    rw [h.last] at hu
    obtain rfl := Option.some.inj hu
    obtain rfl : z = v := by simpa using hv
    exact hj
  · intro k w hk
    rcases Nat.lt_trichotomy k (d + 1) with hlt | rfl | hgt
    · rw [List.getElem?_append_left (by omega)] at hk
      exact h.levels k w hk
    · rw [List.getElem?_append_right (by omega), hlen] at hk
      obtain rfl : z = w := by simpa using hk
      exact hz
    · rw [List.getElem?_eq_none (by simp; omega)] at hk
      simp at hk

end ShortestWay

theorem reverse_take_succ {layers : List (List Nat)} {k : Nat} {layer : List Nat}
    (h : layers[k]? = some layer) :
    (layers.take (k + 1)).reverse = layer :: (layers.take k).reverse := by
  rw [List.take_add_one, h]
  simp

namespace Legal

variable (ha : a.Legal)
include ha

theorem shortestWay_traceBack (hx : x < a.numZones) {d : Nat} (h : a.AtDistance x d z) :
    a.ShortestWay x z (a.traceBack ((a.layers x).take d).reverse z) := by
  induction d generalizing z with
  | zero =>
    refine ⟨rfl, List.isChain_singleton z, ?_⟩
    intro k w hk
    obtain ⟨rfl, rfl⟩ : k = 0 ∧ w = z := by
      cases k <;> simp_all [traceBack]
    exact h
  | succ d ih =>
    obtain ⟨y, hy, hj⟩ := h.exists_before
    obtain ⟨l, hl, hyl⟩ := (ha.mem_layers_iff hx d).2 hy
    rw [reverse_take_succ hl, traceBack]
    -- the last layer holds a neighbour of `z`, so the search in it does not fail
    split
    · next y' hfind =>
      have hmem := List.mem_of_find?_eq_some hfind
      have hjoin : a.Joined y' z := ha.mem_neighbors_iff.1 (by simpa using List.find?_some hfind)
      have hy' : a.AtDistance x d y' := (ha.mem_layers_iff hx d).1 ⟨l, hl, hmem⟩
      exact (ih hy').snoc hy' hjoin h
    · next hnone =>
      have := List.find?_eq_none.1 hnone y hyl
      simp [ha.mem_neighbors_iff.2 hj] at this

/-- What the path search returns is a path without detours. -/
theorem shortestPath_spec (hx : x < a.numZones) {p : List Nat}
    (h : a.shortestPath x y = some p) : a.ShortestWay x y p := by
  obtain ⟨d, hd, rfl⟩ := Option.map_eq_some_iff.1 h
  exact ha.shortestWay_traceBack hx ((ha.distance_eq_some_iff hx).1 hd)

/-- Between zones of a connected trap there is a path. -/
theorem exists_shortestPath (hc : a.Connected) (hx : x < a.numZones) (hy : y < a.numZones) :
    ∃ p, a.shortestPath x y = some p := by
  obtain ⟨d, hd⟩ := exists_atDistance (exists_walk_of_reflTransGen (hc x y hx hy))
  exact ⟨_, by rw [shortestPath, (ha.distance_eq_some_iff hx).2 hd]; rfl⟩

/-- A path without detours has no more zones than the trap. -/
theorem length_le_of_shortestWay (hx : x < a.numZones) {p : List Nat} (h : a.ShortestWay x y p) :
    p.length ≤ a.numZones := by
  have hsub : p ⊆ List.range a.numZones := by
    intro z hz
    obtain ⟨k, hk⟩ := List.getElem?_of_mem hz
    exact List.mem_range.2 (ha.walk_lt hx (h.levels k z hk).walk)
  have hlen := (List.subperm_of_subset h.nodup hsub).length_le
  rwa [List.length_range] at hlen

end Legal

end IonTrap.Architecture
