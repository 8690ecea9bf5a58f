import IonTrap.Proofs.Architecture.Ways

/-!
# Lines and rings

A zone has two ports and each port one connection at most, so a zone has at most two neighbours. A
row of joined zones that cannot be made longer then takes in every neighbour of its zones: inside
the row both neighbours of a zone stand next to it, and the ends have no neighbour but the next zone
and, perhaps, each other (`Stuck.place_of_joined`). So the zones that can be reached from a zone are
a line or a ring (`Legal.exists_line_or_ring`).
-/

namespace IonTrap.Architecture

/-- `y` stands right behind `x`. -/
def Behind (zs : List Nat) (x y : Nat) : Prop := ∃ i, zs[i]? = some x ∧ zs[i + 1]? = some y

/-- `y` stands right behind `x`, where the first zone follows the last. -/
def Around (zs : List Nat) (x y : Nat) : Prop :=
  ∃ i, zs[i]? = some x ∧ zs[(i + 1) % zs.length]? = some y

/-- A zone of the list is joined to the ones next to it and to no other. -/
structure Line (a : Architecture) (zs : List Nat) : Prop where
  nodup : zs.Nodup
  joined_iff : ∀ x ∈ zs, ∀ y, a.Joined x y ↔ Behind zs x y ∨ Behind zs y x

/-- The same of at least three zones in a circle. -/
structure Ring (a : Architecture) (zs : List Nat) : Prop where
  nodup : zs.Nodup
  length : 3 ≤ zs.length
  joined_iff : ∀ x ∈ zs, ∀ y, a.Joined x y ↔ Around zs x y ∨ Around zs y x

/-- Different zones of the trap, each joined to the next. -/
structure Row (a : Architecture) (zs : List Nat) : Prop where
  nodup : zs.Nodup
  chain : zs.IsChain a.Joined
  lt : ∀ z ∈ zs, z < a.numZones

/-- A row whose ends have no neighbour outside. -/
structure Stuck (a : Architecture) (zs : List Nat) : Prop extends Row a zs where
  first : ∀ x ∈ zs.head?, ∀ y, a.Joined x y → y ∈ zs
  last : ∀ x ∈ zs.getLast?, ∀ y, a.Joined x y → y ∈ zs

instance (a : Architecture) : Std.Symm a.Joined := ⟨fun _ _ h => h.symm⟩

variable {a : Architecture} {zs : List Nat} {x y : Nat}

/-! ## At most two neighbours -/

namespace Legal

variable (ha : a.Legal)
include ha

theorem ne_of_joined (h : a.Joined x y) : x ≠ y := by
  obtain ⟨p, r, hlink⟩ := h
  exact (ha.linked_zones hlink).2.2

/-- With two neighbours the two ports of a zone are taken. -/
theorem eq_or_eq_of_joined {y₁ y₂ : Nat} (h₁ : a.Joined x y₁) (h₂ : a.Joined x y₂)
    (hne : y₁ ≠ y₂) (h : a.Joined x y) : y = y₁ ∨ y = y₂ := by
  obtain ⟨p₁, r₁, hlink₁⟩ := h₁
  obtain ⟨p₂, r₂, hlink₂⟩ := h₂
  obtain ⟨p, r, hlink⟩ := h
  have hsame : ∀ {p p' : Port} {z z' : Nat} {r r' : Port}, a.Linked ⟨x, p⟩ ⟨z, r⟩ →
      a.Linked ⟨x, p'⟩ ⟨z', r'⟩ → p = p' → z = z' := by
    rintro p _ z z' r r' hz hz' rfl
    exact congrArg ZonePort.zone (ha.linked_unique hz hz')
  have hports : p₁ ≠ p₂ := fun hp => hne (hsame hlink₁ hlink₂ hp)
  by_cases hp : p = p₁
  · exact .inl (hsame hlink hlink₁ hp)
  · have hp₂ : p = p₂ := by
      rw [Port.eq_other_of_ne hp, Port.eq_other_of_ne hports.symm]
    exact .inr (hsame hlink hlink₂ hp₂)

theorem nodup_neighbors (x : Nat) : (a.neighbors x).Nodup := by
  rw [neighbors, List.Nodup, List.pairwise_filterMap]
  refine ha.apart.imp fun {c d} hapart y hy y' hy' heq => ?_
  -- two connections out of `x` to one zone would join the same zones
  have hzones := hapart.zones
  simp only [Connection.joins, Bool.or_eq_false_iff, Bool.and_eq_false_iff,
    beq_eq_false_iff_ne] at hzones
  grind

theorem length_neighbors_le (x : Nat) : (a.neighbors x).length ≤ 2 := by
  have hnodup := ha.nodup_neighbors x
  match hns : a.neighbors x with
  | [] => exact Nat.zero_le _
  | [_] => exact Nat.le_succ _
  | [_, _] => exact Nat.le_refl _
  | y₁ :: y₂ :: y :: ns =>
    have hjoined : ∀ z ∈ y₁ :: y₂ :: y :: ns, a.Joined x z := by
      intro z hz
      rw [← hns] at hz
      exact ha.mem_neighbors_iff.1 hz
    rw [hns] at hnodup
    simp only [List.nodup_cons, List.mem_cons, not_or] at hnodup
    obtain ⟨⟨h₁₂, h₁, -⟩, ⟨h₂, -⟩, -⟩ := hnodup
    rcases ha.eq_or_eq_of_joined (hjoined y₁ (by simp)) (hjoined y₂ (by simp)) h₁₂
      (hjoined y (by simp)) with rfl | rfl
    · exact absurd rfl h₁
    · exact absurd rfl h₂

end Legal

/-! ## Rows that cannot be made longer -/

theorem Row.reverse (h : a.Row zs) : a.Row zs.reverse where
  nodup := List.nodup_reverse.2 h.nodup
  chain := List.isChain_reverse.2 (h.chain.imp fun _ _ hj => hj.symm)
  lt := fun z hz => h.lt z (List.mem_reverse.1 hz)

theorem Row.length_le (h : a.Row zs) : zs.length ≤ a.numZones := by
  have hsub : zs ⊆ List.range a.numZones := fun z hz => List.mem_range.2 (h.lt z hz)
  have hle := (List.subperm_of_subset h.nodup hsub).length_le
  rwa [List.length_range] at hle

/-- A new neighbour of the first zone makes a row longer. -/
theorem Row.cons (ha : a.Legal) (h : a.Row zs) (hx : x ∈ zs.head?) (hj : a.Joined x y)
    (hy : y ∉ zs) : a.Row (y :: zs) where
  nodup := List.nodup_cons.2 ⟨hy, h.nodup⟩
  chain := by
    refine List.isChain_cons.2 ⟨fun z hz => ?_, h.chain⟩
    rw [Option.mem_unique hz hx]
    exact hj.symm
  lt := by
    rw [List.forall_mem_cons]
    exact ⟨(ha.joined_lt hj).2, h.lt⟩

/-- Of the rows in which a zone stands one is the longest. -/
theorem exists_longest (hx : x < a.numZones) :
    ∃ zs, x ∈ zs ∧ a.Row zs ∧ ∀ zs', x ∈ zs' → a.Row zs' → zs'.length ≤ zs.length := by
  have hself : x ∈ [x] ∧ a.Row [x] := ⟨List.mem_singleton_self x, by simp, by simp, by simp [hx]⟩
  obtain ⟨zs, ⟨hin, hrow⟩, hmin⟩ := (measure fun zs : List Nat => a.numZones - zs.length).wf.has_min
    {zs | x ∈ zs ∧ a.Row zs} ⟨[x], hself⟩
  refine ⟨zs, hin, hrow, fun zs' hin' hrow' => ?_⟩
  have hnot : ¬ a.numZones - zs'.length < a.numZones - zs.length := hmin zs' ⟨hin', hrow'⟩
  have hle := hrow.length_le
  have hle' := hrow'.length_le
  omega

theorem Legal.exists_stuck (ha : a.Legal) (hx : x < a.numZones) : ∃ zs, x ∈ zs ∧ a.Stuck zs := by
  obtain ⟨zs, hin, hrow, hmax⟩ := exists_longest hx
  have hfirst : ∀ row : List Nat, x ∈ row → a.Row row → row.length = zs.length →
      ∀ w ∈ row.head?, ∀ y, a.Joined w y → y ∈ row := by
    intro row hin hrow hlen w hw y hj
    by_contra hy
    have hle := hmax (y :: row) (List.mem_cons_of_mem _ hin) (hrow.cons ha hw hj hy)
    rw [List.length_cons] at hle
    omega
  -- what holds of the first zone of the row holds of the first zone of the reversed row
  refine ⟨zs, hin, hrow, hfirst zs hin hrow rfl, ?_⟩
  intro w hw y hj
  rw [← List.head?_reverse] at hw
  exact List.mem_reverse.1 (hfirst zs.reverse (List.mem_reverse.2 hin) hrow.reverse
    List.length_reverse w hw y hj)

/-! ## Who stands next to whom -/

theorem eq_of_getElem? {i j : Nat} (h : zs.Nodup) (hi : zs[i]? = some x) (hj : zs[j]? = some x) :
    i = j := by
  obtain ⟨hi, hxi⟩ := List.getElem?_eq_some_iff.1 hi
  obtain ⟨hj, hxj⟩ := List.getElem?_eq_some_iff.1 hj
  exact (h.getElem_inj_iff).1 (hxi.trans hxj.symm)

theorem Row.joined (h : a.Row zs) {i : Nat} (hx : zs[i]? = some x) (hy : zs[i + 1]? = some y) :
    a.Joined x y := by
  obtain ⟨hi, rfl⟩ := List.getElem?_eq_some_iff.1 hy
  obtain ⟨-, rfl⟩ := List.getElem?_eq_some_iff.1 hx
  exact h.chain.getElem i hi

/-- A zone inside a row has its neighbours beside it. -/
theorem Row.place_of_joined_inner (ha : a.Legal) (h : a.Row zs) {i : Nat}
    (hi : i + 2 < zs.length) (hx : zs[i + 1]? = some x) (hj : a.Joined x y) :
    zs[i]? = some y ∨ zs[i + 2]? = some y := by
  obtain ⟨w, hw⟩ : ∃ w, zs[i]? = some w := ⟨_, List.getElem?_eq_getElem (by omega)⟩
  obtain ⟨v, hv⟩ : ∃ v, zs[i + 2]? = some v := ⟨_, List.getElem?_eq_getElem hi⟩
  have hne : w ≠ v := by
    rintro rfl
    have := eq_of_getElem? h.nodup hw hv
    omega
  rcases ha.eq_or_eq_of_joined (h.joined hw hx).symm (h.joined hx hv) hne hj with rfl | rfl
  · exact .inl hw
  · exact .inr hv

theorem Stuck.mem_of_joined (ha : a.Legal) (h : a.Stuck zs) (hx : x ∈ zs) (hj : a.Joined x y) :
    y ∈ zs := by
  obtain ⟨i, hi⟩ := List.getElem?_of_mem hx
  have hlt := (List.getElem?_eq_some_iff.1 hi).1
  by_cases hfirst : i = 0
  · refine h.first x ?_ y hj
    rw [List.head?_eq_getElem?, ← hfirst]
    exact hi
  by_cases hlast : i + 1 = zs.length
  · refine h.last x ?_ y hj
    rw [List.getLast?_eq_getElem?, ← hlast]
    exact hi
  obtain ⟨k, rfl⟩ : ∃ k, i = k + 1 := ⟨i - 1, by omega⟩
  rcases h.place_of_joined_inner ha (by omega) hi hj with hy | hy <;> exact List.mem_of_getElem? hy

/-- Joined zones of a stuck row stand next to each other or at its two ends. -/
theorem Stuck.place_of_joined (ha : a.Legal) (h : a.Stuck zs) {i j : Nat} (hx : zs[i]? = some x)
    (hy : zs[j]? = some y) (hj : a.Joined x y) :
    j = i + 1 ∨ i = j + 1 ∨ (i = 0 ∧ j + 1 = zs.length) ∨ (j = 0 ∧ i + 1 = zs.length) := by
  have hi := (List.getElem?_eq_some_iff.1 hx).1
  have hj' := (List.getElem?_eq_some_iff.1 hy).1
  have hne : i ≠ j := by
    rintro rfl
    exact ha.ne_of_joined hj (Option.some.inj (hx.symm.trans hy))
  -- a zone inside the row has no neighbour but the two beside it
  have hinner : ∀ {k l : Nat} {u w : Nat}, zs[k + 1]? = some u → zs[l]? = some w → a.Joined u w →
      k + 2 < zs.length → l = k ∨ l = k + 2 := by
    intro k l u w hu hw huw hk
    rcases h.place_of_joined_inner ha hk hu huw with hw' | hw'
    · exact .inl (eq_of_getElem? h.nodup hw hw')
    · exact .inr (eq_of_getElem? h.nodup hw hw')
  by_cases hin : 0 < i ∧ i + 1 < zs.length
  · obtain ⟨k, rfl⟩ : ∃ k, i = k + 1 := ⟨i - 1, by omega⟩
    have := hinner hx hy hj (by omega)
    omega
  by_cases hin' : 0 < j ∧ j + 1 < zs.length
  · obtain ⟨k, rfl⟩ : ∃ k, j = k + 1 := ⟨j - 1, by omega⟩
    have := hinner hy hx hj.symm (by omega)
    omega
  omega

/-! ## Lines and rings -/

/-- A stuck row is a line, unless it has three zones or more and its ends are joined. -/
theorem Stuck.line (ha : a.Legal) (h : a.Stuck zs)
    (hopen : ∀ x y, zs[0]? = some x → zs[zs.length - 1]? = some y → a.Joined x y →
      zs.length ≤ 2) : a.Line zs := by
  refine ⟨h.nodup, fun x hx y => ⟨fun hj => ?_, ?_⟩⟩
  · obtain ⟨i, hi⟩ := List.getElem?_of_mem hx
    obtain ⟨j, hj'⟩ := List.getElem?_of_mem (h.mem_of_joined ha hx hj)
    rcases h.place_of_joined ha hi hj' hj with rfl | rfl | ⟨rfl, hlast⟩ | ⟨rfl, hlast⟩
    · exact .inl ⟨i, hi, hj'⟩
    · exact .inr ⟨j, hj', hi⟩
    · -- the two ends are next to each other in a row of two
      have hle := hopen x y hi (by rwa [← hlast]) hj
      obtain rfl : j = 1 := by
        have : j ≠ 0 := by
          rintro rfl
          exact ha.ne_of_joined hj (Option.some.inj (hi.symm.trans hj'))
        omega
      exact .inl ⟨0, hi, hj'⟩
    · have hle := hopen y x hj' (by rwa [← hlast]) hj.symm
      obtain rfl : i = 1 := by
        have : i ≠ 0 := by
          rintro rfl
          exact ha.ne_of_joined hj (Option.some.inj (hi.symm.trans hj'))
        omega
      exact .inr ⟨0, hj', hi⟩
  · rintro (⟨i, hi, hi'⟩ | ⟨i, hi, hi'⟩)
    · exact h.joined hi hi'
    · exact (h.joined hi hi').symm

/-- A stuck row of three zones or more whose ends are joined is a ring. -/
theorem Stuck.ring (ha : a.Legal) (h : a.Stuck zs) (hlen : 3 ≤ zs.length) {first last : Nat}
    (hfirst : zs[0]? = some first) (hlast : zs[zs.length - 1]? = some last)
    (hclosed : a.Joined first last) : a.Ring zs := by
  have haround : ∀ x y, Around zs x y → a.Joined x y := by
    rintro x y ⟨i, hi, hi'⟩
    have hlt := (List.getElem?_eq_some_iff.1 hi).1
    by_cases hend : i + 1 < zs.length
    · rw [Nat.mod_eq_of_lt hend] at hi'
      exact h.joined hi hi'
    · obtain rfl : i = zs.length - 1 := by omega
      rw [Nat.sub_add_cancel (by omega), Nat.mod_self] at hi'
      rw [Option.some.inj (hi.symm.trans hlast), Option.some.inj (hi'.symm.trans hfirst)]
      exact hclosed.symm
  refine ⟨h.nodup, hlen, fun x hx y => ⟨fun hj => ?_, ?_⟩⟩
  · obtain ⟨i, hi⟩ := List.getElem?_of_mem hx
    obtain ⟨j, hj'⟩ := List.getElem?_of_mem (h.mem_of_joined ha hx hj)
    have hilt := (List.getElem?_eq_some_iff.1 hi).1
    have hjlt := (List.getElem?_eq_some_iff.1 hj').1
    rcases h.place_of_joined ha hi hj' hj with rfl | rfl | ⟨rfl, hend⟩ | ⟨rfl, hend⟩
    · exact .inl ⟨i, hi, by rwa [Nat.mod_eq_of_lt hjlt]⟩
    · exact .inr ⟨j, hj', by rwa [Nat.mod_eq_of_lt hilt]⟩
    · exact .inr ⟨j, hj', by rwa [hend, Nat.mod_self]⟩
    · exact .inl ⟨i, hi, by rwa [hend, Nat.mod_self]⟩
  · rintro (hxy | hyx)
    · exact haround x y hxy
    · exact (haround y x hyx).symm

theorem Stuck.line_or_ring (ha : a.Legal) (h : a.Stuck zs) : a.Line zs ∨ a.Ring zs := by
  by_cases hclosed : ∃ x y, zs[0]? = some x ∧ zs[zs.length - 1]? = some y ∧ a.Joined x y ∧
      3 ≤ zs.length
  · obtain ⟨x, y, hx, hy, hj, hlen⟩ := hclosed
    exact .inr (h.ring ha hlen hx hy hj)
  · refine .inl (h.line ha fun x y hx hy hj => ?_)
    by_contra hlen
    exact hclosed ⟨x, y, hx, hy, hj, by omega⟩

/-- The zones of a stuck row are those that can be reached from any of them. -/
theorem Stuck.mem_iff_reaches (ha : a.Legal) (h : a.Stuck zs) (hx : x ∈ zs) :
    y ∈ zs ↔ Relation.ReflTransGen a.Joined x y := by
  constructor
  · intro hy
    have hpair : zs.Pairwise (Relation.ReflTransGen a.Joined) :=
      List.isChain_iff_pairwise.1 (h.chain.imp fun _ _ hj => .single hj)
    exact hpair.forall_of_forall (fun _ _ => .refl) hx hy
  · intro hreach
    induction hreach with
    | refl => exact hx
    | tail _ hj ih => exact h.mem_of_joined ha ih hj

/-- The zones that can be reached from a zone are a line or a ring. -/
theorem Legal.exists_line_or_ring (ha : a.Legal) (hx : x < a.numZones) :
    ∃ zs, (∀ y, Relation.ReflTransGen a.Joined x y ↔ y ∈ zs) ∧ (a.Line zs ∨ a.Ring zs) := by
  obtain ⟨zs, hin, h⟩ := ha.exists_stuck hx
  exact ⟨zs, fun y => (h.mem_iff_reaches ha hin).symm, h.line_or_ring ha⟩

end IonTrap.Architecture
