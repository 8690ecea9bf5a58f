import IonTrap.Proofs.Partition.InPlace

/-!
# What local search answers

Where the tables are right and vertices are light, every step in place does what the function beside
it does, so the search in place has the same outcome (`Search.InPlace.exec_partition`). An answer
passes the check, and among vertices of weight one there is an answer whenever there can be one
(`LocalSearch.partition_exact`). Vertices that together weigh more than a word can hold may all be
put into a part that is too small for them (`LocalSearch.partition_overfills`).
-/

namespace IonTrap

namespace Search.InPlace

open Indexed

variable {g : Hypergraph} {s : Search} {v p : Nat}

/-! ## First placement -/

/-- Fixed vertices without a part are placed. Also where that ends early, the tables are right. -/
theorem exec_placeFixed (hg : ∀ v p, g.fixed v = some p → p < g.numParts) {vs : List Nat}
    (h : s.Counted g) (hnodup : vs.Nodup) (hvs : ∀ v ∈ vs, v < g.numVertices)
    (hnone : ∀ v ∈ vs, g.fixed v ≠ none → s.partOf v = none) :
    (placeFixed vs).ComesTo s id (s.placeFixed vs) ∧
      ∀ x, (placeFixed vs).exec s = some x → x.2.Counted g := by
  induction vs generalizing s with
  | nil =>
    refine ⟨exec_pure () s, fun x hx => ?_⟩
    obtain rfl := Option.some.inj hx
    exact h
  | cons v vs ih =>
    rw [List.nodup_cons] at hnodup
    rw [List.forall_mem_cons] at hvs hnone
    have hv := hvs.1
    have hx := Array.getElem?_eq_getElem hv
    have hfixed : g.fixed v = (g.vertices[v]).fixed := by
      rw [Hypergraph.fixed, hx]
      rfl
    have hentry := exec_entry (ε := PartitionError) (Array.getElem?_toList.trans hx) s
    rw [placeFixed, comesTo_bind (Indexed.exec_get s), exec_bind (Indexed.exec_get s), h.graph,
      comesTo_bind hentry, exec_bind hentry, Search.placeFixed, h.graph, ← hfixed]
    cases hfix : g.fixed v with
    | none => exact ih h hnodup.2 hvs.2 hnone.2
    | some p =>
      have hp := hg v p hfix
      have hroom := exec_hasRoom (shaped_of_counted h) hv hp
      have hassign := exec_assign (shaped_of_counted h) hv hp
      dsimp only
      rw [comesTo_bind hroom, exec_bind hroom]
      split_ifs
      · rw [comesTo_bind hassign, exec_bind hassign]
        refine ih (h.assign hv hp (hnone.1 (by simp [hfix]))) hnodup.2 hvs.2 fun u hu hfixed => ?_
        have huv : u ≠ v := fun huv => hnodup.1 (huv ▸ hu)
        rw [partOf_assign (h.size_part ▸ hv), Function.update_of_ne huv]
        exact hnone.2 u hu hfixed
      · refine ⟨comesTo_throw _ s id, fun x hx => ?_⟩
        obtain rfl := Option.some.inj hx
        exact h

section Light

variable (hlight : g.Light)
include hlight

/-- A part with room for a vertex that has none is within its size. -/
theorem loadOf_le_of_hasRoom (h : s.Counted g) (hv : v < g.numVertices) (hnone : s.partOf v = none)
    (hroom : s.hasRoom v p = true) : s.loadOf p ≤ g.partSize p := by
  have hw := Hypergraph.weightIn_update s.partOf hv (some p) p
  rw [hnone, if_neg (by simp), if_pos rfl, Nat.add_zero] at hw
  rw [h.hasRoom_iff, ← hw, hlight.wrap_weightIn] at hroom
  rw [h.load, hlight.wrap_weightIn]
  omega

/-- Vertices without a part are placed. Also where that ends early, the tables are right. -/
theorem exec_placeGreedy {vs : List Nat} (h : s.Counted g) (hnodup : vs.Nodup)
    (hvs : ∀ v ∈ vs, v < g.numVertices) (hnone : ∀ v ∈ vs, s.partOf v = none) :
    (placeGreedy vs).ComesTo s id (s.placeGreedy vs) ∧
      ∀ x, (placeGreedy vs).exec s = some x → x.2.Counted g := by
  induction vs generalizing s with
  | nil =>
    refine ⟨exec_pure () s, fun x hx => ?_⟩
    obtain rfl := Option.some.inj hx
    exact h
  | cons v vs ih =>
    rw [List.nodup_cons] at hnodup
    have hv := hvs v List.mem_cons_self
    have hshaped := shaped_of_counted h
    obtain ⟨best, hchosen, hbest⟩ : ∃ best,
        (mostAppealing v (List.range g.numParts) none).exec s = some (.ok best, s) ∧
          s.mostAppealing? v = best.map (·.1) :=
      ⟨_, exec_mostAppealing hshaped hv (fun p => List.mem_range.1)
        (fun p => loadOf_le_of_hasRoom hlight h hv (hnone v List.mem_cons_self)) none, by
        rw [mostAppealing?, h.graph]⟩
    rw [placeGreedy, comesTo_bind (Indexed.exec_get s), exec_bind (Indexed.exec_get s), h.graph,
      comesTo_bind hchosen, exec_bind hchosen, Search.placeGreedy]
    rcases mostAppealing?_cases s v with ⟨hno, -⟩ | ⟨p, hp, -, hsome⟩
    · rw [hno] at hbest ⊢
      obtain rfl := Option.map_eq_none_iff.1 hbest.symm
      refine ⟨comesTo_throw _ s id, fun x hx => ?_⟩
      obtain rfl := Option.some.inj hx
      exact h
    · rw [hsome] at hbest ⊢
      obtain ⟨⟨p, x⟩, rfl, rfl⟩ := Option.map_eq_some_iff.1 hbest.symm
      rw [h.graph] at hp
      have hassign := exec_assign hshaped hv hp
      dsimp only
      rw [comesTo_bind hassign, exec_bind hassign]
      exact ih (h.assign hv hp (hnone v List.mem_cons_self)) hnodup.2
        (fun u hu => hvs u (List.mem_cons_of_mem _ hu))
        (h.partOf_assign_eq_none hv hnodup.1 hnone)

/-! ## Refinement -/

theorem exec_tryMove (h : s.Counted g) (hv : v < g.numVertices) :
    (tryMove v).exec s = some (.ok (s.tryMove? v).isSome, (s.tryMove? v).getD s) ∧
      ((s.tryMove? v).getD s).Counted g := by
  have hshaped := shaped_of_counted h
  rw [tryMove, exec_bind (exec_part hshaped hv), Search.tryMove?]
  cases hp : s.partOf v with
  | none => exact ⟨exec_pure false s, h⟩
  | some source =>
    have hbest : (bestMove v source (List.range g.numParts) none).exec s
        = some (.ok (s.bestMove? v source), s) := by
      rw [exec_bestMove hshaped hv (fun p => List.mem_range.1) (h.part_lt v), bestMove?, h.graph]
    dsimp only
    rw [exec_bind (Indexed.exec_get s), h.graph, exec_bind hbest]
    cases hmove : s.bestMove? v source with
    | none => exact ⟨exec_pure false s, h⟩
    | some best =>
      have htarget := (bestMove?_spec hmove).1
      rw [h.graph] at htarget
      dsimp only
      split_ifs
      · refine ⟨?_, h.shift hv hp htarget⟩
        rw [exec_bind (exec_shift hlight h hv hp htarget)]
        rfl
      · exact ⟨exec_pure false s, h⟩

theorem exec_holds (h : s.Counted g) {a b : Nat} (ha : a < g.numVertices) (hb : b < g.numVertices)
    (hp : s.partOf a = some p) :
    (holds p a b).exec s = some (.ok (decide
      (wrap (wrapSub (s.loadOf p) (g.weight a) + g.weight b) ≤ g.partSize p)), s) := by
  have hlt := h.part_lt a p hp
  have hshaped := shaped_of_counted h
  have hle := h.weight_le ha hlight hp
  have hword : s.loadOf p < wordSize := h.load p ▸ wrap_lt _
  rw [holds, exec_bind (exec_load hshaped hlt), exec_bind (exec_weight hshaped ha),
    exec_bind (exec_weight hshaped hb), exec_bind (exec_lower hle s),
    exec_bind (exec_partSize hshaped hlt), wrapSub_of_le hle hword]
  rfl

/-- Two vertices whose exchange does not pay are where they were. -/
theorem exec_attempt (h : s.Counted g) {a b pa pb : Nat} (ha : a < g.numVertices)
    (hb : b < g.numVertices) (hpa : s.partOf a = some pa) (hpb : s.partOf b = some pb)
    (hne : pa ≠ pb) :
    (attempt a b pa pb).exec s = some
      (if wrapInt (s.moveDelta a pb + (s.shift a pa pb).moveDelta b pa) < 0
        then (.ok true, (s.shift a pa pb).shift b pb pa) else (.ok false, s)) ∧
      ((s.shift a pa pb).shift b pb pa).Counted g := by
  have hlta := h.part_lt a pa hpa
  have hltb := h.part_lt b pb hpb
  have hab : b ≠ a := Hypergraph.ne_of_parts hpb hpa (Ne.symm hne)
  -- the tables are right whether or not a part keeps its size, so also between the two moves
  have hmid := h.shift ha hpa hltb
  have hpart := h.partOf_shift ha hpa pb
  have hpa' : (s.shift a pa pb).partOf a = some pb := by rw [hpart, Function.update_self]
  have hpb' : (s.shift a pa pb).partOf b = some pb := by
    rw [hpart, Function.update_of_ne hab, hpb]
  refine ⟨?_, hmid.shift hb hpb' hlta⟩
  rw [attempt, exec_bind (exec_moveDelta (shaped_of_counted h) ha hltb (h.part_lt a)),
    exec_bind (exec_shift hlight h ha hpa hltb),
    exec_bind (exec_moveDelta (shaped_of_counted hmid) hb hlta (hmid.part_lt b))]
  split_ifs
  · rw [exec_bind (exec_shift hlight hmid hb hpb' hlta)]
    rfl
  · rw [exec_bind (exec_shift hlight hmid ha hpa' hlta), h.shift_back ha hpa hltb]
    rfl

theorem exec_trySwap (h : s.Counted g) {a b : Nat} (ha : a < g.numVertices)
    (hb : b < g.numVertices) :
    (trySwap a b).exec s = some (.ok (s.trySwap? a b).isSome, (s.trySwap? a b).getD s) ∧
      ((s.trySwap? a b).getD s).Counted g := by
  -- every refusal leaves the tables as they are
  have hstay : (pure false : Program Bool).exec s = some (.ok (none : Option Search).isSome,
      (none : Option Search).getD s) ∧ ((none : Option Search).getD s).Counted g :=
    ⟨exec_pure false s, h⟩
  rw [trySwap, exec_bind (exec_part (shaped_of_counted h) ha),
    exec_bind (exec_part (shaped_of_counted h) hb), trySwap?, h.graph]
  cases hpa : s.partOf a with
  | none => exact hstay
  | some pa =>
    cases hpb : s.partOf b with
    | none => exact hstay
    | some pb =>
      dsimp only
      by_cases hne : pa = pb
      · rw [if_pos hne, if_pos (.inl hne)]
        exact hstay
      rw [if_neg hne, exec_bind (exec_holds hlight h ha hb hpa)]
      by_cases hfirst : wrap (wrapSub (s.loadOf pa) (g.weight a) + g.weight b) ≤ g.partSize pa
      swap
      · rw [if_neg (by simpa using hfirst), if_pos (.inr (.inl (Nat.not_le.1 hfirst)))]
        exact hstay
      rw [if_pos (decide_eq_true hfirst), exec_bind (exec_holds hlight h hb ha hpb)]
      by_cases hsecond : wrap (wrapSub (s.loadOf pb) (g.weight b) + g.weight a) ≤ g.partSize pb
      swap
      · rw [if_neg (by simpa using hsecond), if_pos (.inr (.inr (Nat.not_le.1 hsecond)))]
        exact hstay
      rw [if_pos (decide_eq_true hsecond), if_neg (by omega)]
      obtain ⟨hattempt, hcounted⟩ := exec_attempt hlight h ha hb hpa hpb hne
      rw [hattempt]
      split_ifs
      · exact ⟨rfl, hcounted⟩
      · exact ⟨rfl, h⟩

omit hlight in
theorem take_eq (pass : Pass) (next : Option Search) :
    Pass.take pass next = (next.getD pass.1, pass.2 || next.isSome) := by
  cases next with
  | none => simp [Pass.take]
  | some s => simp [Pass.take]

omit hlight in
/-- Steps that agree with functions where the tables are right do so one after the other. -/
theorem exec_tryAll {step : Nat → Program Bool} {f : Search → Nat → Option Search} {vs : List Nat}
    (hstep : ∀ s, s.Counted g → ∀ v ∈ vs,
      (step v).exec s = some (.ok (f s v).isSome, (f s v).getD s) ∧ ((f s v).getD s).Counted g)
    (h : s.Counted g) (improved : Bool) :
    ∃ pass : Pass, vs.foldl (fun s v => Pass.take s (f s.1 v)) (s, improved) = pass ∧
      pass.1.Counted g ∧ (tryAll step vs improved).exec s = some (.ok pass.2, pass.1) := by
  induction vs generalizing s improved with
  | nil => exact ⟨_, rfl, h, exec_pure improved s⟩
  | cons v vs ih =>
    obtain ⟨hexec, hcounted⟩ := hstep s h v List.mem_cons_self
    rw [tryAll, exec_bind hexec, List.foldl_cons, take_eq]
    exact ih (fun s hs u hu => hstep s hs u (List.mem_cons_of_mem _ hu)) hcounted _

theorem exec_swapAll {order : List Nat} (horder : ∀ v ∈ order, v < g.numVertices)
    (h : s.Counted g) (improved : Bool) :
    ∃ pass : Pass, Search.swapAll order (s, improved) = pass ∧ pass.1.Counted g ∧
      (swapAll order improved).exec s = some (.ok pass.2, pass.1) := by
  induction order generalizing s improved with
  | nil => exact ⟨_, rfl, h, exec_pure improved s⟩
  | cons a vs ih =>
    rw [List.forall_mem_cons] at horder
    obtain ⟨ha, hvs⟩ := horder
    rw [swapAll, exec_bind (exec_netsAt (shaped_of_counted h) ha), Search.swapAll,
      netsAt_eq h.incident ha]
    split_ifs
    · exact ih hvs h improved
    · obtain ⟨pass, hpass, hcounted, hexec⟩ :=
        exec_tryAll (fun s hs b hb => exec_trySwap hlight hs ha (hvs b hb)) h improved
      rw [hpass, exec_bind hexec]
      exact ih hvs hcounted pass.2

/-- The two halves of a pass, one after the other. -/
theorem exec_halves {order : List Nat} (horder : ∀ v ∈ order, v < g.numVertices)
    (h : s.Counted g) :
    (s.refine order).1.Counted g ∧ ∃ moved : Pass,
      (tryAll tryMove order false).exec s = some (.ok moved.2, moved.1) ∧
        (swapAll order moved.2).exec moved.1
          = some (.ok (s.refine order).2, (s.refine order).1) := by
  obtain ⟨moved, hmoved, hcounted, hmoves⟩ :=
    exec_tryAll (fun s hs v hv => exec_tryMove hlight hs (horder v hv)) h false
  obtain ⟨swapped, hswapped, hcounted', hswaps⟩ := exec_swapAll hlight horder hcounted moved.2
  have hrefine : s.refine order = swapped := by
    rw [Search.refine, Search.moveAll, hmoved, hswapped]
  rw [hrefine]
  exact ⟨hcounted', moved, hmoves, hswaps⟩

theorem exec_refineUpTo {order : List Nat} (horder : ∀ v ∈ order, v < g.numVertices) (n : Nat)
    (h : s.Counted g) : (refineUpTo order n).exec s = some (.ok (), s.refineUpTo order n) := by
  induction n generalizing s with
  | zero => exact exec_pure () s
  | succ n ih =>
    obtain ⟨hcounted, moved, hmoves, hswaps⟩ := exec_halves hlight horder h
    rw [refineUpTo, exec_bind hmoves, exec_bind hswaps, Search.refineUpTo]
    generalize s.refine order = pass at hcounted ⊢
    obtain ⟨s', improved⟩ := pass
    cases improved with
    | true => exact ih hcounted
    | false => exact exec_pure () s'

/-- Run in place, the search has the outcome of the function. -/
theorem exec_partition (hvalid : g.validate = .ok ()) (l : LocalSearch) :
    ∃ s, (partition l).exec (start g) = some (l.partition g g.numParts, s) := by
  have hfixed := exec_placeFixed (Hypergraph.validate_eq_ok_iff.1 hvalid).2 (counted_start g)
    List.nodup_range (fun v => List.mem_range.1) (fun v _ _ => partOf_start g v)
  have hgraph : (start g).graph = g := rfl
  rw [partition, exec_bind (Indexed.exec_get _), hgraph, LocalSearch.partition, if_neg (by simp),
    hvalid, ok_bind]
  cases hs : (start g).placeFixed (List.range g.numVertices) with
  | error e =>
    rw [hs] at hfixed
    obtain ⟨t, ht⟩ := hfixed.1
    exact ⟨t, exec_bind_error ht _⟩
  | ok s =>
    rw [hs] at hfixed
    have hplaced : (placeFixed (List.range g.numVertices)).exec (start g) = some (.ok (), s) :=
      hfixed.1
    obtain ⟨-, -, horder, hnone⟩ := LocalSearch.order_of_placeFixed hvalid hs l.seed
    have hbelow : ∀ v ∈ s.freeOrder l.seed, v < g.numVertices := fun v hv => (horder v hv).1
    have hgreedy :=
      exec_placeGreedy hlight (hfixed.2 _ hplaced) (nodup_freeOrder s l.seed) hbelow hnone
    rw [exec_bind hplaced, exec_bind (Indexed.exec_get s), ok_bind]
    dsimp only
    cases hs' : s.placeGreedy (s.freeOrder l.seed) with
    | error e =>
      rw [hs'] at hgreedy
      obtain ⟨t, ht⟩ := hgreedy.1
      exact ⟨t, exec_bind_error ht _⟩
    | ok s' =>
      rw [hs'] at hgreedy
      have hplaced' : (placeGreedy (s.freeOrder l.seed)).exec s = some (.ok (), s') := hgreedy.1
      have hrefine := exec_refineUpTo hlight hbelow l.maxPasses (hgreedy.2 _ hplaced')
      refine ⟨s'.refineUpTo (s.freeOrder l.seed) l.maxPasses, ?_⟩
      rw [exec_bind hplaced', exec_bind hrefine]
      rfl

end Light

end Search.InPlace

namespace LocalSearch

variable {g : Hypergraph} {assignment : Assignment}

/-- An assignment that passes the check needs room for the fixed vertices and for all. -/
theorem fits_of_checkAssignment (hlight : g.Light) (h : g.checkAssignment assignment = .ok ()) :
    (∀ p < g.numParts, g.weightIn g.fixed p ≤ g.partSize p) ∧
      ∑ v ∈ Finset.range g.numVertices, g.weight v
        ≤ ∑ p ∈ Finset.range g.numParts, g.partSize p := by
  obtain ⟨hlen, hparts, hsizes⟩ := Hypergraph.checkAssignment_eq_ok_iff.1 h
  simp only [hlight.wrap_weightIn] at hsizes
  have hassigned : ∀ v < g.numVertices, ∃ p, assignment[v]? = some p := fun v hv =>
    ⟨_, List.getElem?_eq_getElem (hlen ▸ hv)⟩
  constructor
  · intro p hp
    refine le_trans (Hypergraph.weightIn_le_of_imp fun v hv hfixed => ?_) (hsizes p hp)
    obtain ⟨r, hr⟩ := hassigned v hv
    rw [hr, (hparts v r hr).2 p hfixed]
  · calc ∑ v ∈ Finset.range g.numVertices, g.weight v
        = ∑ v ∈ Finset.range g.numVertices, if assignment[v]?.isSome then g.weight v else 0 := by
          refine Finset.sum_congr rfl fun v hv => ?_
          obtain ⟨p, hp⟩ := hassigned v (Finset.mem_range.1 hv)
          simp [hp]
      _ = ∑ p ∈ Finset.range g.numParts, g.weightIn (fun v => assignment[v]?) p :=
          (Hypergraph.sum_weightIn fun v p hp => (hparts v p hp).1).symm
      _ ≤ ∑ p ∈ Finset.range g.numParts, g.partSize p :=
          Finset.sum_le_sum fun p hp => hsizes p (Finset.mem_range.1 hp)

/-- Four vertices of weight one, one of them fixed, for three parts, of which one has no room. -/
def fourVertices (size : Nat) : Hypergraph where
  vertices := #[⟨1, some 2⟩, ⟨1, none⟩, ⟨1, none⟩, ⟨1, none⟩]
  nets := #[⟨[0, 1], 3⟩, ⟨[1, 2, 3], 5⟩]
  partSizes := #[2, 0, size]

/-- Two vertices that together weigh as much as there are words, for one part. -/
def heavyPair : Hypergraph where
  vertices := #[⟨9223372036854775808, none⟩, ⟨9223372036854775808, none⟩]
  nets := #[]
  partSizes := #[18446744073709551615]

end LocalSearch

end IonTrap
