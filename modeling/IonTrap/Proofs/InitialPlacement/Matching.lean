import IonTrap.InitialPlacement
import IonTrap.Proofs.Indexed
import IonTrap.Proofs.Loop

/-!
# Exchanging zones until nothing is gained

An exchange is made only if both parts fit their new zones and the cost falls, so every part keeps a
zone of its own with room for it (`Matching.Feasible.exchange`). A pass that does not lower the cost
has exchanged nothing, and then no exchange at all pays (`Matching.pass_cases`); the passes end
there, since the cost cannot fall for ever.

The loop can be run on one table, with the exchange made first and taken back if it does not pay
(`Climb`). It ends with the same table, after no more passes than the first cost and one
(`Climb.exists_course`).
-/

namespace IonTrap

namespace Matching

variable {m : Matching} {f : Array Nat} {p : Pair}

/-- Every part has a zone of its own, with room for its qubits. -/
structure Feasible (m : Matching) (f : Array Nat) : Prop where
  perm : f.toList.Perm (List.range m.sizes.size)
  room : ∀ p < m.sizes.size, m.sizes.getD p 0 ≤ m.spots.getD (f.getD p 0) 0

/-- No exchange of two parts that fit each other's zones lowers the cost. -/
def LocallyBest (m : Matching) (f : Array Nat) : Prop :=
  ∀ p q, p < q → q < m.sizes.size → m.fits f p q = true → m.cost f ≤ m.cost (f.swapIfInBounds p q)

theorem fits_iff {p q : Nat} : m.fits f p q = true ↔
    m.sizes.getD p 0 ≤ m.spots.getD (f.getD q 0) 0 ∧
      m.sizes.getD q 0 ≤ m.spots.getD (f.getD p 0) 0 := by
  simp [fits]

theorem size_eq_of_perm {n : Nat} (h : f.toList.Perm (List.range n)) : f.size = n := by
  have hlen := h.length_eq
  rwa [Array.length_toList, List.length_range] at hlen

theorem getD_lt_of_perm {n p : Nat} (h : f.toList.Perm (List.range n)) (hp : p < n) :
    f.getD p 0 < n := by
  have hp' : p < f.size := size_eq_of_perm h ▸ hp
  rw [← List.mem_range, ← h.mem_iff, Array.getD_eq_getD_getElem?, Array.getElem?_eq_getElem hp']
  exact Array.mem_toList_iff.2 (Array.getElem_mem hp')

theorem Feasible.size_eq (h : m.Feasible f) : f.size = m.sizes.size := size_eq_of_perm h.perm

theorem Feasible.lt (h : m.Feasible f) {p : Nat} (hp : p < m.sizes.size) :
    f.getD p 0 < m.sizes.size := getD_lt_of_perm h.perm hp

/-! ## One exchange -/

theorem getD_swapIfInBounds {i j : Nat} (hi : i < f.size) (hj : j < f.size) (k : Nat) :
    (f.swapIfInBounds i j).getD k 0
      = if k = i then f.getD j 0 else if k = j then f.getD i 0 else f.getD k 0 := by
  rw [Array.swapIfInBounds_def, dif_pos hi, dif_pos hj]
  simp only [Array.getD_eq_getD_getElem?, Array.getElem?_swap]
  grind

theorem Feasible.swap (h : m.Feasible f) {p q : Nat} (hp : p < m.sizes.size)
    (hq : q < m.sizes.size) (hfits : m.fits f p q = true) :
    m.Feasible (f.swapIfInBounds p q) := by
  have hsize := h.size_eq
  refine ⟨(RandomWords.perm_swapIfInBounds f p q).toList.trans h.perm, fun r hr => ?_⟩
  rw [fits_iff] at hfits
  rw [getD_swapIfInBounds (by omega) (by omega)]
  by_cases hrp : r = p
  · rw [if_pos hrp, hrp]
    exact hfits.1
  by_cases hrq : r = q
  · rw [if_neg hrp, if_pos hrq, hrq]
    exact hfits.2
  · rw [if_neg hrp, if_neg hrq]
    exact h.room r hr

/-- What trying a pair of parts does. -/
theorem exchange_cases (m : Matching) (f : Array Nat) (p : Pair) :
    (m.exchange f p = f ∧
      (m.fits f p.1 p.2 = true → m.cost f ≤ m.cost (f.swapIfInBounds p.1 p.2))) ∨
    (m.exchange f p = f.swapIfInBounds p.1 p.2 ∧ m.fits f p.1 p.2 = true ∧
      m.cost (f.swapIfInBounds p.1 p.2) < m.cost f) := by
  unfold exchange
  dsimp only
  split_ifs with hfits hcost
  · exact .inr ⟨rfl, hfits, hcost⟩
  · exact .inl ⟨rfl, fun _ => Nat.le_of_not_lt hcost⟩
  · exact .inl ⟨rfl, fun h => absurd h hfits⟩

theorem Feasible.exchange (h : m.Feasible f) (hp : p.1 < m.sizes.size) (hq : p.2 < m.sizes.size) :
    m.Feasible (m.exchange f p) := by
  rcases m.exchange_cases f p with ⟨hsame, -⟩ | ⟨hswap, hfits, -⟩
  · rwa [hsame]
  · rw [hswap]
    exact h.swap hp hq hfits

/-! ## One pass -/

theorem mem_allPairs {n : Nat} : p ∈ allPairs n ↔ p.1 < p.2 ∧ p.2 < n := by
  simp only [allPairs, List.mem_flatMap, List.mem_map, List.mem_range, List.mem_range'_1]
  constructor
  · rintro ⟨x, hx, y, hy, rfl⟩
    dsimp only
    omega
  · intro h
    exact ⟨p.1, by omega, p.2, by omega, rfl⟩

theorem lt_of_mem_allPairs {n : Nat} (h : p ∈ allPairs n) : p.1 < n ∧ p.2 < n := by
  have hp := mem_allPairs.1 h
  omega

theorem Feasible.foldl_exchange (h : m.Feasible f) {ps : List Pair}
    (hps : ∀ p ∈ ps, p.1 < m.sizes.size ∧ p.2 < m.sizes.size) :
    m.Feasible (ps.foldl m.exchange f) := by
  induction ps generalizing f with
  | nil => exact h
  | cons p ps ih =>
    rw [List.forall_mem_cons] at hps
    exact ih (h.exchange hps.1.1 hps.1.2) hps.2

theorem Feasible.pass (h : m.Feasible f) : m.Feasible (m.pass f) :=
  h.foldl_exchange fun _ => lt_of_mem_allPairs

/-- Trying pairs one after the other either exchanges none of them or lowers the cost. -/
theorem foldl_exchange_cases (m : Matching) (f : Array Nat) (ps : List Pair) :
    (ps.foldl m.exchange f = f ∧ ∀ p ∈ ps,
      m.fits f p.1 p.2 = true → m.cost f ≤ m.cost (f.swapIfInBounds p.1 p.2)) ∨
    m.cost (ps.foldl m.exchange f) < m.cost f := by
  induction ps generalizing f with
  | nil => exact .inl ⟨rfl, by simp⟩
  | cons p ps ih =>
    rw [List.foldl_cons]
    rcases m.exchange_cases f p with ⟨hsame, hbest⟩ | ⟨hswap, -, hcost⟩
    · rw [hsame, List.forall_mem_cons]
      exact (ih f).imp (fun h => ⟨h.1, hbest, h.2⟩) id
    · -- the cost has fallen, and the other pairs do not raise it
      rw [← hswap] at hcost
      right
      rcases ih (m.exchange f p) with ⟨hrest, -⟩ | hrest
      · rwa [hrest]
      · omega

theorem pass_cases (m : Matching) (f : Array Nat) :
    (m.pass f = f ∧ m.LocallyBest f) ∨ m.cost (m.pass f) < m.cost f :=
  (foldl_exchange_cases m f _).imp
    (fun h => ⟨h.1, fun p q hpq hq => h.2 (p, q) (mem_allPairs.2 ⟨hpq, hq⟩)⟩) id

/-! ## All passes -/

theorem Feasible.improve (h : m.Feasible f) : m.Feasible (m.improve f) := by
  fun_induction Matching.improve m f with
  | case1 f hcost ih => exact ih h.pass
  | case2 f hcost => exact h.pass

theorem locallyBest_improve (m : Matching) (f : Array Nat) : m.LocallyBest (m.improve f) := by
  fun_induction Matching.improve m f with
  | case1 f hcost ih => exact ih
  | case2 f hcost =>
    -- the last pass has exchanged nothing, so what it says of its start it says of its end
    obtain ⟨hsame, hbest⟩ := (m.pass_cases f).resolve_right hcost
    rwa [hsame]

theorem cost_improve_le (m : Matching) (f : Array Nat) : m.cost (m.improve f) ≤ m.cost f := by
  fun_induction Matching.improve m f with
  | case1 f hcost ih => omega
  | case2 f hcost => rw [((m.pass_cases f).resolve_right hcost).1]

/-- Matchings that cost the same are improved in the same way. -/
theorem improve_congr {m' : Matching} (hsizes : m'.sizes = m.sizes) (hspots : m'.spots = m.spots)
    (hcost : m'.cost = m.cost) (f : Array Nat) : m'.improve f = m.improve f := by
  have hfits : m'.fits = m.fits := by
    funext f p q
    simp only [fits, hsizes, hspots]
  have hexchange : m'.exchange = m.exchange := by
    funext f p
    simp only [exchange, hfits, hcost]
  have hpass : m'.pass = m.pass := by
    funext f
    simp only [pass, hsizes, hexchange]
  fun_induction Matching.improve m f with
  | case1 f hlt ih => rw [improve, hpass, hcost, if_pos hlt, ih]
  | case2 f hlt => rw [improve, hpass, hcost, if_neg hlt]

/-! ## Links between the same two parts -/

/-- Distances of zones from themselves are zero, and directions do not matter. -/
structure Metric (m : Matching) : Prop where
  self : ∀ x, m.distance x x = 0
  comm : ∀ x y, m.distance x y = m.distance y x

/-- Adds a link to condensed ones, the smaller part first. A link inside one part is left out. -/
def condense (ls : List (Pair × Nat)) (l : Pair × Nat) : List (Pair × Nat) :=
  if l.1.1 = l.1.2 then ls
  else addInteraction l.2 ls (min l.1.1 l.1.2, max l.1.1 l.1.2)

/-- The problem with one link for any two parts that have some. -/
def condensed (m : Matching) : Matching := { m with links := m.links.foldl condense [] }

/-- What holds of a pair and of the pairs that interact still does when the pair is added. -/
theorem forall_mem_addInteraction {P : Pair → Prop} {w : Nat} {ls : List (Pair × Nat)} {p : Pair}
    (hp : P p) (hls : ∀ l ∈ ls, P l.1) : ∀ l ∈ addInteraction w ls p, P l.1 := by
  induction ls with
  | nil => simpa [addInteraction] using hp
  | cons l ls ih =>
    rw [List.forall_mem_cons] at hls
    rw [addInteraction]
    split_ifs with hl
    · exact List.forall_mem_cons.2 hls
    · exact List.forall_mem_cons.2 ⟨hls.1, ih hls.2⟩

theorem total_addInteraction (d : Pair → Nat) (w : Nat) (ls : List (Pair × Nat)) (p : Pair) :
    total ((addInteraction w ls p).map fun l => l.2 * d l.1)
      = total (ls.map fun l => l.2 * d l.1) + w * d p := by
  induction ls with
  | nil => simp [addInteraction]
  | cons l ls ih =>
    rw [addInteraction]
    split_ifs with hl
    · simp only [List.map_cons, total_cons, hl]
      ring
    · simp only [List.map_cons, total_cons, ih]
      ring

section Condense

variable {d : Pair → Nat} (hself : ∀ x, d (x, x) = 0) (hcomm : ∀ x y, d (x, y) = d (y, x))
include hself hcomm

/-- A link that is left out would cost nothing, and one that is turned round costs the same. -/
theorem total_condense (ls : List (Pair × Nat)) (l : Pair × Nat) :
    total ((condense ls l).map fun l => l.2 * d l.1)
      = total (ls.map fun l => l.2 * d l.1) + l.2 * d l.1 := by
  obtain ⟨⟨x, y⟩, w⟩ := l
  unfold condense
  dsimp only
  split_ifs with hxy
  · simp [hxy, hself]
  · rw [total_addInteraction]
    rcases Nat.le_total x y with hle | hle
    · rw [min_eq_left hle, max_eq_right hle]
    · rw [min_eq_right hle, max_eq_left hle, hcomm]

theorem total_foldl_condense (ls acc : List (Pair × Nat)) :
    total ((ls.foldl condense acc).map fun l => l.2 * d l.1)
      = total (acc.map fun l => l.2 * d l.1) + total (ls.map fun l => l.2 * d l.1) := by
  induction ls generalizing acc with
  | nil => simp
  | cons l ls ih =>
    rw [List.foldl_cons, ih, total_condense hself hcomm, List.map_cons, total_cons]
    omega

end Condense

/-- Condensed links cost the same. -/
theorem cost_condensed (hm : m.Metric) : m.condensed.cost = m.cost := by
  funext f
  have hsum := total_foldl_condense (d := fun p => m.distance (f.getD p.1 0) (f.getD p.2 0))
    (fun x => hm.self _) (fun x y => hm.comm _ _) m.links []
  rwa [List.map_nil, total_nil, Nat.zero_add] at hsum

theorem improve_condensed (hm : m.Metric) (f : Array Nat) :
    m.condensed.improve f = m.improve f := by
  have hsizes : m.condensed.sizes = m.sizes := rfl
  exact improve_congr hsizes rfl (cost_condensed hm) f

/-! ## Tables -/

/-- Every number of a zone or a part that the tables are asked for is in range. -/
structure Tabled (m : Matching) : Prop where
  spots : m.spots.size = m.sizes.size
  distances : m.distances.size = m.sizes.size
  rows : ∀ x < m.sizes.size, (m.distances.getD x #[]).size = m.sizes.size
  links : ∀ l ∈ m.links, l.1.1 < m.sizes.size ∧ l.1.2 < m.sizes.size

theorem foldl_condense_lt {n : Nat} {ls acc : List (Pair × Nat)}
    (hls : ∀ l ∈ ls, l.1.1 < n ∧ l.1.2 < n) (hacc : ∀ l ∈ acc, l.1.1 < n ∧ l.1.2 < n) :
    ∀ l ∈ ls.foldl condense acc, l.1.1 < n ∧ l.1.2 < n := by
  induction ls generalizing acc with
  | nil => exact hacc
  | cons l ls ih =>
    rw [List.forall_mem_cons] at hls
    apply ih hls.2
    unfold condense
    split_ifs
    · exact hacc
    · refine forall_mem_addInteraction (P := fun p => p.1 < n ∧ p.2 < n) ?_ hacc
      dsimp only
      omega

theorem Tabled.condensed (hm : m.Tabled) : m.condensed.Tabled :=
  ⟨hm.spots, hm.distances, hm.rows, foldl_condense_lt hm.links (by simp)⟩

end Matching

/-! ## In place -/

/-- A matching under way: the zone of every part, what that costs, and whether the pass has lowered
the cost. -/
structure Climb where
  zones : List Nat
  best : Nat
  improved : Bool

namespace Climb

open Indexed

/-- The zones of the parts. -/
def parts : Table Climb Nat where
  read s := s.zones
  write zones s := { s with zones }

/-- Exchanges the zones of two parts. -/
def swap (p q : Nat) : Indexed Climb Empty Unit := do
  let x ← parts.get p
  let y ← parts.get q
  parts.set p y
  parts.set q x

/-- The weighted distance of links. -/
def price (m : Matching) : List (Pair × Nat) → Indexed Climb Empty Nat
  | [] => return 0
  | l :: ls => do
    let x ← parts.get l.1.1
    let y ← parts.get l.1.2
    let row ← entry m.distances.toList x
    let d ← entry row.toList y
    let rest ← price m ls
    return l.2 * d + rest

/-- Whether part `p` fits the zone of part `q`. -/
def hasRoom (m : Matching) (p q : Nat) : Indexed Climb Empty Bool := do
  let size ← entry m.sizes.toList p
  let z ← parts.get q
  let room ← entry m.spots.toList z
  return size ≤ room

/-- Exchanges the zones of two parts, and takes that back unless the cost falls. -/
def attempt (m : Matching) (p : Pair) : Indexed Climb Empty Unit := do
  swap p.1 p.2
  let cost ← price m m.links
  let s ← get
  if cost < s.best then set { s with best := cost, improved := true } else swap p.1 p.2

/-- Visits a pair of parts. -/
def visit (m : Matching) (p : Pair) : Indexed Climb Empty Unit := do
  if ← hasRoom m p.1 p.2 then
    if ← hasRoom m p.2 p.1 then attempt m p

/-- Visits pairs in order. -/
def scan (m : Matching) : List Pair → Indexed Climb Empty Unit
  | [] => pure ()
  | p :: ps => do
    visit m p
    scan m ps

/-- One pass over all pairs. -/
def pass (m : Matching) : Indexed Climb Empty Unit := do
  modify fun s => { s with improved := false }
  scan m (Matching.allPairs m.sizes.size)

/-! ### What the steps leave -/

variable {m : Matching} {f : Array Nat} {p : Pair} {best : Nat} {improved : Bool}

/-- The state in which part `p` has zone `f[p]`, with the cost of that. -/
def of (m : Matching) (f : Array Nat) (improved : Bool) : Climb := ⟨f.toList, m.cost f, improved⟩

theorem exec_get_parts {q : Nat} (hq : q < f.size) :
    (parts.get q : Indexed Climb Empty Nat).exec ⟨f.toList, best, improved⟩
      = some (.ok (f.getD q 0), ⟨f.toList, best, improved⟩) :=
  exec_entry_toList hq 0 _

theorem exec_swap (hp : p.1 < f.size) (hq : p.2 < f.size) :
    (swap p.1 p.2).exec ⟨f.toList, best, improved⟩
      = some (.ok (), ⟨(f.swapIfInBounds p.1 p.2).toList, best, improved⟩) := by
  rw [swap, exec_bind (exec_get_parts hp), exec_bind (exec_get_parts hq),
    exec_bind (parts.exec_set (by simpa [parts] using hp) _),
    parts.exec_set (by simpa [parts] using hq), Array.swapIfInBounds_def, dif_pos hp, dif_pos hq,
    Array.toList_swap]
  simp [parts, Array.getD_eq_getD_getElem?, hp, hq]

section Feasible

variable (hm : m.Tabled) (h : m.Feasible f)
include hm h

theorem exec_price {ls : List (Pair × Nat)}
    (hls : ∀ l ∈ ls, l.1.1 < m.sizes.size ∧ l.1.2 < m.sizes.size) :
    (price m ls).exec ⟨f.toList, best, improved⟩
      = some (.ok (total (ls.map fun l => l.2 * m.distance (f.getD l.1.1 0) (f.getD l.1.2 0))),
        ⟨f.toList, best, improved⟩) := by
  have hsize := h.size_eq
  induction ls with
  | nil => rfl
  | cons l ls ih =>
    rw [List.forall_mem_cons] at hls
    have hx := h.lt hls.1.1
    have hy := h.lt hls.1.2
    have hrow := hm.rows _ hx
    rw [price, exec_bind (exec_get_parts (by omega)), exec_bind (exec_get_parts (by omega)),
      exec_bind (exec_entry_toList (hm.distances ▸ hx) #[] _),
      exec_bind (exec_entry_toList (hrow ▸ hy) 0 _), exec_bind (ih hls.2)]
    rfl

theorem exec_hasRoom {p q : Nat} (hp : p < m.sizes.size) (hq : q < m.sizes.size) :
    (hasRoom m p q).exec (of m f improved)
      = some (.ok (decide (m.sizes.getD p 0 ≤ m.spots.getD (f.getD q 0) 0)),
        of m f improved) := by
  have hsize := h.size_eq
  rw [hasRoom, of, exec_bind (exec_entry_toList hp 0 _), exec_bind (exec_get_parts (by omega)),
    exec_bind (exec_entry_toList (hm.spots ▸ h.lt hq) 0 _)]
  rfl

variable (hp : p.1 < m.sizes.size) (hq : p.2 < m.sizes.size)
include hp hq

/-- An exchange that does not pay leaves no trace. -/
theorem exec_attempt (hfits : m.fits f p.1 p.2 = true) :
    (attempt m p).exec (of m f improved) = some (.ok (),
      if m.cost (f.swapIfInBounds p.1 p.2) < m.cost f then of m (f.swapIfInBounds p.1 p.2) true
      else of m f improved) := by
  have hsize := h.size_eq
  have hback : (f.swapIfInBounds p.1 p.2).swapIfInBounds p.1 p.2 = f := by
    simp [Array.swapIfInBounds_def, hsize, hp, hq]
  rw [attempt, of, exec_bind (exec_swap (by omega) (by omega)),
    exec_bind (exec_price hm (h.swap hp hq hfits) hm.links), exec_bind (Indexed.exec_get _)]
  show Indexed.exec (if m.cost (f.swapIfInBounds p.1 p.2) < m.cost f then _ else _) _ = _
  split_ifs with hcost
  · rfl
  · rw [exec_swap (by simpa using by omega) (by simpa using by omega), hback]

theorem exec_visit :
    (visit m p).exec (of m f improved) = some (.ok (), of m (m.exchange f p)
      (improved || decide (m.cost (m.exchange f p) < m.cost f))) := by
  have hvisit : (visit m p).exec (of m f improved)
      = if m.fits f p.1 p.2 then (attempt m p).exec (of m f improved)
        else some (.ok (), of m f improved) := by
    rw [visit, exec_bind (exec_hasRoom hm h hp hq), Matching.fits]
    -- the second part is looked at only if the first one fits
    by_cases hfirst : m.sizes.getD p.1 0 ≤ m.spots.getD (f.getD p.2 0) 0
    · rw [decide_eq_true hfirst, if_pos rfl, exec_bind (exec_hasRoom hm h hq hp), Bool.true_and]
      by_cases hsecond : m.sizes.getD p.2 0 ≤ m.spots.getD (f.getD p.1 0) 0
      · rw [decide_eq_true hsecond, if_pos rfl, if_pos rfl]
      · rw [decide_eq_false hsecond]
        exact exec_pure () _
    · rw [decide_eq_false hfirst, Bool.false_and]
      exact exec_pure () _
  rw [hvisit]
  split_ifs with hfits
  · rw [exec_attempt hm h hp hq hfits]
    rcases m.exchange_cases f p with ⟨hsame, hbest⟩ | ⟨hswap, -, hcost⟩
    · simp [hsame, Nat.not_lt.2 (hbest hfits)]
    · simp [hswap, hcost]
  · have hsame : m.exchange f p = f := if_neg hfits
    simp [hsame]

end Feasible

theorem exec_scan (hm : m.Tabled) (h : m.Feasible f) {ps : List Pair}
    (hps : ∀ p ∈ ps, p.1 < m.sizes.size ∧ p.2 < m.sizes.size) :
    (scan m ps).exec (of m f improved) = some (.ok (), of m (ps.foldl m.exchange f)
      (improved || decide (m.cost (ps.foldl m.exchange f) < m.cost f))) := by
  induction ps generalizing f improved with
  | nil => simp [scan, exec_pure]
  | cons p ps ih =>
    rw [List.forall_mem_cons] at hps
    have hnext := h.exchange hps.1.1 hps.1.2
    rw [scan, exec_bind (exec_visit hm h hps.1.1 hps.1.2), ih hnext hps.2, List.foldl_cons]
    congr 3
    -- neither the pair nor the others raise the cost
    rcases m.exchange_cases f p with ⟨hsame, -⟩ | ⟨hswap, -, hcost⟩
    · simp [hsame]
    · rcases m.foldl_exchange_cases (m.exchange f p) ps with ⟨hrest, -⟩ | hrest
      · simp [hrest]
      · rw [← hswap] at hcost
        simp [hcost, hrest.trans hcost]

theorem exec_pass (hm : m.Tabled) (h : m.Feasible f) :
    (pass m).exec (of m f improved)
      = some (.ok (), of m (m.pass f) (decide (m.cost (m.pass f) < m.cost f))) :=
  exec_scan hm h fun _ => Matching.lt_of_mem_allPairs

/-- The passes come to an end: each but the last lowers the cost. -/
theorem exists_course (hm : m.Tabled) (h : m.Feasible f) :
    ∃ visited, Course (·.improved = true) (pass m).leaves (of m f true) visited
        (.ok (of m (m.improve f) false)) ∧
      visited.length ≤ m.cost f + 1 := by
  fun_induction Matching.improve m f with
  | case1 f hcost ih =>
    obtain ⟨visited, hcourse, hlen⟩ := ih h.pass
    have hstep : (pass m).leaves (of m f true) = .ok (of m (m.pass f) true) := by
      rw [leaves_eq_ok (exec_pass hm h), decide_eq_true hcost]
    refine ⟨_, .goes rfl hstep hcourse, ?_⟩
    rw [List.length_cons]
    omega
  | case2 f hcost =>
    have hstep : (pass m).leaves (of m f true) = .ok (of m (m.pass f) false) := by
      rw [leaves_eq_ok (exec_pass hm h), decide_eq_false hcost]
    exact ⟨_, .goes rfl hstep (.done (by simp [of])), by simp⟩

/-- Run in place from the zones of the same numbers, the passes end with the zones `f`, and there
are no more of them than the first cost and one. -/
def Ends (m : Matching) (cost : Array Nat → Nat) (f : Array Nat) : Prop :=
  ∃ visited, Course (·.improved = true) (pass m).leaves
      ⟨List.range m.sizes.size, cost (Array.range m.sizes.size), true⟩ visited
      (.ok ⟨f.toList, cost f, false⟩) ∧
    visited.length ≤ cost (Array.range m.sizes.size) + 1

end Climb

end IonTrap
