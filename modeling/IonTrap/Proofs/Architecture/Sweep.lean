import IonTrap.Proofs.Architecture.Hops
import IonTrap.Proofs.Indexed
import IonTrap.Proofs.Loop

/-!
# Shortest paths with one queue

The hops from a zone can be counted without layers. The zones wait in a queue, and each one that is
taken out writes the number of its hops and one more into the table of every neighbour that has no
number yet, and itself beside it (`Sweep`). Then the path to a zone is found by following these
notes back. Neither loop has a bound of its own. While the queue takes in one layer it lets out the
one before (`Sweep.exists_run_layer`), so the first loop takes each zone out at most once and leaves
the distances, and the second one walks through the layers and gives the shortest path
(`Legal.sweep_ends`).
-/

namespace IonTrap.Architecture

open Indexed

/-! ## Rows of neighbours -/

/-- The zone at the other end of a connection. -/
def opposite (z : Nat) (c : Connection) : Option Nat :=
  if c.a.zone = z then some c.b.zone
  else if c.b.zone = z then some c.a.zone
  else none

/-- The rows of all zones. -/
def rows : Table (List (List Nat)) (List Nat) where
  read s := s
  write s _ := s

/-- Adds each connection to the rows of its ends. -/
def connect : List Connection → Indexed (List (List Nat)) Empty Unit
  | [] => pure ()
  | c :: cs => do
    rows.modify c.a.zone (· ++ [c.b.zone])
    rows.modify c.b.zone (· ++ [c.a.zone])
    connect cs

theorem exec_connect {n : Nat} {cs : List Connection}
    (hcs : ∀ c ∈ cs, c.a.zone < n ∧ c.b.zone < n ∧ c.a.zone ≠ c.b.zone) (f : Nat → List Nat) :
    (connect cs).exec ((List.range n).map f)
      = some (.ok (), (List.range n).map fun z => f z ++ cs.filterMap (opposite z)) := by
  induction cs generalizing f with
  | nil =>
    simp only [List.filterMap_nil, List.append_nil]
    exact exec_pure () _
  | cons c cs ih =>
    rw [List.forall_mem_cons] at hcs
    obtain ⟨⟨hxn, hyn, hne⟩, hcs⟩ := hcs
    rw [connect, exec_bind (rows.exec_modify (by simpa [rows] using hxn) _),
      exec_bind (rows.exec_modify (by simpa [rows] using hyn) _)]
    simp only [rows, map_range_modify]
    rw [ih hcs]
    congr! 4 with z
    -- the connection shows up in the rows of its two ends, and these are different
    rw [List.filterMap_cons, opposite, Function.update_apply, Function.update_apply,
      Function.update_apply]
    by_cases hx : c.a.zone = z
    · have hy : z ≠ c.b.zone := by omega
      simp [hx, hy]
    · by_cases hy : c.b.zone = z
      · have hx' : z ≠ c.a.zone := by omega
        simp [hx, hy, hx']
      · simp [hx, hy, eq_comm (a := z)]

theorem Legal.exec_connect {a : Architecture} (ha : a.Legal) :
    (connect a.connections).exec (List.replicate a.numZones [])
      = some (.ok (), (List.range a.numZones).map a.neighbors) := by
  have hnil : List.replicate a.numZones ([] : List Nat)
      = (List.range a.numZones).map fun _ => [] := by
    rw [List.map_const', List.length_range]
  rw [hnil, Architecture.exec_connect ha.ends]
  rfl

/-! ## New zones -/

theorem fresh_congr {seen seen' : List Nat} (h : ∀ z, z ∈ seen ↔ z ∈ seen') (zs : List Nat) :
    fresh seen zs = fresh seen' zs := by
  induction zs generalizing seen seen' with
  | nil => rfl
  | cons z zs ih =>
    have hcons : ∀ w, w ∈ z :: seen ↔ w ∈ z :: seen' := by
      intro w
      rw [List.mem_cons, List.mem_cons, h]
    simp only [fresh, List.contains_iff_mem, h z, ih h, ih hcons]

theorem fresh_append (seen zs ws : List Nat) :
    fresh seen (zs ++ ws) = fresh seen zs ++ fresh (seen ++ fresh seen zs) ws := by
  induction zs generalizing seen with
  | nil => simp [fresh]
  | cons z zs ih =>
    rw [List.cons_append, fresh, fresh]
    split
    · exact ih seen
    · rw [ih, List.cons_append]
      congr 2
      apply fresh_congr
      intro w
      simp only [List.mem_cons, List.mem_append]
      tauto

/-! ## The search -/

/-- A search under way: the zones that wait, and of every zone the number of hops to it and the zone
it was found from. -/
structure Sweep where
  queue : List Nat
  hops : List (Option Nat)
  sources : List (Option Nat)

namespace Sweep

/-- Numbers of hops. -/
def counts : Table Sweep (Option Nat) where
  read s := s.hops
  write hops s := { s with hops }

/-- Where zones were found from. -/
def notes : Table Sweep (Option Nat) where
  read s := s.sources
  write sources s := { s with sources }

/-- Zone `z` is seen from zone `y`. -/
def reach (y z : Nat) : Indexed Sweep Empty Unit := do
  let known ← counts.get z
  if known.isNone then
    let some d ← counts.get y | outOfRange
    counts.set z (some (d + 1))
    notes.set z (some y)
    modify fun s => { s with queue := s.queue ++ [z] }

/-- All zones that are seen from zone `y`. -/
def scan (y : Nat) : List Nat → Indexed Sweep Empty Unit
  | [] => pure ()
  | z :: zs => do
    reach y z
    scan y zs

/-- Takes a zone out of the queue and looks at its row. -/
def turn (rows : List (List Nat)) : Indexed Sweep Empty Unit := do
  let s ← get
  match s.queue with
  | [] => pure ()
  | y :: rest =>
    set { s with queue := rest }
    let zs ← entry rows y
    scan y zs

/-- Only zone `x` is known. -/
def start (n x : Nat) : Sweep :=
  ⟨[x], (List.replicate n none).set x (some 0), List.replicate n none⟩

/-- Puts the zone before the first zone of a path in front of it. -/
def follow (sources : List (Option Nat)) : List Nat → Except Unit (List Nat)
  | [] => .error ()
  | z :: path =>
    match sources[z]? with
    | some (some y) => .ok (y :: z :: path)
    | _ => .error ()

/-! ### What the steps leave -/

variable {a : Architecture} {n x y z d : Nat} {queue seen zs : List Nat}
  {hops sources : Nat → Option Nat}

/-- The state with these entries for the zones below `n`. -/
def of (n : Nat) (queue : List Nat) (hops sources : Nat → Option Nat) : Sweep :=
  ⟨queue, (List.range n).map hops, (List.range n).map sources⟩

/-- Entries that are changed for some zones. -/
def note (zs : List Nat) (new old : Nat → Option Nat) (z : Nat) : Option Nat :=
  if zs.contains z then new z else old z

theorem note_of_mem {new old : Nat → Option Nat} (h : z ∈ zs) : note zs new old z = new z := by
  simp [note, h]

theorem note_of_notMem {new old : Nat → Option Nat} (h : z ∉ zs) : note zs new old z = old z := by
  simp [note, h]

theorem note_nil (new old : Nat → Option Nat) : note [] new old = old := by
  funext z
  exact note_of_notMem (List.not_mem_nil)

theorem note_append (zs ws : List Nat) (new old : Nat → Option Nat) :
    note (zs ++ ws) new old = note ws new (note zs new old) := by
  funext z
  by_cases hw : z ∈ ws
  · rw [note_of_mem (List.mem_append_right _ hw), note_of_mem hw]
  · by_cases hz : z ∈ zs
    · rw [note_of_mem (List.mem_append_left _ hz), note_of_notMem hw, note_of_mem hz]
    · rw [note_of_notMem (by simp [hz, hw]), note_of_notMem hw, note_of_notMem hz]

theorem note_congr {new new' : Nat → Option Nat} (h : ∀ z ∈ zs, new z = new' z)
    (old : Nat → Option Nat) : note zs new old = note zs new' old := by
  funext z
  by_cases hz : z ∈ zs
  · rw [note_of_mem hz, note_of_mem hz, h z hz]
  · rw [note_of_notMem hz, note_of_notMem hz]

theorem update_eq_note (f : Nat → Option Nat) (z : Nat) (v : Option Nat) :
    Function.update f z v = note [z] (fun _ => v) f := by
  funext w
  by_cases hw : w = z
  · rw [hw, Function.update_self, note_of_mem List.mem_cons_self]
  · rw [Function.update_of_ne hw, note_of_notMem (by simpa using hw)]

/-- Zones that get a number are known from then on. -/
theorem note_ne_none_iff (hseen : ∀ z, hops z ≠ none ↔ z ∈ seen) (zs : List Nat) (k z : Nat) :
    note zs (fun _ => some k) hops z ≠ none ↔ z ∈ seen ++ zs := by
  by_cases hz : z ∈ zs
  · simp [note_of_mem hz, hz]
  · rw [note_of_notMem hz, hseen, List.mem_append]
    simp [hz]

theorem exec_get_counts (hz : z < n) :
    (counts.get z : Indexed Sweep Empty (Option Nat)).exec (of n queue hops sources)
      = some (.ok (hops z), of n queue hops sources) := by
  rw [counts.exec_get (by simpa [counts, of] using hz) none]
  simp [counts, of, hz]

/-- A zone that has a number is left alone. -/
theorem exec_reach_known (hz : z < n) (hknown : hops z ≠ none) :
    (reach y z).exec (of n queue hops sources) = some (.ok (), of n queue hops sources) := by
  obtain ⟨k, hk⟩ := Option.ne_none_iff_exists'.1 hknown
  rw [reach, exec_bind (exec_get_counts hz), hk]
  exact exec_pure () _

theorem exec_reach_new (hz : z < n) (hnew : hops z = none) (hyn : y < n) (hy : hops y = some d) :
    (reach y z).exec (of n queue hops sources)
      = some (.ok (), of n (queue ++ [z]) (note [z] (fun _ => some (d + 1)) hops)
          (note [z] (fun _ => some y) sources)) := by
  have hstate : of n (queue ++ [z]) (note [z] (fun _ => some (d + 1)) hops)
      (note [z] (fun _ => some y) sources)
      = ⟨queue ++ [z], ((List.range n).map hops).set z (some (d + 1)),
        ((List.range n).map sources).set z (some y)⟩ := by
    rw [of, ← update_eq_note, ← update_eq_note, map_range_set, map_range_set]
  rw [reach, exec_bind (exec_get_counts hz), hnew, if_pos Option.isNone_none,
    exec_bind (exec_get_counts hyn), hy, hstate]
  show Indexed.exec (counts.set z (some (d + 1)) >>= _) _ = _
  rw [exec_bind (counts.exec_set (by simpa [counts, of] using hz) _),
    exec_bind (notes.exec_set (by simpa [notes, counts, of] using hz) _)]
  rfl

/-- The zones seen from `y` that are new get numbers and join the queue. -/
theorem exec_scan (hyn : y < n) (hy : hops y = some d) (hseen : ∀ z, hops z ≠ none ↔ z ∈ seen)
    (hzs : ∀ z ∈ zs, z < n) :
    (scan y zs).exec (of n queue hops sources)
      = some (.ok (), of n (queue ++ fresh seen zs)
          (note (fresh seen zs) (fun _ => some (d + 1)) hops)
          (note (fresh seen zs) (fun _ => some y) sources)) := by
  induction zs generalizing queue hops sources seen with
  | nil =>
    rw [fresh, List.append_nil, note_nil, note_nil]
    exact exec_pure () _
  | cons z zs ih =>
    rw [List.forall_mem_cons] at hzs
    rw [scan, fresh]
    by_cases hz : z ∈ seen
    · rw [if_pos (by simpa using hz), exec_bind (exec_reach_known hzs.1 ((hseen z).2 hz)),
        ih hy hseen hzs.2]
    · have hnew : hops z = none := by
        by_contra h
        exact hz ((hseen z).1 h)
      have hyz : y ∉ [z] := by
        rintro hyz
        rw [List.mem_singleton.1 hyz, hnew] at hy
        simp at hy
      have hseen' : ∀ w, note [z] (fun _ => some (d + 1)) hops w ≠ none ↔ w ∈ z :: seen := by
        intro w
        rw [note_ne_none_iff hseen, List.mem_append, List.mem_singleton, List.mem_cons, or_comm]
      rw [if_neg (by simpa using hz), exec_bind (exec_reach_new hzs.1 hnew hyn hy),
        ih (by rw [note_of_notMem hyz, hy]) hseen' hzs.2, ← note_append, ← note_append,
        List.append_assoc, List.singleton_append]

theorem exec_turn (ha : a.Legal) (hyn : y < a.numZones) (hy : hops y = some d)
    (hseen : ∀ z, hops z ≠ none ↔ z ∈ seen) (queue : List Nat) (sources : Nat → Option Nat) :
    (turn ((List.range a.numZones).map a.neighbors)).exec (of a.numZones (y :: queue) hops sources)
      = some (.ok (), of a.numZones (queue ++ fresh seen (a.neighbors y))
          (note (fresh seen (a.neighbors y)) (fun _ => some (d + 1)) hops)
          (note (fresh seen (a.neighbors y)) (fun _ => some y) sources)) := by
  have hrow : ((List.range a.numZones).map a.neighbors)[y]? = some (a.neighbors y) := by
    simp [hyn]
  have hbelow : ∀ z ∈ a.neighbors y, z < a.numZones := fun z hz =>
    (ha.joined_lt (ha.mem_neighbors_iff.1 hz)).2
  rw [turn, exec_bind (Indexed.exec_get _)]
  show Indexed.exec (set (of a.numZones queue hops sources) >>= _) _ = _
  have hset : (set (of a.numZones queue hops sources) : Indexed Sweep Empty PUnit).exec
      (of a.numZones (y :: queue) hops sources)
      = some (.ok (), of a.numZones queue hops sources) := rfl
  rw [exec_bind hset, exec_bind (exec_entry hrow _), exec_scan hyn hy hseen hbelow]

/-! ### One layer after the other -/

/-- Where the zones behind a layer were found from: the first zone of the layer beside them. -/
def gate (a : Architecture) (layer : List Nat) (z : Nat) : Option Nat :=
  layer.find? fun y => (a.neighbors y).contains z

theorem gate_cons_of_mem {layer : List Nat} (h : z ∈ a.neighbors y) :
    gate a (y :: layer) z = some y := by
  rw [gate, List.find?_cons_of_pos (by simpa using h)]

theorem gate_cons_of_notMem {layer : List Nat} (h : z ∉ a.neighbors y) :
    gate a (y :: layer) z = gate a layer z := by
  rw [gate, List.find?_cons_of_neg (by simpa using h), gate]

/-- The loop that empties the queue. -/
abbrev Run (a : Architecture) : Sweep → List Sweep → Except Unit Sweep → Prop :=
  Course (·.queue ≠ []) (turn ((List.range a.numZones).map a.neighbors)).leaves

/-- Letting out one layer takes in the next one, behind what waits already. -/
theorem exists_run_layer (ha : a.Legal) {layer : List Nat}
    (hlayer : ∀ y ∈ layer, y < a.numZones ∧ hops y = some d)
    (hseen : ∀ z, hops z ≠ none ↔ z ∈ seen) (queue : List Nat) (sources : Nat → Option Nat)
    {visited : List Sweep} {out : Except Unit Sweep}
    (hrest : Run a (of a.numZones (queue ++ fresh seen (layer.flatMap a.neighbors))
      (note (fresh seen (layer.flatMap a.neighbors)) (fun _ => some (d + 1)) hops)
      (note (fresh seen (layer.flatMap a.neighbors)) (gate a layer) sources)) visited out) :
    ∃ visited', Run a (of a.numZones (layer ++ queue) hops sources) visited' out ∧
      visited'.length = layer.length + visited.length := by
  induction layer generalizing queue seen hops sources with
  | nil =>
    rw [List.flatMap_nil, fresh, note_nil, note_nil, List.append_nil] at hrest
    exact ⟨visited, hrest, by simp⟩
  | cons y layer ih =>
    rw [List.forall_mem_cons] at hlayer
    obtain ⟨⟨hyn, hy⟩, hlayer⟩ := hlayer
    have hstep := leaves_eq_ok (exec_turn ha hyn hy hseen (layer ++ queue) sources)
    rw [List.append_assoc] at hstep
    -- what is new behind `y` was found from it, and what is new behind the others is not beside it
    have hfirst : ∀ z ∈ fresh seen (a.neighbors y), gate a (y :: layer) z = some y := fun z hz =>
      gate_cons_of_mem (mem_fresh.1 hz).1
    have hlater : ∀ z ∈ fresh (seen ++ fresh seen (a.neighbors y)) (layer.flatMap a.neighbors),
        gate a (y :: layer) z = gate a layer z := by
      intro z hz
      have hnot := (mem_fresh.1 hz).2
      rw [List.mem_append, mem_fresh] at hnot
      exact gate_cons_of_notMem fun hz => hnot (by tauto)
    rw [List.flatMap_cons, fresh_append, note_append, note_append, ← List.append_assoc,
      note_congr hfirst, note_congr hlater] at hrest
    have hkept : ∀ w ∈ layer, w < a.numZones ∧
        note (fresh seen (a.neighbors y)) (fun _ => some (d + 1)) hops w = some d := by
      intro w hw
      have hknown : hops w ≠ none := by simp [(hlayer w hw).2]
      rw [note_of_notMem fun hnew => (mem_fresh.1 hnew).2 ((hseen w).1 hknown)]
      exact hlayer w hw
    obtain ⟨visited', hcourse, hlen⟩ := ih hkept (note_ne_none_iff hseen _ (d + 1)) _ _ hrest
    refine ⟨_, .goes (by simp [of]) hstep hcourse, ?_⟩
    rw [List.length_cons, List.length_cons, hlen]
    omega

/-- What the tables hold when the zones up to distance `d` are known. -/
structure Charted (a : Architecture) (x d : Nat) (hops sources : Nat → Option Nat) : Prop where
  hops_iff : ∀ z k, hops z = some k ↔ k ≤ d ∧ a.AtDistance x k z
  sources_eq : ∀ z k layer, k < d → a.AtDistance x (k + 1) z → (a.layers x)[k]? = some layer →
    sources z = gate a layer z

namespace Charted

/-- The known zones are those that the search has seen. -/
theorem seen_iff (h : Charted a x d hops sources) {layer : List Nat} (hf : a.Front x d seen layer)
    (z : Nat) : hops z ≠ none ↔ z ∈ seen := by
  rw [hf.seen_iff, Option.ne_none_iff_exists']
  constructor
  · rintro ⟨k, hk⟩
    obtain ⟨hle, hat⟩ := (h.hops_iff z k).1 hk
    exact ⟨k, hle, hat.walk⟩
  · rintro ⟨k, hle, hwalk⟩
    obtain ⟨j, hj⟩ := exists_atDistance ⟨k, hwalk⟩
    have hjk : j ≤ k := by
      by_contra hjk
      exact hj.least k (by omega) hwalk
    exact ⟨j, (h.hops_iff z j).2 ⟨by omega, hj⟩⟩

theorem start (a : Architecture) (x : Nat) :
    Charted a x 0 (Function.update (fun _ => none) x (some 0)) fun _ => none := by
  refine ⟨fun z k => ?_, fun z k layer hk => by omega⟩
  rw [Function.update_apply]
  constructor
  · intro h
    split_ifs at h with hz
    obtain rfl : 0 = k := by simpa using h
    exact ⟨le_rfl, atDistance_zero_iff.2 hz⟩
  · rintro ⟨hk, hat⟩
    obtain rfl : k = 0 := by omega
    rw [if_pos (atDistance_zero_iff.1 hat)]

/-- The next layer is written down. -/
theorem next (h : Charted a x d hops sources) (ha : a.Legal) {layer : List Nat}
    (hf : a.Front x d seen layer) (hlayer : (a.layers x)[d]? = some layer) :
    Charted a x (d + 1)
      (note (fresh seen (layer.flatMap a.neighbors)) (fun _ => some (d + 1)) hops)
      (note (fresh seen (layer.flatMap a.neighbors)) (gate a layer) sources) := by
  refine ⟨fun z k => ?_, fun z k layer' hk hat hlayer' => ?_⟩
  · by_cases hz : z ∈ fresh seen (layer.flatMap a.neighbors)
    · have hnext := (ha.mem_next_iff hf).1 hz
      rw [note_of_mem hz, Option.some.injEq]
      constructor
      · rintro rfl
        exact ⟨le_rfl, hnext⟩
      · rintro ⟨-, hat⟩
        exact hnext.unique hat
    · rw [note_of_notMem hz, h.hops_iff]
      constructor
      · rintro ⟨hk, hat⟩
        exact ⟨by omega, hat⟩
      · rintro ⟨hk, hat⟩
        refine ⟨?_, hat⟩
        by_contra hlt
        obtain rfl : k = d + 1 := by omega
        exact hz ((ha.mem_next_iff hf).2 hat)
  · rcases Nat.lt_succ_iff_lt_or_eq.1 hk with hlt | rfl
    · have hz : z ∉ fresh seen (layer.flatMap a.neighbors) := by
        intro hz
        have := ((ha.mem_next_iff hf).1 hz).unique hat
        omega
      rw [note_of_notMem hz, h.sources_eq z k layer' hlt hat hlayer']
    · rw [note_of_mem ((ha.mem_next_iff hf).2 hat)]
      rw [hlayer] at hlayer'
      rw [Option.some.inj hlayer']

end Charted

/-- The queue runs empty, and by then all zones that can be reached are known. -/
theorem exists_run (ha : a.Legal) (hx : x < a.numZones) {fuel : Nat} {before : List (List Nat)}
    {layer : List Nat} (hf : a.Front x d seen layer) (hfuel : a.numZones ≤ fuel + d)
    (hlayers : a.layers x = before ++ a.layersFrom fuel seen layer) (hbefore : before.length = d)
    (h : Charted a x d hops sources) :
    ∃ visited d' hops' sources', Run a (of a.numZones layer hops sources) visited
        (.ok (of a.numZones [] hops' sources')) ∧
      Charted a x d' hops' sources' ∧ (∀ z, ¬ a.AtDistance x (d' + 1) z) ∧
      visited.length + seen.length ≤ layer.length + a.numZones := by
  induction fuel generalizing d seen layer before hops sources with
  | zero =>
    have := ha.front_lt hx hf
    omega
  | succ fuel ih =>
    have hknown : ∀ y ∈ layer, y < a.numZones ∧ hops y = some d := by
      intro y hy
      have hat := (hf.layer_iff y).1 hy
      exact ⟨ha.walk_lt hx hat.walk, (h.hops_iff y d).2 ⟨le_rfl, hat⟩⟩
    rw [layersFrom] at hlayers
    have hlayer : (a.layers x)[d]? = some layer := by
      rw [hlayers, List.getElem?_append_right (by omega), hbefore, Nat.sub_self]
      rfl
    have hlen := ha.length_seen_le hx hf
    by_cases hne : fresh seen (layer.flatMap a.neighbors) = []
    · -- nothing lies behind the layer, so its zones leave the queue and none joins it
      obtain ⟨visited, hrun, hvisited⟩ := exists_run_layer ha hknown (h.seen_iff hf) [] sources (by
        rw [hne]
        exact .done (by simp [of]))
      rw [List.append_nil] at hrun
      refine ⟨visited, d, _, _, hrun, h, fun z hz => ?_, ?_⟩
      · have := (ha.mem_next_iff hf).2 hz
        simp [hne] at this
      · rw [hvisited, List.length_nil]
        omega
    · have hempty : (fresh seen (layer.flatMap a.neighbors)).isEmpty = false := by simpa using hne
      simp only [hempty, Bool.false_eq_true, if_false] at hlayers
      rw [List.append_cons] at hlayers
      obtain ⟨rest, d', hops', sources', hrest, hcharted', hlast, hrestlen⟩ :=
        ih (ha.front_next hf hne) (by omega) hlayers (by simp [hbefore]) (h.next ha hf hlayer)
      obtain ⟨visited, hrun, hvisited⟩ :=
        exists_run_layer ha hknown (h.seen_iff hf) [] sources hrest
      rw [List.append_nil] at hrun
      refine ⟨visited, d', hops', sources', hrun, hcharted', hlast, ?_⟩
      rw [List.length_append] at hrestlen
      omega

/-! ### The way back -/

/-- Following the notes gives the path that is read off the layers. -/
theorem exists_course_follow (ha : a.Legal) (hx : x < a.numZones)
    (h : Charted a x d hops sources) {k : Nat} (hk : k ≤ d) (hat : a.AtDistance x k z)
    (path : List Nat) :
    ∃ visited, Course (·.head? ≠ some x) (follow ((List.range a.numZones).map sources)) (z :: path)
      visited (.ok (a.traceBack ((a.layers x).take k).reverse z ++ path)) := by
  induction k generalizing z path with
  | zero =>
    obtain rfl := atDistance_zero_iff.1 hat
    exact ⟨[], .done (by simp)⟩
  | succ k ih =>
    obtain ⟨y, hy, hj⟩ := hat.exists_before
    obtain ⟨layer, hlayer, hyl⟩ := (ha.mem_layers_iff hx k).2 hy
    have hzn := ha.walk_lt hx hat.walk
    have hzx : z ≠ x := by
      rintro rfl
      have := hat.unique (atDistance_zero_iff.2 rfl)
      omega
    -- the layer before holds a neighbour of `z`, and the first one of them was noted
    obtain ⟨y', hgate⟩ : ∃ y', gate a layer z = some y' := by
      refine Option.isSome_iff_exists.1 (List.find?_isSome.2 ⟨y, hyl, ?_⟩)
      simpa using ha.mem_neighbors_iff.2 hj
    have hy' : a.AtDistance x k y' :=
      (ha.mem_layers_iff hx k).1 ⟨layer, hlayer, List.mem_of_find?_eq_some hgate⟩
    have hstep : follow ((List.range a.numZones).map sources) (z :: path)
        = .ok (y' :: z :: path) := by
      have hsource : sources z = some y' := by
        rw [h.sources_eq z k layer (by omega) hat hlayer, hgate]
      simp [follow, hzn, hsource]
    have htrace : a.traceBack ((a.layers x).take (k + 1)).reverse z
        = a.traceBack ((a.layers x).take k).reverse y' ++ [z] := by
      rw [gate] at hgate
      rw [reverse_take_succ hlayer, traceBack, hgate]
    obtain ⟨visited, hcourse⟩ := ih (by omega) hy' (z :: path)
    rw [htrace, List.append_assoc, List.singleton_append]
    exact ⟨_, .goes (by simpa using hzx) hstep hcourse⟩

/-- Searched from zone `x` with one queue, the zones have these numbers of hops, every zone leaves
the queue at most once, and following the notes back from a zone ends with its path. -/
def Ends (a : Architecture) (x : Nat) (count : Nat → Option Nat) (path : Nat → Option (List Nat)) :
    Prop :=
  ∃ adjacent visited s, (connect a.connections).exec (List.replicate a.numZones [])
      = some (.ok (), adjacent) ∧
    Course (·.queue ≠ []) (turn adjacent).leaves (start a.numZones x) visited (.ok s) ∧
    visited.length ≤ a.numZones ∧
    s.hops = (List.range a.numZones).map count ∧
    ∀ y p, path y = some p → ∃ back, Course (·.head? ≠ some x) (follow s.sources) [y] back (.ok p)

end Sweep

/-- The search with one queue finds the distances and the shortest paths. -/
theorem Legal.sweep_ends {a : Architecture} (ha : a.Legal) {x : Nat} (hx : x < a.numZones) :
    Sweep.Ends a x (a.distance x) (a.shortestPath x) := by
  have hfuel : a.numZones ≤ a.numZones + 0 := Nat.le_refl _
  obtain ⟨visited, d, hops, sources, hrun, hcharted, hlast, hlen⟩ :=
    Sweep.exists_run ha hx front_start hfuel (List.nil_append _).symm List.length_nil
      (Sweep.Charted.start a x)
  have hall : ∀ {z k}, a.AtDistance x k z → k ≤ d := by
    intro z k hat
    by_contra hlt
    obtain ⟨y, hy⟩ := hat.exists_of_le (show d + 1 ≤ k by omega)
    exact hlast y hy
  have hstart : Sweep.start a.numZones x
      = Sweep.of a.numZones [x] (Function.update (fun _ => none) x (some 0)) fun _ => none := by
    rw [Sweep.start, Sweep.of, ← map_range_set, List.map_const', List.length_range]
  refine ⟨_, visited, _, ha.exec_connect, hstart ▸ hrun, ?_, ?_, ?_⟩
  · rw [List.length_singleton] at hlen
    omega
  · refine List.map_congr_left fun z _ => Option.ext fun k => ?_
    rw [hcharted.hops_iff, ha.distance_eq_some_iff hx]
    exact ⟨And.right, fun hat => ⟨hall hat, hat⟩⟩
  · intro y p hp
    obtain ⟨k, hk, rfl⟩ := Option.map_eq_some_iff.1 hp
    have hat := (ha.distance_eq_some_iff hx).1 hk
    have := Sweep.exists_course_follow ha hx hcharted (hall hat) hat []
    rwa [List.append_nil] at this

/-! ## Distances and paths -/

/-- Distances are least numbers of hops, and there is none exactly where there is no walk. A path is
returned exactly where there is a distance: it joins the two zones with that many hops, meets no
zone twice, and each of its hops crosses a connection whose ports are known from both sides. The
search with one queue ends with the same distances and paths. -/
theorem shortestPath_shortest {a : Architecture} (ha : a.validate = .ok ()) {x : Nat}
    (hx : x < a.numZones) (y : Nat) :
    (∀ d, a.distance x y = some d ↔ a.Walk x d y ∧ ∀ n, a.Walk x n y → d ≤ n) ∧
      (a.distance x y = none ↔ ¬ ∃ n, a.Walk x n y) ∧
      (a.shortestPath x y).isSome = (a.distance x y).isSome ∧
      (∀ p, a.shortestPath x y = some p →
        p.head? = some x ∧ p.getLast? = some y ∧
          (∃ d, a.distance x y = some d ∧ p.length = d + 1) ∧ p.Nodup ∧
          p.IsChain fun u w => ∃ i o, a.connectionPorts u w = .ok (i, o) ∧
            a.connectionPorts w u = .ok (o, i)) ∧
      Sweep.Ends a x (a.distance x) (a.shortestPath x) := by
  have hlegal := legal_of_validate ha
  refine ⟨fun d => ?_, hlegal.distance_eq_none_iff hx, ?_, fun p hp => ?_, hlegal.sweep_ends hx⟩
  · rw [hlegal.distance_eq_some_iff hx, atDistance_iff]
  · rw [shortestPath, Option.isSome_map]
  · have hway := hlegal.shortestPath_spec hx hp
    obtain ⟨d, hd, -⟩ := Option.map_eq_some_iff.1 hp
    have hlen := hway.length_eq ((hlegal.distance_eq_some_iff hx).1 hd)
    exact ⟨hway.head, hway.last, ⟨d, hd, hlen⟩, hway.nodup,
      hway.chain.imp fun _ _ hj => hlegal.exists_connectionPorts hj⟩

/-- Four gate zones in a ring, and one zone that is not connected to them. -/
def ringAndIsland : Architecture :=
  ⟨5, List.replicate 5 ⟨2, 3, false, 1⟩, [.chain 0 1, .chain 1 2, .chain 2 3, .chain 3 0]⟩

/-- Across the ring there are two ways of two hops, and the first one is taken; to the fifth zone
there is none. -/
theorem shortestPath_shortest_ring : ringAndIsland.validate = .ok () ∧
    ringAndIsland.shortestPath 0 2 = some [0, 1, 2] ∧
    (∀ n, ringAndIsland.Walk 0 n 2 → 2 ≤ n) ∧ (¬ ∃ n, ringAndIsland.Walk 0 n 4) ∧
    Sweep.Ends ringAndIsland 0 (ringAndIsland.distance 0) (ringAndIsland.shortestPath 0) := by
  have hvalid : ringAndIsland.validate = .ok () := by decide
  have hacross := shortestPath_shortest hvalid (show 0 < 5 by decide) 2
  have hisland := shortestPath_shortest hvalid (show 0 < 5 by decide) 4
  refine ⟨hvalid, by decide, ((hacross.1 2).1 (by decide)).2, hisland.2.1.1 (by decide),
    hacross.2.2.2.2⟩

end IonTrap.Architecture
