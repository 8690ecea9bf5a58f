import IonTrap.Proofs.Indexed
import IonTrap.Proofs.Partition.Exact

/-!
# Local search in place

The search can be run on one set of tables. An exchange is then made in two moves, the first of them
tentatively, which may fill a part beyond its size; if the two do not pay together, the first is
taken back. Every number is looked up where it is needed, and loads and pin counts are lowered only
as far as they go, which is far enough if vertices are light.
-/

namespace IonTrap

namespace Search.InPlace

open Indexed

/-- Programs on the tables of a search. -/
abbrev Program (α : Type) := Indexed Search PartitionError α

/-! ## Programs -/

/-- Parts of the vertices. -/
def parts : Table Search (Option Nat) := .ofArray (·.part) fun part s => { s with part }

/-- Weights in the parts. -/
def loads : Table Search Nat := .ofArray (·.load) fun load s => { s with load }

/-- Pin counts of the nets. -/
def rows : Table Search (Array Nat) := .ofArray (·.pins) fun pins s => { s with pins }

/-- Lowers a number. There is no outcome if it would fall below zero. -/
def lower (x y : Nat) : Program Nat := if x < y then outOfRange else return x - y

def weight (v : Nat) : Program Nat := do
  let x ← entry (← get).graph.vertices.toList v
  return x.weight

def partSize (p : Nat) : Program Nat := do
  entry (← get).graph.partSizes.toList p

def netsAt (v : Nat) : Program (List Nat) := do
  entry (← get).incident.toList v

def netWeight (e : Nat) : Program Nat := do
  let x ← entry (← get).graph.nets.toList e
  return x.weight

def pinCount (e p : Nat) : Program Nat := do
  let row ← rows.get e
  entry row.toList p

def hasRoom (v p : Nat) : Program Bool := do
  let x ← loads.get p
  let w ← weight v
  let size ← partSize p
  return wrap (x + w) ≤ size

/-- Changes the pin counts of nets in a part. -/
def recount (p : Nat) (change : Nat → Program Nat) : List Nat → Program Unit
  | [] => pure ()
  | e :: es => do
    let row ← rows.get e
    let x ← entry row.toList p
    let y ← change x
    rows.set e (row.setIfInBounds p y)
    recount p change es

/-- Puts a vertex into a part. -/
def assign (v p : Nat) : Program Unit := do
  parts.set v (some p)
  let x ← loads.get p
  let w ← weight v
  loads.set p (wrap (x + w))
  let nets ← netsAt v
  recount p (fun x => return x + 1) nets

/-- Takes a vertex out of a part. -/
def unassign (v p : Nat) : Program Unit := do
  parts.set v none
  let x ← loads.get p
  let w ← weight v
  let y ← lower x w
  loads.set p y
  let nets ← netsAt v
  recount p (lower · 1) nets

/-- Takes a vertex from one part to another. -/
def shift (v source target : Nat) : Program Unit := do
  unassign v source
  assign v target

/-- Puts the fixed vertices among `vs` into their parts. -/
def placeFixed : List Nat → Program Unit
  | [] => pure ()
  | v :: vs => do
    let x ← entry (← get).graph.vertices.toList v
    match x.fixed with
    | none => placeFixed vs
    | some p => do
      if ← hasRoom v p then
        assign v p
        placeFixed vs
      else throw (.fixedTooHeavy p)

/-- Weight of those of some nets that have a pin in a part. -/
def gain (p : Nat) : List Nat → Program Nat
  | [] => return 0
  | e :: es => do
    let x ← pinCount e p
    let w ← netWeight e
    let rest ← gain p es
    return if 0 < x then wrap (w + rest) else rest

/-- The most appealing part with room, among some parts and the best one so far. -/
def mostAppealing (v : Nat) : List Nat → Option (Nat × (Nat × Nat)) →
    Program (Option (Nat × (Nat × Nat)))
  | [], best => return best
  | p :: ps, best => do
    if ← hasRoom v p then
      let size ← partSize p
      let x ← loads.get p
      let room ← lower size x
      let nets ← netsAt v
      let g ← gain p nets
      mostAppealing v ps
        (if best.all fun b => beats (g, wrap room) b.2 then some (p, (g, wrap room)) else best)
    else mostAppealing v ps best

/-- Puts vertices where they are drawn most. -/
def placeGreedy : List Nat → Program Unit
  | [] => pure ()
  | v :: vs => do
    let s ← get
    match ← mostAppealing v (List.range s.graph.numParts) none with
    | some (p, _) => do
      assign v p
      placeGreedy vs
    | none => throw (.noRoom v)

/-- Change of the cut by nets of a vertex that leaves a part for another. -/
def netsDelta (source target : Nat) : List Nat → Program Int
  | [] => return 0
  | e :: es => do
    let w ← netWeight e
    let there ← pinCount e target
    let here ← pinCount e source
    let rest ← netsDelta source target es
    let joined : Int := if there = 0 then 1 else 0
    let left : Int := if here = 1 then 1 else 0
    return wrapInt ((w : Int) * (joined - left) + rest)

/-- Change of the cut when a vertex leaves its part for another. -/
def moveDelta (v target : Nat) : Program Int := do
  match ← parts.get v with
  | none => return 0
  | some source => do
    let nets ← netsAt v
    netsDelta source target nets

/-- The best move of a vertex, among some parts and the best one so far. -/
def bestMove (v source : Nat) : List Nat → Option (Int × Nat) → Program (Option (Int × Nat))
  | [], best => return best
  | p :: ps, best => do
    if p != source then
      if ← hasRoom v p then
        let d ← moveDelta v p
        bestMove v source ps (if best.all fun b => d < b.1 then some (d, p) else best)
      else bestMove v source ps best
    else bestMove v source ps best

/-- Moves a vertex if that lowers the cut, and tells whether it did. -/
def tryMove (v : Nat) : Program Bool := do
  match ← parts.get v with
  | none => return false
  | some source => do
    let s ← get
    match ← bestMove v source (List.range s.graph.numParts) none with
    | some (d, target) =>
      if d < 0 then do
        shift v source target
        return true
      else return false
    | none => return false

/-- Whether a part keeps its size when vertex `b` comes for vertex `a`. -/
def holds (p a b : Nat) : Program Bool := do
  let x ← loads.get p
  let wa ← weight a
  let wb ← weight b
  let rest ← lower x wa
  let size ← partSize p
  return wrap (rest + wb) ≤ size

/-- Exchanges two vertices if the cut drops, and tells whether it did. The first vertex is moved
before that is known, and moved back if need be. -/
def attempt (a b pa pb : Nat) : Program Bool := do
  let first ← moveDelta a pb
  shift a pa pb
  let second ← moveDelta b pa
  if wrapInt (first + second) < 0 then do
    shift b pb pa
    return true
  else do
    shift a pb pa
    return false

/-- Exchanges two vertices of different parts if both parts keep their size and the cut drops. -/
def trySwap (a b : Nat) : Program Bool := do
  match ← parts.get a, ← parts.get b with
  | some pa, some pb =>
    if pa = pb then return false
    else do
      if ← holds pa a b then
        if ← holds pb b a then attempt a b pa pb else return false
      else return false
  | _, _ => return false

/-- Attempts something with every vertex in order, and tells whether anything improved. -/
def tryAll (step : Nat → Program Bool) : List Nat → Bool → Program Bool
  | [], improved => return improved
  | v :: vs, improved => do
    let better ← step v
    tryAll step vs (improved || better)

/-- Tries to exchange every connected vertex with each later one. -/
def swapAll : List Nat → Bool → Program Bool
  | [], improved => return improved
  | a :: vs, improved => do
    let nets ← netsAt a
    if nets.isEmpty then swapAll vs improved
    else do
      let improved ← tryAll (trySwap a) vs improved
      swapAll vs improved

/-- Passes until one changes nothing, at most `n`. -/
def refineUpTo (order : List Nat) : Nat → Program Unit
  | 0 => pure ()
  | n + 1 => do
    let moved ← tryAll tryMove order false
    if ← swapAll order moved then refineUpTo order n

/-- The whole search. -/
def partition (l : LocalSearch) : Program Assignment := do
  let s ← get
  placeFixed (List.range s.graph.numVertices)
  let s ← get
  let order := s.freeOrder l.seed
  placeGreedy order
  refineUpTo order l.maxPasses
  let s ← get
  return s.assignment

/-! ## Tables of the right sizes -/

variable {g : Hypergraph} {s : Search} {v e p : Nat}

/-- There is an entry for every vertex, part and net. -/
structure Shaped (g : Hypergraph) (s : Search) : Prop where
  graph : s.graph = g
  size_part : s.part.size = g.numVertices
  size_load : s.load.size = g.numParts
  incident : s.incident = (start g).incident
  rows : Rows s.pins g.nets.size g.numParts

theorem shaped_of_counted (h : s.Counted g) : Shaped g s :=
  ⟨h.graph, h.size_part, h.size_load, h.incident, h.rows⟩

theorem Shaped.set_part (h : Shaped g s) (v : Nat) (x : Option Nat) :
    Shaped g { s with part := s.part.setIfInBounds v x } where
  graph := h.graph
  size_part := by rw [Array.size_setIfInBounds, h.size_part]
  size_load := h.size_load
  incident := h.incident
  rows := h.rows

theorem Shaped.set_load (h : Shaped g s) (p x : Nat) :
    Shaped g { s with load := s.load.setIfInBounds p x } where
  graph := h.graph
  size_part := h.size_part
  size_load := by rw [Array.size_setIfInBounds, h.size_load]
  incident := h.incident
  rows := h.rows

theorem exec_lower {x y : Nat} (h : y ≤ x) (s : Search) :
    (lower x y).exec s = some (.ok (x - y), s) := by
  rw [lower, if_neg (by omega), exec_pure]

theorem exec_row (he : e < s.pins.size) :
    (rows.get e : Program (Array Nat)).exec s = some (.ok (s.pins.getD e #[]), s) :=
  Table.exec_get_ofArray he #[]

theorem exec_set_row (he : e < s.pins.size) (row : Array Nat) :
    (rows.set e row : Program Unit).exec s
      = some (.ok (), { s with pins := s.pins.setIfInBounds e row }) :=
  Table.exec_set_ofArray he row

theorem exec_set_part (hv : v < s.part.size) (x : Option Nat) :
    (parts.set v x : Program Unit).exec s
      = some (.ok (), { s with part := s.part.setIfInBounds v x }) :=
  Table.exec_set_ofArray hv x

theorem exec_set_load (hp : p < s.load.size) (x : Nat) :
    (loads.set p x : Program Unit).exec s
      = some (.ok (), { s with load := s.load.setIfInBounds p x }) :=
  Table.exec_set_ofArray hp x

section Read

variable (h : Shaped g s)
include h

theorem exec_part (hv : v < g.numVertices) :
    (parts.get v : Program (Option Nat)).exec s = some (.ok (s.partOf v), s) :=
  Table.exec_get_ofArray (h.size_part ▸ hv) none

theorem exec_load (hp : p < g.numParts) :
    (loads.get p : Program Nat).exec s = some (.ok (s.loadOf p), s) :=
  Table.exec_get_ofArray (h.size_load ▸ hp) 0

theorem exec_weight (hv : v < g.numVertices) :
    (weight v).exec s = some (.ok (g.weight v), s) := by
  have hx := Array.getElem?_eq_getElem hv
  rw [weight, exec_bind (Indexed.exec_get s), h.graph,
    exec_bind (exec_entry (Array.getElem?_toList.trans hx) s), exec_pure, Hypergraph.weight, hx]
  rfl

theorem exec_partSize (hp : p < g.numParts) :
    (partSize p).exec s = some (.ok (g.partSize p), s) := by
  rw [partSize, exec_bind (Indexed.exec_get s), h.graph]
  exact exec_entry_toList hp 0 s

theorem exec_netsAt (hv : v < g.numVertices) :
    (netsAt v).exec s = some (.ok (netsOf g v), s) := by
  rw [netsAt, exec_bind (Indexed.exec_get s), h.incident]
  exact exec_entry (by simp [start, hv]) s

theorem exec_netWeight (he : e < g.nets.size) :
    (netWeight e).exec s = some (.ok (g.netWeight e), s) := by
  have hx := Array.getElem?_eq_getElem he
  rw [netWeight, exec_bind (Indexed.exec_get s), h.graph,
    exec_bind (exec_entry (Array.getElem?_toList.trans hx) s), exec_pure, Hypergraph.netWeight, hx]
  rfl

theorem exec_pinCount (he : e < g.nets.size) (hp : p < g.numParts) :
    (pinCount e p).exec s = some (.ok (s.pinCount e p), s) := by
  rw [pinCount, exec_bind (exec_row (h.rows.1 ▸ he))]
  exact exec_entry_toList (by rwa [h.rows.2 e he]) 0 s

theorem exec_hasRoom (hv : v < g.numVertices) (hp : p < g.numParts) :
    (hasRoom v p).exec s = some (.ok (s.hasRoom v p), s) := by
  rw [hasRoom, exec_bind (exec_load h hp), exec_bind (exec_weight h hv),
    exec_bind (exec_partSize h hp), Search.hasRoom, h.graph]
  rfl

end Read

/-! ## Putting vertices in and taking them out -/

theorem modify_eq_setIfInBounds {α : Type} {xs : Array α} {i : Nat} (h : i < xs.size) (d : α)
    (f : α → α) : xs.modify i f = xs.setIfInBounds i (f (xs.getD i d)) := by
  refine Array.ext_getElem? fun k => ?_
  rw [Array.getElem?_modify, Array.getElem?_setIfInBounds]
  split_ifs with hk
  · simp [← hk, h]
  · rfl

/-- Pin counts are changed as long as each change is possible. -/
theorem exec_recount {s : Search} {n k : Nat} (hrows : Rows s.pins n k) (hp : p < k)
    {es : List Nat} (hes : ∀ e ∈ es, e < n) {change : Nat → Program Nat} {f : Nat → Nat}
    (hchange : ∀ e, ∀ i < es.count e, ∀ t, (change (f^[i] (pinAt s.pins e p))).exec t
      = some (.ok (f^[i + 1] (pinAt s.pins e p)), t)) :
    (recount p change es).exec s = some (.ok (),
      { s with pins := es.foldl (fun pins e => pins.modify e (·.modify p f)) s.pins }) := by
  induction es generalizing s with
  | nil => exact exec_pure () s
  | cons e es ih =>
    rw [List.forall_mem_cons] at hes
    have he : e < s.pins.size := hrows.1 ▸ hes.1
    have hrow : p < (s.pins.getD e #[]).size := by rwa [hrows.2 e hes.1]
    have hfirst : (change ((s.pins.getD e #[]).getD p 0)).exec s
        = some (.ok (f ((s.pins.getD e #[]).getD p 0)), s) := hchange e 0 (by simp) s
    have hmodify : s.pins.setIfInBounds e ((s.pins.getD e #[]).setIfInBounds p
        (f ((s.pins.getD e #[]).getD p 0))) = s.pins.modify e (·.modify p f) := by
      rw [modify_eq_setIfInBounds he #[], modify_eq_setIfInBounds hrow 0]
    rw [recount, exec_bind (exec_row he), exec_bind (exec_entry_toList hrow 0 s), exec_bind hfirst,
      exec_bind (exec_set_row he _), hmodify]
    refine ih (hrows.modify e p f) hes.2 fun e' i hi t => ?_
    show (change (f^[i] (pinAt (s.pins.modify e (·.modify p f)) e' p))).exec t
      = some (.ok (f^[i + 1] (pinAt (s.pins.modify e (·.modify p f)) e' p)), t)
    rw [pinAt_modify hrows hes.1 hp]
    by_cases hee : e = e'
    · -- the net was counted once already
      rw [if_pos ⟨hee, rfl⟩, ← Function.iterate_succ_apply, ← Function.iterate_succ_apply]
      exact hchange e' (i + 1) (by simpa [hee] using hi) t
    · rw [if_neg fun heq => hee heq.1]
      exact hchange e' i (by simpa [hee] using hi) t

theorem exec_increase {s : Search} {n k : Nat} (hrows : Rows s.pins n k) (hp : p < k)
    {es : List Nat} (hes : ∀ e ∈ es, e < n) :
    (recount p (fun x => return x + 1) es).exec s = some (.ok (),
      { s with pins := es.foldl (fun pins e => pins.modify e (·.modify p (· + 1))) s.pins }) :=
  exec_recount hrows hp hes fun e i _ t => by
    rw [Function.iterate_succ_apply']
    exact exec_pure _ t

theorem exec_decrease {s : Search} {n k : Nat} (hrows : Rows s.pins n k) (hp : p < k)
    {es : List Nat} (hes : ∀ e ∈ es, e < n) (hle : ∀ e, es.count e ≤ pinAt s.pins e p) :
    (recount p (lower · 1) es).exec s = some (.ok (),
      { s with pins := es.foldl (fun pins e => pins.modify e (·.modify p (· - 1))) s.pins }) := by
  refine exec_recount hrows hp hes fun e i hi t => ?_
  have hpred : (· - 1)^[i] (pinAt s.pins e p) = pinAt s.pins e p - i := Nat.pred_iterate _ _
  have hpos := hle e
  rw [Function.iterate_succ_apply', hpred]
  exact exec_lower (by omega) t

theorem exec_assign (h : Shaped g s) (hv : v < g.numVertices) (hp : p < g.numParts) :
    (assign v p).exec s = some (.ok (), s.assign v p) := by
  have hpart := h.set_part v (some p)
  have hload := hpart.set_load p (wrap (s.loadOf p + g.weight v))
  rw [assign, exec_bind (exec_set_part (h.size_part ▸ hv) _), exec_bind (exec_load hpart hp),
    exec_bind (exec_weight hpart hv), exec_bind (exec_set_load (h.size_load ▸ hp) _)]
  show (netsAt v >>= recount p fun x => return x + 1).exec { s with
    part := s.part.setIfInBounds v (some p)
    load := s.load.setIfInBounds p (wrap (s.loadOf p + g.weight v)) } = _
  rw [exec_bind (exec_netsAt hload hv),
    exec_increase hload.rows hp fun e he => lt_size_of_mem_netsOf he, Search.assign, Search.recount,
    netsAt_eq h.incident hv, modify_eq_setIfInBounds (h.size_load ▸ hp) 0, h.graph]
  rfl

/-- A vertex of a part can be taken out of it: its weight is in the load and its pins are counted.
-/
theorem exec_unassign (hlight : g.Light) (h : s.Counted g) (hv : v < g.numVertices)
    (hp : s.partOf v = some p) :
    (unassign v p).exec s = some (.ok (), s.unassign v p) := by
  have hlt := h.part_lt v p hp
  have hpins : ∀ e, (netsOf g v).count e ≤ pinAt s.pins e p := by
    intro e
    have hcount : pinAt s.pins e p = g.pinsIn s.partOf e p := h.pins e p
    rw [count_netsOf, hcount]
    exact Hypergraph.count_le_pinsIn hp
  -- with the vertex taken out of its table first, the tables have their sizes but are not exact
  have hpart := (shaped_of_counted h).set_part v none
  have hread : (loads.get p : Program Nat).exec { s with part := s.part.setIfInBounds v none }
      = some (.ok (s.loadOf p), { s with part := s.part.setIfInBounds v none }) :=
    exec_load hpart hlt
  have hle := h.weight_le hv hlight hp
  have hlower : wrapSub (s.loadOf p) (g.weight v) = s.loadOf p - g.weight v := by
    rw [h.load] at hle ⊢
    exact wrapSub_of_le hle (wrap_lt _)
  have hload := hpart.set_load p (s.loadOf p - g.weight v)
  rw [unassign, exec_bind (exec_set_part (h.size_part ▸ hv) _), exec_bind hread,
    exec_bind (exec_weight hpart hv), exec_bind (exec_lower hle _),
    exec_bind (exec_set_load (h.size_load ▸ hlt) _)]
  show (netsAt v >>= recount p (lower · 1)).exec { s with
    part := s.part.setIfInBounds v none
    load := s.load.setIfInBounds p (s.loadOf p - g.weight v) } = _
  rw [exec_bind (exec_netsAt hload hv),
    exec_decrease hload.rows hlt (fun e he => lt_size_of_mem_netsOf he) hpins, Search.unassign,
    Search.recount, netsAt_eq h.incident hv, modify_eq_setIfInBounds (h.size_load ▸ hlt) 0, h.graph,
    ← hlower]
  rfl

theorem exec_shift (hlight : g.Light) (h : s.Counted g) (hv : v < g.numVertices)
    (hp : s.partOf v = some p)
    {target : Nat} (ht : target < g.numParts) :
    (shift v p target).exec s = some (.ok (), s.shift v p target) := by
  rw [shift, exec_bind (exec_unassign hlight h hv hp),
    exec_assign (shaped_of_counted (h.unassign hv hp)) hv ht]
  rfl

/-! ## Choosing a part -/

section Choose

variable (h : Shaped g s) (hv : v < g.numVertices)
include h

theorem exec_gain (hp : p < g.numParts) {es : List Nat} (hes : ∀ e ∈ es, e < g.nets.size) :
    (gain p es).exec s
      = some (.ok (wrap (total ((es.filter fun e => 0 < s.pinCount e p).map g.netWeight))), s) := by
  induction es with
  | nil => exact exec_pure 0 s
  | cons e es ih =>
    rw [List.forall_mem_cons] at hes
    rw [gain, exec_bind (exec_pinCount h hes.1 hp), exec_bind (exec_netWeight h hes.1),
      exec_bind (ih hes.2), exec_pure, List.filter_cons]
    by_cases hpos : 0 < s.pinCount e p
    · simp [hpos, wrap_add_wrap]
    · simp [hpos]

theorem exec_netsDelta {source target : Nat} (hs : source < g.numParts) (ht : target < g.numParts)
    {es : List Nat} (hes : ∀ e ∈ es, e < g.nets.size) :
    (netsDelta source target es).exec s
      = some (.ok (wrapInt (es.foldr (fun e d => s.netDelta source target e + d) 0)), s) := by
  induction es with
  | nil => exact exec_pure 0 s
  | cons e es ih =>
    rw [List.forall_mem_cons] at hes
    rw [netsDelta, exec_bind (exec_netWeight h hes.1), exec_bind (exec_pinCount h hes.1 ht),
      exec_bind (exec_pinCount h hes.1 hs), exec_bind (ih hes.2), List.foldr_cons, netDelta,
      h.graph]
    dsimp only
    rw [wrapInt_add_wrapInt, exec_pure]

include hv

theorem exec_mostAppealing {ps : List Nat} (hps : ∀ p ∈ ps, p < g.numParts)
    (hfree : ∀ p, s.hasRoom v p = true → s.loadOf p ≤ g.partSize p)
    (best : Option (Nat × (Nat × Nat))) :
    (mostAppealing v ps best).exec s = some (.ok ((ps.filter (s.hasRoom v)).foldl (fun best p =>
      if best.all fun b => beats (s.appeal v p) b.2 then some (p, s.appeal v p) else best) best),
      s) := by
  induction ps generalizing best with
  | nil => exact exec_pure best s
  | cons p ps ih =>
    rw [List.forall_mem_cons] at hps
    have hnets := netsAt_eq h.incident hv
    rw [mostAppealing, exec_bind (exec_hasRoom h hv hps.1), List.filter_cons]
    split_ifs with hroom
    · -- only a part with room is asked how much room it has
      have hle := hfree p hroom
      have hgain := exec_gain h hps.1 fun e (he : e ∈ netsOf g v) => lt_size_of_mem_netsOf he
      rw [exec_bind (exec_partSize h hps.1), exec_bind (exec_load h hps.1),
        exec_bind (exec_lower hle s), exec_bind (exec_netsAt h hv), exec_bind hgain, ih hps.2,
        List.foldl_cons, appeal, Search.gain, h.graph, hnets, wrapSub_eq hle]
    · exact ih hps.2 best

theorem exec_moveDelta {target : Nat} (ht : target < g.numParts)
    (hlt : ∀ p, s.partOf v = some p → p < g.numParts) :
    (moveDelta v target).exec s = some (.ok (s.moveDelta v target), s) := by
  rw [moveDelta, exec_bind (exec_part h hv), Search.moveDelta]
  cases hp : s.partOf v with
  | none => exact exec_pure 0 s
  | some source =>
    have hdelta := exec_netsDelta h (hlt source hp) ht
      fun e (he : e ∈ netsOf g v) => lt_size_of_mem_netsOf he
    dsimp only
    rw [exec_bind (exec_netsAt h hv), hdelta, netsAt_eq h.incident hv]

theorem exec_bestMove {source : Nat} {ps : List Nat} (hps : ∀ p ∈ ps, p < g.numParts)
    (hlt : ∀ p, s.partOf v = some p → p < g.numParts) (best : Option (Int × Nat)) :
    (bestMove v source ps best).exec s = some (.ok ((ps.filter fun p =>
      p != source && s.hasRoom v p).foldl (fun best p =>
        if best.all fun b => s.moveDelta v p < b.1 then some (s.moveDelta v p, p) else best) best),
      s) := by
  induction ps generalizing best with
  | nil => exact exec_pure best s
  | cons p ps ih =>
    rw [List.forall_mem_cons] at hps
    rw [bestMove, List.filter_cons]
    by_cases hne : p != source
    · rw [if_pos hne, exec_bind (exec_hasRoom h hv hps.1), hne, Bool.true_and]
      split_ifs with hroom
      · rw [exec_bind (exec_moveDelta h hv hps.1 hlt), ih hps.2]
        rfl
      · exact ih hps.2 best
    · rw [if_neg hne, if_neg (by simp [hne])]
      exact ih hps.2 best

end Choose

end Search.InPlace

end IonTrap
