import IonTrap.Number.Double
import IonTrap.Trap.Cost

/-!
# Choosing the next move

Qubits that must change zone are grouped by source and target. From each group the router considers,
per departure port, the largest batch of qubits nearest to that port for which there is a way. Among
all batches the cheapest per qubit is taken, and the first of equals.
-/

namespace IonTrap

/-- Qubits with the same way to go. -/
structure Group where
  /-- Zone they are in. -/
  source : Nat
  /-- Zone they must reach. -/
  target : Nat
  /-- The qubits. -/
  qubits : List Nat
deriving DecidableEq, Repr

/-- Qubits that move together. -/
structure Batch where
  /-- Zone they leave. -/
  source : Nat
  /-- Zone they reach. -/
  target : Nat
  /-- The qubits in chain order. -/
  qubits : List Nat
  /-- Price of the move. -/
  move : MoveCost
deriving DecidableEq, Repr

/-- The qubits of a target placement that are elsewhere now, by source and target in order. -/
def Trap.groups (t : Trap) (target : Placement) : List Group :=
  (List.range t.arch.numZones).flatMap fun s =>
    target.zipIdx.filterMap fun (chain, z) =>
      match chain.filter fun q => t.zoneOf q == s with
      | [] => none
      | qs => if s = z then none else some ⟨s, z, qs⟩

/-- Number of qubits still to move. -/
def remaining (gs : List Group) : Nat := total (gs.map (·.qubits.length))

/-- Spots a zone can take. In soft-lock that is one above gate capacity, but never more than
transport capacity allows. -/
def Trap.spotsFor (t : Trap) (z : Nat) (soft : Bool) : Nat :=
  min (wrap (t.arch.gateCapacity z + if soft then 1 else 0) - t.occupancy z) (t.freeSpace z)

/-- Zones that some group must reach, in order. -/
def Trap.targetZones (t : Trap) (gs : List Group) : List Nat :=
  (List.range t.arch.numZones).filter fun z => gs.any (·.target == z)

/-- Whether the target zones can take a qubit: the sum of their spots is not zero. -/
def Trap.hasSpace (t : Trap) (gs : List Group) (soft : Bool) : Bool :=
  wrap (total ((t.targetZones gs).map (t.spotsFor · soft))) != 0

namespace Batch

/-- Cost per qubit, a double counted in its steps. -/
def perQubit (b : Batch) : Nat := Double.ratioSteps b.move.cost b.qubits.length

/-- The cheaper batch per qubit, the first if they are even. -/
def better (best : Option Batch) (b : Batch) : Option Batch :=
  match best with
  | some a => if a.perQubit ≤ b.perQubit then some a else some b
  | none => some b

/-- The cheapest batch per qubit, the first of equals. -/
def cheapest (bs : List Batch) : Option Batch := bs.foldl better none

end Batch

/-- The value of `f` at the largest positive argument up to `n` where it has one. -/
def largest? {α : Type} (f : Nat → Option α) : Nat → Option α
  | 0 => none
  | n + 1 =>
    match f (n + 1) with
    | some x => some x
    | none => largest? f n

namespace Group

/-- The qubits of a group from the nearest to a port to the farthest. -/
def nearest (g : Group) (t : Trap) (port : Port) : List Nat := t.byDistance port g.qubits

/-- The batch of the `n` qubits of a group nearest to a port. -/
def batchOf? (g : Group) (m : CostModel) (t : Trap) (port : Port) (n : Nat) : Option Batch :=
  match t.byDistance .p0 ((g.nearest t port).take n) with
  | [] => none
  | q :: qs =>
    (m.fromPort t (q :: qs) g.source g.target port).map fun c => ⟨g.source, g.target, q :: qs, c⟩

/-- The largest batch of a group through a port. -/
def portBatch? (g : Group) (m : CostModel) (t : Trap) (soft : Bool) (port : Port) : Option Batch :=
  largest? (g.batchOf? m t port) (min g.qubits.length (t.spotsFor g.target soft))

/-- The better of a group's two largest batches. -/
def batch? (g : Group) (m : CostModel) (t : Trap) (soft : Bool) : Option Batch :=
  Batch.cheapest (Port.both.filterMap (g.portBatch? m t soft))

end Group

/-- The cheapest batch of some groups. -/
def batchAmong? (m : CostModel) (t : Trap) (soft : Bool) (gs : List Group) : Option Batch :=
  Batch.cheapest (gs.filterMap (·.batch? m t soft))

/-- The next batch. Groups that leave the zone `forced` go first; the others only if none of those
can move. -/
def nextBatch? (m : CostModel) (t : Trap) (gs : List Group) (forced : Option Nat) (soft : Bool) :
    Option Batch :=
  match forced with
  | none => batchAmong? m t soft gs
  | some z =>
    match batchAmong? m t soft (gs.filter (·.source == z)) with
    | some b => some b
    | none => batchAmong? m t soft gs

/-- A group without the qubits of a batch, if any are left. -/
def Group.without? (b : Batch) (g : Group) : Option Group :=
  if g.source = b.source ∧ g.target = b.target then
    let left := g.qubits.filter (!b.qubits.contains ·)
    if left.isEmpty then none else some { g with qubits := left }
  else some g

/-- The groups without the qubits of a batch. -/
def removeBatch (gs : List Group) (b : Batch) : List Group := gs.filterMap (·.without? b)

/-! ## A batch is a non-empty part of a group -/

/-- A batch takes some of the qubits of a group. -/
def Batch.PartOf (b : Batch) (g : Group) : Prop :=
  g.source = b.source ∧ g.target = b.target ∧ b.qubits ≠ [] ∧ ∀ q ∈ b.qubits, q ∈ g.qubits

theorem Batch.better_cases (best : Option Batch) (b : Batch) :
    better best b = best ∨ better best b = some b := by
  cases best with
  | none => exact .inr rfl
  | some a =>
    by_cases h : a.perQubit ≤ b.perQubit
    · exact .inl (if_pos h)
    · exact .inr (if_neg h)

theorem Batch.mem_of_foldl_better {bs : List Batch} {init : Option Batch} {b : Batch}
    (h : bs.foldl better init = some b) : init = some b ∨ b ∈ bs := by
  induction bs generalizing init with
  | nil => exact .inl h
  | cons c bs ih =>
    rcases ih h with hb | hb
    · rcases better_cases init c with hc | hc
      · exact .inl (hc.symm.trans hb)
      · exact .inr (Option.some.inj (hc.symm.trans hb) ▸ List.mem_cons_self)
    · exact .inr (List.mem_cons_of_mem _ hb)

theorem Batch.mem_of_cheapest {bs : List Batch} {b : Batch} (h : cheapest bs = some b) :
    b ∈ bs := by
  rcases mem_of_foldl_better h with hb | hb
  · simp at hb
  · exact hb

theorem largest?_eq_some {α : Type} {f : Nat → Option α} {n : Nat} {x : α}
    (h : largest? f n = some x) : ∃ k, f k = some x := by
  induction n with
  | zero => simp [largest?] at h
  | succ n ih =>
    unfold largest? at h
    grind

theorem Group.partOf_of_batchOf {g : Group} {m : CostModel} {t : Trap} {port : Port} {n : Nat}
    {b : Batch} (h : g.batchOf? m t port n = some b) : b.PartOf g := by
  unfold Group.batchOf? at h
  split at h
  · simp at h
  · next q qs hc =>
    obtain ⟨c, -, rfl⟩ := Option.map_eq_some_iff.1 h
    refine ⟨rfl, rfl, by simp, fun x hx => ?_⟩
    have hx : x ∈ t.byDistance .p0 ((g.nearest t port).take n) := hc ▸ hx
    have hx := List.mem_of_mem_take ((t.byDistance_perm .p0 _).mem_iff.1 hx)
    exact (t.byDistance_perm port g.qubits).mem_iff.1 hx

theorem Group.partOf_of_batch {g : Group} {m : CostModel} {t : Trap} {soft : Bool} {b : Batch}
    (h : g.batch? m t soft = some b) : b.PartOf g := by
  obtain ⟨port, -, hp⟩ := List.mem_filterMap.1 (Batch.mem_of_cheapest h)
  obtain ⟨n, hn⟩ := largest?_eq_some hp
  exact partOf_of_batchOf hn

theorem partOf_of_batchAmong {m : CostModel} {t : Trap} {soft : Bool} {gs : List Group} {b : Batch}
    (h : batchAmong? m t soft gs = some b) : ∃ g ∈ gs, b.PartOf g := by
  obtain ⟨g, hg, hb⟩ := List.mem_filterMap.1 (Batch.mem_of_cheapest h)
  exact ⟨g, hg, Group.partOf_of_batch hb⟩

theorem partOf_of_nextBatch {m : CostModel} {t : Trap} {gs : List Group} {forced : Option Nat}
    {soft : Bool} {b : Batch} (h : nextBatch? m t gs forced soft = some b) :
    ∃ g ∈ gs, b.PartOf g := by
  unfold nextBatch? at h
  split at h
  · exact partOf_of_batchAmong h
  · split at h
    · next hb =>
      obtain ⟨g, hg, hp⟩ := partOf_of_batchAmong (hb.trans h)
      exact ⟨g, (List.mem_filter.1 hg).1, hp⟩
    · exact partOf_of_batchAmong h

/-- Number of qubits of a group that may be gone. -/
def Group.size? : Option Group → Nat
  | some g => g.qubits.length
  | none => 0

theorem Group.size?_without (b : Batch) (g : Group) :
    Group.size? (g.without? b) ≤ g.qubits.length := by
  have := List.length_filter_le (!b.qubits.contains ·) g.qubits
  unfold Group.without?
  grind [size?]

theorem Group.size?_without_lt {b : Batch} {g : Group} (h : b.PartOf g) :
    Group.size? (g.without? b) < g.qubits.length := by
  obtain ⟨hs, ht, hne, hmem⟩ := h
  obtain ⟨q, hq⟩ := List.exists_mem_of_ne_nil _ hne
  have hlt : (g.qubits.filter (!b.qubits.contains ·)).length < g.qubits.length :=
    List.length_filter_lt_length_iff_exists.2 ⟨q, hmem q hq, by simp [hq]⟩
  unfold Group.without?
  grind [size?]

theorem remaining_filterMap (gs : List Group) (b : Batch) :
    remaining (removeBatch gs b) = total (gs.map fun g => Group.size? (g.without? b)) := by
  induction gs with
  | nil => rfl
  | cons g gs ih =>
    simp only [remaining, removeBatch] at ih ⊢
    rw [List.filterMap_cons]
    cases hg : g.without? b <;> simp [Group.size?, hg, ih]

/-- Every batch brings the end closer. -/
theorem remaining_removeBatch_lt {gs : List Group} {b : Batch} (h : ∃ g ∈ gs, b.PartOf g) :
    remaining (removeBatch gs b) < remaining gs := by
  rw [remaining_filterMap]
  obtain ⟨g, hg, hp⟩ := h
  induction gs with
  | nil => simp at hg
  | cons g' gs ih =>
    have hle : total (gs.map fun g => Group.size? (g.without? b)) ≤ remaining gs := by
      clear ih hg
      induction gs with
      | nil => simp [remaining]
      | cons g gs ih =>
        have := Group.size?_without b g
        simp only [remaining, List.map_cons, total_cons] at ih ⊢
        omega
    simp only [remaining, List.map_cons, total_cons] at hle ih ⊢
    rcases List.mem_cons.1 hg with rfl | hg
    · have := Group.size?_without_lt hp
      omega
    · have := Group.size?_without b g'
      have := ih hg
      omega

end IonTrap
