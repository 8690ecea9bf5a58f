import IonTrap.Proofs.Trap.InPlace

/-!
# Loading in place

`Trap.ofPlacement` checks a placement and builds the tables of a trap from it. Here the check marks
the qubits it has met in a table of its own, and the tables of the trap are filled entry by entry.
No placement, valid or not, makes it look outside a table, and it gives what the function gives
(`Trap.run_ofPlacement`).
-/

namespace IonTrap

open Indexed

namespace Placement

/-! ## The check -/

namespace InPlace

/-- A mark for every qubit. -/
def marks : Table (List Bool) Bool where
  read s := s
  write marks _ := marks

/-- Checks the qubits of one zone and marks them. -/
def checkQubits (n : Nat) : List Nat → Indexed (List Bool) TrapError Unit
  | [] => pure ()
  | q :: qs =>
    if n ≤ q then throw (.qubitOutOfRange q n)
    else do
      let marked ← marks.get q
      if marked then throw (.repeatedQubit q)
      else do
        marks.set q true
        checkQubits n qs

/-- Checks zones in order; `z` numbers the first zone. -/
def checkZones (a : Architecture) (n z : Nat) :
    List (List Nat) → Indexed (List Bool) TrapError Unit
  | [] => pure ()
  | chain :: chains => do
    let zone ← entry a.zones z
    if zone.gateCapacity < chain.length then
      throw (.gateCapacity z chain.length zone.gateCapacity)
    else do
      checkQubits n chain
      checkZones a n (z + 1) chains

/-- Checks a placement of `n` qubits. -/
def validate (a : Architecture) (n : Nat) (p : Placement) : Indexed (List Bool) TrapError Unit :=
  if p.length ≠ a.numZones then throw (.zoneCount a.numZones p.length)
  else do
    checkZones a n 0 p
    let marks ← get
    match marks.findIdx? (!·) with
    | some q => throw (.missingQubit q)
    | none => pure ()

end InPlace

/-- The marks once the qubits `seen` were met. -/
def marked (n : Nat) (seen : List Nat) : List Bool := (List.range n).map seen.contains

variable {a : Architecture} {n : Nat} {seen : List Nat}

theorem marked_nil (n : Nat) : marked n [] = List.replicate n false := by
  rw [List.eq_replicate_iff]
  simp [marked]

theorem length_marked : (marked n seen).length = n := by
  rw [marked, List.length_map, List.length_range]

theorem getElem?_marked {q : Nat} (hq : q < n) : (marked n seen)[q]? = some (seen.contains q) := by
  rw [marked, List.getElem?_map, List.getElem?_range hq]
  rfl

/-- Meeting one more qubit sets its mark. -/
theorem marked_cons (q : Nat) : marked n (q :: seen) = (marked n seen).set q true := by
  apply List.ext_getElem?
  intro r
  by_cases hr : r < n
  · rw [getElem?_marked hr, List.contains_cons]
    by_cases hqr : q = r
    · subst hqr
      rw [List.getElem?_set_self (by rwa [length_marked])]
      simp
    · rw [List.getElem?_set_ne hqr, getElem?_marked hr]
      simp [Ne.symm hqr]
  · rw [List.getElem?_eq_none (by rw [length_marked]; omega),
      List.getElem?_eq_none (by rw [List.length_set, length_marked]; omega)]

/-- The first mark that is missing is that of the first qubit that was not met. -/
theorem findIdx?_marked :
    (marked n seen).findIdx? (!·) = (List.range n).find? (!seen.contains ·) := by
  apply Option.ext
  intro q
  rw [List.find?_range_eq_some, List.findIdx?_eq_some_iff_getElem]
  simp [marked]

theorem marked_of_find? (h : (List.range n).find? (!seen.contains ·) = none) :
    marked n seen = List.replicate n true := by
  rw [List.eq_replicate_iff]
  refine ⟨length_marked, ?_⟩
  simpa [marked, List.find?_eq_none] using h

theorem comesTo_checkQubits (qs : List Nat) :
    (InPlace.checkQubits n qs).ComesTo (marked n seen) (marked n) (checkQubits n seen qs) := by
  induction qs generalizing seen with
  | nil => rfl
  | cons q qs ih =>
    rw [InPlace.checkQubits, checkQubits]
    by_cases hq : n ≤ q
    · rw [if_pos hq, if_pos hq]
      apply comesTo_throw
    have hlt : q < (InPlace.marks.read (marked n seen)).length := by
      show q < (marked n seen).length
      rw [length_marked]
      omega
    have hmark : (InPlace.marks.get q : Indexed _ TrapError Bool).exec (marked n seen)
        = some (.ok (seen.contains q), marked n seen) := by
      rw [InPlace.marks.exec_get hlt false]
      show some (Except.ok ((marked n seen).getD q false), _) = _
      rw [List.getD_eq_getElem?_getD, getElem?_marked (by omega), Option.getD_some]
    rw [if_neg hq, if_neg hq, comesTo_bind hmark]
    split_ifs with hseen
    · apply comesTo_throw
    · rw [comesTo_bind (InPlace.marks.exec_set hlt true)]
      show ComesTo _ ((marked n seen).set q true) _ _
      rw [← marked_cons]
      exact ih

theorem comesTo_checkZones {z : Nat} {p : List (List Nat)} (hp : z + p.length ≤ a.numZones) :
    (InPlace.checkZones a n z p).ComesTo (marked n seen) (marked n) (checkZones a n z seen p) := by
  induction p generalizing z seen with
  | nil => rfl
  | cons chain chains ih =>
    rw [List.length_cons] at hp
    obtain ⟨zone, hzone, hcapacity, -⟩ := Architecture.exists_zone (show z < a.numZones by omega)
    rw [InPlace.checkZones, checkZones, comesTo_bind (exec_entry hzone _), hcapacity]
    split_ifs
    · apply comesTo_throw
    · apply (comesTo_checkQubits chain).bind
      intro found _
      exact ih (by omega)

/-- The check in place accepts and refuses what the check does. If it accepts, all qubits are
marked. -/
theorem comesTo_validate (p : Placement) :
    (InPlace.validate a n p).ComesTo (List.replicate n false) (fun _ => List.replicate n true)
      (p.validate a n) := by
  rw [InPlace.validate, validate]
  split_ifs with hlen
  · apply comesTo_throw
  -- nothing is marked at first, and from there on the marks follow the qubits seen
  rw [← marked_nil]
  apply (comesTo_checkZones (by omega)).bind
  intro found _
  rw [comesTo_bind (exec_get _), findIdx?_marked]
  cases hfind : (List.range n).find? (!found.contains ·) with
  | some q => apply comesTo_throw
  | none =>
    rw [← marked_of_find? hfind]
    rfl

end Placement

/-! ## The tables -/

namespace Trap

/-- The trap before its tables are filled: every qubit at the first place, every passage that of an
empty zone. -/
def blank (a : Architecture) (n : Nat) (p : Placement) : Trap :=
  ⟨a, n, p, List.replicate n (0, 0), p.map List.length, .ofArchitecture a⟩

namespace InPlace

/-- Writes the passages of zones with the given numbers of qubits; `z` numbers the first zone. -/
def chargeAll {ε : Type} (z : Nat) : List Nat → Indexed Trap ε Unit
  | [] => pure ()
  | n :: ns => do
    charge z n
    chargeAll (z + 1) ns

/-- Writes the places of all qubits; `z` numbers the first zone. -/
def recordAll {ε : Type} (z : Nat) : List (List Nat) → Indexed Trap ε Unit
  | [] => pure ()
  | chain :: chains => do
    record z 0 chain
    recordAll (z + 1) chains

/-- Fills the tables of a trap. -/
def fill {ε : Type} (p : Placement) : Indexed Trap ε Unit := do
  chargeAll 0 (p.map List.length)
  recordAll 0 p

/-- A trap holding a valid placement of `n` qubits. -/
def ofPlacement (a : Architecture) (n : Nat) (p : Placement) : ExceptT TrapError Option Trap := do
  ExceptT.mk (some (a.checkNumQubits n))
  let _ ← (Placement.InPlace.validate a n p).startOn (List.replicate n false)
  (fill p).startOn (blank a n p)

end InPlace

variable {ε : Type} {t : Trap}

theorem Sized.exec_chargeAll (h : t.Sized) {z : Nat} {ns : List Nat}
    (hz : z + ns.length ≤ t.arch.numZones) :
    (InPlace.chargeAll z ns : Indexed Trap ε Unit).exec t = some (.ok (),
      { t with ports := (ns.zipIdx z).foldl (fun g o => g.setOccupancy o.2 o.1) t.ports }) := by
  induction ns generalizing t z with
  | nil => rfl
  | cons n ns ih =>
    rw [List.length_cons] at hz
    have hcharged : Sized { t with ports := t.ports.setOccupancy z n } := by
      refine ⟨h.placement, h.occupancies, ?_, h.swapCosts, h.spots⟩
      show (t.ports.edges.modify z _).length = _
      rw [List.length_modify]
      exact h.edges
    rw [InPlace.chargeAll, exec_bind (h.exec_charge (by omega) n)]
    apply ih hcharged
    show z + 1 + ns.length ≤ t.arch.numZones
    omega

theorem exec_recordAll {z : Nat} {p : List (List Nat)} (hp : ∀ q ∈ p.flatten, q < t.spots.length) :
    (InPlace.recordAll z p : Indexed Trap ε Unit).exec t
      = some (.ok (), { t with spots := Placement.recordAll z p t.spots }) := by
  induction p generalizing t z with
  | nil => rfl
  | cons chain chains ih =>
    rw [List.flatten_cons] at hp
    have hchain : ∀ q ∈ chain, q < t.spots.length := fun q hq => hp q (List.mem_append_left _ hq)
    rw [InPlace.recordAll, exec_bind (exec_record hchain 0), Placement.recordAll_cons]
    apply ih
    intro q hq
    rw [Placement.length_record]
    exact hp q (List.mem_append_right _ hq)

section Fill

variable {a : Architecture} {n : Nat} {p : Placement} (hp : p.Fits a n)
include hp

theorem lt_of_mem_flatten {q : Nat} (hq : q ∈ p.flatten) : q < (blank a n p).spots.length := by
  show q < (List.replicate n (0, 0)).length
  rw [List.length_replicate]
  exact List.mem_range.1 (hp.perm.mem_iff.1 hq)

theorem sized_blank : (blank a n p).Sized := by
  refine ⟨hp.length, ?_, List.length_mapIdx, List.length_map _, ?_⟩
  · show (p.map List.length).length = a.numZones
    rw [List.length_map, hp.length]
  · intro z q hq
    exact lt_of_mem_flatten hp (Nested.mem_flatten_iff.2 ⟨_, hq⟩)

theorem exec_fill :
    (InPlace.fill p : Indexed Trap ε Unit).exec (blank a n p) = some (.ok (),
      ⟨a, n, p, p.spots n, p.map List.length,
        (p.map List.length).zipIdx.foldl (fun g o => g.setOccupancy o.2 o.1)
          (.ofArchitecture a)⟩) := by
  have hlen : 0 + (p.map List.length).length ≤ (blank a n p).arch.numZones := by
    show 0 + (p.map List.length).length ≤ a.numZones
    rw [List.length_map, hp.length]
    omega
  rw [InPlace.fill, exec_bind ((sized_blank hp).exec_chargeAll hlen)]
  apply exec_recordAll
  intro q hq
  exact lt_of_mem_flatten hp hq

end Fill

/-- Loading in place finds every entry it needs and gives what the function gives. -/
theorem run_ofPlacement (a : Architecture) (n : Nat) (p : Placement) :
    (InPlace.ofPlacement a n p).run = some (ofPlacement a n p) := by
  rw [ofPlacement, Placement.validateConfiguration, bind_assoc]
  apply run_bind_eq_some rfl
  intro _ _
  have hcheck := (Placement.comesTo_validate (a := a) (n := n) p).run_startOn
  cases hvalid : p.validate a n with
  | error e =>
    rw [hvalid] at hcheck
    rw [ExceptT.run_bind, hcheck]
    rfl
  | ok _ =>
    -- only a placement that passed is written into tables
    rw [hvalid] at hcheck
    have hfill := exec_fill (ε := TrapError) (Placement.validate_eq_ok_iff.1 hvalid)
    rw [ExceptT.run_bind, hcheck]
    show ((InPlace.fill p).exec (blank a n p)).map _ = _
    rw [hfill]
    rfl

end Trap

end IonTrap
