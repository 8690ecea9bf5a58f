import IonTrap.Proofs.RoutedCircuit.Validate
import IonTrap.RoutedCircuit.Json

/-!
# The zones that loading records name

A loading record names a zone beside its qubits. The replay does not look at it: it loads the
records in list order, the first into zone 0, the next into zone 1. `RoutedCircuit.namedPlacement`
is the placement that the records spell out.

A legal run can be followed backwards: each entry of the stream and the chains after it leave one
possibility for the chains before it (`Placement.Step.eq_of_same_end`,
`Placement.Runs.eq_of_same_end`). So an accepted circuit also runs from the placement that its
records spell out exactly if the two placements are one, and that is so exactly if each record with
qubits names its own place in the list (`RoutedCircuit.runs_from_named_iff`). A circuit whose
records are listed in another order may be accepted although the stream is illegal where they say
the qubits are (`RoutedCircuit.exchanged_accepted`).
-/

namespace IonTrap

/-! ## Runs backwards -/

/-- What a cohort joined can be told from the chain it made. -/
theorem Trap.enter_cancel {port : Port} {qs chain chain' : List Nat}
    (h : enter port qs chain = enter port qs chain') : chain = chain' := by
  cases port with
  | p0 => exact List.append_cancel_left h
  | p1 => exact List.append_cancel_right h

namespace Placement

/-- With another chain in the place of one, its qubits are counted in place of the old ones. -/
theorem count_flatten_set {p : Placement} {z : Nat} {chain : List Nat} (hz : p[z]? = some chain)
    (chain' : List Nat) (q : Nat) :
    (p.set z chain').flatten.count q + chain.count q = p.flatten.count q + chain'.count q := by
  induction p generalizing z with
  | nil => simp at hz
  | cons first p ih =>
    cases z with
    | zero =>
      have hfirst : first = chain := by simpa using hz
      rw [hfirst]
      simp only [List.set_cons_zero, List.flatten_cons, List.count_append]
      omega
    | succ z =>
      have hrest := ih (z := z) (by simpa using hz)
      simp only [List.set_cons_succ, List.flatten_cons, List.count_append]
      omega

section Back

variable {a : Architecture} {n : Nat} {op : RoutedOp} {ops : List RoutedOp} {p q r : Placement}

/-- Barriers and instructions leave the chains alone. -/
theorem Step.eq_of_gate {i : Instruction} (h : Step a n (.gate i) p r) : p = r := by
  cases h <;> rfl

theorem Step.eq_of_routingBarrier (h : Step a n (.routing .barrier) p r) : p = r := by
  cases h
  rfl

/-- Two exchanged neighbours can be exchanged back. -/
theorem Step.back_swap {z left right : Nat} (h : Step a n (.routing (.swap z left right)) p r) :
    ∃ before after, r[z]? = some (before ++ right :: left :: after) ∧
      p = r.set z (before ++ left :: right :: after) := by
  cases h with
  | swap hz =>
    rename_i before after
    obtain ⟨hlt, hchain⟩ := List.getElem?_eq_some_iff.1 hz
    refine ⟨before, after, List.getElem?_set_self hlt, ?_⟩
    rw [List.set_set, ← hchain, List.set_getElem_self]

variable (hlegal : a.Legal)
include hlegal

/-- A shuttled cohort can be put back where it stood. -/
theorem Step.back_shuttle {qs : List Nat} {source target : Nat} {exit arrival : Port}
    (h : Step a n (.routing (.shuttle qs source target exit arrival)) p r) :
    ∃ rest chain, r[source]? = some rest ∧ r[target]? = some (Trap.enter arrival qs chain) ∧
      p = (r.set source (Trap.enter exit qs rest)).set target chain := by
  cases h with
  | shuttle hlink hsource htarget hroom =>
    rename_i rest chain
    obtain ⟨-, -, hne⟩ := hlegal.linked_zones hlink
    obtain ⟨hslt, hs⟩ := List.getElem?_eq_some_iff.1 hsource
    obtain ⟨htlt, ht⟩ := List.getElem?_eq_some_iff.1 htarget
    refine ⟨rest, chain, ?_, ?_, ?_⟩
    · rw [List.getElem?_set_ne hne.symm, List.getElem?_set_self hslt]
    · rw [List.getElem?_set_self (by rwa [List.length_set])]
    · rw [List.set_comm _ _ hne.symm, List.set_set, List.set_set, ← hs, List.set_getElem_self, ← ht,
        List.set_getElem_self]

/-- A step neither loses nor doubles a qubit. -/
theorem Step.perm_flatten (h : Step a n op p r) : r.flatten.Perm p.flatten := by
  rw [List.perm_iff_count]
  intro x
  cases h with
  | shuttle hlink hsource htarget hroom =>
    rename_i source target exit arrival qs rest chain
    obtain ⟨-, -, hne⟩ := hlegal.linked_zones hlink
    have hleft := count_flatten_set hsource rest x
    have hother : (p.set source rest)[target]? = some chain := by
      rw [List.getElem?_set_ne hne, htarget]
    have hentered := count_flatten_set hother (Trap.enter arrival qs chain) x
    rw [(Trap.perm_enter exit qs rest).count_eq, List.count_append] at hleft
    rw [(Trap.perm_enter arrival qs chain).count_eq, List.count_append] at hentered
    omega
  | swap hz =>
    rename_i z left right before after
    have hswapped := count_flatten_set hz (before ++ right :: left :: after) x
    have hperm : (before ++ right :: left :: after).Perm (before ++ left :: right :: after) :=
      (List.Perm.swap left right after).append_left before
    rw [hperm.count_eq] at hswapped
    omega
  | routingBarrier => rfl
  | barrier => rfl
  | gate => rfl

theorem Runs.perm_flatten (h : Runs a n ops p r) : r.flatten.Perm p.flatten := by
  induction h with
  | nil => rfl
  | cons hstep _ ih => exact ih.trans (hstep.perm_flatten hlegal)

/-- An entry and the chains after it leave one possibility for the chains before it. -/
theorem Step.eq_of_same_end (hnodup : r.flatten.Nodup) (hp : Step a n op p r)
    (hq : Step a n op q r) : p = q := by
  cases op with
  | gate i => exact hp.eq_of_gate.trans hq.eq_of_gate.symm
  | routing op =>
    cases op with
    | barrier => exact hp.eq_of_routingBarrier.trans hq.eq_of_routingBarrier.symm
    | shuttle qs source target exit arrival =>
      obtain ⟨rest, chain, hs, ht, rfl⟩ := hp.back_shuttle hlegal
      obtain ⟨rest', chain', hs', ht', rfl⟩ := hq.back_shuttle hlegal
      have hrest : rest = rest' := Option.some.inj (hs.symm.trans hs')
      have hchain : Trap.enter arrival qs chain = Trap.enter arrival qs chain' :=
        Option.some.inj (ht.symm.trans ht')
      rw [hrest, Trap.enter_cancel hchain]
    | swap z left right =>
      obtain ⟨before, after, hz, rfl⟩ := hp.back_swap
      obtain ⟨before', after', hz', rfl⟩ := hq.back_swap
      -- the first of the two qubits stands at one place of the chain
      have hchain : before ++ right :: left :: after = before' ++ right :: left :: after' :=
        Option.some.inj (hz.symm.trans hz')
      have honce : (before ++ right :: left :: after).Nodup :=
        (List.nodup_flatten.1 hnodup).1 _ (List.mem_of_getElem? hz)
      have hbefore : right ∉ before := fun h =>
        List.disjoint_of_nodup_append honce h List.mem_cons_self
      have hafter : right ∉ left :: after := (List.nodup_cons.1 honce.of_append_right).1
      obtain ⟨rfl, -, hrest⟩ := (List.append_cons_inj_of_notMem hbefore hafter).1 hchain
      rw [List.tail_eq_of_cons_eq hrest]

/-- A stream and the chains after it leave one possibility for the chains before it. -/
theorem Runs.eq_of_same_end (hnodup : r.flatten.Nodup) (hp : Runs a n ops p r)
    (hq : Runs a n ops q r) : p = q := by
  induction hp generalizing q with
  | nil =>
    cases hq
    rfl
  | cons hstep hruns ih =>
    cases hq with
    | cons hstep' hruns' =>
      obtain rfl := ih hnodup hruns'
      exact hstep.eq_of_same_end hlegal ((hruns.perm_flatten hlegal).nodup_iff.1 hnodup) hstep'

end Back

end Placement

/-! ## Records by name -/

namespace RoutedCircuit

/-- The placement that the records spell out: in each zone the qubits of the records that name it.
-/
def namedPlacement (c : RoutedCircuit) (numZones : Nat) : Placement :=
  (List.range numZones).map fun z => (c.inits.filter (·.zone == z)).flatMap (·.qubits)

/-- Each record with qubits names the zone whose number is its place in the list. -/
def RecordsInOrder (c : RoutedCircuit) : Prop :=
  ∀ (k : Nat) (r : ZoneInit), c.inits[k]? = some r → r.qubits ≠ [] → r.zone = k

theorem flatMap_filter_eq_nil {rs : List ZoneInit} {z : Nat}
    (h : ∀ r ∈ rs, r.zone = z → r.qubits = []) :
    (rs.filter (·.zone == z)).flatMap (·.qubits) = [] := by
  rw [List.flatMap_eq_nil_iff]
  intro r hr
  rw [List.mem_filter, beq_iff_eq] at hr
  exact h r hr.1 hr.2

/-- With the records in order, those that name a zone have the qubits of the record at its place. -/
theorem RecordsInOrder.flatMap_filter {c : RoutedCircuit} (h : c.RecordsInOrder) {z : Nat}
    {r : ZoneInit} (hr : c.inits[z]? = some r) :
    (c.inits.filter (·.zone == z)).flatMap (·.qubits) = r.qubits := by
  -- a record before or behind that place has no qubits, or names another zone
  have hbefore : ((c.inits.take z).filter (·.zone == z)).flatMap (·.qubits) = [] := by
    apply flatMap_filter_eq_nil
    intro r' hr' hzone
    obtain ⟨k, hk⟩ := List.mem_iff_getElem?.1 hr'
    rw [List.getElem?_take] at hk
    split_ifs at hk with hlt
    by_contra hne
    have hplace := h k r' hk hne
    omega
  have hbehind : ((c.inits.drop (z + 1)).filter (·.zone == z)).flatMap (·.qubits) = [] := by
    apply flatMap_filter_eq_nil
    intro r' hr' hzone
    obtain ⟨k, hk⟩ := List.mem_iff_getElem?.1 hr'
    rw [List.getElem?_drop] at hk
    by_contra hne
    have hplace := h (z + 1 + k) r' hk hne
    omega
  have hhere : ([r].filter (·.zone == z)).flatMap (·.qubits) = r.qubits := by
    by_cases hne : r.qubits = []
    · rw [hne, flatMap_filter_eq_nil]
      simp [hne]
    · simp [h z r hr hne]
  obtain ⟨hz, hget⟩ := List.getElem?_eq_some_iff.1 hr
  have hsplit : c.inits = c.inits.take z ++ ([r] ++ c.inits.drop (z + 1)) := by
    rw [← hget, List.singleton_append, ← List.drop_eq_getElem_cons hz, List.take_append_drop]
  rw [hsplit]
  simp only [List.filter_append, List.flatMap_append, hbefore, hbehind, hhere, List.nil_append,
    List.append_nil]

theorem getD_initialPlacement {c : RoutedCircuit} {k : Nat} {r : ZoneInit}
    (hr : c.inits[k]? = some r) : c.initialPlacement.getD k [] = r.qubits := by
  rw [initialPlacement, List.getD_eq_getElem?_getD, List.getElem?_map, hr, Option.map_some,
    Option.getD_some]

theorem namedPlacement_eq_iff_forall {c : RoutedCircuit} {p : Placement} :
    c.namedPlacement p.length = p ↔
      ∀ z < p.length, (c.inits.filter (·.zone == z)).flatMap (·.qubits) = p.getD z [] := by
  unfold namedPlacement
  rw [List.ext_get_iff]
  simp only [List.length_map, List.length_range, true_and, List.get_eq_getElem, List.getElem_map,
    List.getElem_range]
  constructor
  · intro h z hz
    rw [h z hz hz, List.getD_eq_getElem _ _ hz]
  · intro h z hz _
    rw [h z hz, List.getD_eq_getElem _ _ hz]

/-- The records spell out the placement that is loaded exactly if they are in order. -/
theorem namedPlacement_eq_iff {a : Architecture} {c : RoutedCircuit}
    (hfits : c.initialPlacement.Fits a c.numQubits) :
    c.namedPlacement a.numZones = c.initialPlacement ↔ c.RecordsInOrder := by
  rw [← hfits.length, namedPlacement_eq_iff_forall]
  constructor
  · intro hspelled k r hr hne
    -- a qubit of the record is listed by a record that names zone `k`, and by this record only
    obtain ⟨q, hq⟩ := List.exists_mem_of_ne_nil _ hne
    have hk : k < c.initialPlacement.length := by
      rw [initialPlacement, List.length_map]
      exact (List.getElem?_eq_some_iff.1 hr).1
    rw [← getD_initialPlacement hr] at hq
    have hnamed := hq
    rw [← hspelled k hk, List.mem_flatMap] at hnamed
    obtain ⟨r', hr', hq'⟩ := hnamed
    rw [List.mem_filter, beq_iff_eq] at hr'
    obtain ⟨k', hk'⟩ := List.mem_iff_getElem?.1 hr'.1
    rw [← getD_initialPlacement hk'] at hq'
    rw [hfits.eq_of_mem hq hq', hk', Option.some_inj] at hr
    rw [← hr, hr'.2]
  · intro horder z hz
    have hlt : z < c.inits.length := by rwa [initialPlacement, List.length_map] at hz
    have hr := List.getElem?_eq_getElem hlt
    rw [horder.flatMap_filter hr, getD_initialPlacement hr]

/-- On a valid architecture let a circuit be accepted. With the qubits where its records say they
are, its stream is a legal run to its final placement exactly if each record with qubits names its
own place in the list. -/
theorem runs_from_named_iff {a : Architecture} (ha : a.validate = .ok ()) {c : RoutedCircuit}
    (h : c.validate a = .ok ()) :
    ((c.namedPlacement a.numZones).Fits a c.numQubits ∧
      Placement.Runs a c.numQubits c.ops (c.namedPlacement a.numZones) c.finalPlacement) ↔
        c.RecordsInOrder := by
  have hlegal := Architecture.legal_of_validate ha
  obtain ⟨-, hfits, hruns⟩ := (validate_eq_ok_iff hlegal c).1 h
  rw [← namedPlacement_eq_iff hfits]
  constructor
  · -- both runs end in the same chains, so they started in the same chains
    rintro ⟨-, hnamed⟩
    have hnodup : c.finalPlacement.flatten.Nodup :=
      ((hruns.perm_flatten hlegal).trans hfits.perm).nodup_iff.2 List.nodup_range
    exact hnamed.eq_of_same_end hlegal hnodup hruns
  · intro heq
    rw [heq]
    exact ⟨hfits, hruns⟩

/-- The records of the crossing are in order, and it runs from where they say. -/
theorem runs_from_named_crossing :
    Architecture.steepLine.validate = .ok () ∧ crossing.validate .steepLine = .ok () ∧
      Placement.Runs .steepLine 3 crossing.ops (crossing.namedPlacement 3) [[1], [0, 2], []] := by
  have hvalid : Architecture.steepLine.validate = .ok () := by decide
  have haccepted : crossing.validate .steepLine = .ok () := by decide
  have horder : crossing.RecordsInOrder := by
    have hall : ∀ k < 3, ∀ r ∈ crossing.inits[k]?, r.zone = k := by decide
    intro k r hr _
    exact hall k (List.getElem?_eq_some_iff.1 hr).1 r hr
  exact ⟨hvalid, haccepted, ((runs_from_named_iff hvalid haccepted).2 horder).2⟩

/-- A swap in the first zone. The first record has the qubits and names the second zone. -/
def exchanged : RoutedCircuit where
  name := "exchanged"
  numQubits := 2
  numClbits := 0
  inits := [⟨1, [0, 1]⟩, ⟨0, []⟩, ⟨2, []⟩]
  ops := [.routing (.swap 0 0 1)]
  finalPlacement := [[1, 0], [], []]

/-- The circuit with exchanged records can be read from text and is accepted. With the qubits where
its records say they are, no run of its stream is legal: the zone of the swap is empty. -/
theorem exchanged_accepted :
    Architecture.steepLine.validate = .ok () ∧
      ofText exchanged.toJson.compact = .ok exchanged ∧
      exchanged.validate .steepLine = .ok () ∧
      (exchanged.namedPlacement 3).Fits .steepLine 2 ∧
      ∀ p, ¬ Placement.Runs .steepLine 2 exchanged.ops (exchanged.namedPlacement 3) p := by
  have hnamed : exchanged.namedPlacement 3 = [[], [0, 1], []] := by decide
  refine ⟨by decide, by decide +kernel, by decide, ?_, ?_⟩
  · rw [hnamed, ← Placement.validate_eq_ok_iff]
    decide
  · -- the only entry is the swap, and its zone would have to hold two qubits
    intro p hruns
    rw [hnamed] at hruns
    cases hruns with
    | cons hstep _ =>
      cases hstep with
      | swap hz => simp at hz

end RoutedCircuit

end IonTrap
