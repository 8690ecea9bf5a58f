import IonTrap.Proofs.Circuit.Json
import IonTrap.RoutedCircuit.Json

/-!
# The text of a routed circuit

An entry of the stream is a tagged record, and a physical operation inside it is one again, its tag
and fields next to the tag of the entry. Taking a tag off leaves the record as it was written
(`Json.tagged?_cons`), so entries of all kinds are read back (`RoutedOp.ofJson?_toJson`), and with
them the routed circuit (`RoutedCircuit.ofText_text`).
-/

namespace IonTrap

/-- Taking the tag off a record whose other fields have other names. -/
theorem Json.tagged?_cons {depth : Nat} {tag : String} (t : Json) {fs : List (String × Json)}
    (hkeys : ∀ f ∈ fs, f.1 ≠ tag) (hfs : (Json.obj fs).holdable depth = true) :
    (Json.obj ((tag, t) :: fs)).tagged? depth tag = some (t, .obj fs) := by
  have hnone : fs.filter (·.1 == tag) = [] :=
    List.filter_eq_nil_iff.2 fun f hf => by simpa using hkeys f hf
  have hall : fs.filter (·.1 != tag) = fs :=
    List.filter_eq_self.2 fun f hf => by simpa using hkeys f hf
  have htag : ((tag, t) :: fs).filter (·.1 == tag) = [(tag, t)] := by
    rw [List.filter_cons_of_pos (by simp), hnone]
  have hrest : ((tag, t) :: fs).filter (·.1 != tag) = fs := by
    rw [List.filter_cons_of_neg (by simp), hall]
  simp only [tagged?, htag, hrest, hfs, if_true]

/-! ## Physical operations -/

theorem Port.ofJson?_toJson (s : Json.Strictness) (p : Port) :
    Port.ofJson? s p.toJson = some p := by
  cases p <;> rfl

theorem Port.tidy_toJson {k : Nat} (p : Port) : p.toJson.Tidy k := by
  cases p <;> exact Json.tidy_str _

namespace RoutingOp

/-- An operation whose qubits and zones are words of 64 bits. -/
def InRange : RoutingOp → Prop
  | .shuttle qs source target _ _ => (∀ q ∈ qs, q < 2 ^ 64) ∧ source < 2 ^ 64 ∧ target < 2 ^ 64
  | .swap z l r => z < 2 ^ 64 ∧ l < 2 ^ 64 ∧ r < 2 ^ 64
  | .barrier => True

variable {op : RoutingOp}

theorem tidy_field {k : Nat} {f : String × Json} (h : op.InRange) (hf : f ∈ op.toFields) :
    f.2.Tidy (k + 1) := by
  revert f
  cases op with
  | shuttle qs source target sp tp =>
    obtain ⟨hqs, hsource, htarget⟩ := h
    simp only [toFields, List.forall_mem_cons, List.not_mem_nil, false_implies, implies_true,
      and_true]
    exact ⟨Json.tidy_str _, Json.tidy_ofNats hqs, Json.tidy_ofNat hsource, Json.tidy_ofNat htarget,
      sp.tidy_toJson, tp.tidy_toJson⟩
  | swap z l r =>
    obtain ⟨hz, hl, hr⟩ := h
    simp only [toFields, List.forall_mem_cons, List.not_mem_nil, false_implies, implies_true,
      and_true]
    exact ⟨Json.tidy_str _, Json.tidy_ofNat hz, Json.tidy_ofNat hl, Json.tidy_ofNat hr⟩
  | barrier => simpa [toFields] using Json.tidy_str _

/-- The tag of an operation stands first and names the reader of the other fields. -/
theorem exists_kind (op : RoutingOp) :
    ∃ name read, op.toFields = ("op", .str name) :: op.toFields.tail ∧
      Json.nestedKind? kinds (.str name) = some read ∧ (∀ f ∈ op.toFields.tail, f.1 ≠ "op") ∧
      (op.InRange → read (.obj op.toFields.tail) = some op) := by
  cases op with
  | shuttle qs source target sp tp =>
    refine ⟨"shuttle", shuttleOfJson?, rfl, rfl, by simp [toFields], fun h => ?_⟩
    obtain ⟨hqs, hsource, htarget⟩ := h
    have hqubits : Json.list? Json.word64? (.ofNats qs) = some qs :=
      Json.list?_map fun q hq => Json.word64?_ofNat (hqs q hq)
    rw [shuttleOfJson?, Json.record?_obj (by simp [toFields]) (by simp [toFields])]
    simp [toFields, hqubits, Json.word64?_ofNat hsource, Json.word64?_ofNat htarget,
      Port.ofJson?_toJson]
  | swap z l r =>
    refine ⟨"pswap", swapOfJson?, rfl, rfl, by simp [toFields], fun h => ?_⟩
    obtain ⟨hz, hl, hr⟩ := h
    rw [swapOfJson?, Json.record?_obj (by simp [toFields]) (by simp [toFields])]
    simp [toFields, Json.word64?_ofNat hz, Json.word64?_ofNat hl, Json.word64?_ofNat hr]
  | barrier =>
    exact ⟨"routing_barrier", barrierOfJson?, rfl, rfl, by simp [toFields], fun _ => rfl⟩

/-- An operation is read back from the record it is written in. -/
theorem ofNestedJson?_toJson (h : op.InRange) : ofNestedJson? op.toJson = some op := by
  obtain ⟨name, read, hfields, hkind, hkeys, hread⟩ := op.exists_kind
  have htidy : (Json.obj op.toFields.tail).Tidy 2 :=
    Json.tidy_obj fun f hf => tidy_field h (List.mem_of_mem_tail hf)
  have hhold : (Json.obj op.toFields.tail).holdable 0 = true := htidy.holdable (by decide)
  have htagged := Json.tagged?_cons (.str name) hkeys hhold
  rw [← hfields] at htagged
  simp only [ofNestedJson?, toJson, htagged, Option.bind_eq_bind, Option.bind_some, hkind, hread h]

end RoutingOp

/-! ## Entries of the stream -/

namespace RoutedOp

/-- An entry whose numbers fit the words they are kept in. -/
def InRange : RoutedOp → Prop
  | .gate i => i.InRange
  | .routing op => op.InRange

variable {op : RoutedOp}

/-- Parameters that read back, if the entry is an instruction. -/
def ReadsBack (op : RoutedOp) : Prop := ∀ i ∈ op.gate?, i.ReadsBack

theorem ofJson?_toJson (h : op.InRange) (hp : op.ReadsBack) : ofJson? 2 op.toJson = some op := by
  cases op with
  | gate i =>
    have hkeys : ∀ f ∈ i.toFields, f.1 ≠ "type" := by
      intro f hf
      rcases Instruction.mem_toFields.1 hf with rfl | rfl | ⟨-, rfl⟩ <;> simp
    have htidy : i.toJson.Tidy 5 := Instruction.tidy_toJson h (hp i rfl)
    have hhold : i.toJson.holdable 2 = true := htidy.holdable (by decide)
    have htagged := Json.tagged?_cons (.str "gate") hkeys hhold
    have hread : Instruction.ofJson? .tagged (.obj i.toFields) = some i :=
      Instruction.ofJson?_toJson .tagged h (hp i rfl)
    simp [ofJson?, toJson, htagged, Json.kind?, kinds, List.lookup, hread]
  | routing op =>
    have hkeys : ∀ f ∈ op.toFields, f.1 ≠ "type" := by
      cases op <;> simp [RoutingOp.toFields]
    have htidy : op.toJson.Tidy 2 := Json.tidy_obj fun f hf => RoutingOp.tidy_field h hf
    have hhold : op.toJson.holdable 2 = true := htidy.holdable (by decide)
    have htagged := Json.tagged?_cons (.str "routing") hkeys hhold
    have hread : RoutingOp.ofNestedJson? (.obj op.toFields) = some op :=
      RoutingOp.ofNestedJson?_toJson h
    simp [ofJson?, toJson, htagged, Json.kind?, kinds, List.lookup, hread]

theorem tidy_toJson {k : Nat} (h : op.InRange) (hp : op.ReadsBack) : op.toJson.Tidy (k + 5) := by
  cases op with
  | gate i =>
    refine Json.tidy_obj (List.forall_mem_cons.2 ⟨Json.tidy_str _, fun f hf => ?_⟩)
    exact Instruction.tidy_field h (hp i rfl) hf
  | routing op =>
    refine Json.tidy_obj (List.forall_mem_cons.2 ⟨Json.tidy_str _, fun f hf => ?_⟩)
    exact RoutingOp.tidy_field h hf

end RoutedOp

/-! ## Routed circuits -/

/-- A loading record whose zone and qubits are words of 64 bits. -/
structure ZoneInit.InRange (i : ZoneInit) : Prop where
  zone_lt : i.zone < 2 ^ 64
  qubits_lt : ∀ q ∈ i.qubits, q < 2 ^ 64

theorem ZoneInit.ofJson?_toJson {i : ZoneInit} (h : i.InRange) :
    ZoneInit.ofJson? i.toJson = some i := by
  have hqubits : Json.list? Json.word64? (.ofNats i.qubits) = some i.qubits :=
    Json.list?_map fun q hq => Json.word64?_ofNat (h.qubits_lt q hq)
  rw [toJson, ofJson?, Json.record?_obj (by simp) (by simp)]
  simp [hqubits, Json.word64?_ofNat h.zone_lt]

theorem ZoneInit.tidy_toJson {k : Nat} {i : ZoneInit} (h : i.InRange) : i.toJson.Tidy (k + 2) := by
  refine Json.tidy_obj ?_
  simp only [List.forall_mem_cons, List.not_mem_nil, false_implies, implies_true, and_true]
  exact ⟨Json.tidy_ofNat h.zone_lt, Json.tidy_ofNats h.qubits_lt⟩

theorem Placement.ofJson?_toJson {p : Placement} (h : ∀ chain ∈ p, ∀ q ∈ chain, q < 2 ^ 64) :
    Placement.ofJson? p.toJson = some p :=
  Json.list?_map fun chain hchain =>
    Json.list?_map fun q hq => Json.word64?_ofNat (h chain hchain q hq)

theorem Placement.tidy_toJson {k : Nat} {p : Placement} (h : ∀ chain ∈ p, ∀ q ∈ chain, q < 2 ^ 64) :
    p.toJson.Tidy (k + 2) :=
  Json.tidy_arr_map fun chain hchain => Json.tidy_ofNats (h chain hchain)

namespace RoutedCircuit

/-- A routed circuit whose numbers fit the words they are kept in. -/
structure InRange (c : RoutedCircuit) : Prop where
  numQubits_lt : c.numQubits < 2 ^ 64
  numClbits_lt : c.numClbits < 2 ^ 64
  inits : ∀ i ∈ c.inits, i.InRange
  ops : ∀ op ∈ c.ops, op.InRange
  finalPlacement : ∀ chain ∈ c.finalPlacement, ∀ q ∈ chain, q < 2 ^ 64

variable {c : RoutedCircuit}

theorem ofJson?_toJson (h : c.InRange) (hp : ∀ op ∈ c.ops, op.ReadsBack) :
    ofJson? c.toJson = some c := by
  have hinits : Json.list? ZoneInit.ofJson? (.arr (c.inits.map (·.toJson))) = some c.inits :=
    Json.list?_map fun i hi => ZoneInit.ofJson?_toJson (h.inits i hi)
  have hops : Json.list? (RoutedOp.ofJson? 2) (.arr (c.ops.map (·.toJson))) = some c.ops :=
    Json.list?_map fun op hop => RoutedOp.ofJson?_toJson (h.ops op hop) (hp op hop)
  rw [toJson, ofJson?, Json.record?_obj (by simp) (by simp)]
  simp [Json.string?, Json.word64?_ofNat h.numQubits_lt, Json.word64?_ofNat h.numClbits_lt, hinits,
    hops, Placement.ofJson?_toJson h.finalPlacement]

theorem tidy_toJson (h : c.InRange) (hp : ∀ op ∈ c.ops, op.ReadsBack) : c.toJson.Tidy 7 := by
  refine Json.tidy_obj ?_
  simp only [List.forall_mem_cons, List.not_mem_nil, false_implies, implies_true, and_true]
  exact ⟨Json.tidy_str _, Json.tidy_ofNat h.numQubits_lt, Json.tidy_ofNat h.numClbits_lt,
    Json.tidy_arr_map fun i hi => ZoneInit.tidy_toJson (h.inits i hi),
    Json.tidy_arr_map fun op hop => RoutedOp.tidy_toJson (h.ops op hop) (hp op hop),
    Placement.tidy_toJson h.finalPlacement⟩

/-- The text of a routed circuit is read back as that circuit, if its parameters read back. -/
theorem ofText_text (h : c.InRange) (hp : ∀ i ∈ c.gates, i.ReadsBack) : ofText c.text = .ok c := by
  have hops : ∀ op ∈ c.ops, op.ReadsBack := fun op hop i hi =>
    hp i (List.mem_filterMap.2 ⟨op, hop, hi⟩)
  unfold ofText
  rw [text, Json.parse_pretty (tidy_toJson h hops).wellFormed, Option.bind_some,
    ofJson?_toJson h hops]

/-- Every kind of entry in one stream, with the largest word as a zone and as a qubit. -/
def allEntries : RoutedCircuit where
  name := "\\ \x7f\t"
  numQubits := 2
  numClbits := 1
  inits := [⟨18446744073709551615, [1, 0]⟩]
  ops := [.gate (.ofGate (.custom ⟨"", 1, [.minusTenth]⟩) [0]),
    .routing (.shuttle [18446744073709551615, 0] 0 1 .p1 .p0), .routing (.swap 1 0 1),
    .routing .barrier, .gate ⟨.measure, [1], [0]⟩]
  finalPlacement := [[], [0, 1]]

theorem inRange_allEntries : allEntries.InRange where
  numQubits_lt := by decide
  numClbits_lt := by decide
  inits := by
    simp only [allEntries, List.forall_mem_singleton]
    exact ⟨by decide, by decide⟩
  ops := by
    simp only [allEntries, List.forall_mem_cons, List.not_mem_nil, false_implies, implies_true,
      and_true]
    refine ⟨⟨by decide, by decide, ?_⟩, ⟨by decide, by decide, by decide⟩,
      ⟨by decide, by decide, by decide⟩, trivial, ⟨by decide, by decide, ?_⟩⟩
    all_goals simp [Instruction.ofGate, Instruction.gate?, Gate.arity]
  finalPlacement := by decide

theorem ofText_text_allEntries :
    allEntries.InRange ∧ (∀ i ∈ allEntries.gates, i.ReadsBack) ∧
      ofText allEntries.text = .ok allEntries := by
  have hparams : ∀ i ∈ allEntries.gates, i.ReadsBack := by
    simp [gates, allEntries, RoutedOp.gate?, Instruction.ReadsBack, Instruction.params,
      Instruction.gate?, Instruction.ofGate, Gate.params, Double.readsBack_minusTenth]
  exact ⟨inRange_allEntries, hparams, ofText_text inRange_allEntries hparams⟩

end RoutedCircuit

end IonTrap
