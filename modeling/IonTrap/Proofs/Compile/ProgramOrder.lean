import IonTrap.Proofs.Compile.Run

/-!
# Routing keeps the program

A routed circuit is a rearrangement of its circuit: what it emits arises from the program by
exchanges of neighbouring instructions on different qubits (`Session.rearranged_route`). So every
instruction is emitted once, the instructions on a qubit keep their order, and so do instructions
that hang on each other through others. Nothing else ties instructions together: two measurements
of different qubits into one classical bit can be exchanged.
-/

namespace IonTrap

/-! ## The invariant of the loop -/

/-- What was emitted and what is left rearrange the program, and what is left can be routed. -/
structure Run.Keeps (program : List Instruction) (r : Run) : Prop where
  rearranged : Rearranged Instruction.Meets program (emitted r.ops ++ r.remaining)
  routable : ∀ i ∈ r.remaining, i.Routable

/-- A step emits instructions past those that wait. -/
theorem Run.Keeps.step {program : List Instruction} {s : Selector} {r r' : Run}
    (hr : r.Keeps program) (h : r.step s = .ok r') : r'.Keeps program := by
  obtain ⟨target, result, ready, -, -, hsplit, hops⟩ := Run.step_eq_ok h
  have hre := Trap.rearranged_split hr.routable hsplit
  refine ⟨?_, ?_⟩
  · have hemit : emitted r'.ops ++ r'.remaining = emitted r.ops ++ (ready ++ r'.remaining) := by
      simp [hops]
    rw [hemit]
    exact hr.rearranged.trans (hre.append_left _)
  · intro i hi
    exact hr.routable i (hre.perm.mem_iff.2 (List.mem_append_right _ hi))

theorem Session.keeps_firstRun {s : Session} {c : Circuit} {r : Run} (h : s.firstRun c = .ok r) :
    r.Keeps c.instructions := by
  obtain ⟨hcheck, ready, hsplit, -, hops, -⟩ := firstRun_eq_ok h
  have hroutable := routable_of_checkOperands hcheck
  have hre := Trap.rearranged_split hroutable hsplit
  refine ⟨?_, ?_⟩
  · simpa [hops] using hre
  · intro i hi
    exact hroutable i (hre.perm.mem_iff.2 (List.mem_append_right _ hi))

/-- A routed circuit emits a rearrangement of the program. -/
theorem Session.rearranged_route {s : Session} {c : Circuit} {z : RoutedCircuit}
    (h : (s.route c).2 = .ok z) : Rearranged Instruction.Meets c.instructions z.gates := by
  obtain ⟨r, hr, hfin, -⟩ := route_eq_ok h
  obtain ⟨r', hkeeps, hnil, -, hops⟩ :=
    Run.exists_of_finish (fun _ _ hk hs => hk.step hs) (keeps_firstRun hr) hfin
  have hre := hkeeps.rearranged
  rw [hnil, List.append_nil, hops] at hre
  exact hre

/-- Instructions keep their order if each later one hangs on each earlier one, by a shared qubit or
through a chain of instructions that share qubits. -/
theorem Session.filter_gates_of_hangsOn {s : Session} {c : Circuit} {z : RoutedCircuit}
    (h : (s.route c).2 = .ok z) {chosen : Instruction → Bool}
    (hhangs : ∀ k l i j, k < l → c.instructions[k]? = some i → c.instructions[l]? = some j →
      chosen i → chosen j → HangsOn Instruction.Meets c.instructions k l) :
    z.gates.filter chosen = c.instructions.filter chosen :=
  (rearranged_route h).filter_eq_of_hangsOn (fun _ _ => Instruction.Meets.symm) hhangs

/-! ## Qubits -/

/-- Every instruction is emitted unchanged and as often as the program lists it, and on every qubit
the emitted instructions, barriers among them, stand in program order. -/
theorem Session.route_keeps_program {s : Session} {c : Circuit} {z : RoutedCircuit}
    (h : (s.route c).2 = .ok z) :
    z.gates.Perm c.instructions ∧
      ∀ q, z.gates.filter (·.qubits.contains q) = c.instructions.filter (·.qubits.contains q) := by
  have hre := rearranged_route h
  refine ⟨hre.perm.symm, fun q => hre.filter_eq ?_⟩
  intro i j hi hj
  exact ⟨q, by simpa using hi, by simpa using hj⟩

/-- A line of two gate zones with a storage zone between them. -/
def storageLine : Architecture := ⟨4, [.gate 2, .memory 1, .gate 2], [.chain 0 1, .chain 1 2]⟩

/-- Gates across the line, a barrier and a measurement. -/
def acrossTheLine : Circuit where
  name := "across"
  numQubits := 4
  numClbits := 1
  instructions :=
    [.ofStandard .cx [0, 3], .ofStandard .h [1], ⟨.barrier, [0, 1, 2], []⟩, .ofStandard .h [2],
      .ofStandard .cx [1, 2], ⟨.measure, [1], [0]⟩]

/-- On the packed line the gate on qubit 1 is emitted before any move, ahead of the gate that stands
before it in the program. -/
theorem Session.route_keeps_program_across :
    ∃ s z, Session.start storageLine 4 [[0, 1], [2], [3]] {} none = .ok s ∧
      (s.route acrossTheLine).2 = .ok z ∧ z.gates ≠ acrossTheLine.instructions ∧
      z.gates.Perm acrossTheLine.instructions ∧
      ∀ q, z.gates.filter (·.qubits.contains q)
        = acrossTheLine.instructions.filter (·.qubits.contains q) := by
  have hroute : (routeCircuit storageLine acrossTheLine [[0, 1], [2], [3]] {} none).map (·.gates)
      = .ok [.ofStandard .h [1], .ofStandard .cx [0, 3], ⟨.barrier, [0, 1, 2], []⟩,
        .ofStandard .h [2], .ofStandard .cx [1, 2], ⟨.measure, [1], [0]⟩] := by
    decide +kernel
  obtain ⟨z, hz, hgates⟩ := map_eq_ok_iff.1 hroute
  obtain ⟨s, hs, hz⟩ := bind_eq_ok_iff.1 hz
  exact ⟨s, z, hs, hz, by rw [hgates]; decide, route_keeps_program hz⟩

/-! ## Classical bits -/

/-- Every instruction that lists a classical bit is emitted as often as the program lists it. Choose
some of the instructions that list it, so that each later one hangs on each earlier one, by a shared
qubit or through a chain of instructions that share qubits. They keep their order. -/
theorem Session.clbit_order_of_hangsOn {s : Session} {c : Circuit} {z : RoutedCircuit}
    (h : (s.route c).2 = .ok z) (b : Nat) :
    (z.gates.filter (·.clbits.contains b)).Perm (c.instructions.filter (·.clbits.contains b)) ∧
      ∀ chosen : Instruction → Bool,
        (∀ k l i j, k < l → c.instructions[k]? = some i → c.instructions[l]? = some j →
          b ∈ i.clbits ∧ chosen i → b ∈ j.clbits ∧ chosen j →
          HangsOn Instruction.Meets c.instructions k l) →
        z.gates.filter (fun i => i.clbits.contains b && chosen i)
          = c.instructions.filter fun i => i.clbits.contains b && chosen i := by
  refine ⟨(rearranged_route h).perm.symm.filter _, fun chosen hhangs => ?_⟩
  refine filter_gates_of_hangsOn h fun k l i j hkl hi hj hci hcj => ?_
  rw [Bool.and_eq_true, List.contains_iff_mem] at hci hcj
  exact hhangs k l i j hkl hi hj hci hcj

/-- A storage zone beside a gate zone. -/
def storageBeside : Architecture := ⟨2, [.memory 2, .gate 2], [.chain 0 1]⟩

/-- Two qubits measured into one classical bit, with a gate on both in between. -/
def measuredLinked : Circuit :=
  ⟨"linked", 2, 1, [⟨.measure, [0], [0]⟩, .ofStandard .cx [0, 1], ⟨.measure, [1], [0]⟩]⟩

/-- The gate ties the two measurements together, so neither overtakes the other. -/
theorem Session.clbit_order_of_hangsOn_linked :
    ∃ s z, Session.start storageBeside 2 [[0], [1]] {} none = .ok s ∧
      (s.route measuredLinked).2 = .ok z ∧
      HangsOn Instruction.Meets measuredLinked.instructions 0 2 ∧
      z.gates.filter (·.clbits.contains 0)
        = measuredLinked.instructions.filter (·.clbits.contains 0) := by
  have hroute : (routeCircuit storageBeside measuredLinked [[0], [1]] {} none).map
      (fun _ => ()) = .ok () := by
    decide +kernel
  obtain ⟨z, hz, -⟩ := map_eq_ok_iff.1 hroute
  obtain ⟨s, hs, hz⟩ := bind_eq_ok_iff.1 hz
  have hfirst : MeetsAt Instruction.Meets measuredLinked.instructions 0 1 :=
    ⟨by decide, _, _, rfl, rfl, 0, by decide, by decide⟩
  have hsecond : MeetsAt Instruction.Meets measuredLinked.instructions 1 2 :=
    ⟨by decide, _, _, rfl, rfl, 1, by decide, by decide⟩
  have hhangs : HangsOn Instruction.Meets measuredLinked.instructions 0 2 :=
    .tail (.single hfirst) hsecond
  have hgate : ∀ k i, measuredLinked.instructions[k]? = some i → 0 ∈ i.clbits → k ≠ 1 := by
    rintro _ i hi hc rfl
    obtain rfl := Option.some.inj hi
    exact absurd hc (by decide)
  refine ⟨s, z, hs, hz, hhangs, ?_⟩
  have hkept := (clbit_order_of_hangsOn hz 0).2 fun _ => true
  simp only [Bool.and_true] at hkept
  refine hkept fun k l i j hkl hi hj hci hcj => ?_
  have hl : l < 3 := (List.getElem?_eq_some_iff.1 hj).1
  have hk := hgate k i hi hci.1
  have hl' := hgate l j hj hcj.1
  obtain ⟨rfl, rfl⟩ : k = 0 ∧ l = 2 := by omega
  exact hhangs

/-- Two qubits measured into one classical bit. -/
def measuredTwice : Circuit :=
  ⟨"twice", 2, 1, [⟨.measure, [0], [0]⟩, ⟨.measure, [1], [0]⟩]⟩

/-- The measurement of a stored qubit waits, and that of the other qubit into the same classical bit
overtakes it. -/
theorem Session.clbit_order_not_kept :
    storageBeside.validate = .ok () ∧
      (∀ i ∈ measuredTwice.instructions, measuredTwice.check i = .ok ()) ∧
      ∃ s z, Session.start storageBeside 2 [[0], [1]] {} none = .ok s ∧
        (s.route measuredTwice).2 = .ok z ∧
        z.gates.filter (·.clbits.contains 0)
          ≠ measuredTwice.instructions.filter (·.clbits.contains 0) := by
  refine ⟨by decide, by decide, ?_⟩
  have hroute : (routeCircuit storageBeside measuredTwice [[0], [1]] {} none).map (·.gates)
      = .ok [⟨.measure, [1], [0]⟩, ⟨.measure, [0], [0]⟩] := by
    decide +kernel
  obtain ⟨z, hz, hgates⟩ := map_eq_ok_iff.1 hroute
  obtain ⟨s, hs, hz⟩ := bind_eq_ok_iff.1 hz
  exact ⟨s, z, hs, hz, by rw [hgates]; decide⟩

end IonTrap
