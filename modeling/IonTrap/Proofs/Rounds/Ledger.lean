import IonTrap.Proofs.Indexed
import IonTrap.Proofs.Rounds.Components
import IonTrap.Proofs.Rounds.Packed

/-!
# Blocks in place

The blocks can be kept in place, with a table of the number of every qubit's block beside them
(`Ledger`). A merged block leaves an empty one behind, and at the end of a round these are dropped
and all blocks are numbered anew. The table is right at any time, so no number is out of date
(`Ledger.exec_connectRounds`). A pair of two unknown qubits after the first round would stop the
program, but there is none, since each pair of a later round waits for one of the round before.
-/

namespace IonTrap

/-- Blocks under way, with the number of the block of every qubit that has one. -/
structure Ledger where
  blocks : Blocks
  owners : List (Option Nat)

namespace Ledger

open Indexed

/-- The blocks. -/
def rows : Table Ledger (List Nat) where
  read s := s.blocks
  write blocks s := { s with blocks }

/-- The numbers of the qubits' blocks. -/
def numbers : Table Ledger (Option Nat) where
  read s := s.owners
  write owners s := { s with owners }

/-- A pair of unknown qubits after the first round, with the number of its round. -/
abbrev Fresh := Pair × Nat

/-- Notes that qubits are in block `i`. -/
def assign (i : Nat) : List Nat → Indexed Ledger Fresh Unit
  | [] => pure ()
  | q :: qs => do
    numbers.set q (some i)
    assign i qs

/-- Moves block `y` into block `x`. -/
def merge (x y : Nat) : Indexed Ledger Fresh Unit := do
  let moved ← rows.get y
  rows.set y []
  assign x moved
  rows.modify x (· ++ moved)

/-- Adds a qubit to block `x`. -/
def add (x q : Nat) : Indexed Ledger Fresh Unit := do
  rows.modify x (· ++ [q])
  numbers.set q (some x)

/-- Opens a block for a pair. -/
def openBlock (p : Pair) : Indexed Ledger Fresh Unit := do
  let s ← get
  numbers.set p.1 (some s.blocks.length)
  numbers.set p.2 (some s.blocks.length)
  modify fun s => { s with blocks := s.blocks ++ [[p.1, p.2]] }

/-- Connects a pair of round `depth`. -/
def connectPair (depth : Nat) (p : Pair) : Indexed Ledger Fresh Unit := do
  let x ← numbers.get p.1
  let y ← numbers.get p.2
  match x, y with
  | some x, some y => if x = y then pure () else merge x y
  | some x, none => add x p.2
  | none, some y => add y p.1
  | none, none => if depth = 0 then openBlock p else throw (p, depth)

/-- Connects the pairs of round `depth`. -/
def connectPairs (depth : Nat) : List Pair → Indexed Ledger Fresh Unit
  | [] => pure ()
  | p :: ps => do
    connectPair depth p
    connectPairs depth ps

/-- Numbers blocks from `i` on. -/
def renumber (i : Nat) : Blocks → Indexed Ledger Fresh Unit
  | [] => pure ()
  | b :: bs => do
    assign i b
    renumber (i + 1) bs

/-- Drops empty blocks, numbers the others and gives them. -/
def closeRound : Indexed Ledger Fresh Blocks := do
  modify fun s => { s with blocks := s.blocks.filter (!·.isEmpty) }
  let s ← get
  renumber 0 s.blocks
  return s.blocks

/-- The blocks after each round, the first of them round `depth`. -/
def connectRounds (depth : Nat) : Rounds → Indexed Ledger Fresh (List Blocks)
  | [] => return []
  | r :: rs => do
    connectPairs depth r
    let bs ← closeRound
    let rest ← connectRounds (depth + 1) rs
    return bs :: rest

/-! ## The table -/

variable {n depth i x y q : Nat} {bs : Blocks} {p : Pair}

/-- Blocks of qubits below `n`, with the table that belongs to them. -/
def of (n : Nat) (bs : Blocks) : Ledger := ⟨bs, (List.range n).map bs.owner⟩

theorem exec_get_numbers (hq : q < n) (bs : Blocks) :
    (numbers.get q : Indexed Ledger Fresh (Option Nat)).exec (of n bs)
      = some (.ok (bs.owner q), of n bs) := by
  rw [numbers.exec_get (by simpa [numbers, of] using hq) none]
  simp [numbers, of, hq]

theorem exec_assign {qs : List Nat} (hqs : ∀ q ∈ qs, q < n) (i : Nat) (bs : Blocks)
    (f : Nat → Option Nat) :
    (assign i qs).exec ⟨bs, (List.range n).map f⟩
      = some (.ok (), ⟨bs, (List.range n).map fun q => if q ∈ qs then some i else f q⟩) := by
  induction qs generalizing f with
  | nil =>
    simp only [List.not_mem_nil, if_false]
    exact exec_pure () _
  | cons q qs ih =>
    rw [List.forall_mem_cons] at hqs
    rw [assign, exec_bind (numbers.exec_set (by simpa [numbers] using hqs.1) (some i))]
    show Indexed.exec _ (Ledger.mk bs (((List.range n).map f).set q (some i))) = _
    rw [map_range_set, ih hqs.2]
    congr! 5 with r
    by_cases hr : r = q
    · simp [hr]
    · simp [hr]

/-! ## One pair -/

section Owner

variable (h : bs.flatten.Nodup)
include h

theorem owner_merge (hx : x < bs.length) (hy : y < bs.length) (hne : x ≠ y) :
    Blocks.owner ((bs.modify x (· ++ bs.getD y [])).set y [])
      = fun q => if q ∈ bs.getD y [] then some x else bs.owner q := by
  funext q
  have hnodup := (Blocks.flatten_merge_perm hx hy hne).nodup_iff.2 h
  have honce : ∀ i, q ∈ bs.getD y [] → q ∈ bs.getD i [] → i = y := fun i hq hqi =>
    Nested.eq_of_mem_getD h hqi hq
  refine Option.ext fun i => ?_
  have howner := Blocks.owner_eq_some_iff (q := q) (i := i) h
  rw [Blocks.owner_eq_some_iff hnodup, Blocks.getD_merge hx hy]
  grind

theorem owner_add {r : Nat} (hx : x < bs.length) (hr : r ∉ bs.flatten) :
    Blocks.owner (bs.modify x (· ++ [r])) = Function.update bs.owner r (some x) := by
  funext q
  have hnodup := (Nested.flatten_modify_perm hx [r]).nodup_iff.2 (List.nodup_cons.2 ⟨hr, h⟩)
  have hnew : ∀ i, r ∉ bs.getD i [] := fun i hi => hr (Nested.mem_flatten_iff.2 ⟨i, hi⟩)
  refine Option.ext fun i => ?_
  have howner := Blocks.owner_eq_some_iff (q := q) (i := i) h
  rw [Blocks.owner_eq_some_iff hnodup, Nested.getD_modify hx, Function.update_apply]
  grind

theorem owner_open (hne : p.1 ≠ p.2) (h₁ : p.1 ∉ bs.flatten) (h₂ : p.2 ∉ bs.flatten) :
    Blocks.owner (bs ++ [[p.1, p.2]])
      = Function.update (Function.update bs.owner p.1 (some bs.length)) p.2 (some bs.length) := by
  funext q
  have hold : ∀ i, q ∈ bs.getD i [] → q ≠ p.1 ∧ q ≠ p.2 ∧ i ≠ bs.length := by
    intro i hi
    have hmem : q ∈ bs.flatten := Nested.mem_flatten_iff.2 ⟨i, hi⟩
    have hlt := Nested.lt_length_of_mem_getD hi
    exact ⟨fun hq => h₁ (hq ▸ hmem), fun hq => h₂ (hq ▸ hmem), by omega⟩
  refine Option.ext fun i => ?_
  have howner := Blocks.owner_eq_some_iff (q := q) (i := i) h
  rw [Blocks.owner_eq_some_iff (Blocks.joins_open h hne h₁ h₂).nodup, Nested.getD_concat,
    Function.update_apply, Function.update_apply]
  grind

end Owner

section Pair

variable (h : bs.flatten.Nodup)
include h

theorem exec_merge (hbelow : bs.Below n) (hx : x < bs.length) (hy : y < bs.length) (hne : x ≠ y) :
    (merge x y).exec (of n bs)
      = some (.ok (), of n ((bs.modify x (· ++ bs.getD y [])).set y [])) := by
  have hcomm : (bs.set y []).modify x (· ++ bs.getD y [])
      = (bs.modify x (· ++ bs.getD y [])).set y [] := by
    refine List.ext_getElem (by simp) fun i hi hi' => ?_
    simp only [List.getElem_modify, List.getElem_set]
    by_cases hix : x = i <;> by_cases hiy : y = i <;> simp [hix, hiy]
    omega
  have hassign := exec_assign (hbelow.getD y) x (bs.set y []) bs.owner
  rw [merge, exec_bind (rows.exec_get (by simpa [rows, of] using hy) []),
    exec_bind (rows.exec_set (by simpa [rows, of] using hy) [])]
  show Indexed.exec (assign x (bs.getD y []) >>= fun _ => rows.modify x (· ++ bs.getD y []))
    ⟨bs.set y [], (List.range n).map bs.owner⟩ = _
  rw [exec_bind hassign, rows.exec_modify (by simpa [rows] using hx), of, owner_merge h hx hy hne,
    ← hcomm]
  rfl

theorem exec_add {r : Nat} (hx : x < bs.length) (hr : r ∉ bs.flatten) (hrn : r < n) :
    (add x r).exec (of n bs) = some (.ok (), of n (bs.modify x (· ++ [r]))) := by
  rw [add, exec_bind (rows.exec_modify (by simpa [rows, of] using hx) _),
    numbers.exec_set (by simpa [numbers, rows, of] using hrn), of, of, owner_add h hx hr,
    ← map_range_set]
  rfl

theorem exec_openBlock (hp : p.1 < n ∧ p.2 < n) (hne : p.1 ≠ p.2) (h₁ : p.1 ∉ bs.flatten)
    (h₂ : p.2 ∉ bs.flatten) :
    (openBlock p).exec (of n bs) = some (.ok (), of n (bs ++ [[p.1, p.2]])) := by
  rw [openBlock, exec_bind (Indexed.exec_get _),
    exec_bind (numbers.exec_set (by simpa [numbers, of] using hp.1) _),
    exec_bind (numbers.exec_set (by simpa [numbers, of] using hp.2) _), of, of,
    owner_open h hne h₁ h₂, ← map_range_set, ← map_range_set]
  rfl

/-- A pair with a known qubit, or of the first round, is connected. -/
theorem exec_connectPair (hbelow : bs.Below n) (hp : p.1 < n ∧ p.2 < n) (hne : p.1 ≠ p.2)
    (hseen : depth = 0 ∨ p.1 ∈ bs.flatten ∨ p.2 ∈ bs.flatten) :
    (connectPair depth p).exec (of n bs) = some (.ok (), of n (bs.connect p)) := by
  have hconnect : bs.connect p = match bs.owner p.1, bs.owner p.2 with
      | some x, some y => if x = y then bs else (bs.modify x (· ++ bs.getD y [])).set y []
      | some x, none => bs.modify x (· ++ [p.2])
      | none, some y => bs.modify y (· ++ [p.1])
      | none, none => bs ++ [[p.1, p.2]] := rfl
  have hlt : ∀ q x, bs.owner q = some x → x < bs.length := fun q x hx =>
    Nested.lt_length_of_mem_getD (Blocks.mem_getD_of_owner hx)
  rw [connectPair, exec_bind (exec_get_numbers hp.1 bs), exec_bind (exec_get_numbers hp.2 bs),
    hconnect]
  cases hx : bs.owner p.1 with
  | none =>
    have h₁ := Blocks.owner_eq_none_iff.1 hx
    cases hy : bs.owner p.2 with
    | none =>
      have h₂ := Blocks.owner_eq_none_iff.1 hy
      have hdepth : depth = 0 := hseen.resolve_right fun hseen => hseen.elim h₁ h₂
      dsimp only
      rw [if_pos hdepth]
      exact exec_openBlock h hp hne h₁ h₂
    | some y => exact exec_add h (hlt _ y hy) h₁ hp.1
  | some x =>
    cases hy : bs.owner p.2 with
    | none => exact exec_add h (hlt _ x hx) (Blocks.owner_eq_none_iff.1 hy) hp.2
    | some y =>
      dsimp only
      split_ifs with hxy
      · exact exec_pure () _
      · exact exec_merge h hbelow (hlt _ x hx) (hlt _ y hy) hxy

end Pair

/-! ## Rounds -/

theorem exec_connectPairs {r : List Pair} (h : bs.flatten.Nodup) (hbelow : bs.Below n)
    (hr : ∀ p ∈ r, p.1 < p.2 ∧ p.2 < n)
    (hseen : depth = 0 ∨ ∀ p ∈ r, p.1 ∈ bs.flatten ∨ p.2 ∈ bs.flatten) :
    (connectPairs depth r).exec (of n bs) = some (.ok (), of n (r.foldl Blocks.connect bs)) := by
  induction r generalizing bs with
  | nil => exact exec_pure () _
  | cons p r ih =>
    rw [List.forall_mem_cons] at hr hseen
    have hp : p.1 < n ∧ p.2 < n := ⟨hr.1.1.trans hr.1.2, hr.1.2⟩
    have hne : p.1 ≠ p.2 := Nat.ne_of_lt hr.1.1
    have hjoins := Blocks.joins_connect h hne
    -- what is known stays known
    have hseen' : depth = 0 ∨
        ∀ s ∈ r, s.1 ∈ (bs.connect p).flatten ∨ s.2 ∈ (bs.connect p).flatten := by
      refine hseen.imp id fun hseen s hs => (hseen.2 s hs).imp ?_ ?_
      · exact fun hmem => (hjoins.mem_iff _).2 (.inl hmem)
      · exact fun hmem => (hjoins.mem_iff _).2 (.inl hmem)
    rw [connectPairs, exec_bind (exec_connectPair h hbelow hp hne (hseen.imp id And.left)),
      ih hjoins.nodup (hbelow.connect hp) hr.2 hseen']
    rfl

theorem owner_cons (b : List Nat) (bs : Blocks) (q : Nat) :
    Blocks.owner (b :: bs) q = if q ∈ b then some 0 else (bs.owner q).map (· + 1) := by
  rw [Blocks.owner, List.findIdx?_cons]
  simp only [List.contains_iff_mem]
  rfl

theorem exec_renumber {rest : Blocks} (h : rest.flatten.Nodup) (hbelow : rest.Below n) (i : Nat)
    (bs : Blocks) (f : Nat → Option Nat) :
    (renumber i rest).exec ⟨bs, (List.range n).map f⟩ = some (.ok (),
      ⟨bs, (List.range n).map fun q => ((rest.owner q).map (i + ·)).or (f q)⟩) := by
  induction rest generalizing i f with
  | nil => exact exec_pure () _
  | cons b rest ih =>
    rw [List.flatten_cons, List.nodup_append] at h
    rw [renumber, exec_bind (exec_assign (hbelow b List.mem_cons_self) i bs f),
      ih h.2.1 (fun c hc => hbelow c (List.mem_cons_of_mem _ hc))]
    congr! 5 with q
    rw [owner_cons]
    split_ifs with hq
    · -- the qubit is in no other block
      have hnone : Blocks.owner rest q = none :=
        Blocks.owner_eq_none_iff.2 fun hmem => h.2.2 q hq q hmem rfl
      simp [hnone]
    · cases Blocks.owner rest q with
      | none => rfl
      | some j => simp [Nat.add_comm, Nat.add_left_comm]

/-- The table is right again when the empty blocks are gone. -/
theorem exec_closeRound (h : bs.flatten.Nodup) (hbelow : bs.Below n) :
    closeRound.exec (of n bs)
      = some (.ok (bs.filter (!·.isEmpty)), of n (bs.filter (!·.isEmpty))) := by
  have hflat : (bs.filter (!·.isEmpty)).flatten = bs.flatten := List.flatten_filter_not_isEmpty
  have hsame : ∀ q, (Option.map (0 + ·) (Blocks.owner (bs.filter (!·.isEmpty)) q)).or (bs.owner q)
      = Blocks.owner (bs.filter (!·.isEmpty)) q := by
    intro q
    cases hq : Blocks.owner (bs.filter (!·.isEmpty)) q with
    | some i => simp
    | none =>
      rw [Blocks.owner_eq_none_iff, hflat, ← Blocks.owner_eq_none_iff] at hq
      simp [hq]
  have hnodup : (bs.filter (!·.isEmpty)).flatten.Nodup := by rwa [hflat]
  have hbelow' : Blocks.Below n (bs.filter (!·.isEmpty)) := fun b hb =>
    hbelow b (List.mem_of_mem_filter hb)
  have hrenumber := exec_renumber hnodup hbelow' 0 (bs.filter (!·.isEmpty)) bs.owner
  simp only [hsame] at hrenumber
  show ((renumber 0 (bs.filter (!·.isEmpty)) >>= fun _ => pure (bs.filter (!·.isEmpty))) :
    Indexed Ledger Fresh Blocks).exec ⟨bs.filter (!·.isEmpty), (List.range n).map bs.owner⟩ = _
  rw [exec_bind hrenumber]
  rfl

/-- Done in place, the blocks are the same, every number that is used is right, and no pair of
unknown qubits turns up after the first round. -/
theorem exec_connectRounds {ps : List Pair} {rs : Rounds} (h : bs.Spans ps) (hbelow : bs.Below n)
    (hrs : ∀ p ∈ rs.flatten, p.1 < p.2 ∧ p.2 < n)
    (hwaits : ∀ d, ∀ p ∈ rs.getD (d + 1) [], ∃ r ∈ rs.getD d [], r.meets p = true)
    (hseen : depth = 0 ∨ ∀ p ∈ rs.getD 0 [], p.1 ∈ bs.flatten ∨ p.2 ∈ bs.flatten) :
    ∃ s, (connectRounds depth rs).exec (of n bs) = some (.ok (Blocks.after bs rs), s) := by
  induction rs generalizing ps bs depth with
  | nil => exact ⟨_, exec_pure [] _⟩
  | cons r rs ih =>
    rw [List.flatten_cons, List.forall_mem_append] at hrs
    have hr : ∀ p ∈ r, p.1 < n ∧ p.2 < n := fun p hp =>
      ⟨(hrs.1 p hp).1.trans (hrs.1 p hp).2, (hrs.1 p hp).2⟩
    have hne : ∀ p ∈ r, p.1 ≠ p.2 := fun p hp => Nat.ne_of_lt (hrs.1 p hp).1
    have hround := h.connectRound hne
    -- each pair of the next round meets one of this round, whose qubits are known now
    have hknown : ∀ p ∈ rs.getD 0 [],
        p.1 ∈ (bs.connectRound r).flatten ∨ p.2 ∈ (bs.connectRound r).flatten := by
      intro p hp
      obtain ⟨s, hs, hmeets⟩ := hwaits 0 p hp
      obtain ⟨q, hsq, hpq⟩ := Pair.meets_iff.1 hmeets
      have hq : q ∈ (bs.connectRound r).flatten :=
        (hround.mem_iff q).2 ⟨s, List.mem_append_right _ hs, hsq⟩
      rcases Pair.uses_iff.1 hpq with rfl | rfl
      · exact .inl hq
      · exact .inr hq
    obtain ⟨s, hrest⟩ : ∃ s, (connectRounds (depth + 1) rs).exec (of n (bs.connectRound r))
        = some (.ok (Blocks.after (bs.connectRound r) rs), s) :=
      ih hround (hbelow.connectRound hr) hrs.2 (fun d => hwaits (d + 1)) (.inr hknown)
    have hclose : closeRound.exec (of n (r.foldl Blocks.connect bs))
        = some (.ok (bs.connectRound r), of n (bs.connectRound r)) :=
      exec_closeRound (h.foldl_connect hne).nodup (hbelow.foldl_connect hr)
    refine ⟨s, ?_⟩
    rw [connectRounds, exec_bind (exec_connectPairs h.nodup hbelow hrs.1 hseen), exec_bind hclose,
      exec_bind hrest, exec_pure]
    rfl

end Ledger

/-- Let pairs of two different qubits below `n` be scheduled. There are blocks after every round,
and they are the connected components of the graph of all pairs up to that round: no block is empty,
each qubit of these pairs is listed once and no other is, and the block of a qubit holds exactly
what it is connected to. The program that keeps the blocks in place gives the same ones, with no
index that does not exist, and without meeting a pair of two unknown qubits after the first
round. -/
theorem Rounds.blocks_isComponents {n : Nat} {ps : List Pair}
    (hps : ∀ p ∈ ps, p.1 < p.2 ∧ p.2 < n) :
    ∃ rs, ofPairsBelow n ps = .ok rs ∧ rs.blocks.length = rs.length ∧
      (∀ (d : Nat) bs, rs.blocks[d]? = some bs → bs.IsComponents (rs.take (d + 1)).flatten) ∧
      ∃ s, (Ledger.connectRounds 0 rs).exec ⟨[], List.replicate n none⟩
        = some (.ok rs.blocks, s) := by
  have hmem : ∀ p ∈ (ofPairs ps).flatten, p.1 < p.2 ∧ p.2 < n := fun p hp =>
    hps p ((perm_ofPairs ps).mem_iff.1 hp)
  have hbelow : ∀ p ∈ ps, p.1 < n ∧ p.2 < n := fun p hp =>
    ⟨(hps p hp).1.trans (hps p hp).2, (hps p hp).2⟩
  refine ⟨ofPairs ps, ofPairsBelow_eq_ok hbelow, Blocks.length_after [] _, fun d bs hd => ?_, ?_⟩
  · exact Blocks.spans_nil.isComponents_after (fun p hp => Nat.ne_of_lt (hmem p hp).1) hd
  · have hnone : Blocks.owner [] = fun _ => none := rfl
    have hstart : (⟨[], List.replicate n none⟩ : Ledger) = .of n [] := by
      simp [Ledger.of, hnone]
    rw [hstart]
    refine Ledger.exec_connectRounds Blocks.spans_nil (by simp [Blocks.Below]) hmem ?_ (.inl rfl)
    intro d p hp
    obtain ⟨r, hr, hmeets, -⟩ := (packed_ofPairs ps).waits d p hp
    exact ⟨r, hr, hmeets⟩

/-- Three blocks of the first round become one in the second, where two pairs merge them in turn. -/
theorem Rounds.blocks_isComponents_merged :
    (∀ p ∈ [(0, 1), (2, 3), (4, 5), (1, 2), (3, 4)], p.1 < p.2 ∧ p.2 < 6) ∧
      Rounds.blocks [[(0, 1), (2, 3), (4, 5)], [(1, 2), (3, 4)]]
        = [[[0, 1], [2, 3], [4, 5]], [[0, 1, 2, 3, 4, 5]]] ∧
      Blocks.IsComponents [(0, 1), (2, 3), (4, 5), (1, 2), (3, 4)] [[0, 1, 2, 3, 4, 5]] := by
  have hps : ∀ p ∈ [(0, 1), (2, 3), (4, 5), (1, 2), (3, 4)], p.1 < p.2 ∧ p.2 < 6 := by decide
  have hrun : ofPairsBelow 6 [(0, 1), (2, 3), (4, 5), (1, 2), (3, 4)]
      = .ok [[(0, 1), (2, 3), (4, 5)], [(1, 2), (3, 4)]] := by decide
  have hblocks : Rounds.blocks [[(0, 1), (2, 3), (4, 5)], [(1, 2), (3, 4)]]
      = [[[0, 1], [2, 3], [4, 5]], [[0, 1, 2, 3, 4, 5]]] := by decide
  obtain ⟨rs, hrs, -, hcomponents, -⟩ := Rounds.blocks_isComponents hps
  obtain rfl := Except.ok.inj (hrun.symm.trans hrs)
  exact ⟨hps, hblocks, hcomponents 1 _ (by rw [hblocks]; rfl)⟩

end IonTrap
