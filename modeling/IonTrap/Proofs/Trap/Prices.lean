import IonTrap.Proofs.Trap.Consistent
import IonTrap.Trap.Cost

/-!
# When a move has a price

On a connected trap a move has a price as soon as every zone outside its source has room for the
qubits (`CostModel.exists_fromPort`). So the price of moving one qubit exists wherever each zone
keeps a spot free.
-/

namespace IonTrap

/-- Every zone outside `source` has room for `n` passing qubits. -/
def Trap.Passing (t : Trap) (source n : Nat) : Prop :=
  ∀ w < t.arch.numZones, w ≠ source → n ≤ t.freeSpace w

/-- The first two and the last two zones of a path with at least one hop are joined. -/
theorem Architecture.ShortestWay.exists_ends {a : Architecture} {x y : Nat} {p : List Nat}
    (h : a.ShortestWay x y p) (hne : x ≠ y) :
    ∃ w rest y₀ back, p = x :: w :: rest ∧ a.Joined x w ∧ p.reverse = y :: y₀ :: back ∧
      a.Joined y₀ y := by
  obtain ⟨tail, rfl⟩ := h.eq_cons
  cases tail with
  | nil => exact absurd (by simpa using h.last) hne
  | cons w rest =>
    have hrev : (x :: w :: rest).reverse.head? = some y := by
      rw [List.head?_reverse]
      exact h.last
    match hback : (x :: w :: rest).reverse with
    | [] => simp at hback
    | [_] =>
      have := congrArg List.length hback
      simp at this
    | y₁ :: y₀ :: back =>
      obtain rfl : y₁ = y := by simpa [hback] using hrev
      have hpath : x :: w :: rest = back.reverse ++ [y₀, y₁] := by
        rw [← List.reverse_reverse (x :: w :: rest), hback]
        simp
      have hchain := h.chain
      have hlast := hchain
      rw [hpath, List.isChain_append] at hlast
      exact ⟨w, rest, y₀, back, rfl, (List.isChain_cons_cons.1 hchain).1, rfl,
        (List.isChain_cons_cons.1 hlast.2.1).1⟩

namespace CostModel

theorem cheaper_eq_none_iff {x y : Option MoveCost} : cheaper x y = none ↔ x = none ∧ y = none := by
  cases x <;> cases y <;> simp only [cheaper, reduceCtorEq, and_self, and_false, false_and]
  split <;> simp

variable {t : Trap} (h : t.Consistent) (hlegal : t.arch.Legal) (hconn : t.arch.Connected)
include h hlegal hconn

omit h hconn in
/-- If the zones away from the source let qubits pass, so do those on a path from it. -/
theorem room_of_passing {source target n : Nat} (hs : source < t.arch.numZones)
    (hpass : t.Passing source n) {zones : List Nat}
    (hway : t.arch.ShortestWay source target zones) :
    ∀ y ∈ zones.tail, y < t.arch.numZones ∧ n ≤ t.freeSpace y := by
  intro y hy
  obtain ⟨tail, rfl⟩ := hway.eq_cons
  obtain ⟨k, hk⟩ := List.getElem?_of_mem (List.mem_of_mem_tail hy)
  have hlt := hlegal.walk_lt hs (hway.levels k y hk).walk
  refine ⟨hlt, hpass y hlt ?_⟩
  rintro rfl
  exact (List.nodup_cons.1 hway.nodup).1 hy

/-- Through one of the ports a move has a price. -/
theorem exists_fromPort (m : CostModel) {source target n : Nat} (hs : source < t.arch.numZones)
    (ht : target < t.arch.numZones) (hne : source ≠ target) (hpass : t.Passing source n) :
    ∃ port, ∀ qs : List Nat, qs.length = n →
      ∃ c, m.fromPort t qs source target port = some c := by
  obtain ⟨zones, hzones⟩ := hlegal.exists_shortestPath hconn hs ht
  have hway := hlegal.shortestPath_spec hs hzones
  have hroom := room_of_passing hlegal hs hpass hway
  cases m with
  | shuttleSwap =>
    -- the way through the ports that follows the shortest path
    have hfree : ∀ z ∈ zones.tail.dropLast, ∃ e, t.ports.edges[z]? = some e ∧ n ≤ e.free := by
      intro z hz
      obtain ⟨hlt, hle⟩ := hroom z (List.mem_of_mem_dropLast hz)
      obtain ⟨e, he, hfree⟩ := h.exists_edge hlt
      exact ⟨e, he, hfree ▸ hle⟩
    obtain ⟨port, p, hp⟩ := hlegal.exists_path h.connections_ports hne hs
      (Nat.le_of_eq h.numZones_ports.symm) hway hfree
    refine ⟨port, fun qs hqs => ⟨t.price qs source port p, ?_⟩⟩
    rw [fromPort, hqs, hp, Option.map_some]
  | shuttleOnly =>
    -- the shortest path itself, whichever port is asked for
    refine ⟨.p0, fun qs hqs => ?_⟩
    obtain ⟨w, rest, y₀, back, hpath, hfirst, hrev, hlast⟩ := hway.exists_ends hne
    obtain ⟨exit, arrival, hlink⟩ := hfirst
    obtain ⟨exit', arrival', hlink'⟩ := hlast
    have hcap : ¬ ((zones.tail.map t.freeSpace).min?.any (· < qs.length)) = true := by
      rw [hqs]
      cases hmin : (zones.tail.map t.freeSpace).min? with
      | none => simp
      | some k =>
        obtain ⟨y, hy, rfl⟩ := List.mem_map.1 (List.min?_eq_some_iff.1 hmin).1
        simpa using (hroom y hy).2
    have hshuttle : t.shuttlePath source target
        = some ⟨zones.length - 1, zones, (zones.tail.map t.freeSpace).min?⟩ := by
      rw [Trap.shuttlePath, hzones, Option.map_some]
    refine ⟨⟨zones, zones.length - 1, exit, arrival'⟩, ?_⟩
    simp only [fromPort, hshuttle, Option.bind_eq_bind, Option.bind_some, hcap]
    rw [hrev]
    simp only [hpath, hlegal.connectionPorts_eq_ok_iff.2 hlink,
      hlegal.connectionPorts_eq_ok_iff.2 hlink', Except.toOption, Option.bind_some]
    rfl

omit h hconn in
/-- Staying has a price. -/
theorem exists_fromPort_self (m : CostModel) {z : Nat} (hz : z < t.arch.numZones)
    (qs : List Nat) (port : Port) : ∃ c, m.fromPort t qs z z port = some c := by
  cases m with
  | shuttleSwap => exact ⟨_, by rw [fromPort, PortGraph.path, if_pos rfl, Option.map_some]⟩
  | shuttleOnly =>
    have hself : t.arch.shortestPath z z = some [z] := by
      have hd : t.arch.distance z z = some 0 :=
        (hlegal.distance_eq_some_iff hz).2 (Architecture.atDistance_zero_iff.2 rfl)
      rw [Architecture.shortestPath, hd]
      rfl
    have hshuttle : t.shuttlePath z z = some ⟨0, [z], none⟩ := by
      rw [Trap.shuttlePath, hself]
      rfl
    exact ⟨⟨[z], 0, port, port⟩, by simp [fromPort, hshuttle]⟩

/-- Where every zone keeps a spot free, any qubit can be sent anywhere. -/
theorem exists_single (m : CostModel) {source target : Nat} (q : Nat)
    (hs : source < t.arch.numZones) (ht : target < t.arch.numZones) (hpass : t.Passing source 1) :
    ∃ c, m.single t q source target = some c := by
  obtain ⟨port, c, hc⟩ : ∃ port c, m.fromPort t [q] source target port = some c := by
    by_cases hne : source = target
    · subst hne
      exact ⟨.p0, exists_fromPort_self hlegal m hs [q] .p0⟩
    · obtain ⟨port, hport⟩ := exists_fromPort h hlegal hconn m hs ht hne hpass
      exact ⟨port, hport [q] rfl⟩
  -- one of the two prices is there, so the cheaper of them is
  have hbest : m.best t [q] source target ≠ none := by
    rw [best, ne_eq, cheaper_eq_none_iff]
    rintro ⟨h₀, h₁⟩
    cases port with
    | p0 => simp [hc] at h₀
    | p1 => simp [hc] at h₁
  obtain ⟨c', hc'⟩ := Option.ne_none_iff_exists'.1 hbest
  exact ⟨c'.cost, by rw [single, hc', Option.map_some]⟩

end CostModel

end IonTrap
