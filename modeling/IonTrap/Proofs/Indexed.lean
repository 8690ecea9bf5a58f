import IonTrap.Proofs.Outcome

/-!
# Programs on indexed tables

The functions of this library take a state to a state, and where they look up a table they have a
default for an index that the table does not have. A program of type `Indexed σ ε` works on one
state in place: it reads and writes tables of `σ` entry by entry. An error keeps what was written
before it, and an index out of range leaves no outcome at all. So a function that agrees with such a
program never uses one of its defaults, and if it fails, nothing was written yet
(`Indexed.allOrNothing`).

The `exec` lemmas run a program step by step.
-/

namespace IonTrap

/-- Programs on a state `σ` that may stop with an error `ε` or at an index out of range. -/
abbrev Indexed (σ ε : Type) := ExceptT ε (StateT σ Option)

namespace Indexed

variable {σ ε ε' α β : Type}

/-- The outcome of a program and the state it leaves, if all indices were in range. -/
def exec (x : Indexed σ ε α) (s : σ) : Option (Except ε α × σ) := x.run.run s

/-- What a step in place makes of a state when the function beside it gives the next state, or an
error: then the state is left as it was. -/
def allOrNothing (s : σ) : Except ε σ → Except ε Unit × σ
  | .ok s' => (.ok (), s')
  | .error e => (.error e, s)

/-! ## Running programs -/

theorem exec_pure (x : α) (s : σ) : (pure x : Indexed σ ε α).exec s = some (.ok x, s) := rfl

theorem exec_throw (e : ε) (s : σ) : (throw e : Indexed σ ε α).exec s = some (.error e, s) := rfl

theorem exec_get (s : σ) : (get : Indexed σ ε σ).exec s = some (.ok s, s) := rfl

theorem exec_bind_eq (x : Indexed σ ε α) (f : α → Indexed σ ε β) (s : σ) :
    (x >>= f).exec s = (x.exec s).bind fun r =>
      match r.1 with
      | .ok a => (f a).exec r.2
      | .error e => some (.error e, r.2) := by
  show (x.run.run s).bind _ = (x.run.run s).bind _
  congr 1
  funext r
  obtain ⟨o, s'⟩ := r
  cases o <;> rfl

theorem exec_bind {x : Indexed σ ε α} {s s' : σ} {a : α} (h : x.exec s = some (.ok a, s'))
    (f : α → Indexed σ ε β) : (x >>= f).exec s = (f a).exec s' := by
  rw [exec_bind_eq, h]
  rfl

theorem exec_bind_error {x : Indexed σ ε α} {s s' : σ} {e : ε} (h : x.exec s = some (.error e, s'))
    (f : α → Indexed σ ε β) : (x >>= f).exec s = some (.error e, s') := by
  rw [exec_bind_eq, h]
  rfl

/-- A program that only reads, followed by another one. -/
theorem exec_bind_reads {x : Indexed σ ε α} {f : α → Indexed σ ε β} {s : σ} {r : Except ε α}
    {k : α → Except ε β} (hx : x.exec s = some (r, s))
    (hf : ∀ a, r = .ok a → (f a).exec s = some (k a, s)) :
    (x >>= f).exec s = some (r >>= k, s) := by
  cases r with
  | ok a => rw [exec_bind hx, hf a rfl, ok_bind]
  | error e => rw [exec_bind_error hx, error_bind]

/-- Reports errors differently. -/
def mapError (g : ε → ε') (x : Indexed σ ε α) : Indexed σ ε' α := ExceptT.adapt g x

theorem exec_mapError {x : Indexed σ ε α} {s s' : σ} {o : Except ε α} (h : x.exec s = some (o, s'))
    (g : ε → ε') : (x.mapError g).exec s = some (o.mapError g, s') := by
  show (x.exec s).bind (fun r => some (r.1.mapError g, r.2)) = _
  rw [h]
  rfl

/-! ## Programs beside functions -/

/-- Run on `s`, the program ends as the function beside it, which gives `r`: in the state that
stands for its result, or with its error. -/
def ComesTo (x : Indexed σ ε Unit) (s : σ) (state : α → σ) : Except ε α → Prop
  | .ok a => x.exec s = some (.ok (), state a)
  | .error e => ∃ s', x.exec s = some (.error e, s')

theorem comesTo_of_allOrNothing {x : Indexed σ ε Unit} {s : σ} {r : Except ε σ}
    (h : x.exec s = some (allOrNothing s r)) : x.ComesTo s id r := by
  cases r with
  | ok s' => exact h
  | error e => exact ⟨s, h⟩

theorem comesTo_throw (e : ε) (s : σ) (state : α → σ) :
    (throw e : Indexed σ ε Unit).ComesTo s state (.error e) := ⟨s, exec_throw e s⟩

/-- A step that the function beside the program does not have. -/
theorem comesTo_bind {x : Indexed σ ε β} {s s' : σ} {b : β} (h : x.exec s = some (.ok b, s'))
    (f : β → Indexed σ ε Unit) (state : α → σ) (r : Except ε α) :
    (x >>= f).ComesTo s state r ↔ (f b).ComesTo s' state r := by
  cases r with
  | ok a => rw [ComesTo, ComesTo, exec_bind h]
  | error e => simp only [ComesTo, exec_bind h]

theorem ComesTo.bind {x : Indexed σ ε Unit} {f : Unit → Indexed σ ε Unit} {s : σ}
    {first : α → σ} {state : β → σ} {r : Except ε α} {k : α → Except ε β}
    (hx : x.ComesTo s first r) (hf : ∀ a, r = .ok a → (f ()).ComesTo (first a) state (k a)) :
    (x >>= f).ComesTo s state (r >>= k) := by
  cases r with
  | ok a =>
    rw [ok_bind, comesTo_bind hx]
    exact hf a rfl
  | error e =>
    obtain ⟨s', hs'⟩ := hx
    exact ⟨s', exec_bind_error hs' f⟩

theorem ComesTo.mapError {x : Indexed σ ε Unit} {s : σ} {state : α → σ} {r : Except ε α}
    (h : x.ComesTo s state r) (g : ε → ε') : (x.mapError g).ComesTo s state (r.mapError g) := by
  cases r with
  | ok a => exact exec_mapError h g
  | error e =>
    obtain ⟨s', hs'⟩ := h
    exact ⟨s', exec_mapError hs' g⟩

/-- Runs a program on a fresh state and gives the state that it leaves. -/
def startOn (x : Indexed σ ε Unit) (s : σ) : ExceptT ε Option σ :=
  ExceptT.mk ((x.exec s).map fun r => r.1.map fun _ => r.2)

theorem ComesTo.run_startOn {x : Indexed σ ε Unit} {s : σ} {state : α → σ} {r : Except ε α}
    (h : x.ComesTo s state r) : (x.startOn s).run = some (r.map state) := by
  show (x.exec s).map _ = _
  cases r with
  | ok a =>
    have h : x.exec s = some (.ok (), state a) := h
    rw [h]
    rfl
  | error e =>
    obtain ⟨s', hs'⟩ := h
    rw [hs']
    rfl

/-- The state that a program leaves if it runs to its end. -/
def leaves (x : Indexed σ ε Unit) (s : σ) : Except Unit σ :=
  match x.exec s with
  | some (.ok (), s') => .ok s'
  | _ => .error ()

theorem leaves_eq_ok {x : Indexed σ ε Unit} {s s' : σ} (h : x.exec s = some (.ok (), s')) :
    x.leaves s = .ok s' := by
  rw [leaves, h]

theorem run_adapt {x : ExceptT ε Option α} {r : Except ε α} (h : x.run = some r) (g : ε → ε') :
    (ExceptT.adapt g x).run = some (r.mapError g) := by
  show x.run.map (Except.mapError g) = _
  rw [h]
  rfl

/-- Programs that have an outcome can be run one after the other. -/
theorem run_bind_eq_some {x : ExceptT ε Option α} {f : α → ExceptT ε Option β} {r : Except ε α}
    {k : α → Except ε β} (hx : x.run = some r) (hf : ∀ a, r = .ok a → (f a).run = some (k a)) :
    (x >>= f).run = some (r >>= k) := by
  rw [ExceptT.run_bind, hx]
  cases r with
  | ok a => exact hf a rfl
  | error e => rfl

/-! ## Tables -/

/-- Stops at an index out of range. -/
def outOfRange : Indexed σ ε α := ExceptT.lift fun _ => none

/-- Looks up a list. -/
def entry (xs : List α) (i : Nat) : Indexed σ ε α :=
  match xs[i]? with
  | some x => pure x
  | none => outOfRange

theorem exec_entry {xs : List α} {i : Nat} {x : α} (h : xs[i]? = some x) (s : σ) :
    (entry xs i : Indexed σ ε α).exec s = some (.ok x, s) := by
  rw [entry, h]
  exact exec_pure x s

/-- In range the lookup gives what the one with a default gives. -/
theorem exec_entry_getD {xs : List α} {i : Nat} (h : i < xs.length) (default : α) (s : σ) :
    (entry xs i : Indexed σ ε α).exec s = some (.ok (xs.getD i default), s) := by
  apply exec_entry
  rw [List.getD_eq_getElem _ _ h, List.getElem?_eq_getElem h]

theorem exec_entry_toList {xs : Array α} {i : Nat} (h : i < xs.size) (default : α) (s : σ) :
    (entry xs.toList i : Indexed σ ε α).exec s = some (.ok (xs.getD i default), s) := by
  rw [exec_entry_getD (by simpa using h) default, List.getD_eq_getElem?_getD,
    Array.getElem?_toList, Array.getD_eq_getD_getElem?]

/-- A table of all numbers below `n` with an entry overwritten. -/
theorem map_range_set (n : Nat) (f : Nat → α) (i : Nat) (x : α) :
    ((List.range n).map f).set i x = (List.range n).map (Function.update f i x) := by
  refine List.ext_getElem (by simp) fun j hj hj' => ?_
  rw [List.getElem_set, List.getElem_map, List.getElem_map, List.getElem_range,
    Function.update_apply]
  simp only [eq_comm]

theorem map_range_modify (n : Nat) (f : Nat → α) (i : Nat) (g : α → α) :
    ((List.range n).map f).modify i g = (List.range n).map (Function.update f i (g (f i))) := by
  refine List.ext_getElem (by simp) fun j hj hj' => ?_
  rw [List.getElem_modify, List.getElem_map, List.getElem_map, List.getElem_range,
    Function.update_apply]
  grind

/-- A table of the state. -/
structure Table (σ α : Type) where
  read : σ → List α
  write : List α → σ → σ

namespace Table

variable (T : Table σ α) {s : σ} {i : Nat}

/-- Reads an entry. -/
def get (i : Nat) : Indexed σ ε α := do
  let s ← MonadState.get
  entry (T.read s) i

/-- Changes an entry. -/
def modify (i : Nat) (f : α → α) : Indexed σ ε Unit := do
  let _ ← T.get i
  MonadState.modifyGet fun s => ((), T.write ((T.read s).modify i f) s)

/-- Overwrites an entry. -/
def set (i : Nat) (x : α) : Indexed σ ε Unit := do
  let _ ← T.get i
  MonadState.modifyGet fun s => ((), T.write ((T.read s).set i x) s)

theorem exec_get (h : i < (T.read s).length) (default : α) :
    (T.get i : Indexed σ ε α).exec s = some (.ok ((T.read s).getD i default), s) := by
  rw [get, exec_bind (Indexed.exec_get s), exec_entry_getD h]

theorem exec_modify (h : i < (T.read s).length) (f : α → α) :
    (T.modify i f : Indexed σ ε Unit).exec s
      = some (.ok (), T.write ((T.read s).modify i f) s) := by
  have hget := T.exec_get (ε := ε) h ((T.read s).get ⟨i, h⟩)
  rw [modify, exec_bind hget]
  rfl

theorem exec_set (h : i < (T.read s).length) (x : α) :
    (T.set i x : Indexed σ ε Unit).exec s = some (.ok (), T.write ((T.read s).set i x) s) := by
  have hget := T.exec_get (ε := ε) h x
  rw [set, exec_bind hget]
  rfl

/-- A table that is kept as an array. -/
def ofArray (read : σ → Array α) (write : Array α → σ → σ) : Table σ α where
  read s := (read s).toList
  write xs s := write xs.toArray s

variable {read : σ → Array α} {write : Array α → σ → σ}

theorem exec_get_ofArray (h : i < (read s).size) (default : α) :
    ((ofArray read write).get i : Indexed σ ε α).exec s
      = some (.ok ((read s).getD i default), s) := exec_entry_toList h default s

theorem exec_set_ofArray (h : i < (read s).size) (x : α) :
    ((ofArray read write).set i x : Indexed σ ε Unit).exec s
      = some (.ok (), write ((read s).setIfInBounds i x) s) := by
  have hset : ((read s).toList.set i x).toArray = (read s).setIfInBounds i x := by
    rw [← Array.toList_setIfInBounds, Array.toArray_toList]
  have hexec := (ofArray read write).exec_set (ε := ε) (s := s) (i := i) (by simpa [ofArray]) x
  rw [hexec, ← hset]
  rfl

end Table

end Indexed

end IonTrap
