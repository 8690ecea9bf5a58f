import IonTrap.Json.Parse
import IonTrap.Json.Decode
import IonTrap.Proofs.Json.Tokens

/-!
# Reading printed values back

The machine that reads tokens turns the tokens of a value into that value, in whatever frames it
stands (`Json.runs_tokens`). With the cutting of printed text this makes reading a left inverse of
printing (`Json.parse_pretty`).
-/

namespace IonTrap.Json

/-- Reading what was written gives back every element. -/
theorem mapM_map_eq_some {α β : Type} {write : α → β} {read : β → Option α} {xs : List α}
    (h : ∀ x ∈ xs, read (write x) = some x) : (xs.map write).mapM read = some xs := by
  induction xs with
  | nil => rfl
  | cons x xs ih =>
    rw [List.map_cons, List.mapM_cons, h x List.mem_cons_self,
      ih fun y hy => h y (List.mem_cons_of_mem _ hy)]
    rfl

theorem ofFields_keyed (fs : List (String × Json)) :
    ofFields (fs.map fun f => (some f.1, f.2)) = .obj fs := by
  have hread : (fs.map fun f => (some f.1, f.2)).mapM
      (fun f : Option String × Json => f.1.map (·, f.2)) = some fs :=
    mapM_map_eq_some fun f _ => rfl
  unfold ofFields
  rw [hread]

/-! ## The machine -/

/-- The machine goes from `r` to `r'` over the tokens `ts`. -/
def Reading.Runs (r : Reading) (ts : List Token) (r' : Reading) : Prop :=
  ts.foldlM Reading.step r = some r'

namespace Reading.Runs

variable {r r' r'' : Reading} {ts us : List Token} {t : Token}

theorem append (h : r.Runs ts r') (h' : r'.Runs us r'') : r.Runs (ts ++ us) r'' := by
  unfold Runs at *
  rw [List.foldlM_append, h]
  exact h'

theorem cons (h : r.step t = some r') (h' : r'.Runs us r'') : r.Runs (t :: us) r'' := by
  unfold Runs at *
  rw [List.foldlM_cons, h]
  exact h'

theorem single (h : r.step t = some r') : r.Runs [t] r' := cons h rfl

end Reading.Runs

theorem step_firstElement {t : Token} (ht : t ≠ .closeArray) (frames : List Frame) :
    Reading.step ⟨frames, .firstElement⟩ t = Reading.step ⟨frames, .value⟩ t := by
  show _ = startValue frames t
  unfold Reading.step
  split <;> simp_all

/-- A value does not start with the end of an array. -/
theorem exists_tokens_eq_cons (j : Json) : ∃ t ts, j.tokens = t :: ts ∧ t ≠ .closeArray := by
  match j with
  | .null | .bool _ | .num _ | .str _ | .garbled => exact ⟨_, [], by rw [tokens], by simp⟩
  | .arr [] | .arr (_ :: _) | .obj [] | .obj ((_, _) :: _) =>
    exact ⟨_, _, by rw [tokens], by simp⟩

/-- The first element of an array is read like any other value. -/
theorem Reading.Runs.firstElement {j : Json} {frames : List Frame} {r : Reading}
    (h : Reading.Runs ⟨frames, .value⟩ j.tokens r) :
    Reading.Runs ⟨frames, .firstElement⟩ j.tokens r := by
  obtain ⟨t, ts, heq, ht⟩ := exists_tokens_eq_cons j
  unfold Reading.Runs at *
  rw [heq, List.foldlM_cons] at h ⊢
  rwa [step_firstElement ht]

mutual

/-- The tokens of a value are read as that value. -/
theorem runs_tokens (j : Json) (frames : List Frame) :
    Reading.Runs ⟨frames, .value⟩ j.tokens ⟨frames, .next j⟩ := by
  match j with
  | .null | .bool _ | .num _ | .str _ | .garbled => exact .single rfl
  | .arr [] => exact .cons rfl (.single rfl)
  | .arr (e :: es) =>
    rw [tokens, List.append_assoc]
    exact .cons rfl ((runs_tokens e _).firstElement.append (runs_elements es [] e frames))
  | .obj [] => exact .cons rfl (.single rfl)
  | .obj ((k, v) :: fs) =>
    rw [tokens, List.append_assoc]
    have hfields := (runs_tokens v _).append (runs_fields fs [] k v frames)
    exact .cons rfl (.cons rfl (.cons rfl hfields))

/-- The elements after `v` complete the array. -/
theorem runs_elements (es done : List Json) (v : Json) (frames : List Frame) :
    Reading.Runs ⟨.array done :: frames, .next v⟩ (tokensElements es ++ [.closeArray])
      ⟨frames, .next (.arr (done.reverse ++ v :: es))⟩ := by
  match es with
  | [] =>
    have hstep : (⟨.array done :: frames, .next v⟩ : Reading).step .closeArray
        = some ⟨frames, .next (.arr (v :: done).reverse)⟩ := rfl
    rw [List.reverse_cons] at hstep
    exact .single hstep
  | e :: es =>
    have hrest := runs_elements es (v :: done) e frames
    rw [List.reverse_cons, List.append_assoc] at hrest
    rw [tokensElements, List.cons_append, List.append_assoc]
    exact .cons rfl ((runs_tokens e _).append hrest)

/-- The fields after the one called `k` complete the object. -/
theorem runs_fields (fs done : List (String × Json)) (k : String) (v : Json)
    (frames : List Frame) :
    Reading.Runs ⟨.object (done.map fun f => (some f.1, f.2)) (some k) :: frames, .next v⟩
      (tokensFields fs ++ [.closeObject])
      ⟨frames, .next (.obj (done.reverse ++ (k, v) :: fs))⟩ := by
  match fs with
  | [] =>
    have hkeys := ofFields_keyed ((k, v) :: done).reverse
    rw [List.map_reverse, List.reverse_cons] at hkeys
    exact .single (congrArg (fun j => some (⟨frames, .next j⟩ : Reading)) hkeys)
  | (k', v') :: fs =>
    have hrest := runs_fields fs ((k, v) :: done) k' v' frames
    rw [List.reverse_cons, List.append_assoc] at hrest
    rw [tokensFields, List.cons_append, List.cons_append, List.cons_append, List.append_assoc]
    exact .cons rfl (.cons rfl (.cons rfl ((runs_tokens v' _).append hrest)))

end

theorem ofTokens?_tokens (j : Json) : ofTokens? j.tokens = some j := by
  have hruns : j.tokens.foldlM Reading.step ⟨[], .value⟩ = some ⟨[], .next j⟩ := runs_tokens j []
  rw [ofTokens?, hruns]
  rfl

/-- Printing a value and reading the text gives back the value. -/
theorem parse_pretty {j : Json} (hj : j.WellFormed) : parse j.pretty = some j := by
  have hend : Numeral.EndsNumber [] := by simp [Numeral.EndsNumber]
  have hcut := cuts_prettyAt 0 j hj hend
  rw [Cuts, List.append_nil, tokenize, Option.map_some, List.append_nil] at hcut
  rw [parse, pretty, hcut]
  exact ofTokens?_tokens j

end IonTrap.Json
