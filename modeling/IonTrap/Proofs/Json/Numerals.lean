import Mathlib
import IonTrap.Json.Token

/-!
# Reading number literals back

The text of a literal is cut off the front of a longer text as that literal (`Numeral.scan_text`),
if what follows cannot continue a number. The whole part is written without a leading zero, so the
scanner accepts it, and its digits spell it (`Numeral.natOfDigits_decimalDigits`). Digits after the
point are kept as they are, so they must be digits: the literals of doubles have no others
(`Numeral.wellFormed_ofDouble`).
-/

namespace IonTrap

open Double (decimalDigits)
open Json (scanDigits scanFraction scanExponent scanUnsigned)

/-! ## Decimal digits -/

theorem Double.lt_of_mem_decimalDigits {n d : Nat} (h : d ∈ decimalDigits n) : d < 10 := by
  obtain ⟨c, hc, rfl⟩ := List.mem_map.1 h
  have hdigit := Nat.isDigit_of_mem_toDigits (by decide) (by decide) hc
  have hle := (Char.isDigit_iff_toNat.1 hdigit).2
  simp only [Char.reduceToNat] at hle ⊢
  omega

theorem Double.decimalDigits_ne_nil (n : Nat) : decimalDigits n ≠ [] := by
  simp [decimalDigits, Nat.toDigits_ne_nil]

/-- The digits of a number are those of its tens and the ones. -/
theorem Double.decimalDigits_eq (n : Nat) :
    decimalDigits n = if n < 10 then [n] else decimalDigits (n / 10) ++ [n % 10] := by
  have hdigit : ∀ d < 10, (Nat.digitChar d).toNat - '0'.toNat = d := by
    intro d hd
    rw [Nat.toNat_digitChar_of_lt_ten hd]
    simp
  unfold decimalDigits
  rw [Nat.toDigits_eq_if (by decide)]
  split_ifs with hn
  · simp only [List.map_cons, List.map_nil, hdigit n hn]
  · simp only [List.map_append, List.map_cons, List.map_nil, hdigit (n % 10) (by omega)]

/-- No number but zero is written with a leading zero. -/
theorem Double.head_decimalDigits {n : Nat} (hn : 0 < n) : (decimalDigits n).head? ≠ some 0 := by
  induction n using Nat.strong_induction_on with
  | _ n ih =>
    rw [decimalDigits_eq]
    split_ifs with hlt
    · simpa using hn.ne'
    · rw [List.head?_append_of_ne_nil _ (decimalDigits_ne_nil _)]
      exact ih (n / 10) (by omega) (by omega)

theorem Double.decimalDigits_ne_zero_cons (n d : Nat) (ds : List Nat) :
    decimalDigits n ≠ 0 :: d :: ds := by
  intro h
  rcases Nat.eq_zero_or_pos n with rfl | hn
  · rw [decimalDigits_eq, if_pos (by decide)] at h
    simp at h
  · exact head_decimalDigits hn (by simp [h])

namespace Numeral

theorem natOfDigits_decimalDigits (n : Nat) : natOfDigits (decimalDigits n) = n := by
  have hfold : ∀ cs : List Char, natOfDigits (cs.map fun c => c.toNat - '0'.toNat)
      = Nat.ofDigitChars 10 cs 0 := by
    intro cs
    rw [natOfDigits, Nat.ofDigitChars, List.foldl_map]
    simp only [Nat.mul_comm]
  rw [decimalDigits, hfold, Nat.ofDigitChars_toDigits (by decide) (by decide)]

/-! ## Scanning digits -/

/-- A text that does not go on with a digit. -/
def EndsDigits (rest : List Char) : Prop := ∀ c ∈ rest.head?, c.isDigit = false

/-- A text that does not go on with a digit, a point or an exponent. -/
def EndsNumber (rest : List Char) : Prop :=
  ∀ c ∈ rest.head?, c.isDigit = false ∧ c ≠ '.' ∧ c ≠ 'e' ∧ c ≠ 'E'

theorem EndsNumber.endsDigits {rest : List Char} (h : EndsNumber rest) : EndsDigits rest :=
  fun c hc => (h c hc).1

theorem scanDigits_of_ends {rest : List Char} (h : EndsDigits rest) :
    scanDigits rest = ([], rest) := by
  cases rest with
  | nil => rfl
  | cons c rest => rw [scanDigits, h c rfl, if_neg (by simp)]

theorem scanDigits_append {cs rest : List Char} (hcs : ∀ c ∈ cs, c.isDigit = true)
    (h : EndsDigits rest) :
    scanDigits (cs ++ rest) = (cs.map fun c => c.toNat - '0'.toNat, rest) := by
  induction cs with
  | nil => exact scanDigits_of_ends h
  | cons c cs ih =>
    rw [List.cons_append, scanDigits, if_pos (hcs c List.mem_cons_self),
      ih fun d hd => hcs d (List.mem_cons_of_mem _ hd)]
    rfl

theorem scanDigits_toString (n : Nat) {rest : List Char} (h : EndsDigits rest) :
    scanDigits ((toString n).toList ++ rest) = (decimalDigits n, rest) := by
  have hdigits : ∀ c ∈ (toString n).toList, c.isDigit = true := by
    intro c hc
    have hc : c ∈ Nat.toDigits 10 n := by simpa using hc
    exact Nat.isDigit_of_mem_toDigits (by decide) (by decide) hc
  rw [scanDigits_append hdigits h, decimalDigits]
  simp

/-! ## The parts of a literal -/

/-- The text of the digits after the point. -/
def fractionText (ds : List Nat) : String :=
  if ds.isEmpty then "" else "." ++ String.join (ds.map toString)

/-- The text of an exponent, if there is one. -/
def exponentText? (e : Option Int) : String :=
  match e with
  | none => ""
  | some e => exponentText e

theorem text_eq (n : Numeral) :
    n.text = (if n.neg then "-" else "") ++ toString n.whole ++ fractionText n.fraction
      ++ exponentText? n.exponent := rfl

theorem toList_join_digits {ds : List Nat} (hds : ∀ d ∈ ds, d < 10) :
    (String.join (ds.map toString)).toList = ds.map Nat.digitChar := by
  rw [String.toList_join, List.flatMap_map]
  induction ds with
  | nil => rfl
  | cons d ds ih =>
    have hd : (toString d).toList = [Nat.digitChar d] := by
      simp [Nat.toDigits_of_lt_base (hds d List.mem_cons_self)]
    rw [List.flatMap_cons, ih fun x hx => hds x (List.mem_cons_of_mem _ hx), hd]
    rfl

theorem scanDigits_join {ds : List Nat} (hds : ∀ d ∈ ds, d < 10) {rest : List Char}
    (h : EndsDigits rest) :
    scanDigits ((String.join (ds.map toString)).toList ++ rest) = (ds, rest) := by
  rw [toList_join_digits hds, scanDigits_append _ h]
  · have hback : ∀ d ∈ ds, ((fun c : Char => c.toNat - '0'.toNat) ∘ Nat.digitChar) d = id d := by
      intro d hd
      rw [Function.comp_apply, Nat.toNat_digitChar_of_lt_ten (hds d hd)]
      simp
    rw [List.map_map, List.map_congr_left hback, List.map_id]
  · intro c hc
    obtain ⟨d, hd, rfl⟩ := List.mem_map.1 hc
    simpa using hds d hd

theorem scanFraction_append {ds : List Nat} (hds : ∀ d ∈ ds, d < 10) {rest : List Char}
    (h : EndsDigits rest) (hpoint : ∀ c ∈ rest.head?, c ≠ '.') :
    scanFraction ((fractionText ds).toList ++ rest) = some (ds, rest) := by
  unfold fractionText
  cases ds with
  | nil =>
    cases rest with
    | nil => rfl
    | cons c rest =>
      have hc : c ≠ '.' := hpoint c rfl
      simp [scanFraction, hc]
  | cons d ds =>
    have htext : ("." ++ String.join ((d :: ds).map toString)).toList ++ rest
        = '.' :: ((String.join ((d :: ds).map toString)).toList ++ rest) := by
      rw [String.toList_append]
      rfl
    rw [List.isEmpty_cons, if_neg (by simp), htext, scanFraction, scanDigits_join hds h]

theorem scanExponent_append (e : Option Int) {rest : List Char} (h : EndsNumber rest) :
    scanExponent ((exponentText? e).toList ++ rest) = some (e, rest) := by
  cases e with
  | none =>
    cases rest with
    | nil => rfl
    | cons c rest =>
      obtain ⟨-, -, he, hE⟩ := h c rfl
      simp [exponentText?, scanExponent, he, hE]
  | some e =>
    have hdigits := scanDigits_toString e.natAbs h.endsDigits
    have hscan : ∀ neg, Json.scanExponentDigits neg ((toString e.natAbs).toList ++ rest)
        = some (some (if neg then -(e.natAbs : Int) else e.natAbs), rest) := by
      intro neg
      rw [Json.scanExponentDigits, hdigits]
      have hne := Double.decimalDigits_ne_nil e.natAbs
      split
      · next heq => exact absurd (Prod.mk.inj heq).1 hne
      · next heq =>
        obtain ⟨rfl, rfl⟩ := Prod.mk.inj heq
        rw [natOfDigits_decimalDigits]
    have htext : ∀ mark, (mark ++ toString e.natAbs).toList ++ rest
        = mark.toList ++ ((toString e.natAbs).toList ++ rest) := by
      intro mark
      rw [String.toList_append, List.append_assoc]
    rw [exponentText?, exponentText, htext]
    split_ifs with hneg
    · have hback : -(e.natAbs : Int) = e := by omega
      show scanExponent ('e' :: '-' :: ((toString e.natAbs).toList ++ rest)) = some (some e, rest)
      rw [scanExponent, if_pos (by decide), hscan, if_pos rfl, hback]
    · have hback : (e.natAbs : Int) = e := by omega
      show scanExponent ('e' :: '+' :: ((toString e.natAbs).toList ++ rest)) = some (some e, rest)
      rw [scanExponent, if_pos (by decide), hscan, if_neg (by simp), hback]

theorem head?_exponentText? {e : Option Int} {rest : List Char} (h : EndsNumber rest) :
    ∀ c ∈ ((exponentText? e).toList ++ rest).head?, c.isDigit = false ∧ c ≠ '.' := by
  cases e with
  | none =>
    intro c hc
    obtain ⟨hdigit, hpoint, -⟩ := h c (by simpa [exponentText?] using hc)
    exact ⟨hdigit, hpoint⟩
  | some e =>
    intro c hc
    have hmark : c = 'e' := by
      change c ∈ ((exponentText e).toList ++ rest).head? at hc
      unfold exponentText at hc
      split_ifs at hc <;> simpa [eq_comm] using hc
    subst hmark
    decide

theorem endsDigits_fractionText (ds : List Nat) {rest : List Char} (h : EndsDigits rest) :
    EndsDigits ((fractionText ds).toList ++ rest) := by
  unfold fractionText
  cases ds with
  | nil => simpa using h
  | cons d ds =>
    intro c hc
    obtain rfl : c = '.' := by simpa [eq_comm] using hc
    decide

/-! ## Literals -/

/-- The digits after the point are decimal digits. -/
def WellFormed (n : Numeral) : Prop := ∀ d ∈ n.fraction, d < 10

theorem wellFormed_ofNat (n : Nat) : (ofNat n).WellFormed := by
  simp [WellFormed, ofNat]

/-- A literal without its sign is scanned as written. -/
theorem scanUnsigned_append (neg : Bool) (n : Numeral) (hn : n.WellFormed) {rest : List Char}
    (h : EndsNumber rest) :
    scanUnsigned neg ((toString n.whole).toList ++ ((fractionText n.fraction).toList
      ++ ((exponentText? n.exponent).toList ++ rest))) = some ({ n with neg }, rest) := by
  have hexponent := head?_exponentText? (e := n.exponent) h
  have hends : EndsDigits ((exponentText? n.exponent).toList ++ rest) :=
    fun c hc => (hexponent c hc).1
  have hpoint : ∀ c ∈ ((exponentText? n.exponent).toList ++ rest).head?, c ≠ '.' :=
    fun c hc => (hexponent c hc).2
  have hwhole := scanDigits_toString n.whole (endsDigits_fractionText n.fraction hends)
  have hfraction := scanFraction_append hn hends hpoint
  have hlast := scanExponent_append n.exponent h
  rw [scanUnsigned, hwhole]
  -- the digits are some, and not a zero before others
  split
  · next heq => exact absurd (Prod.mk.inj heq).1 (Double.decimalDigits_ne_nil _)
  · next heq => exact absurd (Prod.mk.inj heq).1 (Double.decimalDigits_ne_zero_cons _ _ _)
  · next heq =>
    obtain ⟨rfl, rfl⟩ := Prod.mk.inj heq
    simp only [hfraction, hlast, natOfDigits_decimalDigits]

/-- The first character of a number written out is a digit. -/
theorem exists_toString_eq_cons (n : Nat) :
    ∃ c cs, (toString n).toList = c :: cs ∧ c.isDigit = true := by
  obtain ⟨c, cs, hcons⟩ := List.exists_cons_of_ne_nil (Nat.toDigits_ne_nil (n := n) (b := 10))
  refine ⟨c, cs, by simpa using hcons, ?_⟩
  exact Nat.isDigit_of_mem_toDigits (by decide) (by decide) (hcons ▸ List.mem_cons_self)

/-- A character that starts none of the other tokens starts an unsigned literal. -/
theorem scanToken_digit {c : Char} (hc : c.isDigit = true) (cs : List Char) :
    Json.scanToken c cs = (scanUnsigned false (c :: cs)).map fun r => (.num r.1, r.2) := by
  unfold Json.scanToken
  split
  case h_12 => rfl
  all_goals exact absurd hc (by decide)

/-- The text of a literal is scanned as that literal. -/
theorem scan_text {n : Numeral} (hn : n.WellFormed) {rest : List Char} (h : EndsNumber rest) :
    ∃ c cs, n.text.toList ++ rest = c :: cs ∧ Json.isBlank c = false ∧
      Json.scanToken c cs = some (.num n, rest) := by
  obtain ⟨c, cs, hcons, hdigit⟩ := exists_toString_eq_cons n.whole
  obtain ⟨tail, htail⟩ : ∃ tail, tail = (fractionText n.fraction).toList
      ++ ((exponentText? n.exponent).toList ++ rest) := ⟨_, rfl⟩
  have hscan : ∀ neg, scanUnsigned neg (c :: (cs ++ tail)) = some ({ n with neg }, rest) := by
    intro neg
    rw [← List.cons_append, ← hcons, htail]
    exact scanUnsigned_append neg n hn h
  have htext : n.text.toList ++ rest = (if n.neg then "-" else "").toList ++ c :: (cs ++ tail) := by
    rw [text_eq, htail, ← List.cons_append, ← hcons]
    simp only [String.toList_append, List.append_assoc]
  cases hneg : n.neg with
  | true =>
    refine ⟨'-', c :: (cs ++ tail), by rw [htext, hneg]; rfl, by decide, ?_⟩
    show (scanUnsigned true (c :: (cs ++ tail))).map _ = _
    rw [hscan true, ← hneg]
    rfl
  | false =>
    refine ⟨c, cs ++ tail, by rw [htext, hneg]; rfl, ?_, ?_⟩
    · by_contra hblank
      simp only [Json.isBlank, Bool.not_eq_false, Bool.or_eq_true, beq_iff_eq] at hblank
      rcases hblank with ((rfl | rfl) | rfl) | rfl <;> simp at hdigit
    · rw [scanToken_digit hdigit, hscan false, ← hneg]
      rfl

/-! ## The literals of doubles -/

theorem lt_of_mem_stripZeros {ds : List Nat} (hds : ∀ d ∈ ds, d < 10) :
    ∀ d ∈ Double.stripZeros ds, d < 10 := by
  intro d hd
  rw [Double.stripZeros, List.mem_reverse] at hd
  exact hds d (List.mem_reverse.1 ((List.dropWhile_suffix _).subset hd))

theorem lt_of_mem_shortest {steps d : Nat} (h : d ∈ (Double.shortest steps).digits) : d < 10 := by
  unfold Double.shortest at h
  simp only at h
  cases hfound : (List.range 17).findSome? fun n : Nat =>
      (Double.onGrid steps (Double.leadingExponent steps - (n : Int))).map fun c =>
        Double.Decimal.ofGrid c (Double.leadingExponent steps - (n : Int)) with
  | none =>
    rw [hfound, Option.getD_none, List.mem_singleton] at h
    omega
  | some dec =>
    rw [hfound, Option.getD_some] at h
    obtain ⟨n, -, hn⟩ := List.exists_of_findSome?_eq_some hfound
    obtain ⟨c, -, rfl⟩ := Option.map_eq_some_iff.1 hn
    exact lt_of_mem_stripZeros (fun x hx => Double.lt_of_mem_decimalDigits hx) d h

/-- The literal of a decimal has its digits and zeros after the point. -/
theorem wellFormed_ofDecimal (neg : Bool) {d : Double.Decimal} (hd : ∀ x ∈ d.digits, x < 10) :
    (ofDecimal neg d).WellFormed := by
  unfold ofDecimal WellFormed
  split_ifs with hpos
  · split
    · next e he =>
      show ∀ x ∈ (if (d.digits.drop (e + 1)).isEmpty then [0] else d.digits.drop (e + 1)), x < 10
      split_ifs with hempty
      · simp
      · exact fun x hx => hd x (List.mem_of_mem_drop hx)
    · next e he =>
      intro x hx
      rcases List.mem_append.1 hx with hx | hx
      · rw [(List.mem_replicate.1 hx).2]
        decide
      · exact hd x hx
  · exact fun x hx => hd x (List.mem_of_mem_tail hx)

theorem wellFormed_ofDouble (d : Double) : (ofDouble d).WellFormed := by
  unfold ofDouble
  split_ifs with h
  · intro x hx
    obtain rfl : x = 0 := by simpa using hx
    decide
  · exact wellFormed_ofDecimal _ fun x hx => lt_of_mem_shortest hx

end Numeral

end IonTrap
