import IonTrap.Number.Shortest

/-!
# Number literals

A literal is kept as it is written: sign, whole part, digits after the point, exponent. Reading it
as a natural number or as a double, and writing a double, are separate steps.
-/

namespace IonTrap

/-- A number literal. -/
structure Numeral where
  /-- Whether a minus sign stands in front. -/
  neg : Bool
  /-- The part before the point. -/
  whole : Nat
  /-- The digits after the point; none when there is no point. -/
  fraction : List Nat
  /-- The exponent, if one is written. -/
  exponent : Option Int
deriving DecidableEq, Repr

namespace Numeral

/-- The literal of a natural number. -/
def ofNat (n : Nat) : Numeral := ⟨false, n, [], none⟩

/-! ## Reading -/

/-- The value of an unsigned literal without point and exponent. Any other spelling of a whole
number, `-0` included, is no natural number. -/
def toNat? (n : Numeral) : Option Nat :=
  if !n.neg && n.fraction.isEmpty && n.exponent.isNone then some n.whole else none

/-- The value of a natural-number literal below `bound`. -/
def natBelow? (bound : Nat) (n : Numeral) : Option Nat := n.toNat?.filter (· < bound)

/-- Significands are collected in words of 64 bits. -/
def wordLimit : Nat := 18446744073709551616

/-- The leading digits of `w` that fit a word, and the number of digits left out. -/
def leadingDigits (w : Nat) : Nat × Nat :=
  if w < wordLimit then (w, 0)
  else
    let (s, dropped) := leadingDigits (w / 10)
    (s, dropped + 1)
termination_by w
decreasing_by simp only [wordLimit] at *; omega

/-- Appends digits to a significand as long as it fits a word; the exponent falls with each. -/
def appendDigits (s : Nat) (e : Int) : List Nat → Nat × Int
  | [] => (s, e)
  | d :: ds => if s * 10 + d < wordLimit then appendDigits (s * 10 + d) (e - 1) ds else (s, e)

/-- The double a literal stands for: the digits that fit a word, scaled by a power of ten. `none`
when the value is infinite. -/
def toDouble? (n : Numeral) : Option Double :=
  let (s, dropped) := leadingDigits n.whole
  let (s, e) := appendDigits s dropped n.fraction
  Double.ofDecimal n.neg s (e + n.exponent.getD 0)

/-! ## Writing -/

/-- The number that a list of decimal digits spells. -/
def natOfDigits (ds : List Nat) : Nat := ds.foldl (fun n d => n * 10 + d) 0

/-- Powers of ten of the leading digit that are written without an exponent. -/
def positional (e : Int) : Bool := -5 ≤ e && e ≤ 15

/-- The literal of a decimal. Positional notation always has a digit after the point; otherwise one
digit stands before the point and the exponent follows. -/
def ofDecimal (neg : Bool) (d : Double.Decimal) : Numeral :=
  if positional d.exponent then
    match d.exponent with
    | .ofNat e =>
      let rest := d.digits.drop (e + 1)
      { neg
        whole := natOfDigits (d.digits.take (e + 1) ++ List.replicate (e + 1 - d.digits.length) 0)
        fraction := if rest.isEmpty then [0] else rest
        exponent := none }
    | .negSucc e => ⟨neg, 0, List.replicate e 0 ++ d.digits, none⟩
  else ⟨neg, d.digits.headD 0, d.digits.tail, some d.exponent⟩

/-- The literal of a double: its shortest decimal. -/
def ofDouble (d : Double) : Numeral :=
  if d.steps = 0 then ⟨d.neg, 0, [0], none⟩ else ofDecimal d.neg (Double.shortest d.steps)

/-- Text of an exponent, its sign always written. -/
def exponentText (e : Int) : String :=
  (if e < 0 then "e-" else "e+") ++ toString e.natAbs

/-- Text of a literal. -/
def text (n : Numeral) : String :=
  (if n.neg then "-" else "") ++ toString n.whole
    ++ (if n.fraction.isEmpty then "" else "." ++ String.join (n.fraction.map toString))
    ++ (match n.exponent with | none => "" | some e => exponentText e)

end Numeral

end IonTrap
