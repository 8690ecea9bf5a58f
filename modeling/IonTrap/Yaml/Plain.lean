import IonTrap.Number.Basic
import IonTrap.Yaml.Glyph

/-!
# What plain scalars mean

Unquoted, a text can stand for nothing, a truth value or a number. Whole numbers are decimal without
leading zeros, or have a mark for another base; other numbers are decimal fractions and powers of
ten within the range of doubles.
-/

namespace IonTrap.Yaml

/-- Words for nothing. -/
def nullWords : List String := ["~", "null", "Null", "NULL"]

/-- Words for truth values. -/
def boolWords : List (String × Bool) :=
  [("true", true), ("True", true), ("TRUE", true), ("false", false), ("False", false),
    ("FALSE", false)]

/-! ## Whole numbers -/

/-- A number in a given base, at least one digit. -/
def natInBase? (base : Nat) (cs : List Char) : Option Nat :=
  if cs.isEmpty then none
  else
    cs.foldlM
      (fun n c => (digit? c).bind fun d => if d < base then some (n * base + d) else none) 0

/-- Whether digits start with a zero that a number would not have. -/
def hasLeadingZero (cs : List Char) : Bool :=
  cs.head? == some '0' && 1 < cs.length && cs.all isDigit

/-- A natural number without sign. -/
def magnitude? (cs : List Char) : Option Nat :=
  match cs with
  | '0' :: 'x' :: rest => natInBase? 16 rest
  | '0' :: 'o' :: rest => natInBase? 8 rest
  | '0' :: 'b' :: rest => natInBase? 2 rest
  | _ => if hasLeadingZero cs then none else natInBase? 10 cs

/-- A natural number, possibly after a plus sign. -/
def nat? (cs : List Char) : Option Nat :=
  match cs with
  | '+' :: rest => magnitude? rest
  | _ => magnitude? cs

/-- The number after a minus sign. -/
def negated? (cs : List Char) : Option Nat :=
  match cs with
  | '-' :: rest => magnitude? rest
  | _ => none

/-! ## Fractions -/

/-- Words for the fractions that are no numbers. -/
def fractionWords : List String :=
  [".inf", ".Inf", ".INF", "+.inf", "+.Inf", "+.INF", "-.inf", "-.Inf", "-.INF", ".nan", ".NaN",
    ".NAN"]

/-- Splits off a sign; the flag says whether it is a minus. -/
def splitSign (cs : List Char) : Bool × List Char :=
  match cs with
  | '+' :: rest => (false, rest)
  | '-' :: rest => (true, rest)
  | _ => (false, cs)

/-- A number from digits. -/
def natOfDigits (cs : List Char) : Nat := cs.foldl (fun n c => 10 * n + (c.toNat - '0'.toNat)) 0

/-- The exponent of a power of ten: empty for zero, or a mark, a sign and digits. -/
def exponent? (cs : List Char) : Option Int :=
  match cs with
  | [] => some 0
  | c :: rest =>
    let (negative, digits) := splitSign rest
    if (c == 'e' || c == 'E') && !digits.isEmpty && digits.all isDigit then
      some (if negative then -(natOfDigits digits : Int) else natOfDigits digits)
    else none

/-- The least number beyond the range of doubles: half a step above the greatest one. -/
def doubleLimit : Nat := twoPow 1024 - twoPow 970

/-- Whether `m` times ten to the `e` is in the range of doubles. Far from the limit the number of
digits decides. -/
def inDoubleRange (m : Nat) (e : Int) : Bool :=
  let digits : Int := (Nat.toDigits 10 m).length
  if m == 0 || digits + e ≤ 308 then true
  else if 310 < digits + e then false
  else if 0 ≤ e then m * tenPow e.toNat < doubleLimit
  else m < doubleLimit * tenPow (-e).toNat

/-- Whether a text without sign is a decimal fraction in the range of doubles. -/
def isDecimal (cs : List Char) : Bool :=
  let whole := cs.takeWhile isDigit
  let rest := cs.dropWhile isDigit
  let (part, rest) :=
    match rest with
    | '.' :: rest => (rest.takeWhile isDigit, rest.dropWhile isDigit)
    | _ => ([], rest)
  match exponent? rest with
  | some e =>
    !(whole ++ part).isEmpty && inDoubleRange (natOfDigits (whole ++ part)) (e - part.length)
  | none => false

/-- Whether a text is a fraction. -/
def isFraction (text : String) : Bool :=
  fractionWords.contains text || isDecimal (splitSign text.toList).2

/-! ## Settled values

Data whose kind is not known in advance is settled by what its scalars look like.
-/

/-- A settled value. -/
inductive Settled where
  /-- Nothing. -/
  | nothing
  /-- A truth value. -/
  | bool (b : Bool)
  /-- A natural number of 64 bits. -/
  | nat (n : Nat)
  /-- A whole number written with a minus sign, without the sign. -/
  | negated (n : Nat)
  /-- A fraction. -/
  | fraction
  /-- A text. -/
  | text (s : String)
  /-- A list. -/
  | list (items : List Settled)
  /-- A mapping. -/
  | map (entries : List (Settled × Settled))
deriving Repr

namespace Settled

/-- A whole number of 64 bits, with the sign among them if there is one. The inner value is missing
if the number has more bits, up to 128. -/
def whole? (text : String) : Option (Option Settled) :=
  match nat? text.toList, negated? text.toList with
  | some n, _ =>
    if n < twoPow 64 then some (some (.nat n)) else if n < twoPow 128 then some none else none
  | none, some n =>
    if n ≤ twoPow 63 then some (some (.negated n)) else if n ≤ twoPow 127 then some none else none
  | none, none => none

/-- What an unquoted text means. A whole number of too many bits means nothing at all. -/
def ofPlain? (text : String) : Option Settled :=
  if text.isEmpty || nullWords.contains text then some .nothing
  else
    match boolWords.lookup text, whole? text with
    | some b, _ => some (.bool b)
    | none, some v => v
    | none, none =>
      let digits := (splitSign text.toList).2
      some (if !hasLeadingZero digits && isFraction text then .fraction else .text text)

/-- A natural number of 64 bits. -/
def word64? : Settled → Option Nat
  | .nat n => some n
  | .negated 0 => some 0
  | _ => none

/-- A list, each item read by `read`. -/
def list? {α : Type} (read : Settled → Option α) : Settled → Option (List α)
  | .list items => items.mapM read
  | _ => none

end Settled

end IonTrap.Yaml
