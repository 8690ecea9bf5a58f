import IonTrap.Json.Numeral

/-!
# JSON values

Objects keep the order of their fields and repeated keys, and numbers keep their spelling, because
readers of data decide on both.

A text can be well formed and still hold a string that is no sequence of characters: one with an
unpaired surrogate escape. Such a string has no value, and neither has an object with such a key.
Both are `garbled`; nothing reads them, but a reader that skips a field skips them too.
-/

namespace IonTrap

/-- A JSON value. -/
inductive Json where
  | null
  | bool (b : Bool)
  | num (n : Numeral)
  | str (s : String)
  | arr (elements : List Json)
  | obj (fields : List (String × Json))
  /-- Well-formed text with an unpaired surrogate where characters are needed. -/
  | garbled
deriving Repr

namespace Json

/-- The value of a natural number. -/
def ofNat (n : Nat) : Json := .num (.ofNat n)

/-- The value of a double. -/
def ofDouble (d : Double) : Json := .num (.ofDouble d)

/-- An array of natural numbers. -/
def ofNats (ns : List Nat) : Json := .arr (ns.map ofNat)

mutual

/-- How many arrays and objects lie inside one another, counting this value. -/
def nesting : Json → Nat
  | .arr es => nestingElements es + 1
  | .obj fs => nestingFields fs + 1
  | _ => 0

/-- The deepest nesting among elements. -/
def nestingElements : List Json → Nat
  | [] => 0
  | e :: es => max e.nesting (nestingElements es)

/-- The deepest nesting among field values. -/
def nestingFields : List (String × Json) → Nat
  | [] => 0
  | (_, v) :: fs => max v.nesting (nestingFields fs)

end

mutual

/-- Whether every string has a value and every number is finite. -/
def solid : Json → Bool
  | .num n => n.toDouble?.isSome
  | .arr es => solidElements es
  | .obj fs => solidFields fs
  | .garbled => false
  | _ => true

/-- `solid` of every element. -/
def solidElements : List Json → Bool
  | [] => true
  | e :: es => e.solid && solidElements es

/-- `solid` of every field value. -/
def solidFields : List (String × Json) → Bool
  | [] => true
  | (_, v) :: fs => v.solid && solidFields fs

end

end Json

end IonTrap
