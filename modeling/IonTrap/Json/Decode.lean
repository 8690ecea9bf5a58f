import IonTrap.Json.Basic

/-!
# Reading data out of JSON

Three shapes occur.

* A *record* is an object with known fields, or an array of its fields in order.
* A *variant* is a name, or an object with that name as its only key and the payload as its value.
* A *tagged record* is an object whose tag field names its kind, or an array that starts with it.

Fields that a record does not know are skipped whatever they hold. A tagged record is taken in as a
whole before its kind is known, so there every skipped field must have a value too, numbers must be
finite and the nesting is bounded.

These readers stand for ones that are derived from the types of the data. What is taken over is the
documented behaviour of the derivation: a record may also be an array of its fields in order, which
may stop before fields with a default; a known field that is repeated, or is missing without a
default, refuses the record; whole numbers must be written without a point and an exponent and be
within the range of their type; a kind without payload is its name or an object that maps it to
`null`; and a tag may stand anywhere among the fields.
-/

namespace IonTrap.Json

/-! ## Scalars and lists -/

/-- A natural number below `bound`. -/
def natBelow? (bound : Nat) : Json → Option Nat
  | .num n => n.natBelow? bound
  | _ => none

/-- A number of 32 bits. -/
def word32? : Json → Option Nat := natBelow? 4294967296

/-- A number of 64 bits. -/
def word64? : Json → Option Nat := natBelow? 18446744073709551616

/-- A double. -/
def double? : Json → Option Double
  | .num n => n.toDouble?
  | _ => none

/-- A truth value. -/
def bool? : Json → Option Bool
  | .bool b => some b
  | _ => none

/-- A string. -/
def string? : Json → Option String
  | .str s => some s
  | _ => none

/-- A list, each element read by `read`. -/
def list? {α : Type} (read : Json → Option α) : Json → Option (List α)
  | .arr es => es.mapM read
  | _ => none

/-! ## Records -/

/-- The known fields of a record. -/
abbrev Fields := List (String × Json)

/-- Whether two fields have the same key. -/
def hasRepeatedKey : Fields → Bool
  | [] => false
  | (k, _) :: fs => fs.any (·.1 == k) || hasRepeatedKey fs

/-- The fields called `names` of a record. An array gives them by position and may stop early. -/
def record? (names : List String) : Json → Option Fields
  | .obj fs =>
    let known := fs.filter fun f => names.contains f.1
    if hasRepeatedKey known then none else some known
  | .arr es => if es.length ≤ names.length then some (names.zip es) else none
  | _ => none

/-- A field that must be there. -/
def Fields.need {α : Type} (fs : Fields) (name : String) (read : Json → Option α) : Option α :=
  match fs.lookup name with
  | some j => read j
  | none => none

/-- A field with a default. -/
def Fields.get {α : Type} (fs : Fields) (name : String) (read : Json → Option α) (default : α) :
    Option α :=
  match fs.lookup name with
  | some j => read j
  | none => some default

/-! ## Variants -/

/-- Name and payload of a variant. -/
def variant? : Json → Option (String × Option Json)
  | .str s => some (s, none)
  | .obj [(k, v)] => some (k, some v)
  | _ => none

/-- How a variant without payload may be spelled out. -/
inductive Strictness where
  /-- By its name, or with the payload `null`. -/
  | strict
  /-- Also with an empty object, as inside a tagged record. -/
  | tagged
deriving DecidableEq, Repr

/-- Whether a payload stands for none. -/
def isUnit (s : Strictness) : Option Json → Bool
  | none => true
  | some .null => true
  | some (.obj []) => s == .tagged
  | _ => false

/-! ## Tagged records -/

/-- Arrays and objects may lie this deep inside one another. -/
def maxNesting : Nat := 127

/-- Whether a value at depth `depth` can be taken in before its kind is known. -/
def holdable (depth : Nat) (j : Json) : Bool := j.solid && depth + j.nesting ≤ maxNesting

/-- The tag of a tagged record at depth `depth`, and the record without it. -/
def tagged? (depth : Nat) (tag : String) : Json → Option (Json × Json)
  | .obj fs =>
    match fs.filter (·.1 == tag) with
    | [(_, t)] =>
      let rest := Json.obj (fs.filter (·.1 != tag))
      if rest.holdable depth then some (t, rest) else none
    | _ => none
  | .arr (t :: es) => if (Json.arr es).holdable depth then some (t, .arr es) else none
  | _ => none

/-- The kind that a tag names. -/
def kind? {α : Type} (kinds : List (String × α)) : Json → Option α
  | .str s => kinds.lookup s
  | _ => none

/-- The kind that the tag of a nested tagged record names: there a position in the list of kinds
will do as well. -/
def nestedKind? {α : Type} (kinds : List (String × α)) : Json → Option α
  | .str s => kinds.lookup s
  | .num n => n.toNat?.bind fun i => (kinds[i]?).map (·.2)
  | _ => none

end IonTrap.Json
