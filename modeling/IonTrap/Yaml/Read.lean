import IonTrap.Yaml.Document
import IonTrap.Yaml.Plain

/-!
# Reading data out of YAML

Where the kind of data is known, a value left out is an empty list or a record without fields, and
a plain scalar is read as what is needed. Where it is not, values are settled as a whole first.

An alias is followed wherever a value is read. The number of times is bounded by the size of the
document, and so is the depth of what is settled, so that short texts do not stand for huge values.
-/

namespace IonTrap.Yaml

/-- Reading that may fail and counts down how many aliases may still be followed. -/
abbrev Reading (α : Type) := StateT Nat Option α

/-- Runs a reading of a document. -/
def Document.read {α : Type} (d : Document) (read : Node Nat → Reading α) : Option α :=
  ((read d.root).run d.maxFollowed).map (·.1)

/-- A reading that may just fail. -/
def orFail {α : Type} (x : Option α) : Reading α := fun n => x.map fun a => (a, n)

namespace Document

/-- The value that an alias stands for, or the value itself. -/
def follow (d : Document) : Node Nat → Reading (Node Nat)
  | .alias name => fun left =>
    match left with
    | 0 => none
    | left + 1 => (d.find? name).map fun v => (v, left)
  | v => pure v

end Document

/-! ## Tags -/

/-- One of the tags for common data. -/
def coreTag (name : String) : Tag := asciiBytes ("tag:yaml.org,2002:" ++ name)

/-- The name of a tag of the document's own, if it is text. A lone exclamation mark is its own
name. -/
def ownTag? : Option Tag → Option String
  | some (33 :: rest) =>
    let bytes := if rest.isEmpty then [33] else rest
    String.fromUTF8? ⟨(bytes.map (·.toUInt8)).toArray⟩
  | _ => none

/-! ## Scalars, lists and records -/

namespace Document

/-- The text of a scalar. -/
def text (d : Document) (v : Node Nat) : Reading String := do
  match ← d.follow v with
  | .scalar _ _ text _ => pure text
  | _ => orFail none

/-- The text of a plain scalar, or of a block with the tag for the data it holds. -/
def literal (d : Document) (tagName : String) (v : Node Nat) : Reading String := do
  match ← d.follow v with
  | .scalar tag _ text style =>
    if style = .plain || (style = .literal && tag == some (coreTag tagName)) then pure text
    else orFail none
  | _ => orFail none

/-- A natural number of 64 bits. -/
def word64 (d : Document) (v : Node Nat) : Reading Nat := do
  let text ← d.literal "int" v
  orFail ((nat? text.toList).filter (· < twoPow 64))

/-- A truth value. -/
def bool (d : Document) (v : Node Nat) : Reading Bool := do
  let text ← d.literal "bool" v
  orFail (boolWords.lookup text)

/-- A variant without payload: by its name, or as a tag of the document's own on nothing. -/
def variant {α : Type} (d : Document) (kinds : List (String × α)) (v : Node Nat) :
    Reading α := do
  match ← d.follow v with
  | .scalar tag _ text style =>
    match ownTag? tag with
    | none => orFail (kinds.lookup text)
    | some name =>
      if style = .plain && (text.isEmpty || nullWords.contains text) then
        orFail (kinds.lookup name)
      else orFail none
  | _ => orFail none

/-- A list, each item read by `read`. -/
def list {α : Type} (d : Document) (read : Node Nat → Reading α) (v : Node Nat) :
    Reading (List α) := do
  match ← d.follow v with
  | .seq _ _ items => items.mapM read
  | .scalar _ _ "" .plain => pure []
  | _ => orFail none

end Document

/-- Whether a name comes twice. -/
def hasRepeat : List String → Bool
  | [] => false
  | name :: names => names.contains name || hasRepeat names

/-- Known fields of a record. -/
abbrev Fields := List (String × Node Nat)

/-- The fields called `names` of a record. Every key must be a scalar. -/
def Document.record (d : Document) (names : List String) (v : Node Nat) : Reading Fields := do
  match ← d.follow v with
  | .map _ _ entries =>
    let fields ← entries.mapM fun e => do
      let key ← d.text e.1
      pure (key, e.2)
    let known := fields.filter fun f => names.contains f.1
    if hasRepeat (known.map (·.1)) then orFail none else pure known
  | .scalar _ _ "" .plain => pure []
  | _ => orFail none

/-- A field that must be there. -/
def Fields.need {α : Type} (fs : Fields) (name : String) (read : Node Nat → Reading α) :
    Reading α :=
  match fs.lookup name with
  | some v => read v
  | none => orFail none

/-- A field with a default. -/
def Fields.get {α : Type} (fs : Fields) (name : String) (read : Node Nat → Reading α)
    (default : α) : Reading α :=
  match fs.lookup name with
  | some v => read v
  | none => pure default

/-! ## Settled values -/

/-- The settled value of a scalar. A tag for common data decides its kind whatever it looks like; a
tag of the document's own names a variant, which is no settled value. -/
def Settled.ofScalar? (tag : Option Tag) (text : String) (style : Style) : Option Settled :=
  if (ownTag? tag).isSome then none
  else if tag == some (coreTag "bool") then (boolWords.lookup text).map .bool
  else if tag == some (coreTag "int") then (Settled.whole? text).bind id
  else if tag == some (coreTag "float") then
    if isFraction text then some .fraction else none
  else if tag == some (coreTag "null") then
    if nullWords.contains text then some .nothing else none
  else if style = .plain && tag.all (·.head? == some 33) then Settled.ofPlain? text
  else some (.text text)

/-- Settles a value whose sequences and mappings lie at most `depth` deep inside one another. -/
def Document.settle (d : Document) : Nat → Node Nat → Reading Settled
  | 0, v => do
    match ← d.follow v with
    | .scalar tag _ text style => orFail (Settled.ofScalar? tag text style)
    | _ => orFail none
  | depth + 1, v => do
    match ← d.follow v with
    | .scalar tag _ text style => orFail (Settled.ofScalar? tag text style)
    | .seq tag _ items =>
      if (ownTag? tag).isSome then orFail none
      else
        let vs ← items.mapM (d.settle depth)
        pure (.list vs)
    | .map tag _ entries =>
      if (ownTag? tag).isSome then orFail none
      else
        let es ← entries.mapM fun e => do
          let k ← d.settle depth e.1
          let v ← d.settle depth e.2
          pure (k, v)
        pure (.map es)
    | .alias _ => orFail none

/-! ## Tagged records -/

/-- Sequences and mappings may lie this deep inside one another. -/
def maxDepth : Nat := 128

/-- The tag of a tagged record that lies `depth` deep, and the settled record without it. The tag is
a field, or the first item. -/
def Document.tagged (d : Document) (depth : Nat) (tagName : String) (v : Node Nat) :
    Reading (String × Settled) := do
  let inner := maxDepth - depth
  match ← d.follow v with
  | .map tag _ entries =>
    if (ownTag? tag).isSome then orFail none
    else
      let fields ← entries.mapM fun e => do
        match ← d.settle inner e.1 with
        | .text key =>
          if key == tagName then
            let name ← d.text e.2
            pure (some name, Settled.nothing, Settled.nothing)
          else
            let value ← d.settle inner e.2
            pure (none, Settled.text key, value)
        | key =>
          let value ← d.settle inner e.2
          pure (none, key, value)
      match fields.filterMap (·.1) with
      | [name] =>
        let rest := fields.filter (·.1.isNone)
        pure (name, .map (rest.map (·.2)))
      | _ => orFail none
  | .seq tag _ (first :: items) =>
    if (ownTag? tag).isSome then orFail none
    else
      let name ← d.text first
      let vs ← items.mapM (d.settle inner)
      pure (name, .list vs)
  | _ => orFail none

namespace Settled

/-- The known field that a key means, by its name or its position; `none` inside for one that is not
known. -/
def fieldName? (names : List String) : Settled → Option (Option String)
  | .text s => some (if names.contains s then some s else none)
  | .nat i => some names[i]?
  | _ => none

/-- The fields called `names` of a record. A list gives them by position and may stop early. -/
def record? (names : List String) : Settled → Option (List (String × Settled))
  | .map entries => do
    let fields ← entries.mapM fun e => (fieldName? names e.1).map fun name => (name, e.2)
    let known := fields.filterMap fun f => f.1.map fun name => (name, f.2)
    if hasRepeat (known.map (·.1)) then none else some known
  | .list items => if items.length ≤ names.length then some (names.zip items) else none
  | _ => none

/-- A field that must be there. -/
def need {α : Type} (fs : List (String × Settled)) (name : String)
    (read : Settled → Option α) : Option α :=
  match fs.lookup name with
  | some v => read v
  | none => none

/-- A field with a default. -/
def get {α : Type} (fs : List (String × Settled)) (name : String) (read : Settled → Option α)
    (default : α) : Option α :=
  match fs.lookup name with
  | some v => read v
  | none => some default

end Settled

end IonTrap.Yaml
