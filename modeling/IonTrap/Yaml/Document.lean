import IonTrap.Yaml.Node

/-!
# Documents

A value can be named by an anchor, and an alias stands for the value with its name. A name may be
given more than once and then stands for the latest value before the alias. Names are numbered: a
name gets as its number how many names there were, so after a name has been given again the next new
name gets its number too. A number stands for the last value in the document that has it.
-/

namespace IonTrap.Yaml

/-- Numbers of names. -/
abbrev Names := List (String × Nat)

namespace Names

/-- Gives a name its number. -/
def add (names : Names) (name : String) : Names :=
  (name, names.length) :: names.filter (·.1 != name)

/-- Gives an anchor its number, if there is one. -/
def addAnchor (names : Names) : Option String → Names
  | some name => names.add name
  | none => names

/-- Number of the name that an anchor has just been given. -/
def anchorNumber (names : Names) (anchor : Option String) : Option Nat :=
  anchor.bind fun name => names.lookup name

end Names

mutual

/-- Replaces names by their numbers. An alias of a name not given yet is refused. -/
def number? : Node String → Names → Option (Node Nat × Names)
  | .alias name, names => (names.lookup name).map fun n => (.alias n, names)
  | .scalar tag anchor text style, names =>
    let names := names.addAnchor anchor
    some (.scalar tag (names.anchorNumber anchor) text style, names)
  | .seq tag anchor items, names => do
    let names := names.addAnchor anchor
    let (items, rest) ← numberItems? items names
    return (.seq tag (names.anchorNumber anchor) items, rest)
  | .map tag anchor entries, names => do
    let names := names.addAnchor anchor
    let (entries, rest) ← numberEntries? entries names
    return (.map tag (names.anchorNumber anchor) entries, rest)

/-- Replaces names in items. -/
def numberItems? : List (Node String) → Names → Option (List (Node Nat) × Names)
  | [], names => some ([], names)
  | v :: vs, names => do
    let (v, names) ← number? v names
    let (vs, names) ← numberItems? vs names
    return (v :: vs, names)

/-- Replaces names in entries. -/
def numberEntries? :
    List (Node String × Node String) → Names → Option (List (Node Nat × Node Nat) × Names)
  | [], names => some ([], names)
  | (k, v) :: es, names => do
    let (k, names) ← number? k names
    let (v, names) ← number? v names
    let (es, names) ← numberEntries? es names
    return ((k, v) :: es, names)

end

mutual

/-- The values with a number, in the order in which they start. -/
def anchored : Node Nat → List (Nat × Node Nat)
  | .alias _ => []
  | .scalar tag anchor text style =>
    (anchor.map fun n => (n, Node.scalar tag anchor text style)).toList
  | .seq tag anchor items =>
    (anchor.map fun n => (n, Node.seq tag anchor items)).toList ++ anchoredItems items
  | .map tag anchor entries =>
    (anchor.map fun n => (n, Node.map tag anchor entries)).toList ++ anchoredEntries entries

/-- Those among items. -/
def anchoredItems : List (Node Nat) → List (Nat × Node Nat)
  | [] => []
  | v :: vs => anchored v ++ anchoredItems vs

/-- Those among entries. -/
def anchoredEntries : List (Node Nat × Node Nat) → List (Nat × Node Nat)
  | [] => []
  | (k, v) :: es => anchored k ++ anchored v ++ anchoredEntries es

end

mutual

/-- Size of a value: scalars and aliases count once, starts and ends of collections too. -/
def extent : Node Nat → Nat
  | .alias _ => 1
  | .scalar .. => 1
  | .seq _ _ items => extentItems items + 2
  | .map _ _ entries => extentEntries entries + 2

/-- Size of items. -/
def extentItems : List (Node Nat) → Nat
  | [] => 0
  | v :: vs => extent v + extentItems vs

/-- Size of entries. -/
def extentEntries : List (Node Nat × Node Nat) → Nat
  | [] => 0
  | (k, v) :: es => extent k + extent v + extentEntries es

end

/-- A document. -/
structure Document where
  /-- Its value. -/
  root : Node Nat
  /-- The values that aliases stand for, the last first. -/
  named : List (Nat × Node Nat)
deriving Repr

namespace Document

/-- The document of a text. -/
def ofText? (s : String) : Option Document := do
  let v ← parse? s
  let (root, _) ← number? v []
  return ⟨root, (anchored root).reverse⟩

/-- The value with a number. -/
def find? (d : Document) (n : Nat) : Option (Node Nat) := d.named.lookup n

/-- How many aliases may be followed while a document is read. -/
def maxFollowed (d : Document) : Nat := 100 * extent d.root

end Document

end IonTrap.Yaml
