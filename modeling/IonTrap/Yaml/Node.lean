import IonTrap.Yaml.Scan

/-!
# Values and their structure

A document is one value: a scalar, a sequence, a mapping, or an alias of a value named elsewhere.
Its structure is read off the tokens. What is left out where a value is needed is an empty plain
scalar.
-/

namespace IonTrap.Yaml

/-- A value. Names of values are of type `α`. -/
inductive Node (α : Type) where
  /-- A scalar. -/
  | scalar (tag : Option Tag) (anchor : Option α) (text : String) (style : Style)
  /-- A sequence. -/
  | seq (tag : Option Tag) (anchor : Option α) (items : List (Node α))
  /-- A mapping. -/
  | map (tag : Option Tag) (anchor : Option α) (entries : List (Node α × Node α))
  /-- A value named elsewhere. -/
  | alias (name : α)
deriving Repr

/-- A value left out. -/
def Node.missing {α : Type} : Node α := .scalar none none "" .plain

/-- What the handles of tags stand for. -/
abbrev Handles := List (String × Tag)

/-- Handles that need no directive. -/
def defaultHandles : Handles := [("!", asciiBytes "!"), ("!!", asciiBytes "tag:yaml.org,2002:")]

/-- The tag that a handle and a suffix give. -/
def Handles.tag? (hs : Handles) (handle : String) (suffix : Tag) : Option Tag :=
  if handle.isEmpty then some suffix else (hs.lookup handle).map (· ++ suffix)

/-! ## Properties -/

/-- Tag and anchor of a value, in any order, and what follows them. -/
def properties? (hs : Handles) :
    List Token → Option (Option Tag × Option String × List Token)
  | .anchor name :: .tag handle suffix :: rest =>
    (hs.tag? handle suffix).map fun t => (some t, some name, rest)
  | .tag handle suffix :: .anchor name :: rest =>
    (hs.tag? handle suffix).map fun t => (some t, some name, rest)
  | .anchor name :: rest => some (none, some name, rest)
  | .tag handle suffix :: rest => (hs.tag? handle suffix).map fun t => (some t, none, rest)
  | ts => some (none, none, ts)

/-- Whether the next token is one of those given. -/
def nextIn (kinds : List Token) (ts : List Token) : Bool := ts.head?.any kinds.contains

/-! ## Structure -/

mutual

/-- The next value, and the tokens after it. Outside brackets (`inBlock`) it may be indented, and as
a part of a mapping (`inMapping`) it may be a sequence that is not. `fuel` bounds the number of
steps. -/
def node? (hs : Handles) (inBlock inMapping : Bool) :
    Nat → List Token → Option (Node String × List Token)
  | 0, _ => none
  | fuel + 1, ts =>
    match ts with
    | .alias name :: rest => some (.alias name, rest)
    | _ => do
      let (tag, anchor, ts) ← properties? hs ts
      match ts, inBlock, inMapping with
      | .scalar text style :: rest, _, _ =>
        return (.scalar tag anchor text style, rest)
      | .flowSequenceStart :: rest, _, _ =>
        let (items, rest) ← flowItems? hs true fuel rest
        return (.seq tag anchor items, rest)
      | .flowMappingStart :: rest, _, _ =>
        let (entries, rest) ← flowEntries? hs true fuel rest
        return (.map tag anchor entries, rest)
      | .blockEntry :: _, _, true =>
        let (items, rest) ← flatItems? hs fuel ts
        return (.seq tag anchor items, rest)
      | .blockSequenceStart :: rest, true, _ =>
        let (items, rest) ← blockItems? hs fuel rest
        return (.seq tag anchor items, rest)
      | .blockMappingStart :: rest, true, _ =>
        let (entries, rest) ← blockEntries? hs fuel rest
        return (.map tag anchor entries, rest)
      | _, _, _ =>
        if tag.isSome || anchor.isSome then return (.scalar tag anchor "" .plain, ts) else none

/-- The value that ends before one of `stops`, left out if that comes next. -/
def nodeUnless? (hs : Handles) (inBlock inMapping : Bool) (stops : List Token) :
    Nat → List Token → Option (Node String × List Token)
  | 0, _ => none
  | fuel + 1, ts =>
    if nextIn stops ts then some (.missing, ts) else node? hs inBlock inMapping fuel ts

/-- The value after a colon, left out if there is no colon or one of `stops` comes next. -/
def valueUnless? (hs : Handles) (inBlock : Bool) (stops : List Token) :
    Nat → List Token → Option (Node String × List Token)
  | 0, _ => none
  | fuel + 1, .value :: rest => nodeUnless? hs inBlock inBlock stops fuel rest
  | _ + 1, ts => some (.missing, ts)

/-- The items of an indented sequence. -/
def blockItems? (hs : Handles) : Nat → List Token → Option (List (Node String) × List Token)
  | 0, _ => none
  | fuel + 1, .blockEntry :: rest => do
    let (v, rest) ← nodeUnless? hs true false [.blockEntry, .blockEnd] fuel rest
    let (vs, rest) ← blockItems? hs fuel rest
    return (v :: vs, rest)
  | _ + 1, .blockEnd :: rest => some ([], rest)
  | _ + 1, _ => none

/-- The items of a sequence that is not indented further than its key. -/
def flatItems? (hs : Handles) : Nat → List Token → Option (List (Node String) × List Token)
  | 0, _ => none
  | fuel + 1, .blockEntry :: rest => do
    let (v, rest) ← nodeUnless? hs true false [.blockEntry, .key, .value, .blockEnd] fuel rest
    let (vs, rest) ← flatItems? hs fuel rest
    return (v :: vs, rest)
  | _ + 1, ts => some ([], ts)

/-- The entries of an indented mapping. -/
def blockEntries? (hs : Handles) :
    Nat → List Token → Option (List (Node String × Node String) × List Token)
  | 0, _ => none
  | fuel + 1, .key :: rest => do
    let (k, rest) ← nodeUnless? hs true true [.key, .value, .blockEnd] fuel rest
    let (v, rest) ← valueUnless? hs true [.key, .value, .blockEnd] fuel rest
    let (es, rest) ← blockEntries? hs fuel rest
    return ((k, v) :: es, rest)
  | _ + 1, .blockEnd :: rest => some ([], rest)
  | _ + 1, _ => none

/-- The items of a sequence in brackets from the first one or from the comma before the next. A key
makes a mapping with one entry; if the key is left out, so is the token after it. -/
def flowItems? (hs : Handles) (first : Bool) :
    Nat → List Token → Option (List (Node String) × List Token)
  | 0, _ => none
  | fuel + 1, ts =>
    match ts, first with
    | .flowSequenceEnd :: rest, _ => some ([], rest)
    | .flowEntry :: .flowSequenceEnd :: rest, false => some ([], rest)
    | .flowEntry :: rest, false => flowItem? hs fuel rest
    | ts, true => flowItem? hs fuel ts
    | _, false => none

/-- An item of a sequence in brackets, and those after it. -/
def flowItem? (hs : Handles) : Nat → List Token → Option (List (Node String) × List Token)
  | 0, _ => none
  | fuel + 1, .key :: rest => do
    let stops := [.flowEntry, .flowSequenceEnd]
    let (k, rest) ←
      if nextIn (.value :: stops) rest then some (.missing, rest.drop 1)
      else node? hs false false fuel rest
    let (v, rest) ← valueUnless? hs false stops fuel rest
    let (vs, rest) ← flowItems? hs false fuel rest
    return (.map none none [(k, v)] :: vs, rest)
  | fuel + 1, ts => do
    let (v, rest) ← node? hs false false fuel ts
    let (vs, rest) ← flowItems? hs false fuel rest
    return (v :: vs, rest)

/-- The entries of a mapping in brackets from the first one or from the comma before the next. -/
def flowEntries? (hs : Handles) (first : Bool) :
    Nat → List Token → Option (List (Node String × Node String) × List Token)
  | 0, _ => none
  | fuel + 1, ts =>
    match ts, first with
    | .flowMappingEnd :: rest, _ => some ([], rest)
    | .flowEntry :: .flowMappingEnd :: rest, false => some ([], rest)
    | .flowEntry :: rest, false => flowEntry? hs fuel rest
    | ts, true => flowEntry? hs fuel ts
    | _, false => none

/-- An entry of a mapping in brackets, and those after it. Without a mark it is a key whose value is
left out. -/
def flowEntry? (hs : Handles) :
    Nat → List Token → Option (List (Node String × Node String) × List Token)
  | 0, _ => none
  | fuel + 1, .key :: rest => do
    let stops := [.flowEntry, .flowMappingEnd]
    let (k, rest) ← nodeUnless? hs false false (.value :: stops) fuel rest
    let (v, rest) ← valueUnless? hs false stops fuel rest
    let (es, rest) ← flowEntries? hs false fuel rest
    return ((k, v) :: es, rest)
  | fuel + 1, ts => do
    let (k, rest) ← node? hs false false fuel ts
    let (es, rest) ← flowEntries? hs false fuel rest
    return ((k, .missing) :: es, rest)

end

/-! ## Documents -/

/-- The handles that directives define, each once, and the tokens after the directives. Of YAML
there may be one version, 1.1 or 1.2. -/
def directives? (versioned : Bool) (hs : Handles) : List Token → Option (Handles × List Token)
  | .version major minor :: rest =>
    if versioned || major != 1 || (minor != 1 && minor != 2) then none
    else directives? true hs rest
  | .handle name base :: rest =>
    if (hs.lookup name).isSome then none else directives? versioned (hs ++ [(name, base)]) rest
  | ts => some (hs, ts)

/-- Whether what follows the start of a document is not its value. -/
def endsDocument : List Token → Bool
  | [] => true
  | .version .. :: _ => true
  | .handle .. :: _ => true
  | .documentStart :: _ => true
  | .documentEnd :: _ => true
  | _ => false

/-- The value of the only document, and the tokens after it. Nothing at all is a value left out. -/
def document? (ts : List Token) : Option (Node String × List Token) := do
  let fuel := 4 * ts.length + 4
  match ts with
  | [] => return (.missing, [])
  | _ =>
    let (hs, rest) ← directives? false [] ts
    let hs := hs ++ defaultHandles
    match rest with
    | .documentStart :: rest =>
      if endsDocument rest then return (.missing, rest) else node? hs true false fuel rest
    | _ => if rest.length == ts.length then node? hs true false fuel ts else none

/-- The value of a text with at most one document. Marks of its end may follow it. -/
def parse? (s : String) : Option (Node String) := do
  let ts ← tokens? s
  let (v, rest) ← document? ts
  if rest.all (· == .documentEnd) then return v else none

end IonTrap.Yaml
