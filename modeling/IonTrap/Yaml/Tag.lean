import IonTrap.Yaml.Token

/-!
# Anchors, tags and directives

A value can carry a name and a tag. A tag is written in full, or as a handle and a suffix; what a
handle stands for is said in a directive in front of the document.
-/

namespace IonTrap.Yaml

/-! ## Anchors -/

/-- The name of an anchor or alias, and what follows it. -/
def anchorName? (gs : List Glyph) : Option (String × List Glyph) :=
  let name := charsOf isWordChar gs
  let rest := skip isWordChar gs
  let next := firstChar rest
  if !name.isEmpty && (isSpacing next || "?:,]\x7d%@`".toList.contains next) then
    some (.ofList name, rest)
  else none

/-! ## Tags -/

/-- Characters of a tag written out. Between angle brackets commas and square brackets are allowed
too. -/
def isTagChar (verbatim : Bool) (c : Char) : Bool :=
  isWordChar c || ";/?:@&=+$.!~*'()".toList.contains c
    || (verbatim && (c == ',' || c == '[' || c == ']'))

/-- Number of bytes of a character whose first byte is given, zero if there is none. -/
def byteCount (b : Nat) : Nat :=
  if b < 128 then 1
  else if 192 ≤ b ∧ b < 224 then 2
  else if 224 ≤ b ∧ b < 240 then 3
  else if 240 ≤ b ∧ b < 248 then 4
  else 0

/-- Number of bytes that follow a byte, which must be the first of a character or, if bytes are
pending, a further one. -/
def pendingAfter? (pending b : Nat) : Option Nat :=
  match pending with
  | 0 => if byteCount b == 0 then none else some (byteCount b - 1)
  | n + 1 => if 128 ≤ b ∧ b < 192 then some n else none

/-- The bytes of a tag written out, and what follows them. A percent sign gives a byte by two
digits; `pending` more are needed for a character. -/
def tagBytes? (verbatim : Bool) (pending : Nat) (bytes : List Nat) :
    List Glyph → Option (List Nat × List Glyph)
  | [] => some (bytes.reverse, [])
  | g :: rest =>
    if g.char == '%' then
      match rest with
      | g₁ :: g₂ :: rest => do
        let high ← digit? g₁.char
        let low ← digit? g₂.char
        let byte := 16 * high + low
        tagBytes? verbatim (← pendingAfter? pending byte) (byte :: bytes) rest
      | _ => none
    else if pending != 0 then none
    else if isTagChar verbatim g.char then
      tagBytes? verbatim 0 (g.char.toNat :: bytes) rest
    else some (bytes.reverse, g :: rest)

/-- A tag ends at a zero byte. -/
def cutAtZero (t : Tag) : Tag := t.takeWhile (· != 0)

/-- A tag written out, with at least one character. -/
def tagText? (verbatim : Bool) (gs : List Glyph) : Option (Tag × List Glyph) :=
  match tagBytes? verbatim 0 [] gs with
  | some ([], _) => none
  | some (bytes, rest) => some (cutAtZero bytes, rest)
  | none => none

/-- A tag handle without its exclamation mark in front, and what follows it. The flag says whether
another one ends it. -/
def handleName (gs : List Glyph) : List Char × Bool × List Glyph :=
  let rest := skip isWordChar gs
  if firstChar rest == '!' then (charsOf isWordChar gs, true, rest.drop 1)
  else (charsOf isWordChar gs, false, rest)

/-- Handle and suffix of a tag after its exclamation mark. -/
def tagParts? (gs : List Glyph) : Option (String × Tag × List Glyph) :=
  if firstChar gs == '<' then do
    let (t, rest) ← tagText? true (gs.drop 1)
    if firstChar rest == '>' then return ("", t, rest.drop 1) else none
  else
    match handleName gs with
    | (name, true, rest) => do
      let (t, rest) ← tagText? false rest
      return ("!" ++ .ofList name ++ "!", t, rest)
    | (name, false, rest) => do
      let (more, rest) ← tagBytes? false 0 [] rest
      let t := cutAtZero (name.map (·.toNat) ++ more)
      return if t.isEmpty then ("", asciiBytes "!", rest) else ("!", t, rest)

/-- A tag after its exclamation mark. Spacing must follow it, or a comma inside brackets. -/
def tag? (inFlow : Bool) (gs : List Glyph) : Option (Token × List Glyph) := do
  let (handle, suffix, rest) ← tagParts? gs
  let next := firstChar rest
  if isSpacing next || (inFlow && next == ',') then return (.tag handle suffix, rest) else none

/-! ## Directives -/

/-- A number of at most nine digits, and what follows it. -/
def versionNumber? (gs : List Glyph) : Option (Nat × List Glyph) :=
  let digits := charsOf isDigit gs
  if digits.isEmpty || 9 < digits.length then none
  else some (digits.foldl (fun n c => 10 * n + (c.toNat - '0'.toNat)) 0, skip isDigit gs)

/-- The version of YAML. -/
def version? (gs : List Glyph) : Option (Token × List Glyph) := do
  let (major, rest) ← versionNumber? (skip isBlank gs)
  if firstChar rest == '.' then
    let (minor, rest) ← versionNumber? (rest.drop 1)
    return (.version major minor, rest)
  else none

/-- What a tag handle stands for. -/
def handle? (gs : List Glyph) : Option (Token × List Glyph) := do
  let gs := skip isBlank gs
  if firstChar gs != '!' then none
  else
    let (name, closed, rest) := handleName (gs.drop 1)
    if (!closed && !name.isEmpty) || !isBlank (firstChar rest) then none
    else
      let (base, rest) ← tagText? true (skip isBlank rest)
      if isSpacing (firstChar rest) then
        return (.handle ("!" ++ .ofList name ++ (if closed then "!" else "")) base, rest)
      else none

/-- A directive after its percent sign, to the end of its line. -/
def directive? (gs : List Glyph) : Option (Token × List Glyph) := do
  let name := String.ofList (charsOf isWordChar gs)
  let rest := skip isWordChar gs
  if !isSpacing (firstChar rest) then none
  else
    let (t, rest) ←
      if name == "YAML" then version? rest else if name == "TAG" then handle? rest else none
    return (t, ← afterLine? rest)

end IonTrap.Yaml
