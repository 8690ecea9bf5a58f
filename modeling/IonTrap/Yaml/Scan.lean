import IonTrap.Yaml.Scalar
import IonTrap.Yaml.Tag

/-!
# From characters to tokens

Outside brackets the column of a line opens and closes sequences and mappings, and inside and
outside brackets a scalar or bracket turns out to be a key only once the colon after it is seen. So
the place of every possible key is remembered, and the tokens in front of it are inserted
afterwards. A key stands on one line and has at most 1024 bytes.
-/

namespace IonTrap.Yaml

/-- A place where a key may have started. -/
structure KeyStart where
  /-- Whether nothing but a key can stand there. -/
  required : Bool
  /-- Number of tokens before it. -/
  position : Nat
  /-- Its first character. -/
  glyph : Glyph
deriving DecidableEq, Repr

/-- Whether a key that started there can no longer end at `g`. -/
def KeyStart.isStale (k : KeyStart) (g : Glyph) : Bool :=
  k.glyph.line < g.line || k.glyph.index + 1024 < g.index

/-- Scanning under way. -/
structure Scan where
  /-- What is left of the text. -/
  glyphs : List Glyph
  /-- Tokens so far. -/
  tokens : Array Token := #[]
  /-- Columns of the open indented sequences and mappings, the innermost first. -/
  indents : List Nat := []
  /-- Where a key may have started since the innermost open bracket. -/
  key : Option KeyStart := none
  /-- Where keys may have started outside each open bracket, the innermost first. -/
  outerKeys : List (Option KeyStart) := []
  /-- Whether a key may start here. -/
  keyAllowed : Bool := true
deriving DecidableEq, Repr

namespace Scan

/-- Whether a bracket is open. -/
def inFlow (s : Scan) : Bool := !s.outerKeys.isEmpty

/-- One more token. -/
def emit (s : Scan) (t : Token) : Scan := { s with tokens := s.tokens.push t }

/-- Inserts a token in front of those from `position` on. -/
def insert (s : Scan) (position : Nat) (t : Token) : Scan :=
  { s with tokens := s.tokens.insertIdxIfInBounds position t }

/-! ## Between tokens -/

/-- Skips blanks, comments, line breaks and a byte order mark in front of a line. After a line break
outside brackets a key may start. Tabs count as blanks only where no key may start. -/
def skipSpacing (inFlow : Bool) (inComment keyAllowed : Bool) : List Glyph → Bool × List Glyph
  | [] => (keyAllowed, [])
  | g :: rest =>
    if isBreak g.char then skipSpacing inFlow false (keyAllowed || !inFlow) rest
    else if inComment && !isEnd g.char then skipSpacing inFlow true keyAllowed rest
    else if g.char == '#' then skipSpacing inFlow true keyAllowed rest
    else if g.char == ' ' || (g.char == '\t' && (inFlow || !keyAllowed))
        || (g.char == '\ufeff' && g.column == 0) then
      skipSpacing inFlow false keyAllowed rest
    else (keyAllowed, g :: rest)

/-- Forgets a key that can no longer end at `g`. A required one is missed. -/
def forget? (g : Glyph) : Option KeyStart → Option (Option KeyStart)
  | none => some none
  | some k => if !k.isStale g then some (some k) else if k.required then none else some none

/-- Closes the indented sequences and mappings right of a column, or all of them. -/
def closeTo (s : Scan) (column : Option Nat) : Scan :=
  if s.inFlow then s
  else
    let isRight (i : Nat) : Bool := column.all (· < i)
    { s with
      indents := s.indents.dropWhile isRight
      tokens := (s.indents.takeWhile isRight).foldl (fun ts _ => ts.push .blockEnd) s.tokens }

/-- Goes to the next token. -/
def advance (s : Scan) : Option Scan := do
  let (keyAllowed, gs) := skipSpacing s.inFlow false s.keyAllowed s.glyphs
  let s := { s with glyphs := gs, keyAllowed := keyAllowed }
  match gs with
  | [] => return s
  | g :: _ =>
    let key ← forget? g s.key
    let outerKeys ← s.outerKeys.mapM (forget? g)
    return { s with key := key, outerKeys := outerKeys }.closeTo (some g.column)

/-! ## Keys and indentation -/

/-- Gives up the key that may have started. A required one is missed. -/
def dropKey (s : Scan) : Option Scan :=
  match s.key with
  | some k => if k.required then none else some { s with key := none }
  | none => some s

/-- Remembers that a key may start at `g`. -/
def saveKey (s : Scan) (g : Glyph) : Option Scan :=
  if s.keyAllowed then
    let required := !s.inFlow && s.indents.head? == some g.column
    s.dropKey.map fun s => { s with key := some ⟨required, s.tokens.size, g⟩ }
  else some s

/-- Opens an indented sequence or mapping at a column right of the open ones, its token in front of
those from `position` on. -/
def openAt (s : Scan) (column position : Nat) (t : Token) : Scan :=
  if !s.inFlow && s.indents.head?.all (· < column) then
    { s with indents := column :: s.indents }.insert position t
  else s

/-- Indentation of a plain scalar: right of the innermost column. -/
def leastColumn (s : Scan) : Nat := (s.indents.head?.map (· + 1)).getD 0

/-! ## Tokens -/

/-- A directive or a mark between documents. -/
def documentToken (s : Scan) (t : Token) (rest : List Glyph) : Option Scan :=
  (s.closeTo none).dropKey.map fun s =>
    { s with keyAllowed := false, glyphs := rest }.emit t

/-- An opening bracket. -/
def openBracket (s : Scan) (g : Glyph) (t : Token) (rest : List Glyph) : Option Scan :=
  (s.saveKey g).map fun s =>
    { s with key := none, outerKeys := s.key :: s.outerKeys, keyAllowed := true
             glyphs := rest }.emit t

/-- A closing bracket. -/
def closeBracket (s : Scan) (t : Token) (rest : List Glyph) : Option Scan :=
  s.dropKey.map fun s =>
    { s with key := s.outerKeys.head?.getD none, outerKeys := s.outerKeys.drop 1
             keyAllowed := false, glyphs := rest }.emit t

/-- A comma. -/
def comma (s : Scan) (rest : List Glyph) : Option Scan :=
  s.dropKey.map fun s => { s with keyAllowed := true, glyphs := rest }.emit .flowEntry

/-- A hyphen in front of an item. -/
def item (s : Scan) (g : Glyph) (rest : List Glyph) : Option Scan :=
  if !s.inFlow && !s.keyAllowed then none
  else
    (s.openAt g.column s.tokens.size .blockSequenceStart).dropKey.map fun s =>
      { s with keyAllowed := true, glyphs := rest }.emit .blockEntry

/-- A question mark in front of a key. -/
def explicitKey (s : Scan) (g : Glyph) (rest : List Glyph) : Option Scan :=
  if !s.inFlow && !s.keyAllowed then none
  else
    (s.openAt g.column s.tokens.size .blockMappingStart).dropKey.map fun s =>
      { s with keyAllowed := !s.inFlow, glyphs := rest }.emit .key

/-- A colon in front of a value. If a key may have started before it, that is one now. -/
def colon (s : Scan) (g : Glyph) (rest : List Glyph) : Option Scan :=
  match s.key with
  | some k =>
    let s := (s.insert k.position .key).openAt k.glyph.column k.position .blockMappingStart
    some ({ s with key := none, keyAllowed := false, glyphs := rest }.emit .value)
  | none =>
    if !s.inFlow && !s.keyAllowed then none
    else
      let s := s.openAt g.column s.tokens.size .blockMappingStart
      some ({ s with keyAllowed := !s.inFlow, glyphs := rest }.emit .value)

/-- Something that may be a key or the start of one. -/
def keyToken (s : Scan) (g : Glyph) (t : Token) (rest : List Glyph) : Option Scan :=
  (s.saveKey g).map fun s => { s with keyAllowed := false, glyphs := rest }.emit t

/-- A block. -/
def block (s : Scan) (folded : Bool) (rest : List Glyph) : Option Scan := do
  let s ← s.dropKey
  let (text, rest) ← block? folded s.indents.head? rest
  return { s with keyAllowed := true, glyphs := rest }.emit
    (.scalar text (if folded then .folded else .literal))

/-- A plain scalar. If a line break follows it, a key may start then. -/
def plain (s : Scan) (g : Glyph) (rest : List Glyph) : Option Scan := do
  let s ← s.saveKey g
  let (text, broken, rest) ← plainFrom s.inFlow s.leastColumn {} [] (g :: rest)
  return { s with keyAllowed := broken, glyphs := rest }.emit (.scalar text .plain)

/-- A token that is told by its first character. -/
def marked? (s : Scan) (g : Glyph) (rest : List Glyph) : Option Scan := do
  match g.char with
  | '[' => s.openBracket g .flowSequenceStart rest
  | '\x7b' => s.openBracket g .flowMappingStart rest
  | ']' => s.closeBracket .flowSequenceEnd rest
  | '\x7d' => s.closeBracket .flowMappingEnd rest
  | ',' => s.comma rest
  | '*' =>
    let (name, rest) ← anchorName? rest
    s.keyToken g (.alias name) rest
  | '&' =>
    let (name, rest) ← anchorName? rest
    s.keyToken g (.anchor name) rest
  | '!' =>
    let (t, rest) ← tag? s.inFlow rest
    s.keyToken g t rest
  | '\'' =>
    let (text, rest) ← quotedFrom '\'' {} rest
    s.keyToken g (.scalar text .single) rest
  | '"' =>
    let (text, rest) ← quotedFrom '"' {} rest
    s.keyToken g (.scalar text .double) rest
  | '|' => if s.inFlow then none else s.block false rest
  | '>' => if s.inFlow then none else s.block true rest
  | _ => none

/-- The next token, which starts with `g`. -/
def token? (s : Scan) (g : Glyph) (rest : List Glyph) : Option Scan :=
  let next := firstChar rest
  if g.column == 0 && g.char == '%' then
    (directive? rest).bind fun x => s.documentToken x.1 x.2
  else if atMark '-' (g :: rest) then s.documentToken .documentStart (rest.drop 2)
  else if atMark '.' (g :: rest) then s.documentToken .documentEnd (rest.drop 2)
  else if g.char == '-' && isSpacing next then s.item g rest
  else if g.char == '?' && (s.inFlow || isSpacing next) then s.explicitKey g rest
  else if g.char == ':' && (s.inFlow || isSpacing next) then s.colon g rest
  else if startsPlain s.inFlow g.char next then s.plain g rest
  else s.marked? g rest

/-- All tokens from here on. `fuel` bounds their number. -/
def run : Nat → Scan → Option (List Token)
  | 0, _ => none
  | fuel + 1, s => do
    let s ← s.advance
    match s.glyphs with
    | [] => none
    | g :: rest =>
      if isEnd g.char then
        let s ← (s.closeTo none).dropKey
        return s.tokens.toList
      else run fuel (← s.token? g rest)

end Scan

/-- The tokens of a text. Each takes at least one character. -/
def tokens? (s : String) : Option (List Token) :=
  (glyphs? s).bind fun gs => Scan.run gs.length { glyphs := gs }

end IonTrap.Yaml
