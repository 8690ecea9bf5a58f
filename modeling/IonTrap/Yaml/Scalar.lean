import IonTrap.Yaml.Token

/-!
# Scalars

Plain scalars end where something else must start, quoted ones at their quote, and blocks where the
indentation ends. Each function gives the text of a scalar and what follows it.
-/

namespace IonTrap.Yaml

/-! ## Plain scalars -/

/-- Whether a plain scalar may start with `c`, followed by `next`. -/
def startsPlain (inFlow : Bool) (c next : Char) : Bool :=
  !(isSpacing c || "-?:,[]\x7b\x7d#&*!|>'\"%@`".toList.contains c)
    || (c == '-' && !isBlank next)
    || (!inFlow && (c == '?' || c == ':') && !isSpacing next)

/-- Whether a plain scalar ends before the first of `gs`, which is no blank or line break. -/
def endsPlain (inFlow : Bool) (indent : Nat) (gap : Gap) (g : Glyph) (rest : List Glyph) : Bool :=
  isEnd g.char
    || (!gap.isEmpty
      && ((!inFlow && g.column < indent) || g.char == '#' || atDocumentMark (g :: rest)))
    || (g.char == ':' && isSpacing (firstChar rest))
    || (inFlow && isFlowMark g.char)

/-- Reads on in a plain scalar with `text` so far, the last character first. The flag says whether a
line break stands before what follows. Inside brackets a colon must not touch a bracket or comma. -/
def plainFrom (inFlow : Bool) (indent : Nat) (gap : Gap) (text : List Char) :
    List Glyph → Option (String × Bool × List Glyph)
  | [] => some (.ofList text.reverse, gap.broken, [])
  | g :: rest =>
    if isBlank g.char then
      if gap.broken && g.column < indent && g.char == '\t' then none
      else plainFrom inFlow indent (gap.addBlank g.char) text rest
    else if isBreak g.char then plainFrom inFlow indent (gap.addBreak g.char) text rest
    else if endsPlain inFlow indent gap g rest then
      some (.ofList text.reverse, gap.broken, g :: rest)
    else if inFlow && g.char == ':' && (isFlowMark (firstChar rest) || firstChar rest == '?') then
      none
    else plainFrom inFlow indent {} (g.char :: (gap.fill ++ text)) rest

/-! ## Quoted scalars -/

/-- Characters that an escape of one letter stands for. -/
def escapes : List (Char × Char) :=
  [('0', '\x00'), ('a', '\x07'), ('b', '\x08'), ('t', '\t'), ('\t', '\t'), ('n', '\n'),
    ('v', '\x0b'), ('f', '\x0c'), ('r', '\r'), ('e', '\x1b'), (' ', ' '), ('"', '"'), ('/', '/'),
    ('\\', '\\'), ('N', '\u0085'), ('_', '\u00a0'), ('L', '\u2028'), ('P', '\u2029')]

/-- Number of digits of an escape that gives a code. -/
def codeLengths : List (Char × Nat) := [('x', 2), ('u', 4), ('U', 8)]

/-- The character with a code. -/
def charOfCode? (n : Nat) : Option Char :=
  if n < 55296 || (57343 < n && n < 1114112) then some (.ofNat n) else none

/-- A quoted scalar under way. -/
structure Quoted where
  /-- Text so far, the last character first. -/
  text : List Char := []
  /-- The gap that is open. -/
  gap : Option Gap := none
  /-- Number of missing digits of a code, and its value so far. -/
  code : Option (Nat × Nat) := none
deriving DecidableEq, Repr

namespace Quoted

/-- One more character. -/
def push (q : Quoted) (c : Char) : Quoted := { text := c :: q.text }

/-- Closes the gap. -/
def close (q : Quoted) : Quoted := { q with text := (q.gap.getD {}).fill ++ q.text, gap := none }

/-- One more digit of a code of which `missing` digits follow. -/
def addDigit? (q : Quoted) (missing value : Nat) (c : Char) : Option Quoted := do
  let d ← digit? c
  let value := 16 * value + d
  match missing with
  | 0 => return q.push (← charOfCode? value)
  | _ => return { q with code := some (missing, value) }

/-- What the character after a backslash makes of a scalar. A line break there vanishes. -/
def escape? (q : Quoted) (c : Char) : Option Quoted :=
  if isBreak c then some { q with gap := some { broken := true } }
  else
    match escapes.lookup c, codeLengths.lookup c with
    | some d, _ => some (q.push d)
    | none, some n => some { q with code := some (n, 0) }
    | none, none => none

end Quoted

/-- Reads on in a scalar with the quote `quote`. In single quotes the quote itself is written twice,
in double quotes a backslash starts an escape. -/
def quotedFrom (quote : Char) (q : Quoted) : List Glyph → Option (String × List Glyph)
  | [] => none
  | g :: rest =>
    match q.code with
    | some (missing, value) => do
      quotedFrom quote (← { q with code := none }.addDigit? (missing - 1) value g.char) rest
    | none =>
      if isBlank g.char then
        quotedFrom quote { q with gap := some ((q.gap.getD {}).addBlank g.char) } rest
      else if isBreak g.char then
        quotedFrom quote { q with gap := some ((q.gap.getD {}).addBreak g.char) } rest
      else if isEnd g.char || (q.gap.isSome && atDocumentMark (g :: rest)) then none
      else
        let q := q.close
        match rest with
        | [] => none
        | g' :: rest' =>
          if g.char == quote then
            if quote == '\'' && g'.char == '\'' then quotedFrom quote (q.push '\'') rest'
            else some (.ofList q.text.reverse, rest)
          else if quote == '"' && g.char == '\\' then do
            quotedFrom quote (← q.escape? g'.char) rest'
          else quotedFrom quote (q.push g.char) (g' :: rest')

/-! ## Blocks -/

/-- What happens to the line breaks at the end of a block. -/
inductive Chomp where
  /-- All go. -/
  | strip
  /-- The first stays. -/
  | clip
  /-- All stay. -/
  | keep
deriving DecidableEq, Repr

/-- The mark for line breaks at the end. -/
def chomp? (c : Char) : Option Chomp :=
  if c == '+' then some .keep else if c == '-' then some .strip else none

/-- The head of a block: the fate of line breaks at the end and the indentation, zero if it is to be
found out, each at most once and in any order. -/
def blockHead? (gs : List Glyph) : Option (Chomp × Nat × List Glyph) :=
  let digitOf (gs : List Glyph) : Option (Nat × List Glyph) :=
    if !isDigit (firstChar gs) then some (0, gs)
    else if firstChar gs == '0' then none
    else some ((firstChar gs).toNat - '0'.toNat, gs.drop 1)
  match chomp? (firstChar gs) with
  | some chomp => (digitOf (gs.drop 1)).map fun x => (chomp, x.1, x.2)
  | none =>
    (digitOf gs).map fun x =>
      match chomp? (firstChar x.2) with
      | some chomp => (chomp, x.1, x.2.drop 1)
      | none => (.clip, x.1, x.2)

/-- A block under way. -/
structure Block where
  /-- Whether line breaks are folded. -/
  folded : Bool
  /-- Least indentation. -/
  least : Nat
  /-- The indentation, zero until it is found out. -/
  indent : Nat
  /-- Widest run of blanks in front of a line so far. -/
  widest : Nat := 0
  /-- Text so far, the last character first. -/
  text : List Char := []
  /-- The break after the last line with text. -/
  lineBreak : Option Char := none
  /-- Breaks of empty lines after it, the last first. -/
  breaks : List Char := []
  /-- Whether the last line started with a blank. -/
  startsBlank : Bool := false
  /-- Whether a line with text is being read. -/
  inLine : Bool := false
deriving DecidableEq, Repr

namespace Block

/-- Settles the indentation at the first line with text. -/
def settle (b : Block) : Block :=
  if b.indent == 0 then { b with indent := max b.widest (max b.least 1) } else b

/-- Starts a line with `c`. A line break between two lines without blanks in front is folded. -/
def startLine (b : Block) (c : Char) : Block :=
  let folds := b.folded && b.lineBreak == some '\n' && !b.startsBlank && !isBlank c
  let text :=
    if folds then (if b.breaks.isEmpty then ' ' :: b.text else b.text)
    else b.lineBreak.toList ++ b.text
  { b with text := c :: (b.breaks ++ text), lineBreak := none, breaks := []
           startsBlank := isBlank c, inLine := true }

/-- The text of a block that has ended. -/
def finish (b : Block) : Chomp → String
  | .strip => .ofList b.text.reverse
  | .clip => .ofList (b.lineBreak.toList ++ b.text).reverse
  | .keep => .ofList (b.breaks ++ (b.lineBreak.toList ++ b.text)).reverse

end Block

/-- Reads on in a block. Lines with text stand at its indentation; a tab there is refused. -/
def blockFrom (b : Block) : List Glyph → Option (Block × List Glyph)
  | [] => some (b, [])
  | g :: rest =>
    if b.inLine then
      if isBreak g.char then blockFrom { b with inLine := false, lineBreak := some g.char } rest
      else if isEnd g.char then some (b, g :: rest)
      else blockFrom { b with text := g.char :: b.text } rest
    else
      let before := b.indent == 0 || g.column < b.indent
      if before && g.char == ' ' then blockFrom b rest
      else if before && g.char == '\t' then none
      else
        let b := { b with widest := max b.widest g.column }
        if isBreak g.char then blockFrom { b with breaks := g.char :: b.breaks } rest
        else
          let b := b.settle
          if g.column == b.indent && !isEnd g.char then blockFrom (b.startLine g.char) rest
          else some (b, g :: rest)

/-- The block after its mark. `indent` is that of what it stands in, if anything is indented. -/
def block? (folded : Bool) (indent : Option Nat) (gs : List Glyph) :
    Option (String × List Glyph) := do
  let (chomp, extra, gs) ← blockHead? gs
  let gs ← afterLine? gs
  let own := if extra == 0 then 0 else indent.getD 0 + extra
  let least := (indent.map (· + 1)).getD 0
  let (b, gs) ← blockFrom { folded := folded, least := least, indent := own } gs
  return (b.finish chomp, gs)

end IonTrap.Yaml
