/-!
# Characters in place

YAML is read off characters that know where they stand: indentation and the length of keys decide
what a text means. A list of such characters always ends with a mark of its own, so that there is a
next character to look at until the end.

Carriage returns, line feeds, both together and next-line characters all break a line in the same
way, so they are one character here. The line and paragraph separators break lines too but keep
their identity.
-/

namespace IonTrap.Yaml

/-- A character and its place. -/
structure Glyph where
  /-- The character. -/
  char : Char
  /-- Number of bytes before it. -/
  index : Nat
  /-- Number of line breaks before it. -/
  line : Nat
  /-- Number of characters before it on its line. -/
  column : Nat
deriving DecidableEq, Repr

/-! ## Classes of characters -/

/-- Stands after the last character. No text holds it. -/
def endMark : Char := '\x00'

/-- Whether a text may hold a character. -/
def isAllowed (c : Char) : Bool :=
  let n := c.toNat
  n == 9 || n == 10 || n == 13 || (32 ≤ n && n ≤ 126) || n == 133 || (160 ≤ n && n ≤ 65533)
    || 65536 ≤ n

/-- Blanks inside a line. -/
def isBlank (c : Char) : Bool := c == ' ' || c == '\t'

/-- Line breaks. -/
def isBreak (c : Char) : Bool := c == '\n' || c == '\u2028' || c == '\u2029'

/-- The end of the text. -/
def isEnd (c : Char) : Bool := c == endMark

/-- What ends a line. -/
def isBreakOrEnd (c : Char) : Bool := isBreak c || isEnd c

/-- What separates words: blanks, line breaks and the end. -/
def isSpacing (c : Char) : Bool := isBlank c || isBreak c || isEnd c

/-- Characters with a meaning inside brackets. -/
def isFlowMark (c : Char) : Bool := c == ',' || c == '[' || c == ']' || c == '\x7b' || c == '\x7d'

/-- Decimal digits. -/
def isDigit (c : Char) : Bool := '0' ≤ c && c ≤ '9'

/-- Letters, digits, the underscore and the hyphen. -/
def isWordChar (c : Char) : Bool :=
  isDigit c || ('a' ≤ c && c ≤ 'z') || ('A' ≤ c && c ≤ 'Z') || c == '_' || c == '-'

/-- Value of a digit in bases up to sixteen. -/
def digit? (c : Char) : Option Nat :=
  if isDigit c then some (c.toNat - '0'.toNat)
  else if 'a' ≤ c ∧ c ≤ 'f' then some (c.toNat - 'a'.toNat + 10)
  else if 'A' ≤ c ∧ c ≤ 'F' then some (c.toNat - 'A'.toNat + 10)
  else none

/-! ## Texts -/

/-- The characters of a text from a given place on. -/
def glyphsFrom (index line column : Nat) : List Char → List Glyph
  | [] => [⟨endMark, index, line, column⟩]
  | '\r' :: '\n' :: cs => ⟨'\n', index, line, column⟩ :: glyphsFrom (index + 2) (line + 1) 0 cs
  | c :: cs =>
    let next := index + c.utf8Size
    let c := if c == '\r' || c == '\u0085' then '\n' else c
    if isBreak c then ⟨c, index, line, column⟩ :: glyphsFrom next (line + 1) 0 cs
    else ⟨c, index, line, column⟩ :: glyphsFrom next line (column + 1) cs

/-- The characters of a text, if it may hold all of them. -/
def glyphs? (s : String) : Option (List Glyph) :=
  if s.toList.all isAllowed then some (glyphsFrom 0 0 0 s.toList) else none

/-- The first character. -/
def firstChar (gs : List Glyph) : Char := (gs.head?.map (·.char)).getD endMark

/-- Drops characters of a class. -/
def skip (p : Char → Bool) (gs : List Glyph) : List Glyph := gs.dropWhile fun g => p g.char

/-- Takes characters of a class. -/
def charsOf (p : Char → Bool) (gs : List Glyph) : List Char :=
  (gs.takeWhile fun g => p g.char).map (·.char)

/-- Whether a line starts with a character three times and then spacing. -/
def atMark (c : Char) : List Glyph → Bool
  | g₀ :: g₁ :: g₂ :: g₃ :: _ =>
    g₀.column == 0 && g₀.char == c && g₁.char == c && g₂.char == c && isSpacing g₃.char
  | _ => false

/-- Whether the mark between documents starts here, or that of their end. -/
def atDocumentMark (gs : List Glyph) : Bool := atMark '-' gs || atMark '.' gs

/-- What follows blanks and a comment at the end of a line. Anything else there is refused. -/
def afterLine? (gs : List Glyph) : Option (List Glyph) :=
  let gs := skip isBlank gs
  let gs := if firstChar gs == '#' then skip (!isBreakOrEnd ·) gs else gs
  match gs with
  | g :: rest => if isBreak g.char then some rest else if isEnd g.char then some gs else none
  | [] => some []

/-! ## Gaps

Blanks and line breaks inside a scalar stand for less than what is written: blanks around a line
break are dropped, one line break is a blank, and of several all but the first are kept.
-/

/-- Blanks and line breaks between two words of a scalar. -/
structure Gap where
  /-- Blanks before any line break, the last first. -/
  blanks : List Char := []
  /-- Whether a line has ended. -/
  broken : Bool := false
  /-- The line break that ended it, if that is to be kept in mind. -/
  first : Option Char := none
  /-- Further line breaks, the last first. -/
  more : List Char := []
deriving DecidableEq, Repr

namespace Gap

/-- Whether there is no gap. -/
def isEmpty (g : Gap) : Bool := g.blanks.isEmpty && !g.broken

/-- One more blank. -/
def addBlank (g : Gap) (c : Char) : Gap :=
  if g.broken then g else { g with blanks := c :: g.blanks }

/-- One more line break. -/
def addBreak (g : Gap) (c : Char) : Gap :=
  if g.broken then { g with more := c :: g.more }
  else { blanks := [], broken := true, first := some c, more := [] }

/-- What a gap stands for, the last character first. -/
def fill (g : Gap) : List Char :=
  if !g.broken then g.blanks
  else
    match g.first with
    | none => g.more
    | some c =>
      if c == '\n' then (if g.more.isEmpty then [' '] else g.more) else g.more ++ [c]

end Gap

end IonTrap.Yaml
