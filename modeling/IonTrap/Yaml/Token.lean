import IonTrap.Yaml.Glyph

/-!
# Tokens of YAML

Tokens carry what indentation and line breaks say, so that the structure of a text can be read off
them alone.
-/

namespace IonTrap.Yaml

/-- How a scalar is written. -/
inductive Style where
  /-- Without quotes. -/
  | plain
  /-- In single quotes. -/
  | single
  /-- In double quotes. -/
  | double
  /-- As a block whose line breaks are kept. -/
  | literal
  /-- As a block whose line breaks are folded. -/
  | folded
deriving DecidableEq, Repr

/-- The name of a tag, as bytes. -/
abbrev Tag := List Nat

/-- The bytes of a text without characters beyond ASCII. -/
def asciiBytes (s : String) : List Nat := s.toList.map (·.toNat)

/-- A token. -/
inductive Token where
  /-- The version of YAML. -/
  | version (major minor : Nat)
  /-- What a tag handle stands for. -/
  | handle (name : String) (base : Tag)
  /-- Start of a document. -/
  | documentStart
  /-- End of a document. -/
  | documentEnd
  /-- Start of an indented sequence. -/
  | blockSequenceStart
  /-- Start of an indented mapping. -/
  | blockMappingStart
  /-- End of an indented sequence or mapping. -/
  | blockEnd
  /-- Opening square bracket. -/
  | flowSequenceStart
  /-- Closing square bracket. -/
  | flowSequenceEnd
  /-- Opening curly bracket. -/
  | flowMappingStart
  /-- Closing curly bracket. -/
  | flowMappingEnd
  /-- Hyphen in front of an item. -/
  | blockEntry
  /-- Comma. -/
  | flowEntry
  /-- A key comes next. -/
  | key
  /-- A value comes next. -/
  | value
  /-- Stands for the value with a name. -/
  | alias (name : String)
  /-- Names the value that comes next. -/
  | anchor (name : String)
  /-- Tags the value that comes next. -/
  | tag (handle : String) (suffix : Tag)
  /-- A scalar. -/
  | scalar (text : String) (style : Style)
deriving DecidableEq, Repr

end IonTrap.Yaml
