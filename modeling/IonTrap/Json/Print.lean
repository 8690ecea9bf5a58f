import IonTrap.Json.Basic

/-!
# Printing JSON

Two layouts: compact, without blanks, and pretty, with one element or field per line and an indent
of two blanks per level. Both escape only quotes, backslashes and control characters.

`Json.compact` and `Json.pretty` stand for a general-purpose writer of JSON, of which they take over
what is documented: the two layouts, an empty array or object on one line in both, a blank after the
colon in the pretty one, the short escapes where the format has one and `\u00` with two digits in
lower case elsewhere, and doubles as their shortest decimals.
-/

namespace IonTrap.Json

/-- A hexadecimal digit in lower case. -/
def hexChar (n : Nat) : Char := "0123456789abcdef".toList.getD n '0'

/-- A character inside a string literal. -/
def escapeChar (c : Char) : String :=
  match c with
  | '"' => "\\\""
  | '\\' => "\\\\"
  | '\n' => "\\n"
  | '\r' => "\\r"
  | '\t' => "\\t"
  | '\x08' => "\\b"
  | '\x0c' => "\\f"
  | c =>
    if c.toNat < 32 then
      "\\u00" ++ String.singleton (hexChar (c.toNat / 16)) ++
        String.singleton (hexChar (c.toNat % 16))
    else String.singleton c

/-- A string literal. -/
def quote (s : String) : String := "\"" ++ String.join (s.toList.map escapeChar) ++ "\""

/-- A literal that reads back as `garbled`. -/
def garbledText : String := "\"\\ud800\""

mutual

/-- The value on one line without blanks. -/
def compact : Json → String
  | .null => "null"
  | .bool true => "true"
  | .bool false => "false"
  | .num n => n.text
  | .str s => quote s
  | .arr [] => "[]"
  | .arr (e :: es) => "[" ++ e.compact ++ compactElements es ++ "]"
  | .obj [] => "\x7b\x7d"
  | .obj ((k, v) :: fs) => "\x7b" ++ quote k ++ ":" ++ v.compact ++ compactFields fs ++ "\x7d"
  | .garbled => garbledText

/-- Elements after the first. -/
def compactElements : List Json → String
  | [] => ""
  | e :: es => "," ++ e.compact ++ compactElements es

/-- Fields after the first. -/
def compactFields : List (String × Json) → String
  | [] => ""
  | (k, v) :: fs => "," ++ quote k ++ ":" ++ v.compact ++ compactFields fs

end

/-- The line break before something at the given level. -/
def newline (level : Nat) : String := "\n" ++ String.ofList (List.replicate (2 * level) ' ')

mutual

/-- The value with one element or field per line; nested lines are indented from `level`. -/
def prettyAt (level : Nat) : Json → String
  | .null => "null"
  | .bool true => "true"
  | .bool false => "false"
  | .num n => n.text
  | .str s => quote s
  | .arr [] => "[]"
  | .arr (e :: es) =>
    "[" ++ newline (level + 1) ++ e.prettyAt (level + 1) ++ prettyElements (level + 1) es
      ++ newline level ++ "]"
  | .obj [] => "\x7b\x7d"
  | .obj ((k, v) :: fs) =>
    "\x7b" ++ newline (level + 1) ++ quote k ++ ": " ++ v.prettyAt (level + 1)
      ++ prettyFields (level + 1) fs ++ newline level ++ "\x7d"
  | .garbled => garbledText

/-- Elements after the first. -/
def prettyElements (level : Nat) : List Json → String
  | [] => ""
  | e :: es => "," ++ newline level ++ e.prettyAt level ++ prettyElements level es

/-- Fields after the first. -/
def prettyFields (level : Nat) : List (String × Json) → String
  | [] => ""
  | (k, v) :: fs =>
    "," ++ newline level ++ quote k ++ ": " ++ v.prettyAt level ++ prettyFields level fs

end

/-- The value with one element or field per line. -/
def pretty (j : Json) : String := j.prettyAt 0

end IonTrap.Json
