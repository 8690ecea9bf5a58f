import IonTrap.Json.Basic

/-!
# JSON tokens

Text is cut into tokens before any structure is looked at. A token is a punctuation mark, a word, a
number literal or a string; blanks between tokens are dropped. The cutting is strict: no leading
zeros, no bare point, no control characters inside strings, only the escapes of the format.
-/

namespace IonTrap.Json

/-- A token. -/
inductive Token where
  | openArray
  | closeArray
  | openObject
  | closeObject
  | comma
  | colon
  | null
  | bool (b : Bool)
  | num (n : Numeral)
  /-- A string, or `none` if it holds an unpaired surrogate. -/
  | str (s : Option String)
deriving DecidableEq, Repr

/-- The characters allowed between tokens. -/
def isBlank (c : Char) : Bool := c == ' ' || c == '\t' || c == '\n' || c == '\r'

/-! ## Strings -/

/-- A piece of a string literal: a character written as itself or by a short escape, or the number
of a `\u` escape. -/
inductive Piece where
  | char (c : Char)
  | code (n : Nat)
deriving DecidableEq, Repr

/-- The value of a hexadecimal digit. -/
def hexDigit? (c : Char) : Option Nat :=
  if '0' ≤ c && c ≤ '9' then some (c.toNat - '0'.toNat)
  else if 'a' ≤ c && c ≤ 'f' then some (c.toNat - 'a'.toNat + 10)
  else if 'A' ≤ c && c ≤ 'F' then some (c.toNat - 'A'.toNat + 10)
  else none

/-- The number of four hexadecimal digits. -/
def hexCode? (a b c d : Char) : Option Nat := do
  let a ← hexDigit? a
  let b ← hexDigit? b
  let c ← hexDigit? c
  let d ← hexDigit? d
  return ((a * 16 + b) * 16 + c) * 16 + d

/-- The character of a short escape. -/
def shortEscape? : Char → Option Char
  | '"' => some '"'
  | '\\' => some '\\'
  | '/' => some '/'
  | 'b' => some '\x08'
  | 'f' => some '\x0c'
  | 'n' => some '\n'
  | 'r' => some '\r'
  | 't' => some '\t'
  | _ => none

/-- The pieces of a string literal after its opening quote, and the text after its closing one. -/
def scanString : List Char → Option (List Piece × List Char)
  | [] => none
  | '"' :: rest => some ([], rest)
  | '\\' :: 'u' :: a :: b :: c :: d :: rest =>
    match hexCode? a b c d, scanString rest with
    | some n, some (ps, rest) => some (.code n :: ps, rest)
    | _, _ => none
  | '\\' :: e :: rest =>
    match shortEscape? e, scanString rest with
    | some x, some (ps, rest) => some (.char x :: ps, rest)
    | _, _ => none
  | x :: rest =>
    if x == '\\' || x.toNat < 32 then none
    else
      match scanString rest with
      | some (ps, rest) => some (.char x :: ps, rest)
      | none => none

/-- Whether a code is the first half of a surrogate pair. -/
def isHighSurrogate (n : Nat) : Bool := 0xD800 ≤ n && n ≤ 0xDBFF

/-- Whether a code is the second half of a surrogate pair. -/
def isLowSurrogate (n : Nat) : Bool := 0xDC00 ≤ n && n ≤ 0xDFFF

/-- The characters of the pieces. Two escapes that form a surrogate pair are one character; a
surrogate without its partner has none. -/
def joinPieces : List Piece → Option (List Char)
  | [] => some []
  | .char c :: ps => (joinPieces ps).map (c :: ·)
  | .code h :: .code l :: ps =>
    if isHighSurrogate h then
      if isLowSurrogate l then
        (joinPieces ps).map (Char.ofNat ((h - 0xD800) * 0x400 + (l - 0xDC00) + 0x10000) :: ·)
      else none
    else if isLowSurrogate h then none
    else (joinPieces (.code l :: ps)).map (Char.ofNat h :: ·)
  | .code n :: ps =>
    if isHighSurrogate n || isLowSurrogate n then none
    else (joinPieces ps).map (Char.ofNat n :: ·)

/-! ## Numbers -/

/-- Leading decimal digits and the text after them. -/
def scanDigits : List Char → List Nat × List Char
  | [] => ([], [])
  | c :: rest =>
    if c.isDigit then
      let (ds, rest) := scanDigits rest
      ((c.toNat - '0'.toNat) :: ds, rest)
    else ([], c :: rest)

/-- A fraction, if the text starts with a point. At least one digit must follow it. -/
def scanFraction : List Char → Option (List Nat × List Char)
  | '.' :: rest =>
    match scanDigits rest with
    | ([], _) => none
    | (ds, rest) => some (ds, rest)
  | cs => some ([], cs)

/-- The digits of an exponent, at least one. -/
def scanExponentDigits (neg : Bool) (cs : List Char) : Option (Option Int × List Char) :=
  match scanDigits cs with
  | ([], _) => none
  | (ds, rest) =>
    let e : Int := Numeral.natOfDigits ds
    some (some (if neg then -e else e), rest)

/-- An exponent, if the text starts with its mark. -/
def scanExponent : List Char → Option (Option Int × List Char)
  | c :: rest =>
    if c == 'e' || c == 'E' then
      match rest with
      | '+' :: rest => scanExponentDigits false rest
      | '-' :: rest => scanExponentDigits true rest
      | rest => scanExponentDigits false rest
    else some (none, c :: rest)
  | [] => some (none, [])

/-- An unsigned number literal. The whole part has no leading zero. -/
def scanUnsigned (neg : Bool) (cs : List Char) : Option (Numeral × List Char) :=
  match scanDigits cs with
  | ([], _) => none
  | (0 :: _ :: _, _) => none
  | (ds, rest) =>
    match scanFraction rest with
    | none => none
    | some (fraction, rest) =>
      match scanExponent rest with
      | none => none
      | some (exponent, rest) => some (⟨neg, Numeral.natOfDigits ds, fraction, exponent⟩, rest)

/-! ## The rest of the text is shorter -/

theorem length_of_scanString {cs : List Char} {ps rest} (h : scanString cs = some (ps, rest)) :
    rest.length < cs.length := by
  fun_induction scanString cs generalizing ps rest <;> (try simp only [List.length_cons]) <;> grind

theorem length_scanDigits (cs : List Char) :
    (scanDigits cs).1.length + (scanDigits cs).2.length = cs.length := by
  fun_induction scanDigits cs <;> grind

theorem length_of_scanFraction {cs : List Char} {ds rest} (h : scanFraction cs = some (ds, rest)) :
    rest.length ≤ cs.length := by
  unfold scanFraction at h
  split at h
  · next r =>
    have := length_scanDigits r
    grind
  · grind

theorem length_of_scanExponentDigits {neg : Bool} {cs : List Char} {e rest}
    (h : scanExponentDigits neg cs = some (e, rest)) : rest.length ≤ cs.length := by
  unfold scanExponentDigits at h
  have := length_scanDigits cs
  grind

theorem length_of_scanExponent {cs : List Char} {e rest} (h : scanExponent cs = some (e, rest)) :
    rest.length ≤ cs.length := by
  unfold scanExponent at h
  split at h
  · split at h
    · split at h <;> have := length_of_scanExponentDigits h <;> grind
    · grind
  · grind

theorem length_of_scanUnsigned {neg : Bool} {cs : List Char} {n rest}
    (h : scanUnsigned neg cs = some (n, rest)) : rest.length < cs.length := by
  unfold scanUnsigned at h
  have hl := length_scanDigits cs
  split at h
  · simp at h
  · simp at h
  · next ds r hne _ hd =>
    have hpos : 0 < ds.length := List.length_pos_iff.2 fun hnil => hne hnil
    rw [hd] at hl
    split at h
    · simp at h
    · next hf =>
      have := length_of_scanFraction hf
      split at h
      · simp at h
      · next he =>
        have := length_of_scanExponent he
        grind

/-! ## Cutting text -/

/-- The token that starts with `c`, and the text after it. -/
def scanToken (c : Char) (cs : List Char) : Option (Token × List Char) :=
  match c, cs with
  | '[', _ => some (.openArray, cs)
  | ']', _ => some (.closeArray, cs)
  | '\x7b', _ => some (.openObject, cs)
  | '\x7d', _ => some (.closeObject, cs)
  | ',', _ => some (.comma, cs)
  | ':', _ => some (.colon, cs)
  | 'n', 'u' :: 'l' :: 'l' :: rest => some (.null, rest)
  | 't', 'r' :: 'u' :: 'e' :: rest => some (.bool true, rest)
  | 'f', 'a' :: 'l' :: 's' :: 'e' :: rest => some (.bool false, rest)
  | '"', _ => (scanString cs).map fun (ps, rest) => (.str ((joinPieces ps).map String.ofList), rest)
  | '-', _ => (scanUnsigned true cs).map fun (n, rest) => (.num n, rest)
  | _, _ => (scanUnsigned false (c :: cs)).map fun (n, rest) => (.num n, rest)

theorem length_of_scanToken {c : Char} {cs : List Char} {t rest}
    (h : scanToken c cs = some (t, rest)) : rest.length < (c :: cs).length := by
  unfold scanToken at h
  split at h
  case h_10 =>
    obtain ⟨⟨ps, r⟩, hs, he⟩ := Option.map_eq_some_iff.1 h
    have := length_of_scanString hs
    grind
  case h_11 =>
    obtain ⟨⟨n, r⟩, hs, he⟩ := Option.map_eq_some_iff.1 h
    have := length_of_scanUnsigned hs
    grind
  case h_12 =>
    obtain ⟨⟨n, r⟩, hs, he⟩ := Option.map_eq_some_iff.1 h
    have := length_of_scanUnsigned hs
    grind
  all_goals simp only [Option.some.injEq, Prod.mk.injEq] at h; grind

/-- The tokens of a text, or `none` if it cannot be cut into tokens. -/
def tokenize : List Char → Option (List Token)
  | [] => some []
  | c :: cs =>
    if isBlank c then tokenize cs
    else
      match h : scanToken c cs with
      | none => none
      | some (t, rest) =>
        have := length_of_scanToken h
        (tokenize rest).map (t :: ·)
termination_by cs => cs.length
decreasing_by all_goals (simp only [List.length_cons] at *; omega)

end IonTrap.Json
