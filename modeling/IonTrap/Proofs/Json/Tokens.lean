import IonTrap.Json.Print
import IonTrap.Proofs.Json.Numerals

/-!
# Cutting printed text into tokens

`Json.tokens` lists the tokens of a value without any layout. Printed text is cut into exactly these
tokens (`Json.cuts_prettyAt`): blanks between them are dropped, a string literal gives back its
string although control characters are escaped (`Json.cuts_quote`), and a number ends where the
layout goes on with a comma or a new line.
-/

namespace IonTrap.Json

open Numeral (EndsNumber)

/-! ## String literals -/

theorem hexDigit?_hexChar : ∀ n < 16, hexDigit? (hexChar n) = some n := by
  decide

theorem joinPieces_code {n : Nat} (hn : n < 0xD800) (ps : List Piece) :
    joinPieces (.code n :: ps) = (joinPieces ps).map (Char.ofNat n :: ·) := by
  have hhigh : isHighSurrogate n = false := by
    simp only [isHighSurrogate, Bool.and_eq_false_iff, decide_eq_false_iff_not]
    omega
  have hlow : isLowSurrogate n = false := by
    simp only [isLowSurrogate, Bool.and_eq_false_iff, decide_eq_false_iff_not]
    omega
  match ps with
  | [] => simp [joinPieces, hhigh, hlow]
  | .char _ :: _ => simp [joinPieces, hhigh, hlow]
  | .code _ :: _ => rw [joinPieces, if_neg (by simp [hhigh]), if_neg (by simp [hlow])]

/-- Inside a string literal, `text` is one piece and stands for the character `c`. -/
def Spells (text : List Char) (c : Char) : Prop :=
  ∃ p, (∀ rest, scanString (text ++ rest) = (scanString rest).map fun r => (p :: r.1, r.2)) ∧
    ∀ ps, joinPieces (p :: ps) = (joinPieces ps).map (c :: ·)

theorem spells_short {e c : Char} (he : e ≠ 'u') (hshort : shortEscape? e = some c) :
    Spells ['\\', e] c := by
  refine ⟨.char c, fun rest => ?_, fun ps => rfl⟩
  show scanString ('\\' :: e :: rest) = _
  rw [scanString, hshort]
  · cases scanString rest <;> rfl
  · simp [he]

theorem spells_code {c : Char} (hc : c.toNat < 32) :
    Spells ['\\', 'u', '0', '0', hexChar (c.toNat / 16), hexChar (c.toNat % 16)] c := by
  refine ⟨.code c.toNat, fun rest => ?_, fun ps => ?_⟩
  · have hcode : hexCode? '0' '0' (hexChar (c.toNat / 16)) (hexChar (c.toNat % 16))
        = some c.toNat := by
      have hzero : hexDigit? '0' = some 0 := by decide
      simp only [hexCode?, hzero, hexDigit?_hexChar (c.toNat / 16) (by omega),
        hexDigit?_hexChar (c.toNat % 16) (by omega), Option.bind_eq_bind, Option.bind_some,
        Option.pure_def, Option.some.injEq]
      omega
    show scanString ('\\' :: 'u' :: '0' :: '0' :: hexChar (c.toNat / 16)
      :: hexChar (c.toNat % 16) :: rest) = _
    rw [scanString, hcode]
    cases scanString rest <;> rfl
  · rw [joinPieces_code (by omega), Char.ofNat_toNat]

theorem spells_self {c : Char} (hquote : c ≠ '"') (hslash : c ≠ '\\') (hc : ¬ c.toNat < 32) :
    Spells [c] c := by
  refine ⟨.char c, fun rest => ?_, fun ps => rfl⟩
  show scanString (c :: rest) = _
  rw [scanString, if_neg (by simp [hslash, hc])]
  · cases scanString rest <;> rfl
  all_goals simp [hquote, hslash]

/-- Every character is written as one piece that stands for it. -/
theorem spells_escapeChar (c : Char) : Spells (escapeChar c).toList c := by
  unfold escapeChar
  split
  case h_8 hquote hslash _ _ _ _ _ =>
    split_ifs with hc
    · simpa using spells_code hc
    · simpa using spells_self hquote hslash hc
  all_goals exact spells_short (by decide) rfl

theorem scanString_escaped (cs rest : List Char) :
    ∃ ps, scanString ((String.join (cs.map escapeChar)).toList ++ '"' :: rest) = some (ps, rest) ∧
      joinPieces ps = some cs := by
  rw [String.toList_join, List.flatMap_map]
  induction cs with
  | nil => exact ⟨[], by simp [scanString], rfl⟩
  | cons c cs ih =>
    obtain ⟨ps, hscan, hjoin⟩ := ih
    obtain ⟨p, hpiece, hstands⟩ := spells_escapeChar c
    refine ⟨p :: ps, ?_, by rw [hstands, hjoin]; rfl⟩
    rw [List.flatMap_cons, List.append_assoc, hpiece, hscan]
    rfl

/-! ## Cutting -/

theorem tokenize_blank {c : Char} (hc : isBlank c = true) (cs : List Char) :
    tokenize (c :: cs) = tokenize cs := by
  rw [tokenize, if_pos hc]

theorem tokenize_blanks {bs : List Char} (hbs : ∀ c ∈ bs, isBlank c = true) (cs : List Char) :
    tokenize (bs ++ cs) = tokenize cs := by
  induction bs with
  | nil => rfl
  | cons b bs ih =>
    rw [List.cons_append, tokenize_blank (hbs b List.mem_cons_self)]
    exact ih fun c hc => hbs c (List.mem_cons_of_mem _ hc)

theorem tokenize_token {c : Char} {cs rest : List Char} {t : Token} (hc : isBlank c = false)
    (ht : scanToken c cs = some (t, rest)) :
    tokenize (c :: cs) = (tokenize rest).map (t :: ·) := by
  rw [tokenize, hc, if_neg (by simp)]
  split
  · next h => simp [ht] at h
  · next h =>
    obtain ⟨rfl, rfl⟩ := Prod.mk.inj (Option.some.inj (ht.symm.trans h))
    rfl

/-- In front of `rest`, the text `s` is cut into the tokens `ts`. -/
def Cuts (s : String) (ts : List Token) (rest : List Char) : Prop :=
  tokenize (s.toList ++ rest) = (tokenize rest).map (ts ++ ·)

namespace Cuts

variable {s t : String} {ts us : List Token} {rest : List Char}

theorem append (hs : Cuts s ts (t.toList ++ rest)) (ht : Cuts t us rest) :
    Cuts (s ++ t) (ts ++ us) rest := by
  unfold Cuts at *
  rw [String.toList_append, List.append_assoc, hs, ht, Option.map_map]
  congr 1
  funext ws
  exact (List.append_assoc ts us ws).symm

theorem of_blanks (hs : ∀ c ∈ s.toList, isBlank c = true) : Cuts s [] rest := by
  unfold Cuts
  rw [tokenize_blanks hs]
  simp

theorem of_token {c : Char} {cs : List Char} {k : Token} (htext : s.toList ++ rest = c :: cs)
    (hc : isBlank c = false) (ht : scanToken c cs = some (k, rest)) : Cuts s [k] rest := by
  unfold Cuts
  rw [htext, tokenize_token hc ht]
  rfl

end Cuts

theorem cuts_newline (level : Nat) (rest : List Char) : Cuts (newline level) [] rest := by
  have htext : (newline level).toList = '\n' :: List.replicate (2 * level) ' ' := by
    simp [newline]
  refine Cuts.of_blanks fun c hc => ?_
  rw [htext, List.mem_cons, List.mem_replicate] at hc
  rcases hc with rfl | ⟨-, rfl⟩ <;> rfl

/-- A string literal is cut as its string. -/
theorem cuts_quote (s : String) (rest : List Char) : Cuts (quote s) [.str (some s)] rest := by
  obtain ⟨ps, hscan, hjoin⟩ := scanString_escaped s.toList rest
  have htext : (quote s).toList ++ rest
      = '"' :: ((String.join (s.toList.map escapeChar)).toList ++ '"' :: rest) := by
    rw [quote, String.toList_append, String.toList_append, List.append_assoc, List.append_assoc]
    rfl
  refine Cuts.of_token htext rfl ?_
  show (scanString _).map _ = _
  rw [hscan]
  show some (Token.str ((joinPieces ps).map String.ofList), rest) = _
  rw [hjoin, Option.map_some, String.ofList_toList]

theorem cuts_numeral {n : Numeral} (hn : n.WellFormed) {rest : List Char} (h : EndsNumber rest) :
    Cuts n.text [.num n] rest := by
  obtain ⟨c, cs, htext, hblank, hscan⟩ := Numeral.scan_text hn h
  exact Cuts.of_token htext hblank hscan

/-! ## The tokens of a value -/

mutual

/-- The tokens of a value. -/
def tokens : Json → List Token
  | .null => [.null]
  | .bool b => [.bool b]
  | .num n => [.num n]
  | .str s => [.str (some s)]
  | .arr [] => [.openArray, .closeArray]
  | .arr (e :: es) => .openArray :: (e.tokens ++ tokensElements es ++ [.closeArray])
  | .obj [] => [.openObject, .closeObject]
  | .obj ((k, v) :: fs) =>
    .openObject :: .str (some k) :: .colon :: (v.tokens ++ tokensFields fs ++ [.closeObject])
  | .garbled => [.str none]

/-- The tokens of the elements after the first. -/
def tokensElements : List Json → List Token
  | [] => []
  | e :: es => .comma :: (e.tokens ++ tokensElements es)

/-- The tokens of the fields after the first. -/
def tokensFields : List (String × Json) → List Token
  | [] => []
  | (k, v) :: fs => .comma :: .str (some k) :: .colon :: (v.tokens ++ tokensFields fs)

end

mutual

/-- Every number literal in the value is well formed. -/
def WellFormed : Json → Prop
  | .num n => n.WellFormed
  | .arr es => WellFormedElements es
  | .obj fs => WellFormedFields fs
  | _ => True

/-- `WellFormed` of every element. -/
def WellFormedElements : List Json → Prop
  | [] => True
  | e :: es => e.WellFormed ∧ WellFormedElements es

/-- `WellFormed` of every field value. -/
def WellFormedFields : List (String × Json) → Prop
  | [] => True
  | (_, v) :: fs => v.WellFormed ∧ WellFormedFields fs

end

/-! ## Printed text -/

theorem endsNumber_newline (level : Nat) (rest : List Char) :
    EndsNumber ((newline level).toList ++ rest) := by
  intro c hc
  obtain rfl : c = '\n' := by simpa [newline, eq_comm] using hc
  decide

theorem endsNumber_prettyElements (level : Nat) (es : List Json) {rest : List Char}
    (h : EndsNumber rest) : EndsNumber ((prettyElements level es).toList ++ rest) := by
  cases es with
  | nil => simpa [prettyElements] using h
  | cons e es =>
    intro c hc
    obtain rfl : c = ',' := by simpa [prettyElements, eq_comm] using hc
    decide

theorem endsNumber_prettyFields (level : Nat) (fs : List (String × Json)) {rest : List Char}
    (h : EndsNumber rest) : EndsNumber ((prettyFields level fs).toList ++ rest) := by
  cases fs with
  | nil => simpa [prettyFields] using h
  | cons f fs =>
    intro c hc
    obtain rfl : c = ',' := by simpa [prettyFields, eq_comm] using hc
    decide

section Marks

variable (rest : List Char)

theorem cuts_openArray : Cuts "[" [.openArray] rest := Cuts.of_token rfl rfl rfl

theorem cuts_closeArray : Cuts "]" [.closeArray] rest := Cuts.of_token rfl rfl rfl

theorem cuts_openObject : Cuts "\x7b" [.openObject] rest := Cuts.of_token rfl rfl rfl

theorem cuts_closeObject : Cuts "\x7d" [.closeObject] rest := Cuts.of_token rfl rfl rfl

theorem cuts_emptyArray : Cuts "[]" [.openArray, .closeArray] rest := by
  show tokenize ('[' :: ']' :: rest) = _
  rw [tokenize_token rfl rfl, tokenize_token rfl rfl, Option.map_map]
  rfl

theorem cuts_emptyObject : Cuts "\x7b\x7d" [.openObject, .closeObject] rest := by
  show tokenize ('\x7b' :: '\x7d' :: rest) = _
  rw [tokenize_token rfl rfl, tokenize_token rfl rfl, Option.map_map]
  rfl

theorem cuts_comma : Cuts "," [.comma] rest := Cuts.of_token rfl rfl rfl

theorem cuts_colon : Cuts ": " [.colon] rest := by
  show tokenize (':' :: ' ' :: rest) = _
  rw [tokenize_token rfl rfl, tokenize_blank rfl]
  rfl

theorem cuts_null : Cuts "null" [.null] rest :=
  Cuts.of_token (show _ = 'n' :: 'u' :: 'l' :: 'l' :: rest from rfl) rfl rfl

theorem cuts_true : Cuts "true" [.bool true] rest :=
  Cuts.of_token (show _ = 't' :: 'r' :: 'u' :: 'e' :: rest from rfl) rfl rfl

theorem cuts_false : Cuts "false" [.bool false] rest :=
  Cuts.of_token (show _ = 'f' :: 'a' :: 'l' :: 's' :: 'e' :: rest from rfl) rfl rfl

/-- An unpaired surrogate is cut as a string without a value. -/
theorem cuts_garbledText : Cuts garbledText [.str none] rest :=
  Cuts.of_token (show _ = '"' :: '\\' :: 'u' :: 'd' :: '8' :: '0' :: '0' :: '"' :: rest from rfl)
    rfl rfl

end Marks

mutual

/-- A printed value is cut into its tokens. -/
theorem cuts_prettyAt (level : Nat) (j : Json) (hj : j.WellFormed) {rest : List Char}
    (h : EndsNumber rest) : Cuts (j.prettyAt level) j.tokens rest := by
  match j with
  | .null => exact cuts_null rest
  | .bool true => exact cuts_true rest
  | .bool false => exact cuts_false rest
  | .num n => exact cuts_numeral hj h
  | .str s => exact cuts_quote s rest
  | .arr [] => exact cuts_emptyArray rest
  | .arr (e :: es) =>
    have hend := endsNumber_newline level ("]".toList ++ rest)
    have hcut := (((((cuts_openArray _).append (cuts_newline (level + 1) _)).append
      (cuts_prettyAt (level + 1) e hj.1 (endsNumber_prettyElements (level + 1) es hend))).append
      (cuts_prettyElements (level + 1) es hj.2 hend)).append (cuts_newline level _)).append
      (cuts_closeArray rest)
    simpa [prettyAt, tokens] using hcut
  | .obj [] => exact cuts_emptyObject rest
  | .obj ((k, v) :: fs) =>
    have hend := endsNumber_newline level ("\x7d".toList ++ rest)
    have hcut := (((((((cuts_openObject _).append (cuts_newline (level + 1) _)).append
      (cuts_quote k _)).append (cuts_colon _)).append
      (cuts_prettyAt (level + 1) v hj.1 (endsNumber_prettyFields (level + 1) fs hend))).append
      (cuts_prettyFields (level + 1) fs hj.2 hend)).append (cuts_newline level _)).append
      (cuts_closeObject rest)
    simpa [prettyAt, tokens] using hcut
  | .garbled => exact cuts_garbledText rest

/-- Printed elements are cut into their tokens. -/
theorem cuts_prettyElements (level : Nat) (es : List Json) (hes : WellFormedElements es)
    {rest : List Char} (h : EndsNumber rest) :
    Cuts (prettyElements level es) (tokensElements es) rest := by
  match es with
  | [] => exact Cuts.of_blanks (by simp [prettyElements])
  | e :: es =>
    have hcut := (((cuts_comma _).append (cuts_newline level _)).append
      (cuts_prettyAt level e hes.1 (endsNumber_prettyElements level es h))).append
      (cuts_prettyElements level es hes.2 h)
    simpa [prettyElements, tokensElements] using hcut

/-- Printed fields are cut into their tokens. -/
theorem cuts_prettyFields (level : Nat) (fs : List (String × Json)) (hfs : WellFormedFields fs)
    {rest : List Char} (h : EndsNumber rest) :
    Cuts (prettyFields level fs) (tokensFields fs) rest := by
  match fs with
  | [] => exact Cuts.of_blanks (by simp [prettyFields])
  | (k, v) :: fs =>
    have hcut := (((((cuts_comma _).append (cuts_newline level _)).append
      (cuts_quote k _)).append (cuts_colon _)).append
      (cuts_prettyAt level v hfs.1 (endsNumber_prettyFields level fs h))).append
      (cuts_prettyFields level fs hfs.2 h)
    simpa [prettyFields, tokensFields] using hcut

end

end IonTrap.Json
