import IonTrap.Json.Token

/-!
# From tokens to values

A value is assembled by a machine that reads one token at a time. Its memory is the list of arrays
and objects that are still open, so nesting may be of any depth and every token is read once.

`Json.parse` stands for a general-purpose reader of JSON, of which it takes over what is documented:
a text is one value with nothing but blanks around it, the grammar is that of the format without
extensions (no comments, no trailing commas, no words but `null`, `true` and `false`), and any
violation refuses the text as a whole. Where a violation is, and how it is worded, is not modelled.
-/

namespace IonTrap.Json

/-- An open array or object. Finished parts are kept last first. -/
inductive Frame where
  | array (done : List Json)
  /-- `key` is the latest key read; `none` if it was garbled. -/
  | object (done : List (Option String × Json)) (key : Option String)
deriving Repr

/-- What may stand next. -/
inductive Expect where
  /-- A value. -/
  | value
  /-- The first element of an array, or its end. -/
  | firstElement
  /-- A key. -/
  | key
  /-- The first key of an object, or its end. -/
  | firstKey
  /-- The colon after a key. -/
  | colon
  /-- The value `v` is complete; a comma, a closing bracket or the end follows. -/
  | next (v : Json)
deriving Repr

/-- The machine's memory: the open frames, innermost first, and what may stand next. -/
structure Reading where
  /-- Open arrays and objects, innermost first. -/
  frames : List Frame
  /-- What may stand next. -/
  expect : Expect
deriving Repr

/-- The object with the given fields; garbled if one of its keys is. -/
def ofFields (fields : List (Option String × Json)) : Json :=
  match fields.mapM fun (k, v) => k.map (·, v) with
  | some fs => .obj fs
  | none => .garbled

/-- A token that is a value by itself. -/
def Token.atom? : Token → Option Json
  | .null => some .null
  | .bool b => some (.bool b)
  | .num n => some (.num n)
  | .str (some s) => some (.str s)
  | .str none => some .garbled
  | _ => none

/-- The start of a value. -/
def startValue (frames : List Frame) (t : Token) : Option Reading :=
  match t with
  | .openArray => some ⟨.array [] :: frames, .firstElement⟩
  | .openObject => some ⟨.object [] none :: frames, .firstKey⟩
  | t => t.atom?.map fun v => ⟨frames, .next v⟩

/-- One token read. -/
def Reading.step (r : Reading) (t : Token) : Option Reading :=
  match r.expect, r.frames, t with
  | .value, frames, t => startValue frames t
  | .firstElement, .array _ :: frames, .closeArray => some ⟨frames, .next (.arr [])⟩
  | .firstElement, frames, t => startValue frames t
  | .firstKey, .object _ _ :: frames, .closeObject => some ⟨frames, .next (.obj [])⟩
  | .firstKey, .object done _ :: frames, .str k => some ⟨.object done k :: frames, .colon⟩
  | .key, .object done _ :: frames, .str k => some ⟨.object done k :: frames, .colon⟩
  | .colon, frames, .colon => some ⟨frames, .value⟩
  | .next v, .array done :: frames, .comma => some ⟨.array (v :: done) :: frames, .value⟩
  | .next v, .array done :: frames, .closeArray =>
    some ⟨frames, .next (.arr (v :: done).reverse)⟩
  | .next v, .object done k :: frames, .comma => some ⟨.object ((k, v) :: done) k :: frames, .key⟩
  | .next v, .object done k :: frames, .closeObject =>
    some ⟨frames, .next (ofFields ((k, v) :: done).reverse)⟩
  | _, _, _ => none

/-- The value, once nothing is left open. -/
def Reading.finish (r : Reading) : Option Json :=
  match r.expect, r.frames with
  | .next v, [] => some v
  | _, _ => none

/-- The value of a list of tokens. -/
def ofTokens? (ts : List Token) : Option Json := do
  let r ← ts.foldlM Reading.step ⟨[], .value⟩
  r.finish

/-- The value of a text: one value with blanks around its tokens, and nothing after it. -/
def parse (s : String) : Option Json := do
  let ts ← tokenize s.toList
  ofTokens? ts

end IonTrap.Json
