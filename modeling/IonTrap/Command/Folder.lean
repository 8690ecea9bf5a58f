import IonTrap.Command.Run

/-!
# Folders

A folder holds files by name and nothing else. A command can be carried out on it, which says what
is printed and which file changes.

A path leads to the folder itself or to a file in it. Names have at most 255 bytes, and a path has
less than 4096.
-/

namespace IonTrap

/-- Files by name. -/
abbrev Folder := List (String × String)

/-- Where a path leads, seen from a folder. -/
inductive Location where
  /-- To the folder itself. -/
  | folder
  /-- To a file in it, whether that exists or not. -/
  | file (name : String)
  /-- Nowhere. -/
  | nowhere
deriving DecidableEq, Repr

/-- Where a path leads. Only in front of a name may there be dots for the folder itself. -/
def Location.ofPath (path : String) : Location :=
  if path.isEmpty || path.startsWith "/" || 4096 ≤ path.utf8ByteSize then .nowhere
  else
    match (path.splitOn "/").dropWhile fun c => c.isEmpty || c == "." with
    | [] => .folder
    | [name] => if name.utf8ByteSize ≤ 255 then .file name else .nowhere
    | _ => .nowhere

/-- What a command leaves behind. -/
structure Outcome where
  /-- Exit code. -/
  exit : Nat
  /-- Lines printed. -/
  printed : List String
  /-- Lines reported as errors. -/
  errors : List String
  /-- Files that are new or have changed. -/
  changed : Folder
deriving DecidableEq, Repr

namespace Folder

/-- What a path holds. -/
def content (f : Folder) (path : String) : FileContent :=
  match Location.ofPath path with
  | .folder => .unreadable
  | .file name =>
    match f.lookup name with
    | some s => .text s
    | none => .missing
  | .nowhere => .missing

/-- Carries out what a report says. -/
def carryOut (f : Folder) (r : Report) : Outcome :=
  match r.ending with
  | .done => ⟨0, r.lines, [], []⟩
  | .failed message => ⟨1, r.lines, [errorLine message], []⟩
  | .write w =>
    match Location.ofPath w.path with
    | .file name =>
      ⟨0, r.lines ++ w.written, [], if f.lookup name == some w.text then [] else [(name, w.text)]⟩
    | _ => ⟨1, r.lines, [errorLine w.failure], []⟩

/-- Runs a command; `elapsed` says how long compiling took. -/
def run (f : Folder) (c : Command) (elapsed : String) : Outcome :=
  f.carryOut (c.report f.content elapsed)

end Folder

end IonTrap
