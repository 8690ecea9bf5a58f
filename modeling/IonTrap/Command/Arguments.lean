/-!
# The command line

`route`, `archs`, `inspect` and `version`, with their options in short and long form.
-/

namespace IonTrap

/-- Options of `route`. -/
structure RouteOptions where
  /-- Path of the circuit. -/
  input : String
  /-- Name or path of the architecture. -/
  arch : String := "four_zones_in_a_line"
  /-- Path of the settings. -/
  settings : Option String := none
  /-- Path of the result. -/
  output : Option String := none
  /-- Whether to replay the result. -/
  validate : Bool := false
deriving DecidableEq, Repr

/-- What the program is asked to do. -/
inductive Command where
  /-- Routes a circuit. -/
  | route (options : RouteOptions)
  /-- Lists the built-in architectures. -/
  | archs
  /-- Shows an architecture. -/
  | inspect (arch : String)
  /-- Shows version and components. -/
  | version
  /-- Shows the version in one line. -/
  | versionLine
deriving DecidableEq, Repr

namespace Command

/-- An option. -/
inductive Flag where
  | input
  | arch
  | settings
  | output
  | validate
  | verbose
  | version
deriving DecidableEq, Repr

namespace Flag

/-- Whether a value belongs to an option. -/
def takesValue : Flag → Bool
  | .input | .arch | .settings | .output => true
  | _ => false

/-- Short forms. -/
def ofShort? : Char → Option Flag
  | 'i' => some .input
  | 'a' => some .arch
  | 's' => some .settings
  | 'o' => some .output
  | 'v' => some .verbose
  | 'V' => some .version
  | _ => none

/-- Long forms. -/
def ofLong? : String → Option Flag
  | "input" => some .input
  | "arch" => some .arch
  | "settings" => some .settings
  | "output" => some .output
  | "validate" => some .validate
  | "verbose" => some .verbose
  | "version" => some .version
  | _ => none

end Flag

/-- A piece of the command line. -/
inductive Piece where
  /-- An option without a value. -/
  | flag (f : Flag)
  /-- An option with its value. -/
  | option (f : Flag) (value : String)
  /-- An option whose value is the next argument. -/
  | pending (f : Flag)
  /-- Anything else. -/
  | word (text : String)
deriving DecidableEq, Repr

/-- The pieces of short options written together. What follows an option with a value is the
value. -/
def shortPieces? : List Char → Option (List Piece)
  | [] => some []
  | c :: rest =>
    match Flag.ofShort? c with
    | none => none
    | some f =>
      if !f.takesValue then (shortPieces? rest).map (.flag f :: ·)
      else
        match rest with
        | [] => some [.pending f]
        | '=' :: value => some [.option f (.ofList value)]
        | value => some [.option f (.ofList value)]

/-- The piece of a long option. A value may follow an equals sign. -/
def longPieces? (cs : List Char) : Option (List Piece) :=
  let name := String.ofList (cs.takeWhile (· != '='))
  match Flag.ofLong? name, cs.dropWhile (· != '=') with
  | some f, '=' :: value => if f.takesValue then some [.option f (.ofList value)] else none
  | some f, _ => if f.takesValue then some [.pending f] else some [.flag f]
  | none, _ => none

/-- The pieces of one argument. -/
def piecesOf? (arg : String) : Option (List Piece) :=
  match arg.toList with
  | '-' :: '-' :: rest => longPieces? rest
  | '-' :: c :: rest => shortPieces? (c :: rest)
  | _ => some [.word arg]

/-- The pieces of all arguments, every option with its value. After two hyphens there are no
options. -/
def pieces? : List String → Option (List Piece)
  | [] => some []
  | arg :: args =>
    if arg == "--" then some (args.map .word)
    else
      match piecesOf? arg with
      | none => none
      | some ps =>
        match ps.getLast?, args with
        | some (.pending f), value :: rest =>
          (pieces? rest).map fun more => ps.dropLast ++ .option f value :: more
        | some (.pending _), [] => none
        | _, rest => (pieces? rest).map (ps ++ ·)

/-- Value of an option. -/
def valueOf? (f : Flag) (ps : List Piece) : Option String :=
  ps.findSome? fun
    | .option g value => if g = f then some value else none
    | _ => none

/-- The words that are no options. -/
def words (ps : List Piece) : List String :=
  ps.filterMap fun
    | .word text => some text
    | _ => none

/-- Reads a command line. `settings` is the path that the environment gives for settings. -/
def parse (args : List String) (settings : Option String) : Option Command := do
  let ps ← pieces? args
  if ps.contains (.flag .version) then return .versionLine
  match words ps with
  | ["route"] =>
    let input ← valueOf? .input ps
    return .route {
      input := input
      arch := (valueOf? .arch ps).getD "four_zones_in_a_line"
      settings := (valueOf? .settings ps).or settings
      output := valueOf? .output ps
      validate := ps.contains (.flag .validate) }
  | ["archs"] => return .archs
  | ["inspect", arch] => return .inspect arch
  | ["version"] => return .version
  | _ => none

end Command

end IonTrap
