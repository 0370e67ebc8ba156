import Stylebook.Terminal.Capabilities
import Stylebook.Path.Basic

/-!
# Arguments

The arguments are options and at most one command. Options may stand in
front of the command and after it; those after it count more. Each option is
given once on each side, except for the verbosity, which is counted. What
comes after two lone hyphens can only be refused, because no command takes
further words.

A value that stands as an argument of its own is looked at late: not before
the next option, or the end of its side. So of two mistakes it is not always
the first one that is reported.
-/

namespace Stylebook.CommandLine

open Terminal (ColorChoice)

/-- **A command.** -/
inductive Command where
  | build
  | watch
  deriving DecidableEq, Repr

/-- **Why arguments are not carried out.** The last two are asked for and no
mistakes. -/
inductive Refusal where
  | unknownArgument
  | invalidSubcommand
  | invalidValue
  | repeatedArgument
  | needlessValue
  | showHelp
  | showVersion
  deriving DecidableEq, Repr

/-- The exit code of a refusal. -/
def Refusal.exitCode : Refusal → Nat
  | .showHelp => 0
  | .showVersion => 0
  | _ => 2

/-- **The options of one side of the command.** -/
structure Options where
  json : Bool := false
  root : Option String := none
  color : Option ColorChoice := none
  /-- How often more words were asked for, if at all. -/
  verbosity : Option Nat := none
  deriving DecidableEq, Repr

/-- **What the arguments ask for.** -/
structure Arguments where
  json : Bool
  root : Option Path
  color : Option ColorChoice
  verbosity : Nat
  command : Option Command
  deriving DecidableEq, Repr

/-- An option that has a value. -/
inductive ValueOption where
  | root
  | color
  deriving DecidableEq, Repr

/-- An option that has none. -/
inductive Flag where
  | json
  | verbose
  | help
  | version
  deriving DecidableEq, Repr

/-- The choices of colour, by name. -/
def colorChoice? : String → Option ColorChoice
  | "auto" => some .auto
  | "always" => some .always
  | "never" => some .never
  | _ => none

/-- The commands, by name. -/
def command? : String → Option Command
  | "watch" => some .watch
  | "build" => some .build
  | _ => none

/-- **Gives an option its value**, once. -/
def Options.setValue (o : Options) (option : ValueOption) (value : String) :
    Except Refusal Options :=
  match option with
  | .root =>
    if o.root.isSome then .error .repeatedArgument
    else if value.isEmpty then .error .invalidValue
    else .ok { o with root := some value }
  | .color =>
    if o.color.isSome then .error .repeatedArgument
    else
      match colorChoice? value with
      | some c => .ok { o with color := some c }
      | none => .error .invalidValue

/-- The greatest verbosity that is counted. -/
def greatestVerbosity : Nat := 255

/-- **Sets a flag**, once. The verbosity is counted. -/
def Options.setFlag (o : Options) : Flag → Except Refusal Options
  | .json => if o.json then .error .repeatedArgument else .ok { o with json := true }
  | .verbose =>
    .ok { o with verbosity := some (min greatestVerbosity (o.verbosity.getD 0 + 1)) }
  | .help => .error .showHelp
  | .version => .error .showVersion

/-- **The options so far**, and the option whose value has not been looked
at, with its value if that has been met. -/
structure Reading where
  options : Options := {}
  waiting : Option (ValueOption × Option String) := none
  deriving DecidableEq, Repr

namespace Reading

/-- Looks at the value that has not been looked at. -/
def settle (r : Reading) : Except Refusal Options :=
  match r.waiting with
  | none => .ok r.options
  | some (_, none) => .error .invalidValue
  | some (option, some value) => r.options.setValue option value

/-- Whether the next argument is the value of an option, unless it is an
option itself. -/
def wantsValue (r : Reading) : Bool :=
  match r.waiting with
  | some (_, none) => true
  | _ => false

/-- Takes a flag. -/
def flag (r : Reading) (f : Flag) : Except Refusal Reading := do
  let options ← r.settle
  return { options := ← options.setFlag f }

/-- Takes an option with the value that is attached to it. -/
def attached (r : Reading) (option : ValueOption) (value : String) : Except Refusal Reading := do
  let options ← r.settle
  return { options := ← options.setValue option value }

/-- Takes an option whose value is the next argument. -/
def await (r : Reading) (option : ValueOption) : Except Refusal Reading := do
  return { options := ← r.settle, waiting := some (option, none) }

/-- Takes the value of the option that wants one. -/
def value (r : Reading) (text : String) : Reading :=
  { r with waiting := r.waiting.map fun w => (w.1, some text) }

end Reading

/-- A side of the command: in front of it or after it. -/
inductive Side where
  | front
  | back
  deriving DecidableEq, Repr

/-- **The long options**, by name. Only in front of the command the version
can be asked for. -/
def longOption? (side : Side) : String → Option (ValueOption ⊕ Flag)
  | "root" => some (.inl .root)
  | "color" => some (.inl .color)
  | "json" => some (.inr .json)
  | "verbose" => some (.inr .verbose)
  | "help" => some (.inr .help)
  | "version" => if side = .front then some (.inr .version) else none
  | _ => none

/-- **The short options**, by letter. -/
def shortFlag? (side : Side) : Char → Option Flag
  | 'v' => some .verbose
  | 'h' => some .help
  | 'V' => if side = .front then some .version else none
  | _ => none

/-- Takes a long option, after its two hyphens. -/
def takeLong (side : Side) (r : Reading) (cs : List Char) : Except Refusal Reading :=
  let name := String.ofList (cs.takeWhile (· ≠ '='))
  match longOption? side name, cs.dropWhile (· ≠ '=') with
  | none, _ => .error .unknownArgument
  | some (.inl option), _ :: value => r.attached option (String.ofList value)
  | some (.inl option), [] => r.await option
  | some (.inr _), _ :: _ => .error .needlessValue
  | some (.inr f), [] => r.flag f

/-- Takes short options, after their hyphen. -/
def takeShort (side : Side) (r : Reading) : List Char → Except Refusal Reading
  | [] => .ok r
  | c :: cs =>
    match shortFlag? side c with
    | none => .error .unknownArgument
    | some f => do takeShort side (← r.flag f) cs

/-- The refusal of a word that is no command, or of one after the command. -/
def strayWord : Side → Refusal
  | .front => .invalidSubcommand
  | .back => .unknownArgument

/-- The refusal of a word after two lone hyphens. A command there has come
too late. -/
def wordAfterHyphens (side : Side) (text : String) : Refusal :=
  if side = .front && ((command? text).isSome || text = "help") then .unknownArgument
  else strayWord side

/-- The answer to a request for help on commands: there is help on each
command, and on help itself. -/
def helpOn : List String → Refusal
  | [] => .showHelp
  | [name] =>
    if (command? name).isSome || name = "help" then .showHelp else .invalidSubcommand
  | _ => .invalidSubcommand

/-- **Reads one side**, up to its end or to the command. With the command
comes what follows it. -/
def readSide (side : Side) : Reading → List String →
    Except Refusal (Reading × Option (Command × List String))
  | r, [] => .ok (r, none)
  | r, argument :: rest =>
    let isWord := side = .front && !r.wantsValue
    if isWord && argument = "help" then .error (helpOn rest)
    else
      match if isWord then command? argument else none with
      | some c => .ok (r, some (c, rest))
      | none =>
        match argument.toList with
        | ['-', '-'] =>
          match rest with
          | [] => .ok (r, none)
          | next :: _ => .error (wordAfterHyphens side next)
        | '-' :: '-' :: cs => do readSide side (← takeLong side r cs) rest
        | '-' :: c :: cs => do readSide side (← takeShort side r (c :: cs)) rest
        | _ =>
          if r.wantsValue then readSide side (r.value argument) rest
          else .error (strayWord side)

/-- The options of both sides together. -/
def Options.merge (front back : Options) (command : Option Command) : Arguments where
  json := front.json || back.json
  root := (back.root <|> front.root).map Path.mk
  color := back.color <|> front.color
  verbosity := (back.verbosity <|> front.verbosity).getD 0
  command := command

/-- **Reads all arguments.** -/
def Arguments.ofList (arguments : List String) : Except Refusal Arguments := do
  match ← readSide .front {} arguments with
  | (front, none) => return (← front.settle).merge {} none
  | (front, some (command, rest)) =>
    let (back, _) ← readSide .back {} rest
    let backOptions ← back.settle
    return (← front.settle).merge backOptions (some command)

end Stylebook.CommandLine
