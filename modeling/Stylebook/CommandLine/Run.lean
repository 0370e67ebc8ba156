import Stylebook.CommandLine.Arguments
import Stylebook.Terminal.Notice
import Stylebook.Watch.Session

/-!
# Running a command

The program builds a project or watches it, and without a command it
watches. What it writes is a list of texts for the two outputs. Warnings and
errors go to the error output, except in JSON, where all events are lines of
the standard output.

A build is over when it has been run. A watch goes on with the session that
it has started, until it is interrupted. Either can crash instead: what was
written before stands, nothing is said about it, and the exit code is that
of an abort.
-/

namespace Stylebook.CommandLine

/-- **A text for one of the outputs.** -/
inductive Output where
  | out (text : String)
  | err (text : String)
  deriving DecidableEq, Repr

namespace Output

/-- The text for the standard output in a list of outputs. -/
def standard (os : List Output) : String :=
  String.join (os.filterMap fun
    | .out s => some s
    | .err _ => none)

/-- The text for the error output in a list of outputs. -/
def errors (os : List Output) : String :=
  String.join (os.filterMap fun
    | .out _ => none
    | .err s => some s)

end Output

/-- **How a command is to be carried out.** -/
structure Context where
  /-- The project root, as it was given. -/
  root : Path
  settings : Settings
  style : Terminal.Style
  deriving DecidableEq, Repr

namespace Context

/-- Notices for people, of which JSON has none. -/
def notices (style : Terminal.Style) (texts : List String) : List Output :=
  if style.json then [] else texts.map fun s => .err (s ++ "\n")

/-- **The context of arguments**, with the notices about the settings file.
Settings that cannot be used are replaced by those of no file. -/
def ofArguments (t : Tree) (env : Environment) (isTerminal : Bool) (a : Arguments) :
    Context × List Output :=
  let root := a.root.getD (Tree.pathOf t.current)
  let capabilities := Terminal.Capabilities.ofEnvironment env isTerminal
  let chosen := Terminal.Style.choose a.json a.verbosity a.color capabilities
  let style := { chosen with coloring := chosen.coloring.within env }
  match Settings.ofProject t root env with
  | .ok (settings, warnings) =>
    (⟨root, settings, style⟩,
      notices style (warnings.map (Terminal.renderWarning style (Settings.fileOf root))))
  | .error failure =>
    (⟨root, Settings.override {} env, style⟩,
      notices style [Terminal.renderFallback style failure])

/-- **An event as it is written.** -/
def write (c : Context) (time : String) (e : Event) : Output :=
  if c.style.json then .out (e.toJson ++ "\n")
  else
    let line := Terminal.renderEvent c.style time e
    match e with
    | .error .. => .err line
    | .warning .. => .err line
    | _ => .out line

/-- The lines at the start of a watch, of which JSON has none. -/
def header (c : Context) : List Output :=
  if c.style.json then []
  else [.out (Terminal.renderHeader c.style c.root.text c.settings.cacheDirectory.text)]

end Context

/-- **A failure that ends the program**, with its cause below it. -/
def renderFatal (f : Failure) : String :=
  match f.cause? with
  | some cause => "Error: " ++ f.message ++ "\n\nCaused by:\n    " ++ cause ++ "\n"
  | none => "Error: " ++ f.message ++ "\n"

/-- The name of the program with its version. -/
def version : String := "rncss 0.3.0"

/-- The lines that explain the program. -/
def helpLines : List String :=
  ["rncss - compile stylesheets into runtime style dictionaries",
    "",
    "Usage: rncss [OPTIONS] [COMMAND]",
    "",
    "Commands:",
    "  watch  Compile every stylesheet, then recompile on change until Ctrl+C",
    "  build  Compile every stylesheet once; exits non-zero if any file failed",
    "  help   Print this message or the help of the given subcommand(s)",
    "",
    "Options:",
    "      --json           Output events as NDJSON",
    "      --root <ROOT>    Project root (defaults to the current directory)",
    "      --color <COLOR>  When to use colored output [possible values: auto, always, never]",
    "  -v, --verbose...     Verbosity level (-v, -vv)",
    "  -h, --help           Print help",
    "  -V, --version        Print version",
    "",
    "Run 'rncss' without a subcommand to watch the current directory.",
    ""]

/-- The complaint about arguments that cannot be carried out. -/
def Refusal.complaint : Refusal → String
  | .unknownArgument => "error: unexpected argument found\n"
  | .invalidSubcommand => "error: unrecognized subcommand\n"
  | .invalidValue => "error: invalid value for an option\n"
  | .repeatedArgument => "error: an option cannot be used multiple times\n"
  | .needlessValue => "error: unexpected value for an option\n"
  | .showHelp => ""
  | .showVersion => ""

/-- What is written about arguments that are not carried out. -/
def Refusal.output : Refusal → List Output
  | .showHelp => [.out (Text.join "\n" helpLines)]
  | .showVersion => [.out (version ++ "\n")]
  | r => [.err r.complaint]

/-- **Where a run has come to.** -/
inductive State where
  /-- It is over, with this exit code. -/
  | finished (code : Nat) (store : Tree)
  /-- It goes on with this session. -/
  | watching (context : Context) (session : Session Tree)
  /-- It has crashed, and left these files. -/
  | crashed (crash : Crash) (store : Tree)

/-- **A run of the program**: what it has written so far, and where it has
come to. -/
structure Run where
  output : List Output
  state : State

namespace Run

/-- The run that a failure has ended. -/
def failed (output : List Output) (f : Failure) (t : Tree) : Run :=
  ⟨output ++ [.err (renderFatal f)], .finished 1 t⟩

/-- The run that a crash has ended, after what is written in front of its
events. -/
def crashed (c : Context) (time : String) (output : List Output) (w : Wreck Tree) : Run :=
  ⟨output ++ w.events.map (c.write time), .crashed w.crash w.store⟩

/-- Builds. The exit code tells whether all stylesheets were compiled. -/
def build (c : Context) (time : String) (notices : List Output) (t : Tree) : Run :=
  match Stylebook.build t c.settings c.root with
  | .error f => failed notices f t
  | .ok (.error wreck) => crashed c time notices wreck
  | .ok (.ok done) =>
    ⟨notices ++ done.events.map (c.write time),
      .finished (if done.summary.isSuccess then 0 else 1) done.store⟩

/-- Starts to watch. -/
def watch (c : Context) (time : String) (notices : List Output) (t : Tree) : Run :=
  match startWatch t c.settings c.root with
  | .error f => failed (notices ++ c.header) f t
  | .ok (.error wreck) => crashed c time (notices ++ c.header) wreck
  | .ok (.ok (session, events)) =>
    ⟨notices ++ c.header ++ events.map (c.write time), .watching c session⟩

/-- **Carries out arguments** in an environment. -/
def ofArguments (t : Tree) (env : Environment) (isTerminal : Bool) (time : String)
    (arguments : List String) : Run :=
  match Arguments.ofList arguments with
  | .error r => ⟨r.output, .finished r.exitCode t⟩
  | .ok a =>
    let (c, notices) := Context.ofArguments t env isTerminal a
    match a.command.getD .watch with
    | .build => build c time notices t
    | .watch => watch c time notices t

/-- The exit code of a program that has aborted. -/
def abortCode : Nat := 134

/-- **Interrupts a run** that goes on: the watch says that it stops. -/
def interrupt (r : Run) (time : String) : List Output × Nat × Tree :=
  match r.state with
  | .finished code t => (r.output, code, t)
  | .watching c session => (r.output ++ [c.write time .shutdown], 0, session.store)
  | .crashed _ t => (r.output, abortCode, t)

end Run

end Stylebook.CommandLine
