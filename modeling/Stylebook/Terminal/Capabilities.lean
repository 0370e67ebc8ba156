import Stylebook.Text.Blank
import Stylebook.Terminal.Mark

/-!
# What a terminal can show

Whether marks are coloured and whether they are single signs is decided by
the environment and by the command line. An `Environment` gives the values
of the variables that are set.
-/

namespace Stylebook

/-- **The variables of the environment** that are set. -/
abbrev Environment := List (String × String)

/-- The value of a variable. -/
def Environment.get? (env : Environment) (name : String) : Option String := List.lookup name env

namespace Terminal

/-- **What a terminal can show.** -/
structure Capabilities where
  color : Bool
  unicode : Bool
  /-- Whether the program runs in an automated build. -/
  automated : Bool
  deriving DecidableEq, Repr

/-- The variables that an automated build sets. -/
def automationVariables : List String :=
  ["CI", "GITHUB_ACTIONS", "BUILDKITE", "CIRCLECI", "GITLAB_CI"]

/-- The variables that name the locale, the first one that is set counting. -/
def localeVariables : List String := ["LC_ALL", "LC_CTYPE", "LANG"]

namespace Capabilities

/-- Whether the terminal says of itself that it can do nothing. -/
def isDumb (env : Environment) : Bool :=
  match env.get? "TERM" with
  | some term => Text.sameIgnoringCase term "dumb"
  | none => false

/-- Whether the locale, if there is one, is one of UTF-8. -/
def hasUnicodeLocale (env : Environment) : Bool :=
  match localeVariables.findSome? env.get? with
  | none => true
  | some locale =>
    let name := (Text.lower locale).toList
    Text.hasInfix "utf-8".toList name || Text.hasInfix "utf8".toList name

/-- **The capabilities that an environment stands for**, with or without a
terminal at the standard output. -/
def ofEnvironment (env : Environment) (isTerminal : Bool) : Capabilities where
  color := isTerminal && !isDumb env && (env.get? "NO_COLOR").isNone
  unicode := !isDumb env && hasUnicodeLocale env
  automated := automationVariables.any fun v => (env.get? v).isSome

end Capabilities

/-- When the command line asks for colours. -/
inductive ColorChoice where
  | auto
  | always
  | never
  deriving DecidableEq, Repr

/-- **How output is written.** -/
structure Style where
  /-- Whether events are written as JSON. -/
  json : Bool
  verbosity : Nat
  coloring : Coloring
  unicode : Bool
  deriving DecidableEq, Repr

/-- **The way of writing that capabilities and the command line lead to.**
JSON has no colours; without a choice the terminal decides, and automated
builds have none. -/
def Style.choose (json : Bool) (verbosity : Nat) (choice : Option ColorChoice)
    (caps : Capabilities) : Style where
  json := json
  verbosity := verbosity
  coloring :=
    let wanted := match choice with
      | some .never => false
      | some .always => true
      | _ => caps.color && !caps.automated
    if wanted && !json then .colored else .plain
  unicode := caps.unicode

/-- **The colouring in an environment.** Colour that the environment asks to
leave out is muted, whoever asked for it. -/
def Coloring.within (env : Environment) (c : Coloring) : Coloring :=
  if c = .colored && !((env.get? "NO_COLOR").getD "").isEmpty then .muted else c

end Terminal

end Stylebook
