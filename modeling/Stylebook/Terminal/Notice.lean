import Stylebook.Failure
import Stylebook.Settings.Load
import Stylebook.Terminal.Report

/-!
# Notices about the settings file

A settings file with unknown keys is used, and each of the keys gets a
notice. A settings file that cannot be used gets one notice, and the
settings are those of no file.
-/

namespace Stylebook.Terminal

/-- Where a key is assigned: the file, and the line if it is known. -/
def place (file : Path) : Option Nat → String
  | some line => file.text ++ ":" ++ toString line
  | none => file.text

/-- **The notice about an unknown key**, with the key it may stand for on a
second line. -/
def renderWarning (style : Style) (file : Path) (w : Settings.Warning) : String :=
  let hint := match w.suggestion with
    | some s => "\n   Did you mean '" ++ s ++ "'?"
    | none => ""
  style.mark .warned ++ " Unknown config key '" ++ w.key ++ "' in " ++ place file w.line ++ hint

/-- **The notice about a settings file that cannot be used.** -/
def renderFallback (style : Style) (failure : Failure) : String :=
  style.mark .warned ++ " " ++ failure.message ++ "\n   Falling back to default configuration."

end Stylebook.Terminal
