import Stylebook.Event
import Stylebook.Terminal.Capabilities

/-!
# Lines for people

Each event is one line: the time in square brackets, a mark and a sentence.
A batch that had failures ends with a warning mark. What did not happen in a
batch is not counted.
-/

namespace Stylebook.Terminal

namespace Style

/-- A mark in this style. -/
def mark (style : Style) (m : Mark) : String := m.render style.coloring style.unicode

end Style

/-- A count with the word for what is counted, if there is anything to
count. -/
def countPart (n : Nat) (word : String) : String :=
  if n = 0 then "" else ", " ++ toString n ++ " " ++ word

/-- The mark and the sentence of an event. -/
def sentence (style : Style) : Event → Mark × String
  | .watchStarted root files =>
    (.watching, "Watching " ++ root ++ " (" ++ toString files ++ " stylesheets)")
  | .fileChanged path => (.changed, "Changed: " ++ path)
  | .compiled path output selectors trigger =>
    let because := match trigger with
      | some t => " (imports " ++ t ++ ")"
      | none => ""
    let details :=
      if style.verbosity = 0 then ""
      else " -> " ++ output ++ " [" ++ toString selectors ++ " selectors]"
    (.compiled, "Compiled: " ++ path ++ because ++ details)
  | .removed path output => (.removed, "Removed: " ++ path ++ " (" ++ output ++ ")")
  | .warning path selector message => (.warned, path ++ " " ++ selector ++ ": " ++ message)
  | .error (some path) message => (.failed, "Error: " ++ path ++ ": " ++ message)
  | .error none message => (.failed, "Error: " ++ message)
  | .batchComplete s =>
    (if s.failed = 0 then .compiled else .warned,
      "Done: " ++ toString s.compiled ++ " compiled" ++ countPart s.removed "removed" ++
        countPart s.warnings "warnings" ++ countPart s.failed "failed")
  | .shutdown => (.watching, "Watch stopped.")

/-- **An event as a line for people**, with the time that it is shown with.
The end of a watch starts on a line of its own. -/
def renderEvent (style : Style) (time : String) (e : Event) : String :=
  let (m, words) := sentence style e
  let lead := match e with
    | .shutdown => "\n"
    | _ => ""
  lead ++ "[" ++ time ++ "] " ++ style.mark m ++ " " ++ words ++ "\n"

/-- **The lines at the start of a watch.** -/
def renderHeader (style : Style) (root cacheDirectory : String) : String :=
  style.mark .watching ++ " rncss watch\nRoot: " ++ root ++ "\nCache: " ++ cacheDirectory ++
    "\nHint: Press Ctrl+C to stop\n"

end Stylebook.Terminal
