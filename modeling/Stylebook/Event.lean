import Stylebook.Text.Json

/-!
# Events

What a build or a watch reports while it runs. An event is written as one
line of JSON for other programs, and as one line of text for people
(`Stylebook.Terminal.Report`). Paths in events are shown relative to the
project root where that is possible.
-/

namespace Stylebook

/-- **What was done in one batch of changes.** -/
structure BatchSummary where
  compiled : Nat := 0
  removed : Nat := 0
  failed : Nat := 0
  warnings : Nat := 0
  deriving DecidableEq, Repr

namespace BatchSummary

/-- Whether no file of the batch failed. -/
def isSuccess (s : BatchSummary) : Bool := s.failed = 0

end BatchSummary

/-- **An event of a build or a watch.** -/
inductive Event where
  | watchStarted (root : String) (files : Nat)
  | fileChanged (path : String)
  /-- A stylesheet was compiled. The trigger is the changed file that made
  it necessary, where that is another one. -/
  | compiled (path output : String) (selectors : Nat) (trigger : Option String)
  | removed (path output : String)
  /-- A rule has no meaning to the framework. -/
  | warning (path selector message : String)
  | error (path : Option String) (message : String)
  | batchComplete (summary : BatchSummary)
  | shutdown
  deriving DecidableEq, Repr

namespace Event

/-- The name of a kind of event. -/
def kind : Event → String
  | .watchStarted .. => "watch_started"
  | .fileChanged .. => "file_changed"
  | .compiled .. => "compiled"
  | .removed .. => "removed"
  | .warning .. => "warning"
  | .error .. => "error"
  | .batchComplete .. => "batch_complete"
  | .shutdown => "shutdown"

/-- A member that holds a count. -/
def count (name : String) (n : Nat) : String × Json := (name, .number (.whole n))

/-- A member that holds a text. -/
def text (name s : String) : String × Json := (name, .str s)

/-- What an event says besides its kind. What is missing is left out. -/
def members : Event → List (String × Json)
  | .watchStarted root files => [text "root" root, count "files" files]
  | .fileChanged path => [text "path" path]
  | .compiled path output selectors trigger =>
    [text "path" path, text "output" output, count "selectors" selectors] ++
      (trigger.map (text "trigger")).toList
  | .removed path output => [text "path" path, text "output" output]
  | .warning path selector message =>
    [text "path" path, text "selector" selector, text "message" message]
  | .error path message => (path.map (text "path")).toList ++ [text "message" message]
  | .batchComplete s =>
    [count "compiled" s.compiled, count "removed" s.removed, count "failed" s.failed,
      count "warnings" s.warnings]
  | .shutdown => []

/-- **An event as one line of JSON.** -/
def toJson (e : Event) : String := (Json.object (text "event" e.kind :: e.members)).render

end Event

end Stylebook
