import Stylebook.Scan
import Stylebook.Settings.Project

/-!
# Building a project

A build compiles every stylesheet of a project once, as one batch that
starts from an empty graph. There are two ways in which it can fall short.
Without a project root there is no build at all, which is a failure with a
message. And the batch can crash, which leaves a wreck and no message.
-/

namespace Stylebook

/-- The directory of a project without links and points in its path, or why
there is none. -/
def projectRoot (t : Tree) (root : Path) : Except Failure Path :=
  match t.canonical root with
  | .ok p => .ok p
  | .error e => .error (.io e.message)

/-- **Compiles every stylesheet of the project at a root.** -/
def build (t : Tree) (s : Settings) (root : Path) :
    Except Failure (Except (Wreck Tree) (Progress Tree)) := do
  let root ← projectRoot t root
  let changes := (scanStylesheets t s root).map Change.existing
  return (s.project root).handleBatch t Graph.empty changes

end Stylebook
