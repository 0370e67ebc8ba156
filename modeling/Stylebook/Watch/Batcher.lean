import Stylebook.Path.Map

/-!
# Batches of changes

Changes come in bursts: an editor saves several files, a tool rewrites a
directory. A batcher collects changed paths until nothing has been added for
a while, and then gives them away as one batch. Time is counted in
milliseconds from any starting point.
-/

namespace Stylebook

/-- **The changes that wait to be handled.** -/
structure Batcher where
  /-- How long nothing may be added before the changes are handled. -/
  window : Nat
  pending : PathSet := []
  /-- When a change was added last. -/
  quietSince : Option Nat := none
  deriving Repr

namespace Batcher

/-- Adds a changed path. A path that waits already is not added again, but
the wait starts again. -/
def record (b : Batcher) (now : Nat) (p : Path) : Batcher :=
  { b with pending := PathSet.insert b.pending p, quietSince := some now }

/-- **Whether the changes are to be handled now**: there are some, and none
was added within the window. -/
def isReady (b : Batcher) (now : Nat) : Bool :=
  match b.quietSince with
  | some since => !b.pending.isEmpty && b.window ≤ now - since
  | none => false

/-- **Gives the changes away**, in ascending order. -/
def drain (b : Batcher) : List Path × Batcher :=
  (Path.sort b.pending, { b with pending := [], quietSince := none })

end Batcher

end Stylebook
