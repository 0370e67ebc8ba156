import Stylebook.Build
import Stylebook.Watch.Batcher
import Stylebook.Watch.Notification

/-!
# Watching a project

A watch starts with a batch of all stylesheets. After that it takes
notifications, looks at the stylesheets that they name, and collects those
that have changed. When nothing has been added for a while, what was
collected is handled as one batch.

A `Session` holds what a watch knows between two of these steps. What others
do to the files in the meantime is a change of `store` alone.

A session that crashes in a batch is over. What it had announced before the
batch was seen all the same, and so was what the batch reported up to the
crash.
-/

namespace Stylebook

namespace Change

/-- The change that is to be handled at a path: what is there now. -/
def ofStore {σ : Type} [FileStore σ] (store : σ) (p : Path) : Change where
  path := p
  present := FileStore.holds store p
  kind := if FileStore.isDirectory store p then .directory else .file

end Change

/-- **The state of a watch.** -/
structure Session (σ : Type) where
  settings : Settings
  /-- The project root, without links and points in its path. -/
  root : Path
  store : σ
  graph : Graph
  seen : LastSeen
  batcher : Batcher

namespace Session

variable {σ : Type} [FileStore σ]

/-- Handles a batch of changes, after what is announced in front of it. -/
def handle (s : Session σ) (announced : List Event) (changes : List Change) :
    Except (Wreck σ) (Session σ × List Event) :=
  match (s.settings.project s.root).handleBatch s.store s.graph changes with
  | .ok done =>
    .ok ({ s with store := done.store, graph := done.graph }, announced ++ done.events)
  | .error wreck => .error { wreck with events := announced ++ wreck.events }

/-- **Starts a watch** with the stylesheets that were found below the root. -/
def start (settings : Settings) (root : Path) (store : σ) (files : List Path) :
    Except (Wreck σ) (Session σ × List Event) :=
  let s : Session σ := {
    settings, root, store
    graph := Graph.empty
    seen := LastSeen.ofFiles store files
    batcher := { window := settings.debounce } }
  s.handle [.watchStarted root.text files.length] (files.map Change.existing)

/-- **Takes a notification**: what it changes waits to be handled. -/
def notify (s : Session σ) (now : Nat) (n : Notification) : Session σ :=
  let (changed, seen) := n.changed s.store s.settings s.root s.seen
  { s with seen := seen, batcher := changed.foldl (fun b p => b.record now p) s.batcher }

/-- **Handles the changes that wait**, each announced before the batch. -/
def flush (s : Session σ) : Except (Wreck σ) (Session σ × List Event) :=
  let (paths, batcher) := s.batcher.drain
  let announced := paths.map fun p =>
    Event.fileChanged ((s.settings.project s.root).display p)
  { s with batcher := batcher }.handle announced (paths.map (Change.ofStore s.store))

/-- Handles the changes that wait if it is time to. -/
def poll (s : Session σ) (now : Nat) : Except (Wreck σ) (Session σ × List Event) :=
  if s.batcher.isReady now then s.flush else .ok (s, [])

end Session

/-- **Starts a watch of the project at a root.** -/
def startWatch (t : Tree) (settings : Settings) (root : Path) :
    Except Failure (Except (Wreck Tree) (Session Tree × List Event)) := do
  let root ← projectRoot t root
  return Session.start settings root t (scanStylesheets t settings root)

end Stylebook
