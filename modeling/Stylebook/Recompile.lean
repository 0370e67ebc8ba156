import Stylebook.Artifact
import Stylebook.Dictionary.Module
import Stylebook.Event
import Stylebook.Graph

/-!
# Recompiling what changed

A batch of changes is handled one stylesheet at a time, in the order of
their paths. A stylesheet that is there is compiled and its module is
written. When that is not the first time, everything that imports it is
compiled again too, directly or through others, nearest first. The module of
a stylesheet that is gone is removed.

A failure belongs to one file: it is reported and the batch goes on. A file
that fails leaves no trace in the import graph.

A crash belongs to no file. The batch is not gone on with, the changes
behind it are not handled, and nobody says that the batch is complete. So
every step here gives either the progress that it makes or the *wreck* that
a crash leaves, and the steps are chained so that the first wreck is that of
the batch. What was written and reported before it stays.
-/

namespace Stylebook

/-- Whether a change concerns a file or a directory. -/
inductive EntryKind where
  | file
  | directory
  deriving DecidableEq, Repr

/-- **A change that is to be handled**: what is at a path now. -/
structure Change where
  path : Path
  present : Bool
  kind : EntryKind
  deriving DecidableEq, Repr

namespace Change

/-- The change to a file that is there. -/
def existing (p : Path) : Change := ⟨p, true, .file⟩

/-- The change to a file that is gone. -/
def gone (p : Path) : Change := ⟨p, false, .file⟩

/-- Leaves out a change whose path is that of the one before it. -/
def dropRepeats : List Change → List Change
  | [] => []
  | c :: cs => c :: go c cs
where
  /-- Leaves out the changes at the front that repeat the path of `last`,
  and so on. -/
  go (last : Change) : List Change → List Change
    | [] => []
    | c :: cs => if c.path.same last.path then go last cs else c :: go c cs

/-- **The order in which changes are handled**: ascending paths, and of the
changes to one path the first. -/
def inOrder (cs : List Change) : List Change :=
  dropRepeats (cs.mergeSort fun a b => a.path.le b.path)

end Change

/-- **What stays the same during all batches** of a project. -/
structure Project where
  layout : CacheLayout
  defaultUnit : String
  deriving DecidableEq, Repr

/-- **The state while changes are handled**: the files, the graph, and what
was done and reported so far. -/
structure Progress (σ : Type) where
  store : σ
  graph : Graph
  summary : BatchSummary := {}
  /-- The events so far, in order. -/
  events : List Event := []

/-- **What a crash leaves behind.** The graph and the counts were held by
the program alone and are lost with it. -/
structure Wreck (σ : Type) where
  crash : Crash
  /-- The files as they were when the program ended. -/
  store : σ
  /-- The events that were reported before that, in order. -/
  events : List Event

namespace Project

/-- A path as events show it. -/
def display (project : Project) (p : Path) : String :=
  ((p.relativeTo? project.layout.root).getD p).text

variable {σ : Type}

/-- Adds events. -/
def report (s : Progress σ) (events : List Event) : Progress σ :=
  { s with events := s.events ++ events }

/-- Reports a stylesheet that failed. -/
def reportFailure (project : Project) (s : Progress σ) (p : Path) (failure : Failure) :
    Progress σ :=
  report { s with summary := { s.summary with failed := s.summary.failed + 1 } }
    [.error (some (project.display p)) failure.message]

/-- **What comes of a stylesheet that has no result.** A failure is
reported, and the step is made. A crash leaves everything as it was when the
stylesheet was begun. -/
def stop (project : Project) (s : Progress σ) (p : Path) : Stop → Except (Wreck σ) (Progress σ)
  | .failed failure => .ok (project.reportFailure s p failure)
  | .crashed crash => .error ⟨crash, s.store, s.events⟩

/-- The events for a stylesheet that was compiled: its warnings, and that it
was. -/
def successEvents (project : Project) (p output : Path) (compiled : CompiledStylesheet)
    (trigger : Option Path) : List Event :=
  (compiled.diagnostics.map fun d => .warning (project.display d.path) d.selector d.message) ++
    [.compiled (project.display p) (project.display output) compiled.styles.names.length
      (trigger.map project.display)]

/-- Reports a stylesheet that was compiled. -/
def reportSuccess (project : Project) (s : Progress σ) (p output : Path)
    (compiled : CompiledStylesheet) (trigger : Option Path) : Progress σ :=
  let summary := { s.summary with
    compiled := s.summary.compiled + 1
    warnings := s.summary.warnings + compiled.diagnostics.length }
  report { s with summary := summary } (project.successEvents p output compiled trigger)

variable [FileStore σ]

/-- The path of a stylesheet's module and what it is to hold, or why there
is none. The path comes first: a stylesheet that has none is not read. -/
def produce (project : Project) (store : σ) (p : Path) :
    Except Stop (Path × CompiledStylesheet) := do
  let output ← project.layout.artifact p
  return (output, ← compileFile store project.defaultUnit p)

/-- **Compiles a stylesheet and writes its module.** -/
def compileAndWrite (project : Project) (store : σ) (p : Path) :
    Except Stop (Path × CompiledStylesheet) × σ :=
  match project.produce store p with
  | .error e => (.error e, store)
  | .ok (output, compiled) =>
    match FileStore.write store output (Dictionary.ofStyles compiled.styles).module with
    | (.ok (), store) => (.ok (output, compiled), store)
    | (.error cause, store) => (.error (.failed (.io cause)), store)

/-- **Removes the module of a stylesheet**, if there is one. -/
def removeModule (project : Project) (store : σ) (p : Path) : Except Stop Path × σ :=
  match project.layout.artifact p with
  | .error e => (.error e, store)
  | .ok output =>
    if FileStore.holds store output then
      match FileStore.remove store output with
      | (.ok (), store) => (.ok output, store)
      | (.error cause, store) => (.error (.failed (.io cause)), store)
    else (.ok output, store)

/-- Compiles a stylesheet again because of a change to another one. The
graph stays. -/
def recompile (project : Project) (trigger : Path) (s : Progress σ) (p : Path) :
    Except (Wreck σ) (Progress σ) :=
  match project.compileAndWrite s.store p with
  | (.ok (output, compiled), store) =>
    .ok (project.reportSuccess { s with store := store } p output compiled (some trigger))
  | (.error e, store) => project.stop { s with store := store } p e

/-- Handles a stylesheet that is gone. -/
def handleRemoval (project : Project) (s : Progress σ) (p : Path) :
    Except (Wreck σ) (Progress σ) :=
  match project.removeModule s.store p with
  | (.ok output, store) =>
    let summary := { s.summary with removed := s.summary.removed + 1 }
    .ok (report { s with store := store, graph := s.graph.removeOutgoing p, summary := summary }
      [.removed (project.display p) (project.display output)])
  | (.error e, store) => project.stop { s with store := store } p e

/-- Handles a stylesheet that is there. -/
def handlePresent (project : Project) (s : Progress σ) (p : Path) :
    Except (Wreck σ) (Progress σ) :=
  match project.compileAndWrite s.store p with
  | (.error e, store) => project.stop { s with store := store } p e
  | (.ok (output, compiled), store) =>
    let graph := s.graph.register p (compiled.imports.map (importPath p))
    let (observation, graph) := graph.observe p
    let s := project.reportSuccess { s with store := store, graph := graph } p output compiled none
    match observation with
    | .first => .ok s
    | .repeated => (graph.cascade p).foldlM (project.recompile p) s

/-- **Handles one change.** Directories are none of a stylesheet compiler's
business. -/
def handleChange (project : Project) (s : Progress σ) (c : Change) :
    Except (Wreck σ) (Progress σ) :=
  match c.kind with
  | .directory => .ok s
  | .file => if c.present then project.handlePresent s c.path else project.handleRemoval s c.path

/-- **Handles a batch of changes**, and reports what was done when it is
complete. -/
def handleBatch (project : Project) (store : σ) (graph : Graph) (changes : List Change) :
    Except (Wreck σ) (Progress σ) := do
  let s ← (Change.inOrder changes).foldlM project.handleChange { store := store, graph := graph }
  return report s [.batchComplete s.summary]

end Project

end Stylebook
