import Stylebook.Path.Map

/-!
# The import graph

The graph knows which stylesheet imports which, in both directions, and
which stylesheets have been compiled before. Edges come in when a stylesheet
is compiled and stay until it is removed. `cascade` lists everything that
depends on a file, nearest first: the files that have to be compiled again
when it changes.
-/

namespace Stylebook

/-- Whether a stylesheet is compiled for the first time. -/
inductive Observation where
  | first
  | repeated
  deriving DecidableEq, Repr

/-- **The import graph of a project.** -/
structure Graph where
  /-- For each imported file, the files that import it directly. -/
  importers : PathMap PathSet := []
  /-- For each importing file, the files that it imports directly. -/
  imports : PathMap PathSet := []
  /-- The stylesheets that have been compiled. -/
  seen : PathSet := []
  deriving DecidableEq, Repr

namespace Graph

/-- The graph of nothing. -/
def empty : Graph := {}

/-- Adds a path to the set of a key. -/
def addTo (m : PathMap PathSet) (key member : Path) : PathMap PathSet :=
  PathMap.set m key (PathSet.insert ((PathMap.get? m key).getD []) member)

/-- Takes a path out of the set of a key. A set that becomes empty is
dropped. -/
def removeFrom (m : PathMap PathSet) (key member : Path) : PathMap PathSet :=
  match PathMap.get? m key with
  | none => m
  | some s =>
    let rest := PathSet.erase s member
    if rest.isEmpty then PathMap.erase m key else PathMap.set m key rest

/-- Adds the edge from an importer to one target. -/
def registerOne (importer : Path) (g : Graph) (target : Path) : Graph :=
  if target.same importer then g
  else
    { g with
      importers := addTo g.importers target importer
      imports := addTo g.imports importer target }

/-- **Adds the edges from an importer to its targets.** No file depends on
itself. -/
def register (g : Graph) (importer : Path) (targets : List Path) : Graph :=
  targets.foldl (registerOne importer) g

/-- **Marks a file as seen**, and tells whether it was before. -/
def observe (g : Graph) (p : Path) : Observation × Graph :=
  if p.isIn g.seen then (.repeated, g) else (.first, { g with seen := g.seen ++ [p] })

/-- Whether a file has been seen. -/
def hasSeen (g : Graph) (p : Path) : Bool := p.isIn g.seen

/-- **Drops the edges from an importer.** What depends on it stays, and so
does its mark. -/
def removeOutgoing (g : Graph) (importer : Path) : Graph :=
  match PathMap.get? g.imports importer with
  | none => g
  | some targets =>
    { g with
      imports := PathMap.erase g.imports importer
      importers := targets.foldl (fun m t => removeFrom m t importer) g.importers }

/-- **The files that import a file directly**, in ascending order. -/
def dependents (g : Graph) (p : Path) : List Path :=
  Path.sort ((PathMap.get? g.importers p).getD [])

/-- The paths that are in neither list, each once. -/
def unvisited (visited : List Path) : List Path → List Path
  | [] => []
  | p :: ps => if p.isIn visited then unvisited visited ps else p :: unvisited (p :: visited) ps

/-- Walks on from the files in the queue, with at most `steps` of them.
`order` holds what was found, and `edited` the file that the walk started
from. -/
def walk (g : Graph) (edited : Path) : (steps : Nat) → (order queue : List Path) → List Path
  | 0, order, _ => order
  | _ + 1, order, [] => order
  | n + 1, order, current :: queue =>
    let found := unvisited (edited :: order) (g.dependents current)
    walk g edited n (order ++ found) (queue ++ found)

/-- **Everything that depends on a file**, directly or through others,
breadth first and each file once. Every file found imports something, so
there are no more steps than importing files and the one at the start. -/
def cascade (g : Graph) (edited : Path) : List Path :=
  walk g edited (g.imports.length + 1) [] [edited]

end Graph

end Stylebook
