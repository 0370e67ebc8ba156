import Std.Time.Zoned
import Stylebook.CommandLine.Run

/-!
# The program

The program takes what it needs of the files into a `Tree`, carries out its
arguments on the tree, and brings what has changed back to the files. A
watch does so again and again, and finds out by itself what others have
changed in the meantime.

The tree holds everything below the project root but the directories that
are left out, what stylesheets import from elsewhere, and the modules that
are there already. An entry that cannot be read is not in the tree.
-/

namespace Stylebook.Program

open CommandLine (Arguments Context Output Run)

/-- The variables that the program asks the environment for. -/
def variableNames : List String :=
  ["TERM", "NO_COLOR", "RNCSS_CACHE_DIR", "RNCSS_DEFAULT_UNIT", "RNCSS_DEBOUNCE_MS"] ++
    Terminal.automationVariables ++ Terminal.localeVariables

/-- The environment of the program. -/
def environment : IO Environment :=
  variableNames.filterMapM fun name => do return (← IO.getEnv name).map (name, ·)

/-- A number of at least two digits. -/
def twoDigits (n : Nat) : String := if n < 10 then "0" ++ toString n else toString n

/-- The time of day. -/
def clock : IO String := do
  let time := (← Std.Time.PlainDateTime.now).time
  return Text.join ":"
    ([time.hour.val, time.minute.val, time.second.val].map fun n => twoDigits n.toNat)

/-- Writes texts to the outputs. -/
def emit (outputs : List Output) : IO Unit := do
  for o in outputs do
    match o with
    | .out s => IO.print s
    | .err s => IO.eprint s
  (← IO.getStdout).flush

/-- What kind of file there is under a name in a directory, if any. -/
def kindOf? (directory : Path) (name : String) : IO (Option IO.FS.FileType) := do
  let e : IO.FS.DirEntry := ⟨directory.text, name⟩
  try return some (← e.path.symlinkMetadata).type
  catch _ => return none

/-- The entry under a name in a directory, with all that `keep` does not
refuse. A link leads to the path that it really leads to. -/
partial def readEntry? (keep : Path → Bool) (directory : Path) (name : String) :
    IO (Option Entry) := do
  let p := directory.join ⟨name⟩
  try
    match ← kindOf? directory name with
    | some .file => return some (.file (← IO.FS.readBinFile p.text))
    | some .symlink => return some (.link (← IO.FS.realPath p.text).toString)
    | some .dir =>
      let names := (← (← IO.FS.realPath p.text).readDir).toList.map IO.FS.DirEntry.fileName
      let entries ← names.filterMapM fun n => do
        if keep (p.join ⟨n⟩) then return (← readEntry? keep p n).map (n, ·) else return none
      return some (.directory entries)
    | _ => return none
  catch _ => return none

/-- The paths on the way to a path, and the path itself. -/
def wayTo (p : Path) : List Path :=
  (List.range p.components.length).map fun n => Path.ofComponents (p.components.take (n + 1))

/-- Takes what is at a path into the tree, with the directories and links on
the way. Of a directory, only the directory itself is taken. -/
partial def load (t : Tree) (p : Path) : IO Tree :=
  (wayTo p).foldlM (fun t q => do
    if t.holds q then return t
    match q.parent?, q.components.getLast? with
    | some directory, some name =>
      match ← readEntry? (fun _ => false) directory name.text with
      | some (.link target) => return (← load t ⟨target⟩).place q (.link target)
      | some e => return t.place q e
      | none => return t
    | _, _ => return t) t

/-- Takes the files that stylesheets import into the tree, and what
those import. -/
partial def loadImports (t : Tree) (done : PathSet) : List Path → IO Tree
  | [] => return t
  | p :: ps => do
    if p.isIn done then loadImports t done ps
    else
      let t ← load t p
      let targets := match t.readText p with
        | .ok text => (importTargets text).map (importPath p)
        | .error _ => []
      loadImports t (done ++ [p]) (targets ++ ps)

/-- Takes the modules of stylesheets into the tree. -/
def loadModules (t : Tree) (layout : CacheLayout) (sources : List Path) : IO Tree :=
  sources.foldlM (fun t p => do
    match layout.artifact p with
    | .ok module => load t module
    | .error _ => return t) t

/-- Takes a project into the tree, with the modules of the stylesheets that
are there and of those that were known before. -/
def loadProject (t : Tree) (settings : Settings) (root : Path) (known : List Path) :
    IO Tree := do
  match t.canonical root with
  | .error _ => return t
  | .ok real =>
    match real.parent?, real.components.getLast? with
    | some directory, some name =>
      match ← readEntry? (fun p => !settings.isExcluded real p) directory name.text with
      | some e =>
        let t := t.place real e
        let sources := scanStylesheets t settings real
        let t ← loadImports t [] sources
        loadModules t (settings.layout real) (sources ++ known)
      | none => return t
    | _, _ => return t

/-- The tree that arguments are carried out on: the directory that the
program was started in, and the project. A session keeps its settings,
whatever the settings file says now. -/
def snapshot (env : Environment) (arguments : Arguments) (session : Option (Session Tree)) :
    IO Tree := do
  let here : Path := ⟨(← IO.currentDir).toString⟩
  let t ← load {} here
  let t := { t with current := (t.locate here).toOption.getD [] }
  let root := here.join (arguments.root.getD here)
  let t ← load (← load t root) (Settings.fileOf root)
  match session with
  | some s => loadProject t s.settings root (PathMap.keys s.seen ++ s.batcher.pending)
  | none => loadProject t (Context.ofArguments t env false arguments).1.settings root []

/-- Brings what has changed in the tree back to the files. A file is written
under another name first, so that nobody sees a part of it. -/
def store (before after : Tree) : IO Unit := do
  for (p, content) in before.filesNewIn after do
    if let some directory := p.parent? then IO.FS.createDirAll directory.text
    let draft := p.text ++ ".part"
    IO.FS.writeBinFile draft content
    IO.FS.rename draft p.text
  for p in before.filesGoneIn after do
    IO.FS.removeFile p.text

/-- Goes on with a watch. -/
partial def watch (env : Environment) (arguments : Arguments) (context : Context)
    (session : Session Tree) : IO UInt32 := do
  IO.sleep 50
  let t ← snapshot env arguments (some session)
  let now ← IO.monoMsNow
  let names := scanStylesheets t session.settings session.root ++ PathMap.keys session.seen
  let session := { session with store := t }.notify now ⟨.any, names⟩
  let time ← clock
  match session.poll now with
  | .ok (session, events) =>
    store t session.store
    emit (events.map (context.write time))
    watch env arguments context session
  | .error wreck =>
    store t wreck.store
    emit (wreck.events.map (context.write time))
    return Run.abortCode.toUInt32

end Stylebook.Program

open Stylebook CommandLine Program in
/-- The program. -/
def main (arguments : List String) : IO UInt32 := do
  let env ← environment
  let isTerminal ← (← IO.getStdout).isTty
  match Arguments.ofList arguments with
  | .error r =>
    emit r.output
    return r.exitCode.toUInt32
  | .ok a =>
    let t ← snapshot env a none
    let run := Run.ofArguments t env isTerminal (← clock) arguments
    match run.state with
    | .finished code done =>
      store t done
      emit run.output
      return code.toUInt32
    | .watching context session =>
      store t session.store
      emit run.output
      watch env a context session
    | .crashed _ left =>
      store t left
      emit run.output
      return Run.abortCode.toUInt32
