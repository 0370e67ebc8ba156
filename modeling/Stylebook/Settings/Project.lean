import Stylebook.Recompile
import Stylebook.Settings.Load
import Stylebook.Store.Tree

/-!
# The settings of a project

The settings file of a project stands at its root. A project does not need
one. What the environment says counts more than the file.
-/

namespace Stylebook

namespace Settings

/-- The name of the settings file. -/
def fileName : String := "rncss.toml"

/-- The path of the settings file of a project. -/
def fileOf (root : Path) : Path := root.join ⟨fileName⟩

/-- **The settings of the project at a root**, with the warnings about its
settings file, or why that file cannot be used. -/
def ofProject (t : Tree) (root : Path) (env : Environment) :
    Except Failure (Settings × List Warning) :=
  if !t.isFile (fileOf root) then .ok (override {} env, [])
  else
    match t.readText (fileOf root) with
    | .error e => .error (.read (fileOf root) e.message)
    | .ok text =>
      match ofText text with
      | .error p => .error (.invalidConfig (fileOf root) (p.render text))
      | .ok (s, warnings) => .ok (s.override env, warnings)

/-- What stays the same while a project with these settings is compiled. -/
def project (s : Settings) (root : Path) : Project := ⟨s.layout root, s.defaultUnit⟩

end Settings

end Stylebook
